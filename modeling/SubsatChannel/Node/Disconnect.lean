import SubsatChannel.Node.ChainState
import SubsatChannel.Reference

/-! Connecting a block and disconnecting it again, by the node's logs and by the block store. -/
namespace SubsatChannel

/-- `disconnect_block_utxos`: delete the outputs of the block's transactions, then write back the
entries that its inputs consumed. -/
def BlockStore.disconnectBlockUtxos (B : Bitcoinx) (s : BlockStore) (txs : List Tx)
    (spentInputs : Dict Outpoint UtxoEntry) : BlockStore :=
  let deleted := txs.foldl (fun (U : UtxoSet) tx => U.eraseAll (UtxoSet.createdBy B tx)) s.utxos
  { s with utxos := spentInputs.items.foldl (fun (U : UtxoSet) r => U.insert r.1 r.2) deleted }

/-- The recorded undo entries as a dictionary by outpoint. -/
def spentInputsOf (rows : List (Outpoint × UtxoEntry)) : Dict Outpoint UtxoEntry :=
  rows.foldl (fun d r => d.set r.1 r.2) ∅

namespace EmbeddedNode

/-- A connected block is disconnected again. -/
def reverted (B : Bitcoinx) (n : EmbeddedNode) (hash : Bytes) (height : ℕ) (txs : List Tx) :
    Except Fault EmbeddedNode :=
  (n.connectBlockWithUndo B hash height txs).map fun connected => connected.disconnectBlock hash

/-- A block is connected and `disconnect_block_utxos` is called with the undo entries that were
recorded. -/
def storeReverted (B : Bitcoinx) (n : EmbeddedNode) (hash : Bytes) (height : ℕ) (txs : List Tx) :
    Except Fault BlockStore :=
  (n.connectBlockWithUndo B hash height txs).map fun connected =>
    connected.blockstore.disconnectBlockUtxos B txs
      (spentInputsOf ((connected.undoLog.lookup hash).getD []))

/-- A block can be connected and disconnected and nothing is left of it, and the block store's own way to
disconnect it gives the same unspent outputs. -/
structure Undone (B : Bitcoinx) (n : EmbeddedNode) (hash : Bytes) (height : ℕ) (txs : List Tx) :
    Prop where
  node : ∃ n', n.reverted B hash height txs = .ok n' ∧ n'.utxos = n.utxos ∧
    n'.undoLog.lookup hash = none ∧ n'.createdLog.lookup hash = none
  store : ∃ s, n.storeReverted B hash height txs = .ok s ∧ s.utxos = n.utxos

section Revert
variable {B : Bitcoinx} (n : EmbeddedNode) (hash : Bytes) (height : ℕ) (txs : List Tx)

/-- Connecting and disconnecting a block returns exactly when all its transactions are regular. -/
theorem reverted_eq_ok {n' : EmbeddedNode} : n.reverted B hash height txs = .ok n' ↔
    (∀ tx ∈ txs, tx.Regular B) ∧ n' = (n.connected B hash height txs).disconnectBlock hash := by
  constructor
  · intro h
    cases hc : n.connectBlockWithUndo B hash height txs with
    | error e =>
      rw [reverted,hc] at h
      cases h
    | ok connected =>
      obtain ⟨hregular,rfl⟩ := connectBlockWithUndo_eq_ok.mp hc
      rw [reverted,hc] at h
      cases h
      exact ⟨hregular,rfl⟩
  · rintro ⟨hregular,rfl⟩
    rw [reverted,connectBlockWithUndo_of_regular hregular]
    rfl

theorem utxos_reverted : ((n.connected B hash height txs).disconnectBlock hash).utxos =
    (undoOf B n.utxos txs).foldl (fun (U : UtxoSet) r => U.insert r.1 r.2)
      ((n.utxos.connectBlockUtxos B height txs).eraseAll (createdOf B txs)) := by
  simp only [disconnectBlock,connected,utxos,Finmap.lookup_insert,Option.getD_some,utxos_foldl_spend,
    utxos_foldl_add]
  rfl

theorem lookup_reverted (o : Outpoint) :
    ((n.connected B hash height txs).disconnectBlock hash).utxos.lookup o =
      if o ∈ createdOf B txs ∧ o ∉ UtxoSet.spentOf B txs then none else n.utxos.lookup o := by
  rw [utxos_reverted,UtxoSet.lookup_restore]

/-- The dictionary of the undo entries holds what was recorded. -/
theorem get?_spentInputsOf {U : UtxoSet} {rows : List (Outpoint × UtxoEntry)}
    (hrows : ∀ r ∈ rows,U.lookup r.1 = some r.2) (o : Outpoint) :
    (spentInputsOf rows).get? o = if o ∈ rows.map Prod.fst then U.lookup o else none := by
  have hfold : ∀ d : Dict Outpoint UtxoEntry,(rows.foldl (fun d r => d.set r.1 r.2) d).get? o =
      if o ∈ rows.map Prod.fst then U.lookup o else d.get? o := by
    induction rows with
    | nil => simp
    | cons r rows ih =>
      intro d
      have hrest := ih (fun s hs => hrows s (List.mem_cons_of_mem _ hs)) (d.set r.1 r.2)
      rw [List.foldl_cons,hrest,Dict.get?_set,List.map_cons]
      by_cases ho : r.1 = o
      · subst ho
        simp [hrows r List.mem_cons_self]
      · have hm : o ∈ r.1 :: rows.map Prod.fst ↔ o ∈ rows.map Prod.fst := by
          rw [List.mem_cons]
          exact or_iff_right (Ne.symm ho)
        simp only [hm,if_neg ho]
  exact hfold ∅

theorem foldl_eraseAll (f : Tx → List Outpoint) (txs : List Tx) (U : UtxoSet) :
    txs.foldl (fun (U : UtxoSet) tx => U.eraseAll (f tx)) U = U.eraseAll (txs.flatMap f) := by
  induction txs generalizing U with
  | nil => rfl
  | cons tx txs ih =>
    rw [List.foldl_cons,ih,List.flatMap_cons,Finmap.eraseAll,Finmap.eraseAll,Finmap.eraseAll,
      List.foldl_append]

/-- Both ways to disconnect a block give the same unspent outputs. -/
theorem storeReverted_eq (hregular : ∀ tx ∈ txs, tx.Regular B) :
    ∃ s, n.storeReverted B hash height txs = .ok s ∧
      s.utxos = ((n.connected B hash height txs).disconnectBlock hash).utxos := by
  have hrows : ∀ r ∈ undoOf B n.utxos txs,n.utxos.lookup r.1 = some r.2 :=
    fun r hr => (UtxoSet.mem_undoOf.mp hr).2
  have hkeys : ∀ o,o ∈ (spentInputsOf (undoOf B n.utxos txs)).items.map Prod.fst ↔
      o ∈ (undoOf B n.utxos txs).map Prod.fst := by
    intro o
    rw [← not_iff_not,← Dict.get?_eq_none_iff,get?_spentInputsOf hrows]
    split_ifs with ho
    · obtain ⟨r,hr,rfl⟩ := List.mem_map.mp ho
      simp [hrows r hr,ho]
    · simp [ho]
  have hitems : ∀ r ∈ (spentInputsOf (undoOf B n.utxos txs)).items,n.utxos.lookup r.1 = some r.2 := by
    rintro ⟨o,e⟩ hr
    have hget := Dict.mem_items_iff.mp hr
    rw [get?_spentInputsOf hrows,if_pos ((hkeys o).mp (List.mem_map_of_mem hr))] at hget
    exact hget
  have hstore : ((n.connected B hash height txs).blockstore.disconnectBlockUtxos B txs
      (spentInputsOf (((n.connected B hash height txs).undoLog.lookup hash).getD []))).utxos =
      (spentInputsOf (undoOf B n.utxos txs)).items.foldl (fun (U : UtxoSet) r => U.insert r.1 r.2)
        ((n.utxos.connectBlockUtxos B height txs).eraseAll (createdOf B txs)) := by
    simp only [BlockStore.disconnectBlockUtxos,connected,Finmap.lookup_insert,Option.getD_some,
      foldl_eraseAll]
    rfl
  refine ⟨_,by rw [storeReverted,connectBlockWithUndo_of_regular hregular]; rfl,?_⟩
  apply Finmap.ext_lookup
  intro o
  rw [hstore,utxos_reverted,UtxoSet.lookup_foldl_restore _ hitems,
    UtxoSet.lookup_foldl_restore _ hrows]
  simp only [hkeys]

end Revert
end EmbeddedNode

open EmbeddedNode in
/-- Disconnecting a block undoes connecting it exactly when `hash()` and `is_coinbase()` return on its
transactions and every output it creates that was already unspent is also spent by it. -/
theorem disconnect_undoes_connect_iff (B : Bitcoinx) (n : EmbeddedNode) (hash : Bytes) (height : ℕ)
    (txs : List Tx) : Undone B n hash height txs ↔ (∀ tx ∈ txs, tx.Regular B) ∧
      ∀ o ∈ createdOf B txs,o ∈ n.utxos → o ∈ UtxoSet.spentOf B txs := by
  have hrestored : ((n.connected B hash height txs).disconnectBlock hash).utxos = n.utxos ↔
      ∀ o ∈ createdOf B txs,o ∈ n.utxos → o ∈ UtxoSet.spentOf B txs := by
    constructor
    · intro h o hc hU
      by_contra hs
      have hnone := @lookup_reverted B n hash height txs o
      rw [h,if_pos ⟨hc,hs⟩] at hnone
      exact Finmap.lookup_eq_none.mp hnone hU
    · intro h
      apply Finmap.ext_lookup
      intro o
      rw [lookup_reverted]
      split_ifs with hlost
      · exact (Finmap.lookup_eq_none.mpr fun hU => hlost.2 (h o hlost.1 hU)).symm
      · rfl
  rw [← hrestored]
  constructor
  · rintro ⟨⟨n',hn,hutxos,_,_⟩,_⟩
    obtain ⟨hregular,rfl⟩ := (reverted_eq_ok n hash height txs).mp hn
    exact ⟨hregular,hutxos⟩
  · rintro ⟨hregular,h⟩
    obtain ⟨s,hs,hstore⟩ := storeReverted_eq n hash height txs hregular
    exact ⟨⟨_,(reverted_eq_ok n hash height txs).mpr ⟨hregular,rfl⟩,h,Finmap.lookup_erase _ _,
      Finmap.lookup_erase _ _⟩,s,hs,hstore.trans h⟩

namespace Reference

/-- A node whose only unspent output is that of the first coinbase. -/
def onceMined : EmbeddedNode :=
  (sampleNode anyone []).connected (reference anyone) (List.replicate 32 1) 1 [firstCoinbase]

/-- The output of the first coinbase. -/
def firstOutput : Outpoint := ((reference anyone).txHash firstCoinbase,0)

end Reference

open Reference in
/-- A second block with the same coinbase overwrites its output, and disconnecting it deletes the
output of the first block. -/
theorem repeated_coinbase_lost :
    (sampleNode anyone []).connectBlockWithUndo (reference anyone) (List.replicate 32 1) 1
      [firstCoinbase] = .ok onceMined ∧
    onceMined.utxos.lookup firstOutput = some ⟨5000,trueScript,1⟩ ∧
    (∃ n', onceMined.reverted (reference anyone) (List.replicate 32 2) 2 [firstCoinbase] = .ok n' ∧
      n'.utxos.lookup firstOutput = none) ∧
    ¬ EmbeddedNode.Undone (reference anyone) onceMined (List.replicate 32 2) 2 [firstCoinbase] := by
  have hbefore : onceMined.utxos.lookup firstOutput = some ⟨5000,trueScript,1⟩ := by
    decide +kernel
  have hregular : ∀ tx ∈ [firstCoinbase], tx.Regular (reference anyone) := by decide +kernel
  have hrun := (EmbeddedNode.reverted_eq_ok onceMined (List.replicate 32 2) 2 [firstCoinbase]).mpr
    ⟨hregular,rfl⟩
  have hafter : ((onceMined.connected (reference anyone) (List.replicate 32 2) 2
      [firstCoinbase]).disconnectBlock (List.replicate 32 2)).utxos.lookup firstOutput = none := by
    decide +kernel
  refine ⟨EmbeddedNode.connectBlockWithUndo_of_regular hregular,hbefore,⟨_,hrun,hafter⟩,fun h => ?_⟩
  obtain ⟨n',hn,hutxos,_⟩ := h.node
  rw [← ((EmbeddedNode.reverted_eq_ok _ _ _ _).mp hn).2,hutxos,hbefore] at hafter
  cases hafter

end SubsatChannel
