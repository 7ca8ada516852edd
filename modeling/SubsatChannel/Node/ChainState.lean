import SubsatChannel.Node.HeaderTree

/-! The unspent outputs as a replay of a branch, and connecting and disconnecting its top block. -/
namespace SubsatChannel

namespace UtxoSet
variable {B : Bitcoinx}

/-- The outpoints the transactions of a block spend. -/
def spentOf (B : Bitcoinx) (txs : List Tx) : List Outpoint := txs.flatMap (spentBy B)

theorem lookup_connect_of_not_created {txs : List Tx} {o : Outpoint}
    (h : o ∉ EmbeddedNode.createdOf B txs) (height : ℕ) (U : UtxoSet) :
    (U.connectBlockUtxos B height txs).lookup o =
      if o ∈ spentOf B txs then none else U.lookup o := by
  induction txs generalizing U with
  | nil => simp [connectBlockUtxos,spentOf]
  | cons tx txs ih =>
    simp only [EmbeddedNode.createdOf,List.flatMap_cons,List.mem_append,not_or] at h
    have hstep := ih h.2 (U.applyTx B height tx)
    rw [lookup_applyTx,if_neg h.1] at hstep
    change ((U.applyTx B height tx).connectBlockUtxos B height txs).lookup o = _
    rw [hstep]
    by_cases h1 : o ∈ spentBy B tx <;> simp [spentOf,h1]

/-- What is unspent after a block was created by it or unspent before. -/
theorem lookup_connect_some {txs : List Tx} {height : ℕ} {U : UtxoSet} {o : Outpoint} {e : UtxoEntry}
    (h : (U.connectBlockUtxos B height txs).lookup o = some e) :
    o ∈ EmbeddedNode.createdOf B txs ∨ U.lookup o = some e := by
  by_cases hc : o ∈ EmbeddedNode.createdOf B txs
  · exact .inl hc
  · rw [lookup_connect_of_not_created hc] at h
    split_ifs at h
    exact .inr h

theorem mem_createdOf {txs : List Tx} {o : Outpoint} (h : o ∈ EmbeddedNode.createdOf B txs) :
    o.1 ∈ txs.map B.txHash := by
  obtain ⟨tx,ht,ho⟩ := List.mem_flatMap.mp h
  exact List.mem_map.mpr ⟨tx,ht,(mem_createdBy.mp ho).1.symm⟩

theorem mem_undoOf {U : UtxoSet} {txs : List Tx} {o : Outpoint} {e : UtxoEntry} :
    (o,e) ∈ EmbeddedNode.undoOf B U txs ↔ o ∈ spentOf B txs ∧ U.lookup o = some e := by
  simp only [EmbeddedNode.undoOf,spentOf,List.mem_flatMap,List.mem_filterMap]
  constructor
  · rintro ⟨tx,ht,p,hp,he⟩
    obtain ⟨e',he',heq⟩ := Option.map_eq_some_iff.mp he
    cases heq
    exact ⟨⟨tx,ht,hp⟩,he'⟩
  · rintro ⟨⟨tx,ht,hp⟩,he⟩
    exact ⟨tx,ht,o,hp,by simp [he]⟩

theorem lookup_of_not_restored {U : UtxoSet} {txs : List Tx} {o : Outpoint} (hs : o ∈ spentOf B txs)
    (h : o ∉ (EmbeddedNode.undoOf B U txs).map Prod.fst) : U.lookup o = none := by
  cases hl : U.lookup o with
  | none => rfl
  | some e => exact absurd (List.mem_map.mpr ⟨(o,e),mem_undoOf.mpr ⟨hs,hl⟩,rfl⟩) h

/-- Writing back entries that all come from one set. -/
theorem lookup_foldl_restore {U : UtxoSet} (rows : List (Outpoint × UtxoEntry))
    (hrows : ∀ r ∈ rows, U.lookup r.1 = some r.2) (V : UtxoSet) (o : Outpoint) :
    (rows.foldl (fun (W : UtxoSet) r => W.insert r.1 r.2) V).lookup o =
      if o ∈ rows.map Prod.fst then U.lookup o else V.lookup o := by
  induction rows generalizing V with
  | nil => simp
  | cons r rows ih =>
    rw [List.foldl_cons,ih (fun s hs => hrows s (by simp [hs]))]
    by_cases h : o = r.1
    · subst h
      simp [hrows r (by simp)]
    · have hm : o ∈ (r :: rows).map Prod.fst ↔ o ∈ rows.map Prod.fst := by
        rw [List.map_cons,List.mem_cons]
        exact or_iff_right h
      rw [Finmap.lookup_insert_of_ne _ h]
      split_ifs with h1 h2 h2
      · rfl
      · exact absurd (hm.mpr h1) h2
      · exact absurd (hm.mp h2) h1
      · rfl

/-- An outpoint after a block was connected and its undo data written back: only an entry that the
block overwrites without spending it is lost. -/
theorem lookup_restore (U : UtxoSet) (height : ℕ) (txs : List Tx) (o : Outpoint) :
    ((EmbeddedNode.undoOf B U txs).foldl (fun (W : UtxoSet) r => W.insert r.1 r.2)
      ((U.connectBlockUtxos B height txs).eraseAll (EmbeddedNode.createdOf B txs))).lookup o =
        if o ∈ EmbeddedNode.createdOf B txs ∧ o ∉ spentOf B txs then none else U.lookup o := by
  rw [lookup_foldl_restore (U := U) _ (fun r hr => (mem_undoOf.mp hr).2),Finmap.lookup_eraseAll]
  split_ifs with hundo hlost hc hlost hlost
  · -- a restored outpoint is spent
    obtain ⟨⟨p,e⟩,hr,rfl⟩ := List.mem_map.mp hundo
    exact absurd (mem_undoOf.mp hr).1 hlost.2
  · rfl
  · rfl
  · -- a spent outpoint without an undo record was not in the set
    have hs : o ∈ spentOf B txs := not_not.mp fun hs => hlost ⟨hc,hs⟩
    exact (lookup_of_not_restored hs hundo).symm
  · exact absurd hlost.1 hc
  · rw [lookup_connect_of_not_created hc]
    split_ifs with hs
    · exact (lookup_of_not_restored hs hundo).symm
    · rfl

/-- Disconnecting a block gives back the set it was connected to, provided that no output it
creates was in the set. -/
theorem restore_connect (U : UtxoSet) (height : ℕ) (txs : List Tx)
    (hnew : ∀ o ∈ EmbeddedNode.createdOf B txs, U.lookup o = none) :
    (EmbeddedNode.undoOf B U txs).foldl (fun (W : UtxoSet) r => W.insert r.1 r.2)
      ((U.connectBlockUtxos B height txs).eraseAll (EmbeddedNode.createdOf B txs)) = U := by
  apply Finmap.ext_lookup
  intro o
  rw [lookup_restore]
  split_ifs with hlost
  · exact (hnew o hlost.1).symm
  · rfl

end UtxoSet

/-- The unspent outputs after the blocks of a branch, which is given tip first. Its blocks stand
at the heights 1, 2, and so on. -/
def replay (B : Bitcoinx) (txsOf : Bytes → List Tx) : List Bytes → UtxoSet
  | [] => ∅
  | h :: p => (replay B txsOf p).connectBlockUtxos B (p.length+1) (txsOf h)

/-- The txids of the blocks of a branch. -/
def branchTxids (B : Bitcoinx) (txsOf : Bytes → List Tx) (p : List Bytes) : List Bytes :=
  p.flatMap fun h => (txsOf h).map B.txHash

/-- The log of a branch: for each of its blocks what `f` makes of it and the branch below it. -/
def logAt {α : Type*} (f : List Bytes → Bytes → α) : List Bytes → Bytes → Option α
  | [], _ => none
  | h :: p, x => if x = h then some (f p h) else logAt f p x

theorem logAt_isSome {α : Type*} (f : List Bytes → Bytes → α) (p : List Bytes) (x : Bytes) :
    (logAt f p x).isSome ↔ x ∈ p := by
  induction p with
  | nil => simp [logAt]
  | cons h p ih =>
    simp only [logAt,List.mem_cons]
    split_ifs with hx <;> simp [hx,ih]

theorem logAt_of_not_mem {α : Type*} (f : List Bytes → Bytes → α) {p : List Bytes} {x : Bytes}
    (h : x ∉ p) : logAt f p x = none := by
  rw [← Option.not_isSome_iff_eq_none,logAt_isSome]
  exact h

/-- The node's unspent outputs, undo log and created log are those of a branch. -/
structure ChainState (B : Bitcoinx) (txsOf : Bytes → List Tx) (p : List Bytes) (n : EmbeddedNode) :
    Prop where
  utxos : n.utxos = replay B txsOf p
  undo : ∀ x, n.undoLog.lookup x =
    logAt (fun q h => EmbeddedNode.undoOf B (replay B txsOf q) (txsOf h)) p x
  created : ∀ x, n.createdLog.lookup x = logAt (fun _ h => EmbeddedNode.createdOf B (txsOf h)) p x

section
variable {B : Bitcoinx} {txsOf : Bytes → List Tx} {p : List Bytes} {n : EmbeddedNode} {h : Bytes}

theorem replay_origin {o : Outpoint} {e : UtxoEntry} (he : (replay B txsOf p).lookup o = some e) :
    o.1 ∈ branchTxids B txsOf p := by
  induction p with
  | nil => simp [replay] at he
  | cons h p ih =>
    rw [branchTxids,List.flatMap_cons,List.mem_append]
    rcases UtxoSet.lookup_connect_some he with hc | hold
    · exact .inl (UtxoSet.mem_createdOf hc)
    · exact .inr (ih hold)

/-- Connecting the next block of a branch. -/
theorem ChainState.connect (hc : ChainState B txsOf p n) :
    ChainState B txsOf (h :: p) (n.connected B h (p.length+1) (txsOf h)) where
  utxos := by
    have hu : (n.connected B h (p.length+1) (txsOf h)).utxos =
        n.utxos.connectBlockUtxos B (p.length+1) (txsOf h) := rfl
    rw [hu,hc.utxos,replay]
  undo x := by
    simp only [EmbeddedNode.connected,logAt]
    by_cases hx : x = h
    · rw [hx,Finmap.lookup_insert,if_pos rfl,hc.utxos]
    · rw [Finmap.lookup_insert_of_ne _ hx,if_neg hx,hc.undo]
  created x := by
    simp only [EmbeddedNode.connected,logAt]
    by_cases hx : x = h
    · rw [hx,Finmap.lookup_insert,if_pos rfl]
    · rw [Finmap.lookup_insert_of_ne _ hx,if_neg hx,hc.created]

theorem utxos_foldl_spend (os : List Outpoint) (s : BlockStore) :
    (os.foldl (fun (s : BlockStore) o => if (s.getUtxo o).isSome then (s.spendUtxo o).1 else s) s) =
      { s with utxos := s.utxos.eraseAll os } := by
  induction os generalizing s with
  | nil => rfl
  | cons o os ih =>
    rw [List.foldl_cons,ih]
    cases hl : s.utxos.lookup o with
    | none => simp [BlockStore.getUtxo,hl,Finmap.erase_of_lookup_none _ hl]
    | some e => simp [BlockStore.getUtxo,BlockStore.spendUtxo,hl]

theorem utxos_foldl_add (rows : List (Outpoint × UtxoEntry)) (s : BlockStore) :
    rows.foldl (fun s r => s.addUtxo r.1 r.2) s =
      { s with utxos := rows.foldl (fun (W : UtxoSet) r => W.insert r.1 r.2) s.utxos } := by
  induction rows generalizing s with
  | nil => rfl
  | cons r rows ih => rw [List.foldl_cons,ih]; rfl

/-- Disconnecting touches neither the stored blocks nor the headers nor the mempool. -/
theorem disconnectBlock_frame (n : EmbeddedNode) (h : Bytes) :
    (n.disconnectBlock h).blockstore.blocks = n.blockstore.blocks ∧
    (n.disconnectBlock h).headers = n.headers ∧ (n.disconnectBlock h).mempool = n.mempool ∧
    (n.disconnectBlock h).genesis = n.genesis ∧
    (n.disconnectBlock h).coinbaseReward = n.coinbaseReward := by
  refine ⟨?_,rfl,rfl,rfl,rfl⟩
  simp only [EmbeddedNode.disconnectBlock,utxos_foldl_spend,utxos_foldl_add]

/-- Disconnecting the top block of a branch without repeated txids. -/
theorem ChainState.disconnect (hc : ChainState B txsOf (h :: p) n)
    (hd : (branchTxids B txsOf (h :: p)).Nodup) (hh : h ∉ p) :
    ChainState B txsOf p (n.disconnectBlock h) where
  utxos := by
    have hnew : ∀ o ∈ EmbeddedNode.createdOf B (txsOf h), (replay B txsOf p).lookup o = none := by
      intro o ho
      rw [branchTxids,List.flatMap_cons] at hd
      cases hl : (replay B txsOf p).lookup o with
      | none => rfl
      | some e =>
        exact absurd (replay_origin hl) (List.disjoint_of_nodup_append hd (UtxoSet.mem_createdOf ho))
    have hu := hc.undo h
    have hcr := hc.created h
    simp only [logAt,if_true] at hu hcr
    have hutx : n.blockstore.utxos = replay B txsOf (h :: p) := hc.utxos
    simp only [EmbeddedNode.utxos,EmbeddedNode.disconnectBlock,utxos_foldl_spend,utxos_foldl_add,
      hu,hcr,Option.getD_some,hutx]
    exact UtxoSet.restore_connect _ _ _ hnew
  undo x := by
    simp only [EmbeddedNode.disconnectBlock]
    by_cases hx : x = h
    · rw [hx,Finmap.lookup_erase,logAt_of_not_mem _ hh]
    · rw [Finmap.lookup_erase_ne hx,hc.undo,logAt,if_neg hx]
  created x := by
    simp only [EmbeddedNode.disconnectBlock]
    by_cases hx : x = h
    · rw [hx,Finmap.lookup_erase,logAt_of_not_mem _ hh]
    · rw [Finmap.lookup_erase_ne hx,hc.created,logAt,if_neg hx]

end
end SubsatChannel
