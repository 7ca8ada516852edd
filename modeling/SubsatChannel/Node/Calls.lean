import SubsatChannel.Node.Network
import SubsatChannel.Watchtower.Reactions

/-! What each call on a node does, one lemma for each call. -/
namespace SubsatChannel

/-- Connecting a header to a store whose tip is stored: a `HeaderError` changes nothing, a known
header is answered from the store, a new one is inserted below its parent. -/
theorem HeaderStore.connect_cases (B : Bitcoinx) (hs : HeaderStore) (raw : Bytes) {tip : Header}
    (ht : hs.tip = some tip) :
    (∃ e, e.kind = .headerError ∧ hs.connect B raw = (hs,.error e) ∧
      (ValidHeader B raw → hs.lookup (rawPrevHash raw) = none)) ∨
    (raw.length = headerSize ∧ ∃ known, hs.lookup (headerHash B raw) = some known ∧
      hs.connect B raw = (hs,.ok known)) ∨
    (ValidHeader B raw ∧ hs.lookup (headerHash B raw) = none ∧
      ∃ parent new, hs.lookup (rawPrevHash raw) = some parent ∧
      new = ⟨raw,parent.height+1,parent.cumulativeWork + workForBits (rawBits raw)⟩ ∧
      hs.connect B raw = (⟨hs.byHash.insert (headerHash B raw) new,
        if tip.cumulativeWork < new.cumulativeWork then headerHash B raw else hs.tipHash⟩,.ok new)) := by
  unfold HeaderStore.connect
  split_ifs with hlen
  · exact .inl ⟨_,rfl,rfl,fun h => absurd h.length hlen⟩
  · cases hk : hs.lookup (headerHash B raw) with
    | some known => exact .inr (.inl ⟨not_not.mp hlen,known,rfl,by simp only [hk]⟩)
    | none =>
      cases hp : hs.lookup (rawPrevHash raw) with
      | none => simp only [hk]; exact .inl ⟨_,rfl,rfl,fun _ => trivial⟩
      | some parent =>
        simp only [hk]
        split_ifs with h1 h2
        · exact .inl ⟨_,rfl,rfl,fun h => absurd h.target (by omega)⟩
        · exact .inl ⟨_,rfl,rfl,fun h => absurd h.pow (by omega)⟩
        · refine .inr (.inr ⟨⟨not_not.mp hlen,by omega,by omega⟩,trivial,parent,_,rfl,rfl,?_⟩)
          have hne : hs.tipHash ≠ headerHash B raw := by
            intro he
            rw [HeaderStore.tip,he,hk] at ht
            cases ht
          have hgrown : (HeaderStore.mk (hs.byHash.insert (headerHash B raw)
              ⟨raw,parent.height+1,parent.cumulativeWork + workForBits (rawBits raw)⟩)
              hs.tipHash).tip = some tip := by
            rw [← ht]
            exact Finmap.lookup_insert_of_ne _ hne
          simp only [hgrown]
          split_ifs <;> rfl

/-- The transactions of a block that was mined. -/
def minedTxs : NodeAnswer → List Tx
  | .mined (.ok (_,txs)) => txs
  | _ => []

theorem minedTxs_ne_nil {a : NodeAnswer} (h : minedTxs a ≠ []) :
    ∃ hash, a = .mined (.ok (hash,minedTxs a)) := by
  cases a with
  | mined r =>
    cases r with
    | error e => exact absurd rfl h
    | ok p => exact ⟨p.1,rfl⟩
  | _ => exact absurd rfl h

namespace EmbeddedNode
variable (B : Bitcoinx) (depth : ℕ) (n : EmbeddedNode)

theorem evictAll_eq (txids : List Bytes) :
    evictAll B depth txids n = some { n with mempool := n.mempool.dropAll txids } := by
  induction txids generalizing n with
  | nil => rfl
  | cons txid txids ih =>
    simp only [evictAll,Mempool.evict_eq,ih]
    rfl

/-- The node after a header has been connected and its block stored. -/
def storing (hs : HeaderStore) (h : Bytes) (height : ℕ) (rawBlock : Bytes) : EmbeddedNode :=
  { n with
    headers := hs
    blockstore := n.blockstore.storeBlock h height rawBlock }

/-- The node after a block has been stored and connected and its transactions were evicted. -/
def extended (hs : HeaderStore) (h : Bytes) (height : ℕ) (rawBlock : Bytes) (txs : List Tx)
    (mined : List Bytes) : EmbeddedNode :=
  { (n.storing hs h height rawBlock).connected B h height txs with
    mempool := n.mempool.dropAll mined }

theorem submitTx_cases (tx : Tx) :
    n.call B depth (.submitTx tx) = (n,.tooDeep) ∨
    ∃ m r, n.mempool.admitTx B (Tower.observe B) n.utxos depth tx = some (m,r) ∧
      n.call B depth (.submitTx tx) = ({ n with mempool := m },.admission r) := by
  simp only [call,submitTx]
  cases h : n.mempool.admitTx B (Tower.observe B) n.utxos depth tx with
  | none => exact .inl rfl
  | some p => exact .inr ⟨p.1,p.2,rfl,rfl⟩

/-- A transaction that may enter the mempool while `tx` is submitted: `tx` itself, or a state that
one of the attached towers holds. -/
def MayEnter (B : Bitcoinx) (n : EmbeddedNode) (tx t : Tx) : Prop :=
  t = tx ∨ Held B (registries n.mempool) t

/-- Without towers nothing enters but the submitted transaction. -/
theorem MayEnter.eq {B : Bitcoinx} {n : EmbeddedNode} {tx t : Tx} (h : MayEnter B n tx t)
    (ho : n.mempool.observers.isEmpty = true) : t = tx := by
  rcases h with rfl | ⟨reg,hreg,_⟩
  · rfl
  · rw [registries,List.isEmpty_iff.mp ho] at hreg
    cases hreg

/-- A submission leaves only old entries and transactions that entered and validate. -/
theorem submitTx_entries {B : Bitcoinx} {depth : ℕ} (n : EmbeddedNode) {tx : Tx} {m : Mempool Tower}
    {r : Except Fault ValidationResult} (hc : n.mempool.Consistent B)
    (hm : n.mempool.admitTx B (Tower.observe B) n.utxos depth tx = some (m,r)) :
    m.Consistent B ∧ ∀ t ∈ m.allTxs, t ∈ n.mempool.allTxs ∨
      (MayEnter B n tx t ∧ (validateTx B t n.utxos).ok = true) := by
  have hsteps := admit_steps (T := MayEnter B n tx) depth _ _ _ _ hc (.inl rfl)
    (fun t ht => .inr ht) hm
  refine ⟨hsteps.consistent hc,fun t ht => ?_⟩
  obtain ⟨txid,e,he,rfl⟩ := Mempool.mem_allTxs.mp ht
  rcases hsteps.entry he with hold | ⟨hmay,hok,_⟩
  · exact .inl (Mempool.mem_allTxs.mpr ⟨txid,e,hold,rfl⟩)
  · exact .inr ⟨hmay,hok⟩

/-- The transactions of an assembled block: a coinbase, then nothing or the whole mempool. -/
theorem assembleBlock_txs {script : Script} {incl : Bool} {extra : Bytes} {timestamp : ℕ}
    {raw : Bytes} {txs : List Tx}
    (h : n.assembleBlock B script incl extra timestamp = .ok (raw,txs)) :
    ∃ tip fees, n.headers.tip = some tip ∧
      fees = ((if incl then n.mempool.allTxs else []).map fun tx =>
        if (validateTx B tx n.utxos).ok then (validateTx B tx n.utxos).fee else 0).sum ∧
      txs = makeCoinbase (n.coinbaseReward + fees) script (tip.height+1) extra ::
        (if incl then n.mempool.allTxs else []) ∧
      mineHeader B (tip.hash B) (merkleRoot B (txs.map B.txHash)) timestamp = .ok raw := by
  unfold assembleBlock at h
  cases ht : n.headers.tip with
  | none => simp [ht] at h
  | some tip =>
    generalize hinc : (if incl then n.mempool.allTxs else []) = included at h ⊢
    simp only [ht] at h
    split_ifs at h
    split at h
    · cases h
    · rename_i raw' hm
      cases h
      exact ⟨tip,_,rfl,rfl,rfl,hm⟩

/-- An assembled block can be connected. -/
theorem assembleBlock_regular {script : Script} {incl : Bool} {extra : Bytes} {timestamp : ℕ}
    {raw : Bytes} {txs : List Tx}
    (h : n.assembleBlock B script incl extra timestamp = .ok (raw,txs)) : ∀ tx ∈ txs, tx.Regular B := by
  unfold assembleBlock at h
  cases ht : n.headers.tip with
  | none => simp [ht] at h
  | some tip =>
    generalize (if incl then n.mempool.allTxs else []) = included at h
    simp only [ht] at h
    split_ifs at h with hempty hpacks
    split at h
    · cases h
    · cases h
      refine fun tx htx => ⟨List.all_eq_true.mp hpacks tx htx,?_⟩
      rcases List.mem_cons.mp htx with rfl | hin
      · simp [makeCoinbase]
      · intro hnil
        exact hempty (List.any_eq_true.mpr ⟨tx,hin,by rw [hnil]; rfl⟩)

/-- Every answer of `generate_block`: an exception while the block is put together, while its
header is connected or while it is serialised, or the mined block. -/
theorem generateBlock_cases (script : Script) (incl : Bool) (extra : Bytes) (timestamp : ℕ) :
    (∃ e, n.assembleBlock B script incl extra timestamp = .error e ∧
      n.call B depth (.generateBlock script incl extra timestamp) = (n,.mined (.error e))) ∨
    ∃ raw txs, n.assembleBlock B script incl extra timestamp = .ok (raw,txs) ∧
      ((∃ hs e, n.headers.connect B raw = (hs,.error e) ∧
        n.call B depth (.generateBlock script incl extra timestamp) =
          ({ n with headers := hs },.mined (.error e))) ∨
      ∃ hs hd, n.headers.connect B raw = (hs,.ok hd) ∧
        ((∃ e, serialiseBlock B raw txs = .error e ∧
          n.call B depth (.generateBlock script incl extra timestamp) =
            ({ n with headers := hs },.mined (.error e))) ∨
        ∃ rawBlock, serialiseBlock B raw txs = .ok rawBlock ∧
          n.call B depth (.generateBlock script incl extra timestamp) =
            (n.extended B hs (headerHash B raw) (n.height+1) rawBlock txs (txs.tail.map B.txHash),
              .mined (.ok (headerHash B raw,txs))))) := by
  simp only [call,generateBlock]
  cases ha : n.assembleBlock B script incl extra timestamp with
  | error e => exact .inl ⟨e,rfl,rfl⟩
  | ok p =>
    obtain ⟨raw,txs⟩ := p
    refine .inr ⟨raw,txs,rfl,?_⟩
    rcases hc : n.headers.connect B raw with ⟨hs,r⟩
    cases r with
    | error e => exact .inl ⟨hs,e,rfl,by simp only [hc]⟩
    | ok hd =>
      refine .inr ⟨hs,hd,rfl,?_⟩
      cases hser : serialiseBlock B raw txs with
      | error e => exact .inl ⟨e,rfl,by simp only [hc,hser]⟩
      | ok rawBlock =>
        refine .inr ⟨rawBlock,rfl,?_⟩
        simp only [hc,hser,connectBlockWithUndo_of_regular (n.assembleBlock_regular B ha),evictAll_eq]
        rfl

/-- Every answer of `accept_block`: an exception while the header is connected or the block is
serialised, a reorganisation, an exception on a transaction of an extension of the active chain, the
extension, or a block stored off it. -/
theorem acceptBlock_cases (raw : Bytes) (txs : List Tx) :
    (∃ hs e, n.headers.connect B raw = (hs,.error e) ∧
      n.call B depth (.acceptBlock raw txs) = ({ n with headers := hs },.accepted (.error e))) ∨
    ∃ hs hd₀, n.headers.connect B raw = (hs,.ok hd₀) ∧
      ((hs.lookup (headerHash B raw) = none ∧ n.call B depth (.acceptBlock raw txs) =
        ({ n with headers := hs },.accepted (.error ⟨.attributeError,""⟩))) ∨
      ∃ hd, hs.lookup (headerHash B raw) = some hd ∧
        ((∃ e, serialiseBlock B raw txs = .error e ∧ n.call B depth (.acceptBlock raw txs) =
          ({ n with headers := hs },.accepted (.error e))) ∨
        ∃ rawBlock, serialiseBlock B raw txs = .ok rawBlock ∧
          ((hs.tipHash = headerHash B raw ∧ n.headers.tipHash ≠ hd.prevHash ∧
            ∀ n' r, (n.storing hs (headerHash B raw) hd.height rawBlock).reorgUtxos B depth
              n.headers.tipHash hs.tipHash = some (n',r) →
              n.call B depth (.acceptBlock raw txs) = (n',.accepted r)) ∨
          (hs.tipHash = headerHash B raw ∧ n.headers.tipHash = hd.prevHash ∧
            ∃ e, txs.findSome? (Tx.fault B) = some e ∧ n.call B depth (.acceptBlock raw txs) =
              (n.storing hs (headerHash B raw) hd.height rawBlock,.accepted (.error e))) ∨
          (hs.tipHash = headerHash B raw ∧ n.headers.tipHash = hd.prevHash ∧ (∀ tx ∈ txs, tx.Regular B) ∧
            n.call B depth (.acceptBlock raw txs) = (n.extended B hs (headerHash B raw) hd.height
              rawBlock txs (txs.map B.txHash),.accepted (.ok ()))) ∨
          (hs.tipHash ≠ headerHash B raw ∧ n.call B depth (.acceptBlock raw txs) =
            (n.storing hs (headerHash B raw) hd.height rawBlock,.accepted (.ok ())))))) := by
  simp only [call,acceptBlock]
  rcases hc : n.headers.connect B raw with ⟨hs,r⟩
  cases r with
  | error e => exact .inl ⟨hs,e,rfl,rfl⟩
  | ok hd₀ =>
    refine .inr ⟨hs,hd₀,rfl,?_⟩
    cases hl : hs.lookup (headerHash B raw) with
    | none => exact .inl ⟨rfl,by simp only [hl]⟩
    | some hd =>
      refine .inr ⟨hd,rfl,?_⟩
      cases hser : serialiseBlock B raw txs with
      | error e => exact .inl ⟨e,rfl,by simp only [hl]⟩
      | ok rawBlock =>
        refine .inr ⟨rawBlock,rfl,?_⟩
        simp only [hl]
        by_cases ht : hs.tipHash = headerHash B raw
        · by_cases hp : n.headers.tipHash = hd.prevHash
          · rw [if_neg (fun h => h.2 hp),if_pos ht]
            cases hf : txs.findSome? (Tx.fault B) with
            | some e =>
              refine .inr (.inl ⟨ht,hp,e,rfl,?_⟩)
              simp only [connectBlockWithUndo,hf]
              rfl
            | none =>
              have hregular := findSome?_fault_eq_none.mp hf
              refine .inr (.inr (.inl ⟨ht,hp,hregular,?_⟩))
              simp only [connectBlockWithUndo_of_regular hregular,evictAll_eq]
              rfl
          · refine .inl ⟨ht,hp,fun n' r hr => ?_⟩
            rw [if_pos ⟨ht,hp⟩]
            simp only [storing] at hr
            rw [hr]
        · refine .inr (.inr (.inr ⟨ht,?_⟩))
          rw [if_neg (fun h => ht h.1),if_neg ht]
          rfl

/-- Only `generate_block` answers with a block, and the block is the assembled one. -/
theorem mined_cases {B : Bitcoinx} {depth : ℕ} {n : EmbeddedNode} {c : NodeCall} {hash : Bytes}
    {txs : List Tx} (h : (n.call B depth c).2 = .mined (.ok (hash,txs))) :
    ∃ script incl extra timestamp raw, c = .generateBlock script incl extra timestamp ∧
      n.assembleBlock B script incl extra timestamp = .ok (raw,txs) := by
  cases c with
  | submitTx tx =>
    rcases n.submitTx_cases B depth tx with he | ⟨m,r,_,he⟩ <;> rw [he] at h <;> cases h
  | generateBlock script incl extra timestamp =>
    rcases n.generateBlock_cases B depth script incl extra timestamp with
      ⟨e,_,he⟩ | ⟨raw,txs',ha,⟨hs,e,_,he⟩ | ⟨hs,hd,_,⟨e,_,he⟩ | ⟨rawBlock,_,he⟩⟩⟩ <;>
      rw [he] at h <;> cases h
    exact ⟨script,incl,extra,timestamp,raw,rfl,ha⟩
  | acceptBlock raw txs' =>
    simp only [call] at h
    split at h <;> cases h

end EmbeddedNode
end SubsatChannel
