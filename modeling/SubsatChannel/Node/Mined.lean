import Mathlib
import SubsatChannel.Node.ChainState

/-! Runs of submissions and locally mined blocks: every unspent output was made by a mined
transaction, and a transaction that pays somebody something is mined once. -/
namespace SubsatChannel

/-- The transaction pays somebody something. -/
def Tx.Rich (t : Tx) : Prop := ∃ out ∈ t.outputs, out.value ≠ 0

/-- Every unspent output was made by a transaction of the set. -/
def Originates (B : Bitcoinx) (M : Set Tx) (U : UtxoSet) : Prop :=
  ∀ o e, U.lookup o = some e → ∃ t ∈ M, B.txHash t = o.1 ∧ t.outputs[o.2]? = some e.asTxOutput

/-- A mined transaction that cannot be mined again: it is the coinbase of a height already reached,
or an output it spends is gone that was made by a mined transaction which pays something. -/
def Sealed (B : Bitcoinx) (M : Set Tx) (U : UtxoSet) (height : ℕ) (t : Tx) : Prop :=
  (B.isCoinbase t = true ∧
    ∃ value script h extra, h ≤ height ∧ t = makeCoinbase value script h extra) ∨
  (B.isCoinbase t = false ∧ ∃ o ∈ t.outpoints, U.lookup o = none ∧
    ∃ s ∈ M, s.Rich ∧ B.txHash s = o.1)

section Coinbase

theorem decode_append_zero (bs : Bytes) : LittleEndian.decode (bs ++ [0]) = LittleEndian.decode bs := by
  induction bs with
  | nil => rfl
  | cons b bs ih => simp [LittleEndian.decode,ih]

theorem decode_heightBytes (height : ℕ) : LittleEndian.decode (heightBytes height) = height := by
  unfold heightBytes
  split_ifs with h0
  · subst h0; rfl
  · simp only
    split_ifs
    · rw [decode_append_zero,LittleEndian.decode_minimal]
    · exact LittleEndian.decode_minimal height

/-- Coinbases of different heights are different. -/
theorem makeCoinbase_height {v w : ℤ} {s t : Script} {h k : ℕ} {x y : Bytes}
    (he : makeCoinbase v s h x = makeCoinbase w t k y) : h = k := by
  have hb : heightBytes h = heightBytes k := by
    simp only [makeCoinbase,Tx.mk.injEq,List.cons.injEq,TxInput.mk.injEq,and_true,true_and] at he
    have hsig := he.1
    split_ifs at hsig <;> simp at hsig
    · exact hsig
    · exact hsig.1
  rw [← decode_heightBytes h,hb,decode_heightBytes]

end Coinbase

section Origins
variable {B : Bitcoinx} {M T : Set Tx} {U : UtxoSet} {height : ℕ}

theorem Originates.mono {M' : Set Tx} (h : Originates B M U) (hM : M ⊆ M') : Originates B M' U := by
  intro o e he
  obtain ⟨t,ht,h1,h2⟩ := h o e he
  exact ⟨t,hM ht,h1,h2⟩

theorem Originates.applyTx (h : Originates B M U) (height : ℕ) {tx : Tx} (ht : tx ∈ M) :
    Originates B M (U.applyTx B height tx) := by
  intro o e he
  rw [UtxoSet.lookup_applyTx] at he
  split_ifs at he with hc hs
  · obtain ⟨out,hout,heq⟩ := Option.map_eq_some_iff.mp he
    cases heq
    exact ⟨tx,ht,(UtxoSet.mem_createdBy.mp hc).1.symm,hout⟩
  · exact h o e he

theorem Originates.connect (h : Originates B M U) {txs : List Tx} (ht : ∀ tx ∈ txs, tx ∈ M) :
    Originates B M (U.connectBlockUtxos B height txs) := by
  induction txs generalizing U with
  | nil => exact h
  | cons tx txs ih =>
    exact ih (h.applyTx height (ht tx (by simp))) fun t hm => ht t (by simp [hm])

/-- An unspent output whose transaction is known by its id has the value and script it was made with. -/
theorem Originates.output (h : Originates B T U) (hinj : Set.InjOn B.txHash T) {s : Tx} (hs : s ∈ T)
    {o : Outpoint} {e : UtxoEntry} (he : U.lookup o = some e) (hid : o.1 = B.txHash s) :
    s.outputs[o.2]? = some e.asTxOutput := by
  obtain ⟨t,ht,h1,h2⟩ := h o e he
  rwa [hinj ht hs (h1.trans hid)] at h2

/-- A block that does not spend an output leaves its value and script. -/
theorem Originates.lookup_keep (h : Originates B T U) (hinj : Set.InjOn B.txHash T) {txs : List Tx}
    (ht : ∀ tx ∈ txs, tx ∈ T) {o : Outpoint} (hns : o ∉ UtxoSet.spentOf B txs) {e : UtxoEntry}
    (he : U.lookup o = some e) : ∃ e', (U.connectBlockUtxos B height txs).lookup o = some e' ∧
      e'.asTxOutput = e.asTxOutput := by
  induction txs generalizing U e with
  | nil => exact ⟨e,he,rfl⟩
  | cons tx txs ih =>
    simp only [UtxoSet.spentOf,List.flatMap_cons,List.mem_append,not_or] at hns
    have hstep : ∃ e', (U.applyTx B height tx).lookup o = some e' ∧ e'.asTxOutput = e.asTxOutput := by
      rw [UtxoSet.lookup_applyTx]
      by_cases hc : o ∈ UtxoSet.createdBy B tx
      · have hout := h.output hinj (ht tx (by simp)) he (UtxoSet.mem_createdBy.mp hc).1
        rw [if_pos hc,hout]
        exact ⟨_,rfl,rfl⟩
      · rw [if_neg hc,if_neg hns.1]
        exact ⟨e,he,rfl⟩
    obtain ⟨e₁,he₁,hout₁⟩ := hstep
    obtain ⟨e₂,he₂,hout₂⟩ := ih (h.applyTx height (ht tx (by simp)))
      (fun t hm => ht t (by simp [hm])) hns.2 he₁
    exact ⟨e₂,he₂,hout₂.trans hout₁⟩

theorem Sealed.mono {k : ℕ} {t : Tx} (h : Sealed B M U height t) (hk : height ≤ k) :
    Sealed B M U k t := by
  rcases h with ⟨hcb,v,s,j,x,hj,hshape⟩ | hspent
  · exact .inl ⟨hcb,v,s,j,x,hj.trans hk,hshape⟩
  · exact .inr hspent

/-- A block as `generate_block` puts it together: a coinbase of the next height, and transactions
that validate and do not meet. -/
structure Assembled (B : Bitcoinx) (T : Set Tx) (U : UtxoSet) (height : ℕ) (coinbase : Tx)
    (included : List Tx) : Prop where
  shape : ∃ value script extra, coinbase = makeCoinbase value script height extra
  isCoinbase : B.isCoinbase coinbase = true
  known : ∀ t ∈ coinbase :: included, t ∈ T
  valid : ∀ t ∈ included, (validateTx B t U).ok = true
  apart : included.Pairwise fun s t => (∀ o ∈ s.outpoints, o ∉ t.outpoints) ∧ B.txHash s ≠ B.txHash t

variable {coinbase : Tx} {included : List Tx}

theorem Assembled.notCoinbase (h : Assembled B T U height coinbase included) :
    ∀ t ∈ included, B.isCoinbase t = false :=
  fun t ht => (validateTx_ok_iff.mp (h.valid t ht)).1

theorem Assembled.spentBy_coinbase (h : Assembled B T U height coinbase included) :
    UtxoSet.spentBy B coinbase = [] := by
  simp [UtxoSet.spentBy,h.isCoinbase]

theorem Assembled.spentBy_included (h : Assembled B T U height coinbase included) {t : Tx}
    (ht : t ∈ included) : UtxoSet.spentBy B t = t.outpoints := by
  simp [UtxoSet.spentBy,h.notCoinbase t ht]

/-- No transaction of value that was mined before is in the block. -/
theorem Assembled.new (h : Assembled B T U (height+1) coinbase included) {t : Tx}
    (hs : Sealed B M U height t) : t ∉ coinbase :: included := by
  intro hm
  rcases List.mem_cons.mp hm with rfl | hm
  · obtain ⟨value,script,extra,hcb⟩ := h.shape
    rcases hs with ⟨_,v,s,k,x,hk,ht⟩ | ⟨hnot,_⟩
    · have hheight := makeCoinbase_height (ht.symm.trans hcb)
      omega
    · rw [h.isCoinbase] at hnot; cases hnot
  · rcases hs with ⟨hcb,_⟩ | ⟨_,o,ho,hgone,_⟩
    · rw [h.notCoinbase t hm] at hcb; cases hcb
    · obtain ⟨e,he⟩ := validateTx_present (h.valid t hm) o ho
      rw [hgone] at he
      cases he

/-- No block creates an output of a transaction of value that was mined before. -/
theorem Assembled.not_created (h : Assembled B T U (height+1) coinbase included)
    (hinj : Set.InjOn B.txHash T) {s : Tx} (hs : s ∈ T) (hsealed : Sealed B M U height s)
    {o : Outpoint} (hid : B.txHash s = o.1) :
    o ∉ EmbeddedNode.createdOf B (coinbase :: included) := fun hc => by
  obtain ⟨t,ht,hcr⟩ := List.mem_flatMap.mp hc
  have hsame : s = t := hinj hs (h.known t ht) (hid.trans (UtxoSet.mem_createdBy.mp hcr).1)
  exact h.new hsealed (hsame ▸ ht)

/-- A transaction that pays something spends something of value. -/
theorem exists_valued_input {t : Tx} (hok : (validateTx B t U).ok = true) (hr : t.Rich) :
    ∃ o ∈ t.outpoints, U.valueAt o ≠ 0 := by
  obtain ⟨_,hpos,_,hle,_⟩ := validateTx_ok_iff.mp hok
  by_contra hno
  push Not at hno
  have hzero : (t.outpoints.map U.valueAt).sum = 0 :=
    List.sum_eq_zero fun x hx => by
      obtain ⟨o,ho,rfl⟩ := List.mem_map.mp hx
      exact hno o ho
  obtain ⟨out,hout,hv⟩ := hr
  have hle' : out.value ≤ (t.outputs.map TxOutput.value).sum :=
    List.single_le_sum (fun x hx => by
      obtain ⟨p,hp,rfl⟩ := List.mem_map.mp hx
      exact hpos p hp) _ (List.mem_map_of_mem hout)
  have := hpos out hout
  rw [Tx.totalOutputValue,hzero] at hle
  omega

/-- The block's transactions join the mined ones, and all of value stay sealed. -/
theorem Assembled.sealed (h : Assembled B T U (height+1) coinbase included)
    (hinj : Set.InjOn B.txHash T) (hM : M ⊆ T) (ho : Originates B M U)
    (hsealed : ∀ t ∈ M, t.Rich → Sealed B M U height t) (k : ℕ) :
    ∀ t ∈ M ∪ {t | t ∈ coinbase :: included}, t.Rich →
      Sealed B (M ∪ {t | t ∈ coinbase :: included})
        (U.connectBlockUtxos B k (coinbase :: included)) (height+1) t := by
  -- an output of a sealed transaction that is gone stays gone
  have hgone : ∀ o s, s ∈ M → s.Rich → B.txHash s = o.1 →
      (U.lookup o = none ∨ o ∈ UtxoSet.spentOf B (coinbase :: included)) →
      (U.connectBlockUtxos B k (coinbase :: included)).lookup o = none := by
    intro o s hs hr hid hor
    have hnc := h.not_created hinj (hM hs) (hsealed s hs hr) hid
    rw [UtxoSet.lookup_connect_of_not_created hnc]
    split_ifs with hsp
    · rfl
    · exact hor.resolve_right hsp
  intro t ht hr
  rcases ht with ht | ht
  · rcases hsealed t ht hr with ⟨hcb,v,s,j,x,hj,hshape⟩ | ⟨hcb,o,hto,hnone,s,hs,hsr,hid⟩
    · exact .inl ⟨hcb,v,s,j,x,by omega,hshape⟩
    · exact .inr ⟨hcb,o,hto,hgone o s hs hsr hid (.inl hnone),s,.inl hs,hsr,hid⟩
  · rcases List.mem_cons.mp ht with rfl | hm
    · obtain ⟨v,s,x,hshape⟩ := h.shape
      exact .inl ⟨h.isCoinbase,v,s,height+1,x,le_rfl,hshape⟩
    · obtain ⟨o,hto,hv⟩ := exists_valued_input (h.valid t hm) hr
      obtain ⟨e,he⟩ := validateTx_present (h.valid t hm) o hto
      obtain ⟨s,hs,hid,hout⟩ := ho o e he
      have hsr : s.Rich := ⟨_,List.mem_of_getElem? hout,by
        rwa [UtxoSet.valueAt,Finmap.weightAt_of_lookup _ _ he] at hv⟩
      refine .inr ⟨h.notCoinbase t hm,o,hto,hgone o s hs hsr hid (.inr ?_),s,.inl hs,hsr,hid⟩
      exact List.mem_flatMap.mpr ⟨t,ht,by rw [h.spentBy_included hm]; exact hto⟩

end Origins

/-- The calls of a run of submissions and locally mined blocks. `T` and `R` are the transactions and
headers of the run. -/
def MiningCall (B : Bitcoinx) (T : Set Tx) (R : Set Bytes) (n : EmbeddedNode) : NodeCall → Prop
  | .submitTx tx => ∀ t, EmbeddedNode.MayEnter B n tx t → t ∈ T
  | .generateBlock script incl extra timestamp => ∀ raw txs,
      n.assembleBlock B script incl extra timestamp = .ok (raw,txs) →
      raw ∈ R ∧ headerHash B raw ≠ n.genesisHash B ∧ ∀ t ∈ txs, t ∈ T
  | .acceptBlock _ _ => False

instance {B : Bitcoinx} {T : Set Tx} {R : Set Bytes} [DecidablePred (· ∈ T)]
    [DecidablePred (· ∈ R)] {n : EmbeddedNode} {script : Script} {incl : Bool} {extra : Bytes}
    {timestamp : ℕ} : Decidable (MiningCall B T R n (.generateBlock script incl extra timestamp)) :=
  inferInstanceAs (Decidable (∀ raw txs,
    n.assembleBlock B script incl extra timestamp = .ok (raw,txs) →
      raw ∈ R ∧ headerHash B raw ≠ n.genesisHash B ∧ ∀ t ∈ txs, t ∈ T))

/-- What holds between the calls of such a run, when `M` has been mined. -/
structure Mining (B : Bitcoinx) (T : Set Tx) (R : Set Bytes) (M : Set Tx) (n : EmbeddedNode) :
    Prop where
  rooted : Rooted B R (n.genesisHash B) n.headers
  consistent : n.mempool.Consistent B
  entries : ∀ t ∈ n.mempool.allTxs, t ∈ T ∧ (validateTx B t n.utxos).ok = true
  known : M ⊆ T
  origin : Originates B M n.utxos
  sealed : ∀ t ∈ M, t.Rich → Sealed B M n.utxos n.height t

section Mining
variable {B : Bitcoinx} {T M : Set Tx} {R : Set Bytes} {n : EmbeddedNode}

theorem mining_init {reward : ℤ} {towers : List Tower}
    (hR : (EmbeddedNode.init B reward towers).genesis ∈ R) :
    Mining B T R ∅ (EmbeddedNode.init B reward towers) where
  rooted := rooted_withGenesis hR
  consistent := Mempool.consistent_fresh B towers
  entries t ht := by simp [EmbeddedNode.init,Mempool.fresh,Mempool.allTxs] at ht
  known := Set.empty_subset T
  origin o e he := by
    have hn : (EmbeddedNode.init B reward towers).utxos.lookup o = none := Finmap.lookup_empty o
    rw [hn] at he
    cases he
  sealed t ht := ht.elim

theorem Mining.submit (h : Mining B T R M n) {depth : ℕ} {tx : Tx} {m : Mempool Tower}
    {r : Except Fault ValidationResult} (hc : MiningCall B T R n (.submitTx tx))
    (hm : n.mempool.admitTx B (Tower.observe B) n.utxos depth tx = some (m,r)) :
    Mining B T R M { n with mempool := m } := by
  obtain ⟨hcons,henter⟩ := n.submitTx_entries h.consistent hm
  refine ⟨h.rooted,hcons,fun t ht => ?_,h.known,h.origin,h.sealed⟩
  rcases henter t ht with hold | ⟨hmay,hok⟩
  · exact h.entries t hold
  · exact ⟨hc t hmay,hok⟩

section Block
variable {script : Script} {incl : Bool} {extra : Bytes} {timestamp : ℕ} {raw : Bytes} {txs : List Tx}
  {hs : HeaderStore} {hd : Header}

/-- The block that `generate_block` assembles. -/
theorem Mining.assembled (h : Mining B T R M n)
    (hcb : ∀ value script height extra, B.isCoinbase (makeCoinbase value script height extra) = true)
    (ha : n.assembleBlock B script incl extra timestamp = .ok (raw,txs)) (hT : ∀ t ∈ txs, t ∈ T) :
    ∃ coinbase, txs = coinbase :: (if incl then n.mempool.allTxs else []) ∧
      Assembled B T n.utxos (n.height+1) coinbase (if incl then n.mempool.allTxs else []) := by
  obtain ⟨tip,fees,htip,_,rfl,_⟩ := n.assembleBlock_txs B ha
  have hheight : n.height = tip.height := by
    rw [EmbeddedNode.height,HeaderStore.height,htip]
    rfl
  refine ⟨_,rfl,⟨_,script,extra,by rw [hheight]⟩,hcb _ _ _ _,hT,fun t ht => ?_,?_⟩
  · cases incl with
    | true => exact (h.entries t ht).2
    | false => simp at ht
  · cases incl with
    | true => exact h.consistent.allTxs_apart
    | false => exact List.Pairwise.nil

/-- The header of the block becomes the tip. -/
theorem Mining.connected (h : Mining B T R M n) (hhash : Set.InjOn (headerHash B) R)
    (ha : n.assembleBlock B script incl extra timestamp = .ok (raw,txs)) (hR : raw ∈ R)
    (hg : headerHash B raw ≠ n.genesisHash B) (hconn : n.headers.connect B raw = (hs,.ok hd)) :
    hs.height = n.height+1 := by
  obtain ⟨tip,_,htip,_,_,hmine⟩ := n.assembleBlock_txs B ha
  obtain ⟨_,_,hheight,htipHash⟩ := h.rooted.mined hhash htip hR hg hmine hconn
  have hnew := (h.rooted.connect_lookup hconn).2
  rw [HeaderStore.height,HeaderStore.tip,htipHash,hnew,EmbeddedNode.height,HeaderStore.height,htip]
  exact hheight

/-- A header without its block, as a failure of the serialisation leaves it. -/
theorem Mining.header (h : Mining B T R M n) (hhash : Set.InjOn (headerHash B) R)
    (ha : n.assembleBlock B script incl extra timestamp = .ok (raw,txs)) (hR : raw ∈ R)
    (hg : headerHash B raw ≠ n.genesisHash B) (hconn : n.headers.connect B raw = (hs,.ok hd)) :
    Mining B T R M { n with headers := hs } := by
  refine ⟨h.rooted.connect hR hconn,h.consistent,h.entries,h.known,h.origin,fun t ht hr => ?_⟩
  refine (h.sealed t ht hr).mono ?_
  change n.height ≤ hs.height
  rw [h.connected hhash ha hR hg hconn]
  exact Nat.le_succ _

/-- A transaction that is still in the mempool after the block was in it before, and the outputs it
spends are as they were. -/
theorem Mining.remaining (h : Mining B T R M n) (hinj : Set.InjOn B.txHash T)
    (hcb : ∀ value script height extra, B.isCoinbase (makeCoinbase value script height extra) = true)
    (ha : n.assembleBlock B script incl extra timestamp = .ok (raw,txs)) (hT : ∀ t ∈ txs, t ∈ T)
    {t : Tx} (ht : t ∈ (n.mempool.dropAll (txs.tail.map B.txHash)).allTxs) :
    t ∈ n.mempool.allTxs ∧ ∀ o ∈ t.outpoints, (n.utxos.lookup o).map UtxoEntry.asTxOutput =
      ((n.utxos.connectBlockUtxos B (n.height+1) txs).lookup o).map UtxoEntry.asTxOutput := by
  obtain ⟨coinbase,rfl,hasm⟩ := h.assembled hcb ha hT
  obtain ⟨hold,hnot⟩ := h.consistent.kept ht
  refine ⟨hold,fun o ho => ?_⟩
  cases incl with
  | true =>
    -- every transaction of the mempool was mined and dropped
    exact absurd (List.mem_map_of_mem hold) hnot
  | false =>
    obtain ⟨e,he⟩ := validateTx_present (h.entries t hold).2 o ho
    have hspent : o ∉ UtxoSet.spentOf B [coinbase] := by
      simp [UtxoSet.spentOf,hasm.spentBy_coinbase]
    have hknown : ∀ t ∈ [coinbase], t ∈ T := hT
    obtain ⟨e',he',hout⟩ : ∃ e', (n.utxos.connectBlockUtxos B (n.height+1) [coinbase]).lookup o =
        some e' ∧ e'.asTxOutput = e.asTxOutput :=
      (h.origin.mono h.known).lookup_keep hinj hknown hspent he
    change _ = ((n.utxos.connectBlockUtxos B (n.height+1) [coinbase]).lookup o).map _
    rw [he',he,Option.map_some,Option.map_some,hout]

theorem Mining.mine (h : Mining B T R M n) (hinj : Set.InjOn B.txHash T)
    (hhash : Set.InjOn (headerHash B) R)
    (hcb : ∀ value script height extra, B.isCoinbase (makeCoinbase value script height extra) = true)
    (ha : n.assembleBlock B script incl extra timestamp = .ok (raw,txs)) (hR : raw ∈ R)
    (hg : headerHash B raw ≠ n.genesisHash B) (hT : ∀ t ∈ txs, t ∈ T)
    (hconn : n.headers.connect B raw = (hs,.ok hd)) (rawBlock : Bytes) :
    Mining B T R (M ∪ {t | t ∈ txs}) (n.extended B hs (headerHash B raw) (n.height+1) rawBlock txs
      (txs.tail.map B.txHash)) := by
  refine ⟨h.rooted.connect hR hconn,h.consistent.dropAll _,fun t ht => ?_,Set.union_subset h.known hT,
    (h.origin.mono Set.subset_union_left).connect fun t ht => .inr ht,?_⟩
  · obtain ⟨hold,hsame⟩ := h.remaining hinj hcb ha hT ht
    obtain ⟨hTt,hok⟩ := h.entries t hold
    refine ⟨hTt,?_⟩
    rw [validateTx_congr hsame] at hok
    exact hok
  · obtain ⟨coinbase,rfl,hasm⟩ := h.assembled hcb ha hT
    intro t ht hr
    change Sealed B _ _ hs.height t
    rw [h.connected hhash ha hR hg hconn]
    exact hasm.sealed hinj h.known h.origin h.sealed (n.height+1) t ht hr

end Block

/-- Every call of such a run adds what it mines to the mined transactions. -/
theorem Mining.call (h : Mining B T R M n) (hinj : Set.InjOn B.txHash T)
    (hhash : Set.InjOn (headerHash B) R)
    (hcb : ∀ value script height extra, B.isCoinbase (makeCoinbase value script height extra) = true)
    (depth : ℕ) (c : NodeCall) (hc : MiningCall B T R n c) :
    Mining B T R (M ∪ {t | t ∈ minedTxs (n.call B depth c).2}) (n.call B depth c).1 := by
  have hnil : ∀ a, minedTxs a = [] → M ∪ {t | t ∈ minedTxs a} = M := fun a ha => by simp [ha]
  cases c with
  | submitTx tx =>
    rcases n.submitTx_cases B depth tx with hcall | ⟨m,r,hm,hcall⟩
    · rw [hcall,hnil _ rfl]
      exact h
    · rw [hcall,hnil _ rfl]
      exact h.submit hc hm
  | generateBlock script incl extra timestamp =>
    rcases n.generateBlock_cases B depth script incl extra timestamp with
      ⟨e,_,hcall⟩ | ⟨raw,txs,ha,⟨hs,e,hconn,hcall⟩ | ⟨hs,hd,hconn,⟨e,_,hcall⟩ | ⟨rawBlock,_,hcall⟩⟩⟩
    · rw [hcall,hnil _ rfl]
      exact h
    · rw [hcall,hnil _ rfl,(h.rooted.connect_error hconn).1]
      exact h
    · obtain ⟨hR,hg,_⟩ := hc raw txs ha
      rw [hcall,hnil _ rfl]
      exact h.header hhash ha hR hg hconn
    · obtain ⟨hR,hg,hT⟩ := hc raw txs ha
      rw [hcall]
      exact h.mine hinj hhash hcb ha hR hg hT hconn rawBlock
  | acceptBlock raw txs => exact hc.elim

end Mining
end SubsatChannel
