import Mathlib
import SubsatChannel.Lib.Transition
import SubsatChannel.Node.Mined
import SubsatChannel.Reference

/-! No inflation: what a block adds to the unspent outputs is the block reward. -/
namespace SubsatChannel
open Transition

namespace UtxoSet
variable {B : Bitcoinx} {U : UtxoSet} {height : ℕ}

theorem total_addOutputs (txid : Bytes) (height i : ℕ) (outs : List TxOutput) (U : UtxoSet)
    (hfresh : ∀ j, i ≤ j → j < i + outs.length → U.valueAt (txid,j) = 0) :
    (addOutputs txid height i outs U).total = U.total + (outs.map TxOutput.value).sum := by
  induction outs generalizing i U with
  | nil => simp [addOutputs]
  | cons tout outs ih =>
    have hi : U.valueAt (txid,i) = 0 := hfresh i le_rfl (by simp)
    have hw := Finmap.weight_insert UtxoEntry.value U (txid,i) ⟨tout.value,tout.scriptPubkey,height⟩
    rw [addOutputs,ih]
    · simp only [total,valueAt,List.map_cons,List.sum_cons] at hw hi ⊢
      rw [hi] at hw
      omega
    · intro j hj hlt
      have hne : (txid,j) ≠ (txid,i) := by
        intro he
        simp only [Prod.mk.injEq,true_and] at he
        omega
      rw [valueAt,Finmap.weightAt_congr _ _ (Finmap.lookup_insert_of_ne U hne)]
      exact hfresh j (by omega) (by simp only [List.length_cons]; omega)

/-- The value a transaction takes from the set when it is connected. -/
def spentValue (B : Bitcoinx) (U : UtxoSet) (tx : Tx) : ℤ := ((spentBy B tx).map U.valueAt).sum

/-- A list of transactions that can be connected without losing or doubling value: nothing of
value is listed twice or replaced, and no two of them meet. -/
structure Spendable (B : Bitcoinx) (U : UtxoSet) (txs : List Tx) : Prop where
  once : ∀ t ∈ txs, ∀ o, 2 ≤ (spentBy B t).count o → U.valueAt o = 0
  fresh : ∀ t ∈ txs, ∀ o ∈ createdBy B t, U.valueAt o = 0
  same : ∀ t ∈ txs, ∀ s ∈ txs, ∀ o ∈ spentBy B t, o ∈ createdBy B s →
    ∀ out, s.outputs[o.2]? = some out → U.valueAt o = out.value
  apart : txs.Pairwise fun s t => (∀ o ∈ spentBy B s, o ∉ spentBy B t) ∧ B.txHash s ≠ B.txHash t

theorem valueAt_applyTx_of_created {tx : Tx} {o : Outpoint} (h : o ∈ createdBy B tx) {out : TxOutput}
    (ho : tx.outputs[o.2]? = some out) : (U.applyTx B height tx).valueAt o = out.value := by
  refine Finmap.weightAt_of_lookup (v := (⟨out.value,out.scriptPubkey,height⟩ : UtxoEntry)) _ _ ?_
  rw [lookup_applyTx,if_pos h,ho]
  rfl

theorem valueAt_applyTx_of_spent {tx : Tx} {o : Outpoint} (h : o ∉ createdBy B tx)
    (hs : o ∈ spentBy B tx) : (U.applyTx B height tx).valueAt o = 0 :=
  Finmap.weightAt_of_none _ _ (by rw [lookup_applyTx,if_neg h,if_pos hs])

theorem valueAt_applyTx_of_other {tx : Tx} {o : Outpoint} (h : o ∉ createdBy B tx)
    (hs : o ∉ spentBy B tx) : (U.applyTx B height tx).valueAt o = U.valueAt o :=
  Finmap.weightAt_congr _ _ (by rw [lookup_applyTx,if_neg h,if_neg hs])

/-- One transaction: its outputs are added and the outputs it spends are taken away. -/
theorem total_applyTx {tx : Tx} (height : ℕ) (honce : ∀ o, 2 ≤ (spentBy B tx).count o → U.valueAt o = 0)
    (hfresh : ∀ o ∈ createdBy B tx, U.valueAt o = 0) :
    (U.applyTx B height tx).total = U.total + tx.totalOutputValue - U.spentValue B tx := by
  have herase : (if B.isCoinbase tx then U else U.eraseAll tx.outpoints) =
      U.eraseAll (spentBy B tx) := by
    cases hb : B.isCoinbase tx <;> simp [spentBy,hb]
  have hw := Finmap.weight_eraseAll UtxoEntry.value U (spentBy B tx)
    (fun o ho => honce o (by convert ho))
  have hw' : total (U.eraseAll (spentBy B tx)) + U.spentValue B tx = U.total := hw
  have hadd := total_addOutputs (B.txHash tx) height 0 tx.outputs (U.eraseAll (spentBy B tx)) (by
    intro j _ hj
    by_cases hs : (B.txHash tx,j) ∈ spentBy B tx
    · exact Finmap.weightAt_of_none _ _ (by rw [Finmap.lookup_eraseAll,if_pos hs])
    · have hl : (U.eraseAll (spentBy B tx)).lookup (B.txHash tx,j) = U.lookup (B.txHash tx,j) := by
        rw [Finmap.lookup_eraseAll,if_neg hs]
      rw [valueAt,Finmap.weightAt_congr _ _ hl]
      exact hfresh _ (mem_createdBy.mpr ⟨rfl,by omega⟩))
  rw [applyTx,herase,hadd,← hw',Tx.totalOutputValue]
  omega

/-- Applying one transaction does not change what the later ones spend. -/
theorem Spendable.valueAt_step {tx : Tx} {txs : List Tx} (h : Spendable B U (tx :: txs)) {t : Tx}
    (ht : t ∈ txs) {o : Outpoint} (ho : o ∈ spentBy B t) :
    (U.applyTx B height tx).valueAt o = U.valueAt o := by
  have hapart := (List.pairwise_cons.mp h.apart).1 t ht
  by_cases hc : o ∈ createdBy B tx
  · obtain ⟨out,hout⟩ : ∃ out, tx.outputs[o.2]? = some out :=
      ⟨_,List.getElem?_eq_getElem (mem_createdBy.mp hc).2⟩
    rw [valueAt_applyTx_of_created hc hout,h.same t (by simp [ht]) tx (by simp) o ho hc out hout]
  · exact valueAt_applyTx_of_other hc fun hs => hapart.1 o hs ho

theorem Spendable.step {tx : Tx} {txs : List Tx} (h : Spendable B U (tx :: txs)) (height : ℕ) :
    Spendable B (U.applyTx B height tx) txs where
  once t ht o ho := by
    have hmem : o ∈ spentBy B t := List.count_pos_iff.mp (by omega)
    rw [h.valueAt_step ht hmem]
    exact h.once t (by simp [ht]) o ho
  fresh t ht o ho := by
    have hapart := (List.pairwise_cons.mp h.apart).1 t ht
    have hc : o ∉ createdBy B tx := fun hc => by
      rw [mem_createdBy] at hc ho
      exact hapart.2 (hc.1.symm.trans ho.1)
    by_cases hs : o ∈ spentBy B tx
    · exact valueAt_applyTx_of_spent hc hs
    · rw [valueAt_applyTx_of_other hc hs]
      exact h.fresh t (by simp [ht]) o ho
  same t ht s hs o ho hc out hout := by
    rw [h.valueAt_step ht ho]
    exact h.same t (by simp [ht]) s (by simp [hs]) o ho hc out hout
  apart := (List.pairwise_cons.mp h.apart).2

/-- Connecting a block of such transactions adds their outputs and takes away what they spend. -/
theorem total_connect {txs : List Tx} (h : Spendable B U txs) :
    (U.connectBlockUtxos B height txs).total =
      U.total + (txs.map Tx.totalOutputValue).sum - (txs.map (U.spentValue B)).sum := by
  induction txs generalizing U with
  | nil => simp [connectBlockUtxos]
  | cons tx txs ih =>
    have hone := total_applyTx height (h.once tx (by simp)) (h.fresh tx (by simp))
    have hlater : txs.map ((U.applyTx B height tx).spentValue B) = txs.map (U.spentValue B) := by
      apply List.map_congr_left
      intro t ht
      exact congrArg List.sum (List.map_congr_left fun o ho => h.valueAt_step ht ho)
    have hrest := ih (h.step height)
    rw [hlater,hone] at hrest
    change ((U.applyTx B height tx).connectBlockUtxos B height txs).total = _
    rw [hrest]
    simp only [List.map_cons,List.sum_cons]
    omega

end UtxoSet

/-- No outpoint that holds value is listed twice. -/
def SpendsOnce (U : UtxoSet) (t : Tx) : Prop := ∀ o, 2 ≤ t.outpoints.count o → U.valueAt o = 0

section Template
variable {B : Bitcoinx} {M T : Set Tx} {U : UtxoSet} {height : ℕ}

/-- A block as `generate_block` puts it together, whose transactions list nothing of value twice. -/
structure Template (B : Bitcoinx) (T : Set Tx) (U : UtxoSet) (height : ℕ) (coinbase : Tx)
    (included : List Tx) : Prop extends Assembled B T U height coinbase included where
  once : ∀ t ∈ included, SpendsOnce U t

variable {coinbase : Tx} {included : List Tx}

/-- Connecting such a block loses and doubles no value. -/
theorem Template.spendable (h : Template B T U (height+1) coinbase included)
    (hinj : Set.InjOn B.txHash T) (hM : M ⊆ T) (ho : Originates B M U)
    (hsealed : ∀ t ∈ M, t.Rich → Sealed B M U height t) :
    UtxoSet.Spendable B U (coinbase :: included) where
  once t ht o hcount := by
    rcases List.mem_cons.mp ht with rfl | hm
    · rw [h.spentBy_coinbase] at hcount
      simp at hcount
    · rw [h.spentBy_included hm] at hcount
      exact h.once t hm o hcount
  fresh t ht o hc := by
    cases hl : U.lookup o with
    | none => exact Finmap.weightAt_of_none _ _ hl
    | some e =>
      rw [UtxoSet.valueAt,Finmap.weightAt_of_lookup _ _ hl]
      obtain ⟨t₀,ht₀,hid,hout⟩ := ho o e hl
      have hsame : t₀ = t := hinj (hM ht₀) (h.known t ht) (hid.trans (UtxoSet.mem_createdBy.mp hc).1)
      subst hsame
      -- an output of value would make the transaction one that cannot be mined again
      by_contra hv
      exact h.new (hsealed t₀ ht₀ ⟨_,List.mem_of_getElem? hout,hv⟩) ht
  same t ht s hs o hspent hc out hout := by
    rcases List.mem_cons.mp ht with rfl | hm
    · rw [h.spentBy_coinbase] at hspent
      simp at hspent
    · rw [h.spentBy_included hm] at hspent
      obtain ⟨e,he⟩ := validateTx_present (h.valid t hm) o hspent
      have hmade := (ho.mono hM).output hinj (h.known s hs) he (UtxoSet.mem_createdBy.mp hc).1
      rw [hout] at hmade
      cases hmade
      exact Finmap.weightAt_of_lookup _ _ he
  apart := by
    refine List.pairwise_cons.mpr ⟨fun t ht => ⟨fun o hspent => ?_,fun hid => ?_⟩,?_⟩
    · rw [h.spentBy_coinbase] at hspent
      simp at hspent
    · have hsame := hinj (h.known _ (by simp)) (h.known t (by simp [ht])) hid
      have hcb := h.isCoinbase
      rw [hsame,h.notCoinbase t ht] at hcb
      cases hcb
    · refine h.apart.imp_of_mem fun hs ht hst => ?_
      rw [h.spentBy_included hs,h.spentBy_included ht]
      exact hst

/-- What the included transactions leave unspent is their fees. -/
theorem Template.fees (h : Template B T U height coinbase included) :
    (included.map fun tx => if (validateTx B tx U).ok then (validateTx B tx U).fee else 0).sum =
      (included.map fun tx => (tx.outpoints.map U.valueAt).sum - tx.totalOutputValue).sum := by
  refine congrArg List.sum (List.map_congr_left fun t ht => ?_)
  rw [if_pos (h.valid t ht),validateTx_fee (h.valid t ht)]

theorem sum_map_sub {α : Type*} (l : List α) (f g : α → ℤ) :
    (l.map fun x => f x - g x).sum = (l.map f).sum - (l.map g).sum := by
  induction l with
  | nil => rfl
  | cons x l ih => simp only [List.map_cons,List.sum_cons,ih]; omega

/-- A block whose coinbase claims the reward and the fees adds the reward. -/
theorem Template.total (h : Template B T U (height+1) coinbase included)
    (hinj : Set.InjOn B.txHash T) (hM : M ⊆ T) (ho : Originates B M U)
    (hsealed : ∀ t ∈ M, t.Rich → Sealed B M U height t) {reward : ℤ}
    (hpay : coinbase.totalOutputValue = reward +
      (included.map fun tx => (tx.outpoints.map U.valueAt).sum - tx.totalOutputValue).sum) (k : ℕ) :
    (U.connectBlockUtxos B k (coinbase :: included)).total = U.total + reward := by
  have hspent : included.map (U.spentValue B) =
      included.map fun tx => (tx.outpoints.map U.valueAt).sum := by
    refine List.map_congr_left fun t ht => ?_
    rw [UtxoSet.spentValue,h.spentBy_included ht]
  have hzero : U.spentValue B coinbase = 0 := by simp [UtxoSet.spentValue,h.spentBy_coinbase]
  rw [UtxoSet.total_connect (h.spendable hinj hM ho hsealed),List.map_cons,List.map_cons,
    List.sum_cons,List.sum_cons,hpay,hspent,hzero,sum_map_sub]
  omega

end Template

/-- The calls of a run without double counting: nothing that validates lists an outpoint that holds
value twice. The rest names the transactions and headers of the run, `T` and `R`. -/
def LedgerCall (B : Bitcoinx) (T : Set Tx) (R : Set Bytes) (n : EmbeddedNode) : NodeCall → Prop
  | .submitTx tx => ∀ t, EmbeddedNode.MayEnter B n tx t →
      t ∈ T ∧ ((validateTx B t n.utxos).ok = true → SpendsOnce n.utxos t)
  | .generateBlock script incl extra timestamp => ∀ raw txs,
      n.assembleBlock B script incl extra timestamp = .ok (raw,txs) →
      raw ∈ R ∧ headerHash B raw ≠ n.genesisHash B ∧ txs.length < 2^64 ∧ ∀ t ∈ txs, t ∈ T
  | .acceptBlock _ _ => False

instance {B : Bitcoinx} {T : Set Tx} {R : Set Bytes} [DecidablePred (· ∈ T)]
    [DecidablePred (· ∈ R)] {n : EmbeddedNode} {script : Script} {incl : Bool} {extra : Bytes}
    {timestamp : ℕ} : Decidable (LedgerCall B T R n (.generateBlock script incl extra timestamp)) :=
  inferInstanceAs (Decidable (∀ raw txs,
    n.assembleBlock B script incl extra timestamp = .ok (raw,txs) →
      raw ∈ R ∧ headerHash B raw ≠ n.genesisHash B ∧ txs.length < 2^64 ∧ ∀ t ∈ txs, t ∈ T))

/-- What holds between the calls of such a run. -/
structure Ledger (B : Bitcoinx) (T : Set Tx) (R : Set Bytes) (reward : ℤ) (n : EmbeddedNode) : Prop where
  rooted : Rooted B R (n.genesisHash B) n.headers
  rewarded : n.coinbaseReward = reward
  consistent : n.mempool.Consistent B
  entries : ∀ t ∈ n.mempool.allTxs, t ∈ T ∧ (validateTx B t n.utxos).ok = true ∧ SpendsOnce n.utxos t
  mined : ∃ M ⊆ T, Originates B M n.utxos ∧ ∀ t ∈ M, t.Rich → Sealed B M n.utxos n.height t
  total : n.utxos.total = n.height * reward

section Ledger
variable {B : Bitcoinx} {T : Set Tx} {R : Set Bytes} {reward : ℤ} {n : EmbeddedNode}

/-- The value of an output is that of its entry. -/
theorem spendsOnce_congr {U V : UtxoSet} {t : Tx} (h : ∀ o ∈ t.outpoints,
    (U.lookup o).map UtxoEntry.asTxOutput = (V.lookup o).map UtxoEntry.asTxOutput)
    (honce : SpendsOnce U t) : SpendsOnce V t := by
  intro o ho
  have hmem : o ∈ t.outpoints := List.count_pos_iff.mp (by omega)
  have hu := honce o ho
  have hval : ∀ W : UtxoSet, W.valueAt o =
      (((W.lookup o).map UtxoEntry.asTxOutput).map TxOutput.value).getD 0 := by
    intro W
    simp only [UtxoSet.valueAt,Finmap.weightAt,Option.map_map]
    rfl
  rw [hval,← h o hmem,← hval,hu]

theorem Ledger.mining (h : Ledger B T R reward n) : ∃ M, Mining B T R M n := by
  obtain ⟨M,hM,horig,hsealed⟩ := h.mined
  exact ⟨M,h.rooted,h.consistent,fun t ht => ⟨(h.entries t ht).1,(h.entries t ht).2.1⟩,hM,horig,hsealed⟩

theorem Ledger.submit (h : Ledger B T R reward n) {depth : ℕ} {tx : Tx} {m : Mempool Tower}
    {r : Except Fault ValidationResult} (hc : LedgerCall B T R n (.submitTx tx))
    (hm : n.mempool.admitTx B (Tower.observe B) n.utxos depth tx = some (m,r)) :
    Ledger B T R reward { n with mempool := m } := by
  obtain ⟨hcons,henter⟩ := n.submitTx_entries h.consistent hm
  refine ⟨h.rooted,h.rewarded,hcons,fun t ht => ?_,h.mined,h.total⟩
  rcases henter t ht with hold | ⟨hmay,hok⟩
  · exact h.entries t hold
  · obtain ⟨hT,honce⟩ := hc t hmay
    exact ⟨hT,hok,honce hok⟩

/-- A block assembled from the ledger's mempool is a template over its unspent outputs. -/
theorem Ledger.template (h : Ledger B T R reward n)
    (hcb : ∀ value script height extra, B.isCoinbase (makeCoinbase value script height extra) = true)
    {script : Script} {incl : Bool} {extra : Bytes} {timestamp : ℕ} {raw : Bytes} {txs : List Tx}
    (ha : n.assembleBlock B script incl extra timestamp = .ok (raw,txs)) (hT : ∀ t ∈ txs, t ∈ T) :
    ∃ coinbase, txs = coinbase :: (if incl then n.mempool.allTxs else []) ∧
      Template B T n.utxos (n.height+1) coinbase (if incl then n.mempool.allTxs else []) ∧
      coinbase.totalOutputValue = reward + ((if incl then n.mempool.allTxs else []).map fun tx =>
        (tx.outpoints.map n.utxos.valueAt).sum - tx.totalOutputValue).sum := by
  obtain ⟨M,hM⟩ := h.mining
  obtain ⟨coinbase,htxs,hasm⟩ := hM.assembled hcb ha hT
  obtain ⟨tip,fees,_,hfees,heq,_⟩ := n.assembleBlock_txs B ha
  rw [heq] at htxs
  cases htxs
  have htemplate : Template B T n.utxos (n.height+1)
      (makeCoinbase (n.coinbaseReward + fees) script (tip.height+1) extra)
      (if incl then n.mempool.allTxs else []) := by
    refine ⟨hasm,fun t ht => ?_⟩
    cases incl with
    | true => exact (h.entries t ht).2.2
    | false => simp at ht
  refine ⟨_,heq,htemplate,?_⟩
  rw [← htemplate.fees,← hfees,← h.rewarded]
  simp [makeCoinbase,Tx.totalOutputValue]

/-- Mining keeps the ledger. -/
theorem Ledger.mine (h : Ledger B T R reward n) (hinj : Set.InjOn B.txHash T)
    (hhash : Set.InjOn (headerHash B) R)
    (hcb : ∀ value script height extra, B.isCoinbase (makeCoinbase value script height extra) = true)
    {script : Script} {incl : Bool} {extra : Bytes} {timestamp : ℕ} {raw : Bytes} {txs : List Tx}
    (ha : n.assembleBlock B script incl extra timestamp = .ok (raw,txs))
    (hR : raw ∈ R) (hg : headerHash B raw ≠ n.genesisHash B) (hT : ∀ t ∈ txs, t ∈ T)
    {hs : HeaderStore} {hd : Header} (hconn : n.headers.connect B raw = (hs,.ok hd))
    (rawBlock : Bytes) :
    Ledger B T R reward (n.extended B hs (headerHash B raw) (n.height+1) rawBlock txs
      (txs.tail.map B.txHash)) := by
  obtain ⟨M,hM⟩ := h.mining
  have hnext := hM.mine hinj hhash hcb ha hR hg hT hconn rawBlock
  refine ⟨hnext.rooted,h.rewarded,hnext.consistent,fun t ht => ?_,
    ⟨_,hnext.known,hnext.origin,hnext.sealed⟩,?_⟩
  · obtain ⟨hold,hsame⟩ := hM.remaining hinj hcb ha hT ht
    obtain ⟨hTt,hok⟩ := hnext.entries t ht
    exact ⟨hTt,hok,spendsOnce_congr hsame (h.entries t hold).2.2⟩
  · obtain ⟨coinbase,rfl,htemplate,hpay⟩ := h.template hcb ha hT
    have htot := htemplate.total hinj hM.known hM.origin hM.sealed hpay (n.height+1)
    change (n.utxos.connectBlockUtxos B (n.height+1) _).total = (hs.height : ℤ) * reward
    rw [htot,h.total,hM.connected hhash ha hR hg hconn]
    push_cast
    ring

/-- Every call of a run without double counting keeps the ledger. -/
theorem Ledger.call (h : Ledger B T R reward n) (hinj : Set.InjOn B.txHash T)
    (hhash : Set.InjOn (headerHash B) R)
    (hcb : ∀ value script height extra, B.isCoinbase (makeCoinbase value script height extra) = true)
    (depth : ℕ) (c : NodeCall) (hc : LedgerCall B T R n c) : Ledger B T R reward (n.call B depth c).1 := by
  cases c with
  | submitTx tx =>
    rcases n.submitTx_cases B depth tx with hcall | ⟨m,r,hm,hcall⟩
    · rw [hcall]; exact h
    · rw [hcall]; exact h.submit hc hm
  | generateBlock script incl extra timestamp =>
    rcases n.generateBlock_cases B depth script incl extra timestamp with
      ⟨e,_,hcall⟩ | ⟨raw,txs,ha,⟨hs,e,hconn,hcall⟩ | ⟨hs,hd,hconn,⟨e,hser,hcall⟩ | ⟨rawBlock,_,hcall⟩⟩⟩
    · rw [hcall]; exact h
    · rw [hcall,(h.rooted.connect_error hconn).1]; exact h
    · obtain ⟨bs,hbs⟩ := serialiseBlock_of_lt B (h.rooted.connect_ok hconn).1 (hc raw txs ha).2.2.1
        fun t ht => (n.assembleBlock_regular B ha t ht).packs
      rw [hser] at hbs
      cases hbs
    · obtain ⟨hR,hg,_,hT⟩ := hc raw txs ha
      rw [hcall]
      exact h.mine hinj hhash hcb ha hR hg hT hconn rawBlock
  | acceptBlock raw txs => exact hc.elim

theorem ledger_init {towers : List Tower} (hR : (EmbeddedNode.init B reward towers).genesis ∈ R) :
    Ledger B T R reward (EmbeddedNode.init B reward towers) where
  rooted := rooted_withGenesis hR
  rewarded := rfl
  consistent := Mempool.consistent_fresh B towers
  entries t ht := by simp [EmbeddedNode.init,Mempool.fresh,Mempool.allTxs] at ht
  mined := by
    refine ⟨∅,Set.empty_subset T,fun o e he => ?_,fun t ht => ht.elim⟩
    have hn : (EmbeddedNode.init B reward towers).utxos.lookup o = none := Finmap.lookup_empty o
    rw [hn] at he
    cases he
  total := by
    have hz : (EmbeddedNode.init B reward towers).height = 0 := by
      simp [EmbeddedNode.init,EmbeddedNode.height,HeaderStore.height,HeaderStore.tip,
        HeaderStore.lookup,HeaderStore.withGenesis]
    rw [hz,Nat.cast_zero,zero_mul]
    exact Finmap.weight_empty _

end Ledger

/-- In every run of submissions and locally mined blocks in which nothing that validates lists an
outpoint of value twice: after each call the unspent outputs hold the reward once for every block,
and the coinbase of a mined block claims the reward and exactly what the block's transactions,
which all validate, leave unspent. -/
theorem no_inflation {B : Bitcoinx} {T : Set Tx} {R : Set Bytes} {reward : ℤ} {towers : List Tower}
    {depth : ℕ} (hinj : Set.InjOn B.txHash T) (hhash : Set.InjOn (headerHash B) R)
    (hcb : ∀ value script height extra, B.isCoinbase (makeCoinbase value script height extra) = true)
    (hR : (EmbeddedNode.init B reward towers).genesis ∈ R) {calls : List NodeCall}
    (hc : Along (EmbeddedNode.call B depth) (LedgerCall B T R) (EmbeddedNode.init B reward towers) calls)
    {n : EmbeddedNode} {call : NodeCall} {answer : NodeAnswer}
    (h : (n,call,answer) ∈ trace (EmbeddedNode.call B depth) (EmbeddedNode.init B reward towers) calls) :
    (n.call B depth call).1.utxos.total = (n.call B depth call).1.height * reward ∧
    ∀ hash txs, answer = .mined (.ok (hash,txs)) → ∃ coinbase included, txs = coinbase :: included ∧
      (∀ t ∈ included, (validateTx B t n.utxos).ok = true) ∧
      coinbase.totalOutputValue = reward + (included.map fun tx =>
        (tx.outpoints.map n.utxos.valueAt).sum - tx.totalOutputValue).sum := by
  have keep := fun (s : EmbeddedNode) (i : NodeCall) (hs : Ledger B T R reward s) hi =>
    hs.call hinj hhash hcb depth i hi
  obtain ⟨hn,hcall,rfl⟩ := trace_invariant keep (ledger_init hR) hc h
  refine ⟨(hn.call hinj hhash hcb depth call hcall).total,fun hash txs hmined => ?_⟩
  obtain ⟨script,incl,extra,timestamp,raw,rfl,ha⟩ := EmbeddedNode.mined_cases hmined
  obtain ⟨coinbase,rfl,htemplate,hpay⟩ := hn.template hcb ha (hcall raw _ ha).2.2.2
  exact ⟨coinbase,_,rfl,htemplate.valid,hpay⟩

namespace Reference

def ledgerCalls : List NodeCall := [.generateBlock trueScript true [] 1,.submitTx spendOnce]

def ledgerNode : EmbeddedNode :=
  run (EmbeddedNode.call (reference anyone) 1) (sampleNode anyone [])
    (ledgerCalls ++ [.generateBlock trueScript true [] 2])

def ledgerTxs : List Tx := [firstCoinbase,spendOnce,makeCoinbase 5010 trueScript 2 []]

end Reference

open Reference in
theorem no_inflation_sample : ledgerNode.utxos.total = ledgerNode.height * 5000 := by
  have hc : Along (EmbeddedNode.call (reference anyone) 1)
      (LedgerCall (reference anyone) {t | t ∈ ledgerTxs} {raw | raw ∈ activeHeaders anyone ledgerNode})
      (sampleNode anyone []) (ledgerCalls ++ [.generateBlock trueScript true [] 2]) := by
    refine ⟨by decide +kernel,fun t ht => ?_,by decide +kernel,trivial⟩
    rw [ht.eq (by decide +kernel)]
    refine ⟨List.mem_cons_of_mem _ List.mem_cons_self,fun _ o ho => ?_⟩
    have hnodup : spendOnce.outpoints.Nodup := by decide +kernel
    have hcount := List.nodup_iff_count_le_one.mp hnodup o
    omega
  have hinj : Set.InjOn (reference anyone).txHash {t | t ∈ ledgerTxs} :=
    injOn_list (by decide +kernel)
  have hhash : Set.InjOn (headerHash (reference anyone)) {raw | raw ∈ activeHeaders anyone ledgerNode} :=
    injOn_list (by decide +kernel)
  have hmem := mem_trace_append (EmbeddedNode.call (reference anyone) 1) (sampleNode anyone [])
    ledgerCalls (.generateBlock trueScript true [] 2) []
  have h := (no_inflation hinj hhash (isCoinbase_makeCoinbase _) (by decide +kernel) hc hmem).1
  rwa [← run_concat] at h

/-- Spend the first coinbase of the sample node twice in one transaction. -/
def Reference.spendTwice : Tx :=
  let tin : TxInput := ⟨(reference Reference.anyone).txHash Reference.firstCoinbase,0,[],0xFFFFFFFF⟩
  ⟨1,[tin,tin],[⟨10000,Reference.trueScript⟩],0⟩

open Reference in
/-- A transaction that lists an outpoint twice is mined and creates the value it counted twice. -/
theorem value_created_by_double_listing :
    let n := run (EmbeddedNode.call (reference anyone) 1) (sampleNode anyone [])
      [.generateBlock trueScript true [] 1,.submitTx spendTwice,.generateBlock trueScript true [] 2]
    n.height = 2 ∧ n.utxos.total = 15000 := by
  decide +kernel

end SubsatChannel
