import SubsatChannel.Node.Coherence
import SubsatChannel.Node.Fate

/-! The table of unspent outputs against the transactions that were mined: it holds what they made
and none of them has spent. -/
namespace SubsatChannel
open Transition

/-- Named, so that the definition below refers to it wherever it is built. -/
local instance lawfulBEqOutpoint : LawfulBEq Outpoint := inferInstance

/-- What a list of mined transactions says about an output of `t`: it is there once `t` is mined, and
until another one spends it. -/
def ledgerOutput (B : Bitcoinx) (L : List Tx) (t : Tx) (i : ℕ) : Option TxOutput :=
  if t ∈ L ∧ (B.txHash t,i) ∉ UtxoSet.spentOf B L then t.outputs[i]? else none

/-- The table agrees with the mined transactions about every transaction that pays something, and
whatever a mined transaction has spent was made by one before. -/
structure Reflects (B : Bitcoinx) (T : Set Tx) (L : List Tx) (U : UtxoSet) : Prop where
  agrees : ∀ t ∈ T, t.Rich → ∀ i,
    (U.lookup (B.txHash t,i)).map UtxoEntry.asTxOutput = ledgerOutput B L t i
  grounded : ∀ o ∈ UtxoSet.spentOf B L, ∃ s ∈ L, B.txHash s = o.1

section Block
variable {B : Bitcoinx} {T : Set Tx} {L : List Tx} {U : UtxoSet} {height k : ℕ} {coinbase : Tx}
  {included : List Tx}

theorem spentOf_append (L L' : List Tx) :
    UtxoSet.spentOf B (L ++ L') = UtxoSet.spentOf B L ++ UtxoSet.spentOf B L' :=
  List.flatMap_append

/-- A block spends only what was unspent before it. -/
theorem Assembled.spent_present (h : Assembled B T U height coinbase included) {o : Outpoint}
    (ho : o ∈ UtxoSet.spentOf B (coinbase :: included)) : ∃ e, U.lookup o = some e := by
  obtain ⟨s,hs,hso⟩ := List.mem_flatMap.mp ho
  rcases List.mem_cons.mp hs with rfl | hs
  · rw [h.spentBy_coinbase] at hso
    cases hso
  · rw [h.spentBy_included hs] at hso
    exact validateTx_present (h.valid s hs) o hso

/-- An output of a transaction of value after a block: it was there or is made by the block, and the
block does not spend it. -/
theorem Reflects.exists_lookup (h : Reflects B T L U) (hinj : Set.InjOn B.txHash T)
    (hknown : ∀ t ∈ L, t ∈ T)
    (hsealed : ∀ t ∈ L, t.Rich → Sealed B {t | t ∈ L} U height t)
    (hasm : Assembled B T U (height+1) coinbase included) {t : Tx} (ht : t ∈ T) (hrich : t.Rich) {i : ℕ} :
    (∃ e, (U.connectBlockUtxos B k (coinbase :: included)).lookup (B.txHash t,i) = some e) ↔
      (t ∈ L ++ coinbase :: included ∧
        (B.txHash t,i) ∉ UtxoSet.spentOf B (L ++ coinbase :: included)) ∧ i < t.outputs.length := by
  have hold : (∃ e, U.lookup (B.txHash t,i) = some e) ↔
      (t ∈ L ∧ (B.txHash t,i) ∉ UtxoSet.spentOf B L) ∧ i < t.outputs.length := by
    have hag := h.agrees t ht hrich i
    rw [ledgerOutput] at hag
    constructor
    · rintro ⟨e,he⟩
      rw [he] at hag
      split_ifs at hag with hin
      · exact ⟨hin,(List.getElem?_eq_some_iff.mp hag.symm).1⟩
      · cases hag
    · rintro ⟨hin,hi⟩
      rw [if_pos hin,List.getElem?_eq_getElem hi] at hag
      obtain ⟨e,he,_⟩ := Option.map_eq_some_iff.mp hag
      exact ⟨e,he⟩
  rw [spentOf_append,List.mem_append,List.mem_append,not_or]
  by_cases hL : t ∈ L
  · have hnot := hasm.not_created hinj ht (hsealed t hL hrich) (o := (B.txHash t,i)) rfl
    rw [UtxoSet.lookup_connect_of_not_created hnot]
    by_cases hs : (B.txHash t,i) ∈ UtxoSet.spentOf B (coinbase :: included)
    · simp [hs]
    · simp only [hs,if_false,hold,hL,true_or,true_and,not_false_eq_true,and_true]
  · have hnone : ¬ ∃ e, U.lookup (B.txHash t,i) = some e := fun he => hL (hold.mp he).1.1
    have hblock : (B.txHash t,i) ∉ UtxoSet.spentOf B (coinbase :: included) :=
      fun hs => hnone (hasm.spent_present hs)
    have hpast : t ∈ coinbase :: included → (B.txHash t,i) ∉ UtxoSet.spentOf B L := by
      -- what spent it before would have needed `t` to be mined
      intro _ hs
      obtain ⟨s,hsL,hid⟩ := h.grounded _ hs
      exact hL (hinj (hknown s hsL) ht hid ▸ hsL)
    constructor
    · rintro ⟨e,he⟩
      rcases UtxoSet.lookup_connect_some he with hc | he'
      · obtain ⟨s,hs,hso⟩ := List.mem_flatMap.mp hc
        obtain ⟨hid,hi⟩ := UtxoSet.mem_createdBy.mp hso
        obtain rfl := hinj ht (hasm.known s hs) hid
        exact ⟨⟨.inr hs,hpast hs,hblock⟩,hi⟩
      · exact absurd ⟨e,he'⟩ hnone
    · rintro ⟨⟨hin,_⟩,hi⟩
      refine exists_lookup_connect hblock (.inl (List.mem_flatMap.mpr ⟨t,hin.resolve_left hL,?_⟩))
      exact UtxoSet.mem_createdBy.mpr ⟨rfl,hi⟩

theorem Reflects.connect (h : Reflects B T L U) (hinj : Set.InjOn B.txHash T)
    (hknown : ∀ t ∈ L, t ∈ T) (horigin : Originates B {t | t ∈ L} U)
    (hsealed : ∀ t ∈ L, t.Rich → Sealed B {t | t ∈ L} U height t)
    (hasm : Assembled B T U (height+1) coinbase included) (k : ℕ) :
    Reflects B T (L ++ coinbase :: included) (U.connectBlockUtxos B k (coinbase :: included)) where
  agrees t ht hrich i := by
    have hiff := h.exists_lookup (k := k) hinj hknown hsealed hasm ht hrich (i := i)
    have hnext : Originates B T (U.connectBlockUtxos B k (coinbase :: included)) :=
      (horigin.mono hknown).connect hasm.known
    rw [ledgerOutput]
    cases he : (U.connectBlockUtxos B k (coinbase :: included)).lookup (B.txHash t,i) with
    | none =>
      rw [he] at hiff
      split_ifs with hin
      · have hout : ¬ i < t.outputs.length := fun hi => by
          obtain ⟨e,hcon⟩ := hiff.mpr ⟨hin,hi⟩
          cases hcon
        rw [List.getElem?_eq_none (not_lt.mp hout)]
        rfl
      · rfl
    | some e =>
      rw [if_pos (hiff.mp ⟨e,he⟩).1,hnext.output hinj ht he rfl]
      rfl
  grounded o ho := by
    rw [spentOf_append,List.mem_append] at ho
    rcases ho with ho | ho
    · obtain ⟨s,hs,hid⟩ := h.grounded o ho
      exact ⟨s,List.mem_append_left _ hs,hid⟩
    · obtain ⟨e,he⟩ := hasm.spent_present ho
      obtain ⟨s,hs,hid,_⟩ := horigin o e he
      exact ⟨s,List.mem_append_left _ hs,hid⟩

end Block

section Run
variable {B : Bitcoinx} {T : Set Tx} {R : Set Bytes} {n : EmbeddedNode} {depth : ℕ} {L : List Tx}

theorem Reflects.call (h : Reflects B T L n.utxos) (hm : Mining B T R {t | t ∈ L} n)
    (hinj : Set.InjOn B.txHash T)
    (hcb : ∀ value script height extra, B.isCoinbase (makeCoinbase value script height extra) = true)
    {c : NodeCall} (hc : MiningCall B T R n c) :
    Reflects B T (L ++ minedTxs (n.call B depth c).2) (n.call B depth c).1.utxos := by
  have hsame : ∀ a, minedTxs a = [] → Reflects B T (L ++ minedTxs a) n.utxos := fun a ha => by
    rwa [ha,List.append_nil]
  cases c with
  | submitTx tx =>
    rcases n.submitTx_cases B depth tx with hcall | ⟨m,r,_,hcall⟩ <;> rw [hcall] <;> exact hsame _ rfl
  | generateBlock script incl extra timestamp =>
    rcases n.generateBlock_cases B depth script incl extra timestamp with
      ⟨e,_,hcall⟩ | ⟨raw,txs,ha,⟨hs,e,_,hcall⟩ | ⟨hs,hd,_,⟨e,_,hcall⟩ | ⟨rawBlock,_,hcall⟩⟩⟩ <;>
      rw [hcall]
    · exact hsame _ rfl
    · exact hsame _ rfl
    · exact hsame _ rfl
    · obtain ⟨coinbase,rfl,hasm⟩ := hm.assembled hcb ha (hc raw txs ha).2.2
      exact h.connect hinj hm.known hm.origin hm.sealed hasm (n.height+1)
  | acceptBlock raw txs => exact hc.elim

theorem reflects_start {reward : ℤ} {towers : List Tower} :
    Reflects B T (minedIn ([] : List (EmbeddedNode × RaceCall × NodeAnswer)))
      (EmbeddedNode.init B reward towers).utxos where
  agrees t _ _ i := by
    have hnone : (EmbeddedNode.init B reward towers).utxos.lookup (B.txHash t,i) = none :=
      Finmap.lookup_empty _
    rw [hnone,ledgerOutput,if_neg (fun h => List.not_mem_nil h.1)]
    rfl
  grounded o ho := (List.not_mem_nil ho).elim

section Start
variable {reward : ℤ} {towers : List Tower} (hinj : Set.InjOn B.txHash T)
  (hhash : Set.InjOn (headerHash B) R)
  (hcb : ∀ value script height extra, B.isCoinbase (makeCoinbase value script height extra) = true)
  (hR : (EmbeddedNode.init B reward towers).genesis ∈ R) {calls : List RaceCall}
  (hc : Along (EmbeddedNode.raceCall B depth) (RaceAllowed B T R)
    (EmbeddedNode.init B reward towers) calls)

include hinj hhash hcb hR hc

theorem reflects_run :
    Mining B T R {t | t ∈ minedIn (trace (EmbeddedNode.raceCall B depth)
        (EmbeddedNode.init B reward towers) calls)}
      (run (EmbeddedNode.raceCall B depth) (EmbeddedNode.init B reward towers) calls) ∧
    Reflects B T (minedIn (trace (EmbeddedNode.raceCall B depth) (EmbeddedNode.init B reward towers)
      calls)) (run (EmbeddedNode.raceCall B depth) (EmbeddedNode.init B reward towers) calls).utxos := by
  have hstart : Mining B T R {t | t ∈ minedIn ([] : List (EmbeddedNode × RaceCall × NodeAnswer))}
        (EmbeddedNode.init B reward towers) ∧
      Reflects B T (minedIn ([] : List (EmbeddedNode × RaceCall × NodeAnswer)))
        (EmbeddedNode.init B reward towers).utxos := ⟨mining_start hR,reflects_start⟩
  refine history_invariant (I := fun past n => Mining B T R {t | t ∈ minedIn past} n ∧
    Reflects B T (minedIn past) n.utxos) ?_ hstart hc
  rintro past n c ⟨hM,hr⟩ hrc
  rw [minedIn_concat]
  refine ⟨hM.raceCall_list depth hinj hhash hcb hrc,?_⟩
  refine raceCall_rule depth (P := fun n' L => Reflects B T (minedIn past ++ L) n'.utxos) hrc ?_
    (fun _ hd => hr.call hM hinj hcb hd) fun _ _ _ hL => hL
  rw [List.append_nil]
  exact hr

/-- After every run the table of unspent outputs is what the mined transactions say: it has an output
of a transaction that pays something exactly when that transaction was mined and no mined transaction
spends the output, with the value and script it was made with; and everything in it is an output of a
mined transaction. -/
theorem utxos_exact :
    (∀ t ∈ T, t.Rich → ∀ i,
      ((run (EmbeddedNode.raceCall B depth) (EmbeddedNode.init B reward towers) calls).utxos.lookup
        (B.txHash t,i)).map UtxoEntry.asTxOutput =
        ledgerOutput B (minedIn (trace (EmbeddedNode.raceCall B depth)
          (EmbeddedNode.init B reward towers) calls)) t i) ∧
    ∀ o e, (run (EmbeddedNode.raceCall B depth) (EmbeddedNode.init B reward towers) calls).utxos.lookup
        o = some e →
      ∃ t ∈ minedIn (trace (EmbeddedNode.raceCall B depth) (EmbeddedNode.init B reward towers) calls),
        B.txHash t = o.1 ∧ t.outputs[o.2]? = some e.asTxOutput := by
  obtain ⟨hM,hr⟩ := reflects_run hinj hhash hcb hR hc
  exact ⟨hr.agrees,hM.origin⟩

end Start
end Run

open Reference in
/-- After the sample race the bond that was forfeited is gone and the other one is there. -/
theorem utxos_exact_sample :
    ((raceRun (raceStart ++ raceEnd)).utxos.lookup
      ((sampleChannel anyone).fundingTxid (reference anyone),1)).map UtxoEntry.asTxOutput = none ∧
    ((raceRun (raceStart ++ raceEnd)).utxos.lookup
      ((sampleChannel anyone).fundingTxid (reference anyone),2)).map UtxoEntry.asTxOutput =
        (sampleChannel anyone).fundingTx.outputs[2]? := by
  obtain ⟨hrun,_⟩ := race_facts
  have hcanon := (obtained_sampleChannel anyone).canonical
  have hexact := (utxos_exact hrun.txids hrun.headers (isCoinbase_makeCoinbase _) hrun.start
    hrun.allowed).1 (sampleChannel anyone).fundingTx (by decide +kernel) hcanon.rich
  have hledger : ledgerOutput (reference anyone) (minedIn (trace (EmbeddedNode.raceCall (reference anyone) 1)
        (sampleNode anyone []) (raceStart ++ raceEnd))) (sampleChannel anyone).fundingTx 1 = none ∧
      ledgerOutput (reference anyone) (minedIn (trace (EmbeddedNode.raceCall (reference anyone) 1)
        (sampleNode anyone []) (raceStart ++ raceEnd))) (sampleChannel anyone).fundingTx 2 =
          (sampleChannel anyone).fundingTx.outputs[2]? := by
    decide +kernel
  exact ⟨(hexact 1).trans hledger.1,(hexact 2).trans hledger.2⟩

end SubsatChannel
