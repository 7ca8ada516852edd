import SubsatChannel.Lib.Transition
import SubsatChannel.Node.Calls
import SubsatChannel.Reference

/-! Histories of a mempool: its two tables agree after every call, and the sequence number that
holds an outpoint rises as long as replacements spend all that the replaced transaction spent. -/
namespace SubsatChannel
open Transition Relation

/-- A call on a mempool; a submission comes with the unspent outputs of that moment. -/
inductive MempoolCall
  | submit (U : UtxoSet) (tx : Tx)
  | evict (txid : Bytes)

inductive MempoolAnswer
  | admission (r : Except Fault ValidationResult)
  | evicted (tx : Option Tx)
  | tooDeep

namespace Mempool
variable {ω : Type}

def call (B : Bitcoinx) (depth : ℕ) (m : Mempool Tower) :
    MempoolCall → Mempool Tower × MempoolAnswer
  | .submit U tx =>
    match m.admitTx B (Tower.observe B) U depth tx with
    | none => (m,.tooDeep)
    | some (m',r) => (m',.admission r)
  | .evict txid =>
    match m.evict B (Tower.observe B) ∅ depth txid with
    | none => (m,.tooDeep)
    | some (m',tx) => (m',.evicted tx)

/-- The tables of a mempool agree: an outpoint is listed under the entry that spends it, no two
entries share one, and an entry stands under its txid. -/
structure Indexed (B : Bitcoinx) (m : Mempool ω) : Prop where
  spentBy : ∀ o t, m.spentBy.lookup o = some t ↔
    ∃ e, m.entries.get? t = some e ∧ ∃ tin ∈ e.tx.inputs, tin.outpoint = o
  disjoint : ∀ s t e f, m.entries.get? s = some e → m.entries.get? t = some f → s ≠ t →
    ∀ o ∈ e.tx.outpoints, o ∉ f.tx.outpoints
  keyed : ∀ t e, m.entries.get? t = some e → B.txHash e.tx = t

section Indexed
variable {B : Bitcoinx} {m : Mempool ω}

theorem indexed_iff : m.Indexed B ↔ m.Consistent B := by
  constructor
  · intro h
    exact ⟨h.keyed,fun o t => by rw [h.spentBy]; simp only [Tx.outpoints,List.mem_map]⟩
  · intro h
    refine ⟨fun o t => by rw [h.held]; simp only [Tx.outpoints,List.mem_map],?_,h.keyed⟩
    intro s t e f he hf hne o ho ho'
    exact hne (h.spender_unique he hf ho ho').1

/-- A refusing call neither changes the mempool nor lets an observer react: any other observers
would have left the same result. -/
theorem admitTx_refused {handle : Handler ω} {U : UtxoSet} {depth : ℕ} {tx : Tx} {m' : Mempool ω}
    {r : ValidationResult} (h : m.admitTx B handle U depth tx = some (m',.ok r))
    (hr : r.ok = false) : m' = m ∧ ∀ (handle' : Handler ω) (depth' : ℕ),
      m.admitTx B handle' U (depth'+1) tx = some (m,.ok r) := by
  have hins : ∀ {handle : Handler ω} {submit k event}, (validateTx B tx U).ok = true →
      insertAndNotify B handle submit k event tx (validateTx B tx U) ≠ some (m',.ok r) := by
    intro handle submit k event hok he
    unfold insertAndNotify at he
    split at he
    · cases he
    · cases he
      rw [hok] at hr
      cases hr
  cases depth with
  | zero => cases h
  | succ depth =>
    simp only [admitTx,admitWith] at h ⊢
    by_cases hk : (m.entries.get? (B.txHash tx)).isSome = true
    · rw [if_pos hk] at h
      cases h
      cases hr
    · simp only [if_neg hk] at h ⊢
      split at h
      · split_ifs at h with hne hok
        · cases h
        · exact absurd h (hins hok)
        · cases h; simp [hr,hne]
      · split at h
        · cases h
        · split at h
          · cases h; simp
          · split_ifs at h with hok
            · split at h
              · cases h
              · exact absurd h (hins hok)
            · cases h; simp [hr]
      · cases h; simp

end Indexed

section Nested
variable {B : Bitcoinx} {U : UtxoSet} {m m' : Mempool Tower} {submit submit' : Admission Tower}

/-- A tower submits to consistent mempools only. -/
theorem observeInputs_congr (hs : StepwiseSubmit B U (fun _ => True) submit)
    (he : ∀ k t, k.Consistent B → submit' k t = submit k t) (i : ℕ) (ins : List TxInput)
    (hc : m.Consistent B) :
    Tower.observeInputs B submit' i ins m = Tower.observeInputs B submit i ins m := by
  induction ins generalizing m with
  | nil => rfl
  | cons tin ins ih =>
    simp only [Tower.observeInputs,he _ _ hc]
    split
    · exact ih hc
    · split
      · rfl
      · rename_i current _
        split
        · rfl
        · split_ifs
          · exact ih hc
          · cases hsub : submit m current with
            | none => rfl
            | some p =>
              obtain ⟨m₁,r⟩ := p
              have hc₁ := (hs _ _ _ _ hc trivial (fun _ _ => trivial) hsub).consistent hc
              cases r with
              | error e => rfl
              | ok res =>
                by_cases hok : res.ok = true
                · simp only [hok,if_true]; exact ih (hc₁.countIntervention i)
                · simp only [hok]; exact ih hc₁

theorem notifyFrom_congr (hs : StepwiseSubmit B U (fun _ => True) submit)
    (he : ∀ k t, k.Consistent B → submit' k t = submit k t) {event : MempoolEvent} {tx : Tx}
    (count i : ℕ) (hc : m.Consistent B) :
    notifyFrom (Tower.observe B) submit' event tx count i m =
      notifyFrom (Tower.observe B) submit event tx count i m := by
  induction count generalizing m i with
  | zero => rfl
  | succ count ih =>
    have hobs : Tower.observe B submit' i m event tx = Tower.observe B submit i m event tx := by
      cases event with
      | evict => rfl
      | admitted => exact observeInputs_congr hs he i tx.inputs hc
      | replace => exact observeInputs_congr hs he i tx.inputs hc
    simp only [notifyFrom,hobs]
    cases h : Tower.observe B submit i m event tx with
    | none => rfl
    | some m₁ =>
      have hsteps : MempoolSteps B U (fun _ => True) m m₁ :=
        observe_steps hs i hc (fun _ _ => trivial) h
      exact ih (i+1) (hsteps.consistent hc)

/-- Every nested call starts on a consistent mempool: what it would answer elsewhere does not
matter. -/
theorem admitWith_congr (hs : StepwiseSubmit B U (fun _ => True) submit)
    (he : ∀ k t, k.Consistent B → submit' k t = submit k t) (hc : m.Consistent B) (tx : Tx) :
    admitWith B (Tower.observe B) submit' U m tx = admitWith B (Tower.observe B) submit U m tx := by
  rcases admitWith_spec (Tower.observe_evict B) hc with ⟨_,r,_,hr⟩ | ⟨m₁,event,htaken,_,hr⟩
  · rw [hr,hr]
  · rw [hr,hr,notify,notify,notifyFrom_congr hs he _ 0 (htaken.consistent hc)]

theorem call_consistent (depth : ℕ) (hc : m.Consistent B) (c : MempoolCall) :
    (m.call B depth c).1.Consistent B := by
  cases c with
  | submit U tx =>
    simp only [call]
    split
    · exact hc
    · rename_i m₁ r h
      exact (admit_steps (T := fun _ => True) depth _ _ _ _ hc trivial (fun _ _ => trivial)
        h).consistent hc
  | evict txid =>
    simp only [call,evict_eq]
    exact hc.drop txid

theorem run_consistent (depth : ℕ) (towers : List Tower) (calls : List MempoolCall) :
    (run (call B depth) (.fresh towers) calls).Consistent B :=
  run_invariant (I := fun m : Mempool Tower => m.Consistent B)
    (fun _ c hc _ => call_consistent depth hc c) (consistent_fresh B towers) (along_true _ _ calls)

end Nested
end Mempool

/-- After any calls of `admit` and `evict` on a mempool with towers the tables agree. The calls that
the towers make from inside a notification start on such a mempool and leave one: what another
way of submitting would do to other mempools does not matter. A call that refuses changes nothing
and reaches no observer. -/
theorem mempool_index_consistent (B : Bitcoinx) (towers : List Tower) (depth : ℕ)
    (calls : List MempoolCall) :
    (run (Mempool.call B depth) (.fresh towers) calls).Indexed B ∧
    (∀ U d (m : Mempool Tower), m.Indexed B → ∀ tx,
      (∀ m' r, m.admitTx B (Tower.observe B) U d tx = some (m',r) → m'.Indexed B) ∧
      ∀ submit, (∀ k : Mempool Tower, k.Indexed B → ∀ t,
          submit k t = k.admitTx B (Tower.observe B) U d t) →
        Mempool.admitWith B (Tower.observe B) submit U m tx =
          m.admitTx B (Tower.observe B) U (d+1) tx) ∧
    ∀ U d (m m' : Mempool Tower) tx r, m.admitTx B (Tower.observe B) U d tx = some (m',.ok r) →
      r.ok = false → m' = m ∧ ∀ (handle : Handler Tower) (d' : ℕ),
        m.admitTx B handle U (d'+1) tx = some (m,.ok r) := by
  refine ⟨Mempool.indexed_iff.mpr (Mempool.run_consistent depth towers calls),fun U d m hm tx => ?_,?_⟩
  · have hc := Mempool.indexed_iff.mp hm
    have hs : StepwiseSubmit B U (fun _ => True) (Mempool.admitTx B (Tower.observe B) U d) :=
      admit_steps d
    refine ⟨fun m' r h => Mempool.indexed_iff.mpr ?_,fun submit he => ?_⟩
    · exact (hs _ _ _ _ hc trivial (fun _ _ => trivial) h).consistent hc
    · exact Mempool.admitWith_congr hs (fun k t hk => he k (Mempool.indexed_iff.mpr hk) t) hc tx
  · intro U d m m' tx r h hr
    exact Mempool.admitTx_refused h hr

namespace Mempool
variable {B : Bitcoinx} {U : UtxoSet} {depth : ℕ} {m m' m₁ m₂ : Mempool Tower} {tx : Tx}

/-- The transaction that `admit` would replace by `tx`. -/
def replaced (B : Bitcoinx) (U : UtxoSet) (m : Mempool Tower) (tx : Tx) : Option Tx :=
  if (m.entries.get? (B.txHash tx)).isSome then none
  else
    match m.conflictingTxids B tx with
    | [oldTxid] => (m.entries.get? oldTxid).bind fun old =>
        if (seqViolation (seqsByOutpoint old.tx) tx).isNone && (validateTx B tx U).ok then some old.tx
        else none
    | _ => none

/-- No submission replaces a transaction without spending all of its outpoints, and nothing is evicted from
outside. Besides the submission of the caller these are all that an attached tower could make of what it holds,
in any state that the mempool can come to in the course of the call, and not only those it does make. -/
def Covering (B : Bitcoinx) (m : Mempool Tower) : MempoolCall → Prop
  | .submit U tx => ∀ m' t old,
      MempoolSteps B U (fun t => t = tx ∨ Held B (registries m) t) m m' →
      (t = tx ∨ Held B (registries m) t) → m'.replaced B U t = some old →
        old.outpoints ⊆ t.outpoints
  | .evict _ => False

/-- Without towers only the submitted transaction can replace anything, and only at once. -/
theorem covering_submit_iff (ho : m.observers = []) : Covering B m (.submit U tx) ↔
    ∀ old, m.replaced B U tx = some old → old.outpoints ⊆ tx.outpoints := by
  have hreg : ∀ t, ¬ Held B (registries m) t := by
    rintro t ⟨reg,hreg,_⟩
    simp [registries,ho] at hreg
  constructor
  · intro h old hold
    exact h m tx old .refl (.inl rfl) hold
  · intro h m' t old hs ht hold
    have htx : t = tx := ht.resolve_right (hreg t)
    subst htx
    have hm' : m' = m ∨ (m'.entries.get? (B.txHash t)).isSome = true := by
      have hobs : m'.observers = [] ∧ (m' = m ∨ (m'.entries.get? (B.txHash t)).isSome = true) := by
        refine hs.keep (I := fun k => k.observers = [] ∧
          (k = m ∨ (k.entries.get? (B.txHash t)).isSome = true)) (fun k k' hk hstep => ?_)
          ⟨ho,.inl rfl⟩
        cases hstep with
        | take u hu htaken =>
          obtain rfl := hu.resolve_right (hreg u)
          obtain ⟨e,he,_⟩ := htaken.entry
          exact ⟨by rw [htaken.observers]; exact hk.1,.inr (by rw [he]; rfl)⟩
        | count i =>
          have hsame : Tower.countIntervention k i = k := by
            simp only [Tower.countIntervention,hk.1,List.modify_nil]
            rw [← hk.1]
          rw [hsame]
          exact hk
      exact hobs.2
    rcases hm' with rfl | hknown
    · exact h old hold
    · simp only [replaced,hknown,if_true] at hold
      cases hold

/-- The transaction spends the outpoint with higher sequence numbers only. -/
def Outbids (tx : Tx) (o : Outpoint) (p : ℕ) : Prop :=
  ∀ tin ∈ tx.inputs, tin.outpoint = o → p < tin.sequence

/-- What the first mempool spends, the second one spends by the same transaction or with a higher
sequence number. -/
def Rises (m m' : Mempool Tower) : Prop :=
  ∀ a ∈ m.allTxs, ∀ o p, (seqsByOutpoint a).lookup o = some p →
    ∃ b ∈ m'.allTxs, o ∈ b.outpoints ∧ (b = a ∨ Outbids b o p)

theorem Rises.refl (m : Mempool Tower) : Rises m m :=
  fun a ha _ _ hp => ⟨a,ha,outpoint_of_lookup hp,.inl rfl⟩

theorem Rises.trans (h : Rises m m₁) (h' : Rises m₁ m₂) : Rises m m₂ := by
  intro a ha o p hp
  obtain ⟨b,hb,hob,hab⟩ := h a ha o p hp
  rcases hab with rfl | hab
  · exact h' b hb o p hp
  · obtain ⟨q,hq⟩ := lookup_seqsByOutpoint_of_mem hob
    obtain ⟨c,hc,hoc,hbc⟩ := h' b hb o q hq
    rcases hbc with rfl | hbc
    · exact ⟨c,hc,hoc,.inr hab⟩
    · refine ⟨c,hc,hoc,.inr fun tin ht ho => ?_⟩
      obtain ⟨tin',ht',ho',rfl⟩ := lookup_seqsByOutpoint hq
      exact (hab tin' ht' ho').trans (hbc tin ht ho)

/-- The conflicts of a transaction that replaces an entry are that entry alone. -/
theorem conflictingTxids_eq_singleton {oldTxid : Bytes} (hne : oldTxid ≠ B.txHash tx)
    (hconf : ∃ o ∈ tx.outpoints, m.spentBy.lookup o = some oldTxid)
    (honly : ∀ o ∈ tx.outpoints, ∀ t, m.spentBy.lookup o = some t → t = oldTxid) :
    m.conflictingTxids B tx = [oldTxid] := by
  rw [← List.perm_singleton]
  refine (List.perm_ext_iff_of_nodup (List.nodup_dedup _) (List.nodup_singleton _)).mpr fun t => ?_
  rw [List.mem_singleton]
  constructor
  · intro ht
    obtain ⟨_,o,ho,hl⟩ := mem_conflictingTxids.mp ht
    exact honly o ho t hl
  · rintro rfl
    exact mem_conflictingTxids.mpr ⟨hne,hconf⟩

/-- Taking a transaction in raises the sequence numbers when it spends all that the transaction
it replaces did. -/
theorem Taken.rises (h : Taken B U m tx m₁)
    (hcover : ∀ old, m.replaced B U tx = some old → old.outpoints ⊆ tx.outpoints) :
    Rises m m₁ := by
  intro a ha o p hp
  obtain ⟨txid,e,he,rfl⟩ := mem_allTxs.mp ha
  have hkept : m₁.entries.get? txid = some e →
      ∃ b ∈ m₁.allTxs, o ∈ b.outpoints ∧ (b = e.tx ∨ Outbids b o p) :=
    fun hk => ⟨e.tx,mem_allTxs.mpr ⟨txid,e,hk,rfl⟩,outpoint_of_lookup hp,.inl rfl⟩
  have hnew : B.txHash tx ≠ txid := by
    rintro rfl
    rw [h.new] at he
    cases he
  obtain ⟨f,hf,hftx⟩ := h.entry
  cases h with
  | plain hn hfree hok => exact hkept (by rw [get?_insert,if_neg hnew]; exact he)
  | replacing oldTxid old hn hold hne hconf honly hseq hok =>
    by_cases ht : oldTxid = txid
    · subst ht
      rw [hold] at he
      cases he
      have hrep : m.replaced B U tx = some e.tx := by
        simp [replaced,hn,conflictingTxids_eq_singleton hne hconf honly,hold,hseq,hok]
      refine ⟨tx,mem_allTxs.mpr ⟨_,f,hf,hftx⟩,hcover _ hrep (outpoint_of_lookup hp),.inr ?_⟩
      intro tin htin ho
      exact lt_of_seqViolation_none hseq htin (by rw [ho]; exact hp)
    · refine hkept ?_
      rw [get?_insert,if_neg hnew,get?_remove,if_neg ht]
      exact he

theorem call_rises (hc : m.Consistent B) {c : MempoolCall} (h : Covering B m c) :
    Rises m (m.call B depth c).1 := by
  cases c with
  | evict txid => exact absurd h id
  | submit U tx =>
    simp only [call]
    split
    · exact .refl m
    · rename_i m₁ r hm
      have hsteps := admit_steps (T := fun t => t = tx ∨ Held B (registries m) t) depth _ _ _ _ hc
        (.inl rfl) (fun t ht => .inr ht) hm
      clear hm
      induction hsteps with
      | refl => exact .refl m
      | tail hs hstep ih =>
        refine ih.trans ?_
        cases hstep with
        | take t ht htaken =>
          exact htaken.rises fun old ho => h _ t old hs ht ho
        | count i => exact .refl _

theorem run_rises {calls : List MempoolCall} (hc : m.Consistent B)
    (h : Along (call B depth) (Covering B) m calls) : Rises m (run (call B depth) m calls) := by
  have hstep : ∀ (k : Mempool Tower) c, (k.Consistent B ∧ Rises m k) → Covering B k c →
      (k.call B depth c).1.Consistent B ∧ Rises m (k.call B depth c).1 :=
    fun k c hk hcov => ⟨call_consistent depth hk.1 c,hk.2.trans (call_rises hk.1 hcov)⟩
  exact (run_invariant hstep ⟨hc,.refl m⟩ h).2

end Mempool

/-- In a run of submissions in which every replacement covers what it replaces, a transaction that
takes an outpoint over from another one spends it with a higher sequence number, however many
replacements lie between the two. -/
theorem highest_sequence_per_outpoint (B : Bitcoinx) (towers : List Tower) (depth : ℕ)
    (pre post : List MempoolCall)
    (h : Along (Mempool.call B depth) (Mempool.Covering B) (.fresh towers) (pre ++ post)) :
    ∀ a ∈ (run (Mempool.call B depth) (.fresh towers) pre).allTxs,
    ∀ b ∈ (run (Mempool.call B depth) (.fresh towers) (pre ++ post)).allTxs, a ≠ b →
    ∀ o p, (seqsByOutpoint a).lookup o = some p → ∀ tin ∈ b.inputs, tin.outpoint = o →
      p < tin.sequence := by
  intro a ha b hb hab o p hp tin htin ho
  have hrise := Mempool.run_rises (Mempool.run_consistent depth towers pre)
    ((along_append _ _ _ pre post).mp h).2
  rw [← run_append] at hrise
  obtain ⟨c,hc,hoc,hac⟩ := hrise a ha o p hp
  have hob : o ∈ b.outpoints := List.mem_map.mpr ⟨tin,htin,ho⟩
  have hbc : c = b := by
    obtain ⟨s,e,he,rfl⟩ := Mempool.mem_allTxs.mp hc
    obtain ⟨t,f,hf,rfl⟩ := Mempool.mem_allTxs.mp hb
    have hu := (Mempool.run_consistent depth towers (pre ++ post)).spender_unique he hf hoc hob
    rw [hu.2]
  subst hbc
  rcases hac with rfl | hac
  · exact absurd rfl hab
  · exact hac tin htin ho

namespace Reference

/-- Two outputs of 1000 satoshis, open to anyone. -/
def twoCoins : UtxoSet :=
  Finmap.insert ([1],0) ⟨1000,trueScript,1⟩ (Finmap.insert ([2],0) ⟨1000,trueScript,1⟩ ∅)

/-- Spend coins with given sequence numbers. -/
def spendCoins (ins : List (UInt8 × ℕ)) : Tx :=
  ⟨1,ins.map fun i => ⟨[i.1],0,[],i.2⟩,[⟨900,trueScript⟩],0⟩

/-- The mempool after some spends of the two coins were submitted, without towers. -/
def afterSpends (spends : List (List (UInt8 × ℕ))) : Mempool Tower :=
  run (Mempool.call (reference anyone) 1) (.fresh [])
    (spends.map fun ins => .submit twoCoins (spendCoins ins))

end Reference

open Reference in
theorem highest_sequence_per_outpoint_sample :
    spendCoins [(1,5)] ∈ (afterSpends [[(1,5)]]).allTxs ∧
    spendCoins [(1,6),(2,1)] ∈ (afterSpends [[(1,5)],[(1,6),(2,1)]]).allTxs ∧ (5 : ℕ) < 6 := by
  refine ⟨by decide +kernel,by decide +kernel,?_⟩
  have hc : Along (Mempool.call (reference anyone) 1) (Mempool.Covering (reference anyone)) (.fresh [])
      ([.submit twoCoins (spendCoins [(1,5)])] ++ [.submit twoCoins (spendCoins [(1,6),(2,1)])]) := by
    refine ⟨(Mempool.covering_submit_iff rfl).mpr ?_,(Mempool.covering_submit_iff ?_).mpr ?_,trivial⟩
    · decide +kernel
    · rfl
    · decide +kernel
  exact highest_sequence_per_outpoint (reference anyone) [] 1 _ _ hc (spendCoins [(1,5)])
    (by decide +kernel) (spendCoins [(1,6),(2,1)]) (by decide +kernel) (by decide) ([1],0) 5
    (by decide +kernel) ⟨[1],0,[],6⟩ (by decide) rfl

open Reference in
/-- A replacement that shares one of two outpoints frees the other one, which is then spent again
with a lower sequence number. -/
theorem sequence_falls : spendCoins [(1,5),(2,5)] ∈ (afterSpends [[(1,5),(2,5)]]).allTxs ∧
    spendCoins [(2,1)] ∈ (afterSpends [[(1,5),(2,5)],[(1,6)],[(2,1)]]).allTxs ∧
    (seqsByOutpoint (spendCoins [(1,5),(2,5)])).lookup ([2],0) = some 5 ∧
    (seqsByOutpoint (spendCoins [(2,1)])).lookup ([2],0) = some 1 := by
  decide +kernel

end SubsatChannel
