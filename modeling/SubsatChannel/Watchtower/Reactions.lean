import Mathlib
import SubsatChannel.Node.MempoolInvariant
import SubsatChannel.Watchtower.Tower

/-! What a call of `admit` can do to a mempool with towers attached. However deeply the towers
nest their own submissions, the call is a sequence of two kinds of step: a transaction is taken
in, or a tower counts an intervention. -/
namespace SubsatChannel
open Relation

/-- The registries of the attached towers; no call changes them. -/
def registries (m : Mempool Tower) : List Registry := m.observers.map Tower.registry

/-- One of the registries holds this transaction as the current state of a channel. -/
def Held (B : Bitcoinx) (regs : List Registry) (tx : Tx) : Prop :=
  ∃ reg ∈ regs, ∃ c r, reg.get c = some r ∧ r.currentStateTx B = some tx

namespace Tower

@[simp] theorem observe_evict (B : Bitcoinx) (submit : Admission Tower) (i : ℕ) (m : Mempool Tower)
    (tx : Tx) : observe B submit i m .evict tx = some m := rfl

theorem observe_of_ne_evict (B : Bitcoinx) (submit : Admission Tower) (i : ℕ) (m : Mempool Tower)
    {event : MempoolEvent} (he : event ≠ .evict) (tx : Tx) :
    observe B submit i m event tx = observeInputs B submit i tx.inputs m := by
  cases event with
  | evict => exact absurd rfl he
  | admitted => rfl
  | replace => rfl

@[simp] theorem registries_countIntervention (m : Mempool Tower) (i : ℕ) :
    registries (countIntervention m i) = registries m := by
  simp only [registries,countIntervention]
  apply List.ext_getElem?
  intro j
  simp only [List.getElem?_map,List.getElem?_modify]
  cases m.observers[j]? with
  | none => rfl
  | some t => by_cases h : i = j <;> simp [h]

@[simp] theorem entries_countIntervention (m : Mempool Tower) (i : ℕ) :
    (countIntervention m i).entries = m.entries := rfl
@[simp] theorem spentBy_countIntervention (m : Mempool Tower) (i : ℕ) :
    (countIntervention m i).spentBy = m.spentBy := rfl
@[simp] theorem length_countIntervention (m : Mempool Tower) (i : ℕ) :
    (countIntervention m i).observers.length = m.observers.length := by
  simp [countIntervention]

/-- The record an attached tower finds for an input is in one of the registries. -/
theorem recordFor_held {B : Bitcoinx} {m : Mempool Tower} {i : ℕ} {tin : TxInput}
    {record : WatchRecord} {current : Tx}
    (hr : ((m.observers[i]?).bind fun t => t.recordFor tin) = some record)
    (hc : record.currentStateTx B = some current) : Held B (registries m) current := by
  obtain ⟨t,ht,hrec⟩ := Option.bind_eq_some_iff.mp hr
  simp only [recordFor] at hrec
  split_ifs at hrec
  exact ⟨t.registry,List.mem_map.mpr ⟨t,List.mem_of_getElem? ht,rfl⟩,tin.prevHash,record,hrec,hc⟩

end Tower

theorem Mempool.Consistent.countIntervention {B : Bitcoinx} {m : Mempool Tower}
    (hc : m.Consistent B) (i : ℕ) : (Tower.countIntervention m i).Consistent B :=
  ⟨hc.keyed,hc.held⟩

/-- One step inside a call of `admit` in which only transactions with `T` are taken in. -/
inductive MempoolStep (B : Bitcoinx) (U : UtxoSet) (T : Tx → Prop) :
    Mempool Tower → Mempool Tower → Prop
  | take {m m₁ : Mempool Tower} (tx : Tx) (ht : T tx) (h : Mempool.Taken B U m tx m₁) :
      MempoolStep B U T m m₁
  | count (m : Mempool Tower) (i : ℕ) : MempoolStep B U T m (Tower.countIntervention m i)

/-- The steps of one call, nested calls included. -/
abbrev MempoolSteps (B : Bitcoinx) (U : UtxoSet) (T : Tx → Prop) :
    Mempool Tower → Mempool Tower → Prop := ReflTransGen (MempoolStep B U T)

variable {B : Bitcoinx} {U : UtxoSet} {T : Tx → Prop} {m m' : Mempool Tower}

/-- A property of mempools that every step keeps is kept by a whole call. -/
theorem MempoolSteps.keep {I : Mempool Tower → Prop}
    (step : ∀ m m', I m → MempoolStep B U T m m' → I m') (h : MempoolSteps B U T m m')
    (hi : I m) : I m' := by
  induction h with
  | refl => exact hi
  | tail _ hs ih => exact step _ _ ih hs

theorem MempoolSteps.consistent (h : MempoolSteps B U T m m') (hc : m.Consistent B) :
    m'.Consistent B := by
  refine h.keep (fun m m' hc hs => ?_) hc
  cases hs with
  | take tx ht h => exact h.consistent hc
  | count i => exact hc.countIntervention i

theorem MempoolSteps.registries_eq (h : MempoolSteps B U T m m') :
    registries m' = registries m := by
  refine h.keep (I := fun m' => registries m' = registries m) (fun m₁ m₂ he hs => ?_) rfl
  cases hs with
  | take tx ht h => rw [← he,registries,registries,h.observers]
  | count i => rw [← he,Tower.registries_countIntervention]

/-- Every entry is an old one or belongs to a transaction that was taken in. -/
theorem MempoolSteps.entry (h : MempoolSteps B U T m m') {txid : Bytes} {e : MempoolEntry}
    (he : m'.entries.get? txid = some e) : m.entries.get? txid = some e ∨
      (T e.tx ∧ (validateTx B e.tx U).ok = true ∧ e.fee = (validateTx B e.tx U).fee) := by
  induction h generalizing e with
  | refl => exact .inl he
  | tail _ hs ih =>
    cases hs with
    | take tx ht h =>
      rcases h.entry_old he with ⟨_,rfl,hfee⟩ | hold
      · exact .inr ⟨ht,h.validated,hfee⟩
      · exact ih hold
    | count i => exact ih he

/-- A submission made from inside a notification: what the towers may rely on. -/
def StepwiseSubmit (B : Bitcoinx) (U : UtxoSet) (T : Tx → Prop) (submit : Admission Tower) : Prop :=
  ∀ m tx m' r, m.Consistent B → T tx → (∀ t, Held B (registries m) t → T t) →
    submit m tx = some (m',r) → MempoolSteps B U T m m'

theorem observeInputs_steps {submit : Admission Tower} (hs : StepwiseSubmit B U T submit) (i : ℕ)
    (ins : List TxInput) (hc : m.Consistent B) (hT : ∀ t, Held B (registries m) t → T t)
    (h : Tower.observeInputs B submit i ins m = some m') : MempoolSteps B U T m m' := by
  induction ins generalizing m with
  | nil => cases h; exact .refl
  | cons tin ins ih =>
    simp only [Tower.observeInputs] at h
    split at h
    · exact ih hc hT h
    · rename_i record hr
      split at h
      · cases h; exact .refl
      · rename_i current hcur
        split at h
        · cases h; exact .refl
        · split_ifs at h
          · exact ih hc hT h
          · split at h
            · cases h
            · rename_i m₁ f hsub
              cases h
              exact hs _ _ _ _ hc (hT _ (Tower.recordFor_held hr hcur)) hT hsub
            · rename_i m₁ res hsub
              have h₁ := hs _ _ _ _ hc (hT _ (Tower.recordFor_held hr hcur)) hT hsub
              have hc₁ := h₁.consistent hc
              have hT₁ : ∀ t, Held B (registries m₁) t → T t := by rwa [h₁.registries_eq]
              split_ifs at h
              · have h₂ := ih (hc₁.countIntervention i)
                  (by rwa [Tower.registries_countIntervention]) h
                exact h₁.trans (h₂.head (.count m₁ i))
              · exact h₁.trans (ih hc₁ hT₁ h)

theorem observe_steps {submit : Admission Tower} (hs : StepwiseSubmit B U T submit)
    {event : MempoolEvent} {tx : Tx} (i : ℕ) (hc : m.Consistent B)
    (hT : ∀ t, Held B (registries m) t → T t)
    (h : Tower.observe B submit i m event tx = some m') : MempoolSteps B U T m m' := by
  cases event with
  | evict => cases h; exact .refl
  | admitted => exact observeInputs_steps hs i tx.inputs hc hT h
  | replace => exact observeInputs_steps hs i tx.inputs hc hT h

theorem notifyFrom_steps {submit : Admission Tower} (hs : StepwiseSubmit B U T submit)
    {event : MempoolEvent} {tx : Tx} (count i : ℕ) (hc : m.Consistent B)
    (hT : ∀ t, Held B (registries m) t → T t)
    (h : Mempool.notifyFrom (Tower.observe B) submit event tx count i m = some m') :
    MempoolSteps B U T m m' := by
  induction count generalizing m i with
  | zero => cases h; exact .refl
  | succ count ih =>
    simp only [Mempool.notifyFrom] at h
    split at h
    · cases h
    · rename_i m₁ hobs
      have h₁ : MempoolSteps B U T m m₁ := observe_steps hs i hc hT hobs
      exact h₁.trans (ih (i+1) (h₁.consistent hc) (by rwa [h₁.registries_eq]) h)

/-- One call of `admit` with towers attached: it changes nothing, or it takes the transaction in
and the towers react. It raises only on a transaction without inputs. -/
theorem admit_spec (U : UtxoSet) (depth : ℕ) (hc : m.Consistent B) (tx : Tx) :
    (Mempool.Refused B U m tx ∧ ∃ r, (tx.inputs ≠ [] → ∃ result, r = .ok result) ∧
      Mempool.admitTx B (Tower.observe B) U (depth+1) m tx = some (m,r)) ∨
    ∃ m₁ event, Mempool.Taken B U m tx m₁ ∧ event ≠ .evict ∧
      Mempool.admitTx B (Tower.observe B) U (depth+1) m tx =
        (Mempool.notify (Tower.observe B) (Mempool.admitTx B (Tower.observe B) U depth) m₁ event tx).map
          fun m' => (m',.ok (validateTx B tx U)) := by
  rcases Mempool.admitWith_spec (Tower.observe_evict B) hc with
    ⟨href,r,hok,hr⟩ | ⟨m₁,event,htaken,hne,hr⟩
  · exact .inl ⟨href,r,hok,hr _⟩
  · exact .inr ⟨m₁,event,htaken,hne,hr _⟩

/-- A call of `admit`, with all the submissions the towers make from inside it, is a sequence of
steps that take in the submitted transaction or transactions held by the towers. -/
theorem admit_steps (depth : ℕ) : StepwiseSubmit B U T (Mempool.admitTx B (Tower.observe B) U depth) := by
  induction depth with
  | zero => intro m tx m' r _ _ _ h; cases h
  | succ depth ih =>
    intro m tx m' r hc ht hT h
    rcases admit_spec U depth hc tx with ⟨_,r',_,hr⟩ | ⟨m₁,event,htaken,_,hr⟩
    · rw [h] at hr
      cases hr
      exact .refl
    · rw [h] at hr
      obtain ⟨m₂,hn,hm₂⟩ := Option.map_eq_some_iff.mp hr.symm
      cases hm₂
      have hT₁ : ∀ t, Held B (registries m₁) t → T t := by
        rwa [registries,htaken.observers]
      exact (notifyFrom_steps ih _ 0 (htaken.consistent hc) hT₁ hn).head (.take tx ht htaken)

namespace Mempool

/-- Forget the entry under a txid, if there is one. -/
def drop (m : Mempool Tower) (txid : Bytes) : Mempool Tower :=
  match m.entries.get? txid with
  | none => m
  | some e => m.remove txid e

/-- Towers do not react to evictions, so an eviction only forgets the entry. -/
theorem evict_eq (B : Bitcoinx) (U : UtxoSet) (depth : ℕ) (m : Mempool Tower) (txid : Bytes) :
    m.evict B (Tower.observe B) U depth txid =
      some (m.drop txid,(m.entries.get? txid).map MempoolEntry.tx) := by
  have hquiet : ∀ (count i : ℕ) (m : Mempool Tower) (t : Tx), notifyFrom (Tower.observe B)
      (admitTx B (Tower.observe B) U depth) .evict t count i m = some m := by
    intro count
    induction count with
    | zero => intros; rfl
    | succ count ih => intro i m t; exact ih (i+1) m t
  cases h : m.entries.get? txid with
  | none => simp [evict,evictInternal,drop,h]
  | some e => simp [evict,evictInternal,drop,h,notify,hquiet]

theorem get?_drop (m : Mempool Tower) (txid other : Bytes) :
    (m.drop txid).entries.get? other = if txid = other then none else m.entries.get? other := by
  unfold drop
  split
  · rename_i h
    split_ifs with he
    · rw [← he]; exact h
    · rfl
  · exact get?_remove _ _ _ _

theorem Consistent.drop (hc : m.Consistent B) (txid : Bytes) : (m.drop txid).Consistent B := by
  unfold Mempool.drop
  split
  · exact hc
  · rename_i e he
    exact hc.remove he

@[simp] theorem observers_drop (m : Mempool Tower) (txid : Bytes) :
    (m.drop txid).observers = m.observers := by
  unfold drop
  split <;> rfl

/-- Forget the entries under a list of txids. -/
def dropAll (m : Mempool Tower) (txids : List Bytes) : Mempool Tower := txids.foldl drop m

theorem dropAll_append (m : Mempool Tower) (a b : List Bytes) :
    m.dropAll (a ++ b) = (m.dropAll a).dropAll b :=
  List.foldl_append

theorem get?_dropAll (m : Mempool Tower) (txids : List Bytes) (other : Bytes) :
    (m.dropAll txids).entries.get? other =
      if other ∈ txids then none else m.entries.get? other := by
  induction txids generalizing m with
  | nil => simp [dropAll]
  | cons txid txids ih =>
    have h := ih (m.drop txid)
    simp only [dropAll,List.foldl_cons] at h ⊢
    rw [h,get?_drop]
    by_cases hm : other ∈ txids
    · simp [hm]
    · by_cases he : txid = other
      · simp [he]
      · simp [hm,he,Ne.symm he]

theorem Consistent.dropAll (hc : m.Consistent B) (txids : List Bytes) :
    (m.dropAll txids).Consistent B := by
  induction txids generalizing m with
  | nil => exact hc
  | cons txid txids ih => exact ih (hc.drop txid)

@[simp] theorem observers_dropAll (m : Mempool Tower) (txids : List Bytes) :
    (m.dropAll txids).observers = m.observers := by
  induction txids generalizing m with
  | nil => rfl
  | cons txid txids ih =>
    have h := ih (m.drop txid)
    simpa [dropAll] using h

/-- Dropping leaves no transaction that was not there. -/
theorem mem_allTxs_dropAll {txids : List Bytes} {tx : Tx} (h : tx ∈ (m.dropAll txids).allTxs) :
    tx ∈ m.allTxs := by
  obtain ⟨txid,e,he,rfl⟩ := mem_allTxs.mp h
  rw [get?_dropAll] at he
  split_ifs at he
  exact mem_allTxs.mpr ⟨txid,e,he,rfl⟩

/-- A transaction that stays in the mempool after some txids were dropped is none of them. -/
theorem Consistent.kept (hc : m.Consistent B) {txids : List Bytes} {t : Tx}
    (ht : t ∈ (m.dropAll txids).allTxs) : t ∈ m.allTxs ∧ B.txHash t ∉ txids := by
  refine ⟨mem_allTxs_dropAll ht,?_⟩
  obtain ⟨txid,e,he,rfl⟩ := mem_allTxs.mp ht
  rw [get?_dropAll] at he
  split_ifs at he with hm
  rwa [hc.keyed txid e he]

end Mempool
end SubsatChannel
