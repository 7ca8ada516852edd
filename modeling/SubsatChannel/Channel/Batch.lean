import SubsatChannel.Channel.Opened
import SubsatChannel.Channel.Rounding

/-! A batch of transfers against the same transfers one by one. The methods assign the new state to
the channel only when the call that computes it returns. -/
namespace SubsatChannel

theorem bind_eq_error {ε α β : Type*} {x : Except ε α} {f : α → Except ε β} {e : ε} :
    x.bind f = .error e ↔ x = .error e ∨ ∃ a,x = .ok a ∧ f a = .error e := by
  cases x with
  | error e' => simp [Except.bind]
  | ok a => simp [Except.bind]

theorem conservationCheck_error {s : State} {cfg : ChannelConfig} {e : Fault}
    (h : s.conservationCheck cfg = .error e) : e.kind = .accountingError := by
  obtain hok | ⟨e',he',hkind⟩ := s.conservationCheck_cases cfg
  · cases hok.symm.trans h
  · cases he'.symm.trans h
    exact hkind

/-- A transfer of a conserving allocation raises only accounting errors. -/
theorem transfer_cases {s : State} {cfg : ChannelConfig} (h : s.Conserving cfg) (i j delta : ℤ) :
    (∃ s',transfer s i j delta cfg = .ok s' ∧ s'.Conserving cfg ∧ s'.version = s.version+1) ∨
    ∃ e : Fault,transfer s i j delta cfg = .error e ∧ e.kind = .accountingError := by
  cases ht : transfer s i j delta cfg with
  | ok s' => exact .inl ⟨s',rfl,transfer_ok ht⟩
  | error e =>
    refine .inr ⟨e,rfl,?_⟩
    unfold transfer at ht
    split_ifs at ht with hij hi hj hd <;> try (cases ht; rfl)
    -- both parties have a balance, as the allocation has one for every party
    have hsi : i.toNat < s.balances.length := by
      rw [h.length]
      omega
    have hsj : j.toNat < s.balances.length := by
      rw [h.length]
      omega
    rw [List.getElem?_eq_getElem hsi,List.getElem?_eq_getElem hsj] at ht
    dsimp only at ht
    split_ifs at ht with hle
    · cases ht
      rfl
    · obtain hc | ⟨_,_,hret⟩ := bind_eq_error.mp ht
      · exact conservationCheck_error hc
      · cases hret

namespace Channel

/-- `self.state = ..`: the assignment is made when the right-hand side returns. -/
def assignState (ch : Channel) : Except Fault State → Channel × Except Fault State
  | .ok s => ({ ch with state := s },.ok s)
  | .error e => (ch,.error e)

/-- `apply_transfer` as a call on the channel object, which it leaves behind also when it raises. -/
def applyTransferCall (ch : Channel) (sender recipient delta : ℤ) : Channel × Except Fault State :=
  ch.assignState (transfer ch.state sender recipient delta ch.cfg)

/-- `apply_sequence` as a call on the channel object. -/
def applySequenceCall (ch : Channel) (ops : List (ℤ × ℤ × ℤ)) : Channel × Except Fault State :=
  ch.assignState (assertConservationOverSequence ch.state ops ch.cfg)

/-- The transfers of a list one by one, up to the first that raises. -/
def applyEach : Channel → List (ℤ × ℤ × ℤ) → Channel × Except Fault Unit
  | ch, [] => (ch,.ok ())
  | ch, (s,r,d) :: ops =>
    match ch.applyTransferCall s r d with
    | (ch',.ok _) => ch'.applyEach ops
    | (ch',.error e) => (ch',.error e)

variable {B : Bitcoinx} {ch : Channel} {ops : List (ℤ × ℤ × ℤ)} {s' : State} {e : Fault}

/-- The batch without the object it leaves behind. -/
theorem applySequence_eq (ch : Channel) (ops : List (ℤ × ℤ × ℤ)) : ch.applySequence ops =
    (ch.applySequenceCall ops).2.map fun _ => (ch.applySequenceCall ops).1 := by
  unfold applySequence applySequenceCall
  cases assertConservationOverSequence ch.state ops ch.cfg <;> rfl

/-- When the whole batch is accepted, so is every transfer at its turn. -/
theorem applyEach_of_ok (h : ch.state.Conserving ch.cfg)
    (ht : applyTransfers ch.cfg ch.state ops = .ok s') :
    ch.applyEach ops = ({ ch with state := s' },.ok ()) := by
  induction ops generalizing ch with
  | nil =>
    cases ht
    rfl
  | cons op ops ih =>
    obtain ⟨s,r,d⟩ := op
    obtain ⟨next,hnext,ht⟩ := bind_eq_ok.mp ht
    obtain ⟨_,_,ht⟩ := bind_eq_ok.mp ht
    have hcall : ch.applyTransferCall s r d = ({ ch with state := next },.ok next) := by
      rw [applyTransferCall,hnext]
      rfl
    rw [applyEach,hcall]
    exact @ih { ch with state := next } (transfer_ok hnext).1 ht

/-- When the batch is refused, some transfer is refused at its turn, with the same exception. -/
theorem applyEach_of_error (h : ch.state.Conserving ch.cfg)
    (ht : applyTransfers ch.cfg ch.state ops = .error e) :
    (ch.applyEach ops).2 = .error e ∧ e.kind = .accountingError := by
  induction ops generalizing ch with
  | nil => cases ht
  | cons op ops ih =>
    obtain ⟨s,r,d⟩ := op
    rw [applyEach,applyTransferCall]
    obtain ⟨next,hnext,hcons,_⟩ | ⟨e',he',hkind⟩ := transfer_cases h s r d
    · rw [hnext]
      obtain hfail | ⟨s₁,hok,ht⟩ := bind_eq_error.mp ht
      · cases hnext.symm.trans hfail
      · cases hnext.symm.trans hok
        obtain hfail | ⟨_,_,ht⟩ := bind_eq_error.mp ht
        · cases hcons.check.symm.trans hfail
        · exact @ih { ch with state := next } hcons ht
    · rw [he']
      obtain hfail | ⟨s₁,hok,_⟩ := bind_eq_error.mp ht
      · cases he'.symm.trans hfail
        exact ⟨rfl,hkind⟩
      · cases he'.symm.trans hok

/-- The batch call in terms of the fold over its transfers. -/
theorem applySequenceCall_eq (h : ch.state.Conserving ch.cfg) (ops : List (ℤ × ℤ × ℤ)) :
    ch.applySequenceCall ops = ch.assignState (applyTransfers ch.cfg ch.state ops) := by
  rw [applySequenceCall,assertConservationOverSequence,h.check]
  rfl

end Channel

/-- A batch of transfers succeeds exactly when the single transfers do, and then both lead to the same
conserving state; when a transfer is refused at its turn, the batch raises its exception and leaves
the channel as it was. -/
theorem applySequence_all_or_nothing {B : Bitcoinx} {ch : Channel} (h : ch.Obtained B)
    (ops : List (ℤ × ℤ × ℤ)) :
    returned (ch.applySequenceCall ops).2 = returned (ch.applyEach ops).2 ∧
    (∀ s,(ch.applySequenceCall ops).2 = .ok s →
      ch.applySequenceCall ops = ({ ch with state := s },.ok s) ∧
      ch.applyEach ops = ({ ch with state := s },.ok ()) ∧ s.balances.length = ch.cfg.n ∧
      s.balances.sum = ch.cfg.k*ch.cfg.S ∧ s.version = ch.state.version+ops.length) ∧
    ∀ e,(ch.applyEach ops).2 = .error e →
      e.kind = .accountingError ∧ ch.applySequenceCall ops = (ch,.error e) := by
  have hcons := h.canonical.conserving
  rw [Channel.applySequenceCall_eq hcons]
  cases ht : applyTransfers ch.cfg ch.state ops with
  | ok s =>
    have heach := Channel.applyEach_of_ok hcons ht
    obtain ⟨hs,hv⟩ := applyTransfers_ok hcons ht
    refine ⟨by rw [heach]; rfl,fun s' hs' => ?_,fun e he => ?_⟩
    · cases hs'
      exact ⟨rfl,heach,hs.length,hs.total,hv⟩
    · rw [heach] at he
      cases he
  | error e =>
    obtain ⟨heach,hkind⟩ := Channel.applyEach_of_error hcons ht
    refine ⟨by rw [heach]; rfl,fun s' hs' => ?_,fun e' he' => ?_⟩
    · cases hs'
    · cases heach.symm.trans he'
      exact ⟨hkind,rfl⟩

open Reference in
/-- The third of three transfers is refused. -/
theorem applySequence_all_or_nothing_sample :
    (((sampleChannel anyone).applyEach [(0,1,5),(1,0,2),(1,0,4)]).1.state = ⟨[27,3],2⟩ ∧
    (sampleChannel anyone).applySequenceCall [(0,1,5),(1,0,2),(1,0,4)] = (sampleChannel anyone,
      .error ⟨.accountingError,"transfer of 4 exceeds sender balance 3"⟩)) := by
  have hfail : ((sampleChannel anyone).applyEach [(0,1,5),(1,0,2),(1,0,4)]).2 =
      .error ⟨.accountingError,"transfer of 4 exceeds sender balance 3"⟩ := rfl
  exact ⟨rfl,((applySequence_all_or_nothing (obtained_sampleChannel anyone) _).2.2 _ hfail).2⟩

end SubsatChannel
