import SubsatChannel.Channel.Opened
import SubsatChannel.Channel.Settlement

/-! How long the latest state of a channel can be enforced: every accepted transfer takes one
sequence number, and the numbers below the final one run out. -/
namespace SubsatChannel

/-- The two ways to move micro-units in a channel. -/
inductive TransferCall
  | transfer (sender recipient delta : ℤ)
  | sequence (ops : List (ℤ × ℤ × ℤ))

/-- The transfers a call makes. -/
def TransferCall.moves : TransferCall → ℕ
  | .transfer _ _ _ => 1
  | .sequence ops => ops.length

namespace Channel

def answer (ch : Channel) : TransferCall → Except Fault Channel
  | .transfer sender recipient delta => ch.applyTransfer sender recipient delta
  | .sequence ops => ch.applySequence ops

/-- The channel after a list of calls that were all accepted. -/
def drive : Channel → List TransferCall → Except Fault Channel
  | ch, [] => .ok ch
  | ch, c :: cs => do
    let next ← ch.answer c
    next.drive cs

/-- The state a run ends in can be enforced: its state transaction can be built, with a sequence
number below the final one and above that of every earlier state of the run. -/
def Enforceable (B : Bitcoinx) (ch : Channel) (calls : List TransferCall) (last : Channel) : Prop :=
  ∃ tx utxos seq, last.buildStateTx B last.state = .ok (tx,utxos) ∧
    tx.inputs.map TxInput.sequence = [seq] ∧ seq < finalSequence ∧
    ∀ pre post mid, calls = pre ++ post → ch.drive pre = .ok mid → mid.state ≠ last.state →
      ∃ tx' utxos' seq', mid.buildStateTx B mid.state = .ok (tx',utxos') ∧
        tx'.inputs.map TxInput.sequence = [seq'] ∧ seq' < seq

section Drive
variable {B : Bitcoinx} {ch mid last : Channel} {c : TransferCall} {calls pre post : List TransferCall}

theorem answer_ok (hch : ch.Canonical B) (h : ch.answer c = .ok last) : last.Canonical B ∧
    last.state.version = ch.state.version + c.moves ∧ (c.moves = 0 → last = ch) := by
  cases c with
  | transfer sender recipient delta =>
    obtain ⟨s,hs,rfl⟩ := map_eq_ok.mp h
    obtain ⟨hc,hv⟩ := transfer_ok hs
    exact ⟨hch.withState hc,hv,fun h0 => absurd h0 (by simp [TransferCall.moves])⟩
  | sequence ops =>
    obtain ⟨s,hs,rfl⟩ := map_eq_ok.mp h
    obtain ⟨_,_,hops⟩ := bind_eq_ok.mp hs
    obtain ⟨hc,hv⟩ := applyTransfers_ok hch.conserving hops
    refine ⟨hch.withState hc,hv,fun h0 => ?_⟩
    obtain rfl : ops = [] := List.length_eq_zero_iff.mp h0
    cases hops
    rfl

/-- Every transfer of a run takes one version; a run without transfers changes nothing. -/
theorem drive_ok (hch : ch.Canonical B) (h : ch.drive calls = .ok last) : last.Canonical B ∧
    last.state.version = ch.state.version + (calls.map TransferCall.moves).sum ∧
    ((calls.map TransferCall.moves).sum = 0 → last = ch) := by
  induction calls generalizing ch with
  | nil =>
    cases h
    exact ⟨hch,rfl,fun _ => rfl⟩
  | cons c cs ih =>
    obtain ⟨next,hc,hcs⟩ := bind_eq_ok.mp h
    obtain ⟨hnext,hv,hsame⟩ := answer_ok hch hc
    obtain ⟨hlast,hv',hsame'⟩ := ih hnext hcs
    simp only [List.map_cons,List.sum_cons]
    refine ⟨hlast,by omega,fun h0 => ?_⟩
    rw [hsame' (by omega),hsame (by omega)]

theorem drive_append (h : ch.drive (pre ++ post) = .ok last) (hpre : ch.drive pre = .ok mid) :
    mid.drive post = .ok last := by
  induction pre generalizing ch with
  | nil =>
    cases hpre
    exact h
  | cons c cs ih =>
    obtain ⟨next,hc,hcs⟩ := bind_eq_ok.mp h
    obtain ⟨next',hc',hcs'⟩ := bind_eq_ok.mp hpre
    rw [hc] at hc'
    cases hc'
    exact ih hcs hcs'

/-- A conserving allocation has a state transaction when a non-final sequence number is left. -/
theorem Canonical.builds_iff (hch : ch.Canonical B) :
    (∃ tx utxos, ch.buildStateTx B ch.state = .ok (tx,utxos)) ↔
      ch.state.version < finalSequence := by
  constructor
  · rintro ⟨tx,utxos,h⟩
    exact (hch.buildStateTx_ok h).2.1
  · intro hv
    exact ⟨_,_,hch.buildStateTx_eq hch.conserving hv⟩

end Drive

end Channel

/-- After any accepted transfers the state of a channel can be enforced exactly as long as the version
it started from and the number of transfers stay below the final sequence number. -/
theorem latest_state_enforceable_iff (B : Bitcoinx) (ch last : Channel) (calls : List TransferCall)
    (hch : ch.Obtained B) (h : ch.drive calls = .ok last) : Channel.Enforceable B ch calls last ↔
      ch.state.version + (calls.map TransferCall.moves).sum < finalSequence := by
  obtain ⟨hlast,hv,_⟩ := Channel.drive_ok hch.canonical h
  rw [← hv,← hlast.builds_iff]
  constructor
  · rintro ⟨tx,utxos,_,hb,_⟩
    exact ⟨tx,utxos,hb⟩
  · rintro ⟨tx,utxos,hb⟩
    obtain ⟨_,hfin,rfl⟩ := hlast.buildStateTx_ok hb
    refine ⟨_,utxos,last.state.version,hb,rfl,hfin,?_⟩
    rintro pre post mid rfl hpre hne
    obtain ⟨hmid,_,_⟩ := Channel.drive_ok hch.canonical hpre
    obtain ⟨_,hv',hsame⟩ := Channel.drive_ok hmid (Channel.drive_append h hpre)
    have hlt : mid.state.version < last.state.version := by
      have hmoves : (post.map TransferCall.moves).sum ≠ 0 := fun h0 => hne (by rw [hsame h0])
      omega
    exact ⟨_,_,_,hmid.buildStateTx_eq hmid.conserving (hlt.trans hfin),rfl,hlt⟩

open Reference in
/-- Three transfers of five, none and two micro-units. -/
theorem latest_state_enforceable_sample :
    ∃ last, (sampleChannel anyone).drive [.transfer 0 1 5,.sequence [(0,1,0),(1,0,2)]] = .ok last ∧
      last.state = ⟨[27,3],3⟩ ∧ Channel.Enforceable (reference anyone) (sampleChannel anyone)
        [.transfer 0 1 5,.sequence [(0,1,0),(1,0,2)]] last := by
  refine ⟨{ sampleChannel anyone with state := ⟨[27,3],3⟩ },rfl,rfl,?_⟩
  exact (latest_state_enforceable_iff _ _ _ _ (obtained_sampleChannel anyone) rfl).mpr (by decide)

namespace Reference

/-- The sample channel after a number of transfers of nothing. -/
theorem drive_nothing (count version : ℕ) :
    ({ sampleChannel anyone with state := ⟨[30,0],version⟩ }).drive
      (List.replicate count (.transfer 0 1 0)) =
        .ok { sampleChannel anyone with state := ⟨[30,0],version+count⟩ } := by
  induction count generalizing version with
  | zero => rfl
  | succ count ih =>
    have h := ih (version+1)
    rw [Nat.add_assoc,Nat.add_comm 1 count] at h
    exact h

end Reference

open Reference in
/-- Transfers of nothing are accepted until no sequence number is left for the state they lead to. -/
theorem state_without_sequence : ∃ last,
    (sampleChannel anyone).drive (List.replicate 0xFFFFFFFF (.transfer 0 1 0)) = .ok last ∧
    last.buildStateTx (reference anyone) last.state = .error ⟨.stateError,
      "state version 4294967295 exhausts non-final sequence space; refresh the channel"⟩ := by
  refine ⟨_,drive_nothing 0xFFFFFFFF 0,?_⟩
  rfl

end SubsatChannel
