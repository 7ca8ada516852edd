import SubsatChannel.Channel.Enforceable
import SubsatChannel.Lib.Transition

/-! The confirm-before-sign discipline over runs of calls on any number of channels. -/
namespace SubsatChannel
open Transition

/-- A request for signatures on transactions that spend the outputs of a funding transaction. -/
inductive SigningRequest
  | stateTx (state : State)
  | superseded (version : ℤ) (allocation : List ℤ)
  | close (state : Option State)
  | forfeit (offender : ℤ) (towerPubkey : Option PublicKey) (towerFee : ℤ)

/-- A call of the lifecycle; a channel is named by its place in the order of creation. -/
inductive ChannelCall
  | openChannel (cfg : ChannelConfig) (keybook : KeyBook) (parentOutpoint : Outpoint)
      (parentValue : Option ℤ)
  | fromFundingTx (cfg : ChannelConfig) (keybook : KeyBook) (fundingTx : Tx)
      (parentUtxos : List TxOutput)
  | markConfirmed (i : ℕ)
  | move (i : ℕ) (transfers : TransferCall)
  | refresh (i : ℕ) (newL : ℤ)
  | signing (i : ℕ) (request : SigningRequest)

inductive ChannelAnswer
  | made (r : Except Fault Unit)
  | signed (r : Except Fault (Tx × List TxOutput))
  | noChannel

namespace Channel

def sign (B : Bitcoinx) (ch : Channel) : SigningRequest → Except Fault (Tx × List TxOutput)
  | .stateTx s => ch.signStateTx B s
  | .superseded version allocation => ch.supersededStateTxFor B version allocation
  | .close s => ch.cooperativeClose B s
  | .forfeit offender towerPubkey towerFee => ch.forfeitBondTx B offender towerPubkey towerFee

/-- Keep what a constructor made, if it returned. -/
def keep (chs : List Channel) (r : Except Fault Channel) : List Channel × ChannelAnswer :=
  match r with
  | .error e => (chs,.made (.error e))
  | .ok ch => (chs ++ [ch],.made (.ok ()))

/-- A call on the channels made so far. -/
def call (B : Bitcoinx) (chs : List Channel) : ChannelCall → List Channel × ChannelAnswer
  | .openChannel cfg keybook parentOutpoint parentValue =>
    keep chs (openChannel B cfg keybook parentOutpoint parentValue)
  | .fromFundingTx cfg keybook fundingTx parentUtxos =>
    keep chs (fromFundingTx B cfg keybook fundingTx parentUtxos)
  | .markConfirmed i =>
    match chs[i]? with
    | none => (chs,.noChannel)
    | some ch => (chs.set i ch.markConfirmed,.made (.ok ()))
  | .move i transfers =>
    match chs[i]? with
    | none => (chs,.noChannel)
    | some ch =>
      match ch.answer transfers with
      | .error e => (chs,.made (.error e))
      | .ok ch' => (chs.set i ch',.made (.ok ()))
  | .refresh i newL =>
    match chs[i]? with
    | none => (chs,.noChannel)
    | some ch => keep chs (refreshChannel B ch newL)
  | .signing i request =>
    match chs[i]? with
    | none => (chs,.noChannel)
    | some ch => (chs,.signed (ch.sign B request))

/-- The channels after a list of calls. -/
def after (B : Bitcoinx) (calls : List ChannelCall) : List Channel := run (call B) [] calls

/-- The caller has invoked `mark_confirmed` on the channel. -/
def Marked (B : Bitcoinx) (calls : List ChannelCall) (i : ℕ) : Prop :=
  ∃ pre post, calls = pre ++ .markConfirmed i :: post ∧ i < (after B pre).length

/-- The channel was made by `refresh_channel`. -/
def Refreshed (B : Bitcoinx) (calls : List ChannelCall) (i : ℕ) : Prop :=
  ∃ pre j newL post, calls = pre ++ .refresh j newL :: post ∧ i = (after B pre).length ∧
    i < (after B (pre ++ [.refresh j newL])).length

section Discipline
variable {B : Bitcoinx} {ch ch' : Channel} {chs : List Channel} {calls : List ChannelCall} {i : ℕ}

/-- Every signing method asks for the confirmation first. -/
theorem sign_unconfirmed (h : ch.fundingConfirmed = false) (request : SigningRequest) :
    ch.sign B request = .error ⟨.unconfirmedFundingError,
      "funding tx not yet confirmed; refuse to sign children"⟩ := by
  have hreq : ch.requireConfirmed = .error ⟨.unconfirmedFundingError,
      "funding tx not yet confirmed; refuse to sign children"⟩ := by
    rw [requireConfirmed,h]
    rfl
  cases request with
  | stateTx s => simp only [sign,signStateTx,hreq]; rfl
  | superseded version allocation => simp only [sign,supersededStateTxFor,hreq]; rfl
  | close s => simp only [sign,cooperativeClose,hreq]; rfl
  | forfeit offender towerPubkey towerFee => simp only [sign,forfeitBondTx,hreq]; rfl

theorem openChannel_unconfirmed {cfg : ChannelConfig} {kb : KeyBook} {o : Outpoint} {v : Option ℤ}
    (h : openChannel B cfg kb o v = .ok ch) : ch.fundingConfirmed = false := by
  rw [openChannel_eq] at h
  obtain ⟨outputs,_,h⟩ := bind_eq_ok.mp h
  obtain ⟨_,rfl⟩ := wrapFunding_ok h
  rfl

theorem fromFundingTx_unconfirmed {cfg : ChannelConfig} {kb : KeyBook} {tx : Tx}
    {utxos : List TxOutput} (h : fromFundingTx B cfg kb tx utxos = .ok ch) :
    ch.fundingConfirmed = false := by
  obtain ⟨expected,_,h⟩ := bind_eq_ok.mp h
  split_ifs at h
  split at h
  · cases h
  · obtain ⟨_,rfl⟩ := wrapFunding_ok h
    rfl

theorem answer_confirmed {c : TransferCall} (h : ch.answer c = .ok ch') :
    ch'.fundingConfirmed = ch.fundingConfirmed := by
  cases c with
  | transfer sender recipient delta =>
    obtain ⟨s,_,rfl⟩ := map_eq_ok.mp h
    rfl
  | sequence ops =>
    obtain ⟨s,_,rfl⟩ := map_eq_ok.mp h
    rfl

/-- What a constructor adds at the end. -/
theorem getElem?_keep {r : Except Fault Channel} (h : (keep chs r).1[i]? = some ch) :
    chs[i]? = some ch ∨ (i = chs.length ∧ r = .ok ch) := by
  unfold keep at h
  cases r with
  | error e => exact .inl h
  | ok new =>
    rcases lt_trichotomy i chs.length with hi | rfl | hi
    · left
      rwa [List.getElem?_append_left hi] at h
    · rw [List.getElem?_concat_length] at h
      exact .inr ⟨rfl,congrArg Except.ok (Option.some.inj h)⟩
    · rw [List.getElem?_eq_none (by simp; omega)] at h
      cases h

/-- The ways in which a channel is confirmed after a call: it was so before, the caller marked it, or
it is the successor that a refresh has just made. -/
theorem call_confirmed {c : ChannelCall} (h : (call B chs c).1[i]? = some ch)
    (hc : ch.fundingConfirmed = true) :
    (∃ old, chs[i]? = some old ∧ old.fundingConfirmed = true) ∨
    (c = .markConfirmed i ∧ i < chs.length) ∨ ∃ j newL, c = .refresh j newL ∧ i = chs.length := by
  have hkeep : ∀ {r : Except Fault Channel}, (keep chs r).1[i]? = some ch →
      (∀ new, r = .ok new → new.fundingConfirmed = false) →
      ∃ old, chs[i]? = some old ∧ old.fundingConfirmed = true := by
    intro r hr hnew
    rcases getElem?_keep hr with hold | ⟨_,rfl⟩
    · exact ⟨ch,hold,hc⟩
    · rw [hnew ch rfl] at hc
      cases hc
  cases c with
  | openChannel cfg kb o v => exact .inl (hkeep h fun new => openChannel_unconfirmed)
  | fromFundingTx cfg kb tx utxos => exact .inl (hkeep h fun new => fromFundingTx_unconfirmed)
  | markConfirmed j =>
    simp only [call] at h
    split at h
    · exact .inl ⟨ch,h,hc⟩
    · rename_i old hold
      by_cases hj : j = i
      · subst hj
        exact .inr (.inl ⟨rfl,(List.getElem?_eq_some_iff.mp hold).1⟩)
      · rw [List.getElem?_set_ne hj] at h
        exact .inl ⟨ch,h,hc⟩
  | move j transfers =>
    simp only [call] at h
    split at h
    · exact .inl ⟨ch,h,hc⟩
    · rename_i old hold
      split at h
      · exact .inl ⟨ch,h,hc⟩
      · rename_i new hnew
        by_cases hj : j = i
        · subst hj
          rw [List.getElem?_set_self (List.getElem?_eq_some_iff.mp hold).1] at h
          cases h
          exact .inl ⟨old,hold,by rw [← answer_confirmed hnew]; exact hc⟩
        · rw [List.getElem?_set_ne hj] at h
          exact .inl ⟨ch,h,hc⟩
  | refresh j newL =>
    simp only [call] at h
    split at h
    · exact .inl ⟨ch,h,hc⟩
    · rcases getElem?_keep h with hold | ⟨hi,_⟩
      · exact .inl ⟨ch,hold,hc⟩
      · exact .inr (.inr ⟨j,newL,rfl,hi⟩)
  | signing j request =>
    simp only [call] at h
    split at h <;> exact .inl ⟨ch,h,hc⟩

/-- A channel is confirmed because the caller marked it or because a refresh made it. -/
theorem confirmed_cases (h : (after B calls)[i]? = some ch) (hc : ch.fundingConfirmed = true) :
    Marked B calls i ∨ Refreshed B calls i := by
  induction calls using List.reverseRecOn generalizing ch with
  | nil => simp [after] at h
  | append_singleton calls c ih =>
    rw [after,run_concat] at h
    rcases call_confirmed h hc with ⟨old,hold,hconf⟩ | ⟨rfl,hi⟩ | ⟨j,newL,rfl,hi⟩
    · rcases ih hold hconf with ⟨pre,post,rfl,hi⟩ | ⟨pre,j,newL,post,rfl,hi⟩
      · exact .inl ⟨pre,post ++ [c],by simp,hi⟩
      · exact .inr ⟨pre,j,newL,post ++ [c],by simp,hi⟩
    · exact .inl ⟨calls,[],rfl,hi⟩
    · refine .inr ⟨calls,j,newL,[],rfl,hi,?_⟩
      rw [after,run_concat]
      exact (List.getElem?_eq_some_iff.mp h).1

end Discipline
end Channel

/-- A channel that the caller has not marked as confirmed, and that no refresh has made, signs nothing:
every request raises, and no channel changes. -/
theorem confirm_before_sign (B : Bitcoinx) (calls : List ChannelCall) (i : ℕ)
    (request : SigningRequest) (hi : i < (Channel.after B calls).length)
    (hm : ¬ Channel.Marked B calls i) (hr : ¬ Channel.Refreshed B calls i) :
    Channel.call B (Channel.after B calls) (.signing i request) =
      (Channel.after B calls,.signed (.error ⟨.unconfirmedFundingError,
        "funding tx not yet confirmed; refuse to sign children"⟩)) := by
  have hch := List.getElem?_eq_getElem hi
  have hconf : (Channel.after B calls)[i].fundingConfirmed = false := by
    cases hc : (Channel.after B calls)[i].fundingConfirmed with
    | false => rfl
    | true => exact absurd (Channel.confirmed_cases hch hc) (not_or.mpr ⟨hm,hr⟩)
  simp only [Channel.call,hch,Channel.sign_unconfirmed hconf]

namespace Reference

def openSample : ChannelCall := .openChannel sampleConfig sampleKeys (List.replicate 32 0,0) none

end Reference

open Reference in
theorem confirm_before_sign_sample :
    Channel.call (reference anyone) (Channel.after (reference anyone) [openSample])
      (.signing 0 (.stateTx ⟨[30,0],0⟩)) = (Channel.after (reference anyone) [openSample],
        .signed (.error ⟨.unconfirmedFundingError,
          "funding tx not yet confirmed; refuse to sign children"⟩)) := by
  refine confirm_before_sign (reference anyone) [openSample] 0 _ (by decide +kernel) ?_ ?_
  · rintro ⟨pre,post,h,_⟩
    cases pre <;> simp [openSample] at h
  · rintro ⟨pre,j,newL,post,h,_⟩
    cases pre <;> simp [openSample] at h

open Reference in
/-- The successor of a channel signs although nothing was ever marked as confirmed. -/
theorem refreshed_channel_signs : ∃ signed,
    (Channel.call (reference anyone)
      (Channel.after (reference anyone) [openSample,.refresh 0 (sampleConfig.L0+1)])
      (.signing 1 (.stateTx ⟨[30,0],0⟩))).2 = .signed (.ok signed) ∧
    ¬ Channel.Marked (reference anyone) [openSample,.refresh 0 (sampleConfig.L0+1)] 1 := by
  refine ⟨_,rfl,?_⟩
  rintro ⟨pre,post,h,_⟩
  rcases pre with _ | ⟨_,_ | ⟨_,_⟩⟩ <;> simp [openSample] at h

end SubsatChannel
