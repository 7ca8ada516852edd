import SubsatChannel.Channel.Opened
import SubsatChannel.Store.Recover

/-! A crash between the two commits of `persist_channel`: what is recovered from the new row of the
channel and the states that were stored before. -/
namespace SubsatChannel

/-- The contents that runs of `persist_channel` leave, whether they finish or crash in between. -/
inductive Written (B : Bitcoinx) : SystemStore → Prop
  | fresh : Written B .fresh
  | row {store store' : SystemStore} {ch : Channel} (h : Written B store) (hch : ch.Canonical B)
      (hp : persistMeta B store ch = .ok store') : Written B store'
  | state {store : SystemStore} {ch : Channel} (h : Written B store) (hch : ch.Canonical B) :
      Written B (persistState B store ch)

section Written
variable {B : Bitcoinx} {store : SystemStore} {c : Bytes}

/-- Every row is the row of a channel. -/
theorem Written.row_of (h : Written B store) {row : ChannelMeta} (hrow : (store.rows c).1 = some row) :
    ∃ ch : Channel, ch.Canonical B ∧ ch.metaRow B = .ok row := by
  induction h with
  | fresh => cases hrow
  | @row store store' ch _ hch hp ih =>
    obtain ⟨new,hnew,rfl⟩ := persistMeta_ok hp
    by_cases hc : ch.fundingTxid B = c
    · subst hc
      rw [SystemStore.rows_putChannelMeta] at hrow
      cases hrow
      exact ⟨ch,hch,hnew⟩
    · rw [store.rows_putChannelMeta_of_ne hc] at hrow
      exact ih hrow
  | @state store ch _ _ ih =>
    by_cases hc : ch.fundingTxid B = c
    · subst hc
      rw [persistState,SystemStore.rows_putChannelState] at hrow
      exact ih hrow
    · rw [rows_persistState_of_ne hc] at hrow
      exact ih hrow

/-- Every stored state is the state of a channel. -/
theorem Written.state_of (h : Written B store) {version : ℕ} {doc : StateDoc}
    (hdoc : (store.rows c).2 version = some doc) : ∃ s : State, doc = Channel.stateDoc s := by
  induction h with
  | fresh => cases hdoc
  | @row store store' ch _ _ hp ih =>
    obtain ⟨new,_,rfl⟩ := persistMeta_ok hp
    by_cases hc : ch.fundingTxid B = c
    · subst hc
      rw [SystemStore.rows_putChannelMeta] at hdoc
      exact ih hdoc
    · rw [store.rows_putChannelMeta_of_ne hc] at hdoc
      exact ih hdoc
  | @state store ch _ _ ih =>
    by_cases hc : ch.fundingTxid B = c
    · subst hc
      rw [persistState,SystemStore.rows_putChannelState] at hdoc
      simp only [Function.update_apply] at hdoc
      split_ifs at hdoc
      · exact ⟨ch.state,(Option.some.inj hdoc).symm⟩
      · exact ih hdoc
    · rw [rows_persistState_of_ne hc] at hdoc
      exact ih hdoc

end Written

/-- The write of the row alone does no harm: the row is stored already, or the state that stands
beside it is the channel's own. -/
inductive CrashSafe (B : Bitcoinx) (store : SystemStore) (ch : Channel) : Prop
  | sameRow {row : ChannelMeta} (hrow : ch.metaRow B = .ok row)
      (hstored : store.getChannelMeta (ch.fundingTxid B) = some row)
  | sameState {version : ℕ}
      (hlatest : store.getLatestChannelState (ch.fundingTxid B) = some (version,Channel.stateDoc ch.state))
  | initial (hnone : store.getLatestChannelState (ch.fundingTxid B) = none)
      (hstate : initialState ch.cfg 0 = .ok ch.state)

section Crash
variable {B : Bitcoinx} {store mid : SystemStore} {ch : Channel}

/-- What is recovered after a crash between the two commits. -/
theorem recover_mid (hread : ReadsHex B) (hch : ch.Canonical B)
    (hmid : persistMeta B store ch = .ok mid) : recoverChannel B mid (ch.fundingTxid B) =
      ((recoverState ch.cfg (store.getLatestChannelState (ch.fundingTxid B))).map ch.reloaded).map
        some := by
  obtain ⟨row,hrow,rfl⟩ := persistMeta_ok hmid
  have hget : (store.putChannelMeta (ch.fundingTxid B) row).getChannelMeta (ch.fundingTxid B) =
      some row := by
    rw [SystemStore.getChannelMeta,SystemStore.putChannelMeta,Dict.get?_set_self]
  simp only [recoverChannel,hget,SystemStore.getLatestChannelState_putChannelMeta,
    recoverRow_eq hread hch hrow]

theorem CrashSafe.recovers (hread : ReadsHex B) (hch : ch.Canonical B)
    (hmid : persistMeta B store ch = .ok mid) (h : CrashSafe B store ch) :
    recoverChannel B mid (ch.fundingTxid B) = recoverChannel B store (ch.fundingTxid B) ∨
    recoverChannel B mid (ch.fundingTxid B) = .ok (some (ch.reloaded ch.state)) := by
  rw [recover_mid hread hch hmid]
  cases h with
  | sameRow hrow hstored =>
    left
    simp only [recoverChannel,hstored,recoverRow_eq hread hch hrow]
  | sameState hlatest =>
    right
    rw [hlatest,recoverState_of_conserving hch.conserving]
    rfl
  | initial hnone hstate =>
    right
    rw [hnone,recoverState,hstate]
    rfl

end Crash

/-- What a crash between the commits leaves is what was recovered before the call, or the channel
with its new state, exactly when the row was stored already or the stored state is the new one. -/
theorem persist_crash_atomic {B : Bitcoinx} (hread : ReadsHex B) {store mid : SystemStore}
    (hstore : Written B store) {ch : Channel} (hch : ch.Canonical B)
    (hmid : persistMeta B store ch = .ok mid) {before : Option Channel}
    (hbefore : recoverChannel B store (ch.fundingTxid B) = .ok before) :
    (recoverChannel B mid (ch.fundingTxid B) = .ok before ∨
      recoverChannel B mid (ch.fundingTxid B) = .ok (some (ch.reloaded ch.state))) ↔
    CrashSafe B store ch := by
  constructor
  · intro h
    obtain ⟨row,hrow,_⟩ := persistMeta_ok hmid
    rw [recover_mid hread hch hmid] at h
    cases hs : recoverState ch.cfg (store.getLatestChannelState (ch.fundingTxid B)) with
    | error e => simp [hs,Except.map] at h
    | ok s =>
      simp only [hs,Except.map,Except.ok.injEq,Option.some.injEq] at h
      rcases h with hold | hnew
      · -- the channel came back as before, so it came back from the same row
        subst hold
        unfold recoverChannel at hbefore
        cases hget : store.getChannelMeta (ch.fundingTxid B) with
        | none => simp [hget] at hbefore
        | some row' =>
          obtain ⟨ch',hch',hrow'⟩ := hstore.row_of (c := ch.fundingTxid B) hget
          simp only [hget,recoverRow_eq hread hch' hrow'] at hbefore
          cases hs' : recoverState ch'.cfg (store.getLatestChannelState (ch.fundingTxid B)) with
          | error e => simp [hs',Except.map] at hbefore
          | ok s' =>
            simp only [hs',Except.map,Except.ok.injEq,Option.some.injEq] at hbefore
            rw [metaRow_of_reloaded hrow' hrow hbefore] at hget
            exact .sameRow hrow hget
      · obtain rfl : s = ch.state := congrArg Channel.state hnew
        cases hl : store.getLatestChannelState (ch.fundingTxid B) with
        | none =>
          rw [hl] at hs
          exact .initial hl hs
        | some p =>
          obtain ⟨version,doc⟩ := p
          obtain ⟨s',rfl⟩ := hstore.state_of (store.getLatestChannelState_eq_some.mp hl).1
          rw [hl] at hs
          rw [← (recoverState_stateDoc hs).1] at hl
          exact .sameState hl
  · intro h
    rw [← hbefore]
    exact h.recovers hread hch hmid

namespace Reference

theorem readsHex (made : Bytes → Bytes → Bool) : ReadsHex (reference made) := txFromHex_hex made

/-- The sample channel after a transfer of ten micro-units. -/
def movedChannel : Channel := { sampleChannel anyone with state := ⟨[20,10],1⟩ }

theorem canonical_movedChannel : movedChannel.Canonical (reference anyone) :=
  (obtained_sampleChannel anyone).canonical.withState ⟨rfl,rfl⟩

/-- The store to which the sample channel was written when it was opened. -/
def sampleStore : SystemStore :=
  (persistChannel (reference anyone) .fresh (sampleChannel anyone)).toOption.getD .fresh

def sampleRow : ChannelMeta :=
  ((sampleChannel anyone).metaRow (reference anyone)).toOption.getD ⟨⟨0,0,0,[],0,0⟩,[],[],false,0⟩

theorem metaRow_sampleChannel : (sampleChannel anyone).metaRow (reference anyone) = .ok sampleRow := by
  decide +kernel

theorem metaRow_movedChannel : movedChannel.metaRow (reference anyone) = .ok sampleRow := by
  decide +kernel

/-- The row that a crash leaves behind in this store. -/
def crashed (store : SystemStore) : SystemStore :=
  store.putChannelMeta (movedChannel.fundingTxid (reference anyone)) sampleRow

theorem persistMeta_movedChannel (store : SystemStore) :
    persistMeta (reference anyone) store movedChannel = .ok (crashed store) :=
  persistMeta_of_row metaRow_movedChannel

theorem written_sampleStore : Written (reference anyone) sampleStore := by
  have hch := (obtained_sampleChannel anyone).canonical
  have hp := @persistMeta_of_row _ .fresh _ _ metaRow_sampleChannel
  have hs : sampleStore = persistState (reference anyone) (SystemStore.fresh.putChannelMeta
      ((sampleChannel anyone).fundingTxid (reference anyone)) sampleRow) (sampleChannel anyone) := by
    rw [sampleStore,persistChannel,hp]
    rfl
  rw [hs]
  exact .state (.row .fresh hch hp) hch

/-- What comes back for the sample channel from a crashed store. -/
theorem recover_crashed (store : SystemStore) : recoverChannel (reference anyone) (crashed store)
    (movedChannel.fundingTxid (reference anyone)) = ((recoverState sampleConfig
      (store.getLatestChannelState (movedChannel.fundingTxid (reference anyone)))).map
        movedChannel.reloaded).map some :=
  recover_mid (readsHex anyone) canonical_movedChannel (persistMeta_movedChannel store)

/-- What comes back from a store that holds the sample channel's row and its first state. -/
theorem recover_firstState {store : SystemStore} {c : Bytes} {version : ℕ}
    (hget : store.getChannelMeta c = some sampleRow)
    (hlatest : store.getLatestChannelState c = some (version,Channel.stateDoc ⟨[30,0],0⟩)) :
    recoverChannel (reference anyone) store c =
      .ok (some ((sampleChannel anyone).reloaded ⟨[30,0],0⟩)) := by
  have hs : State.Conserving ⟨[30,0],0⟩ (sampleChannel anyone).cfg := ⟨rfl,rfl⟩
  simp only [recoverChannel,hget,hlatest,recoverRow_eq (readsHex anyone)
    (obtained_sampleChannel anyone).canonical metaRow_sampleChannel,recoverState_of_conserving hs]
  rfl

theorem recover_sampleStore :
    recoverChannel (reference anyone) sampleStore (movedChannel.fundingTxid (reference anyone)) =
      .ok (some ((sampleChannel anyone).reloaded ⟨[30,0],0⟩)) :=
  @recover_firstState _ _ 0 (by decide +kernel) (by decide +kernel)

end Reference

open Reference in
theorem persist_crash_atomic_sample :
    recoverChannel (reference anyone) (crashed sampleStore)
        (movedChannel.fundingTxid (reference anyone)) =
      .ok (some ((sampleChannel anyone).reloaded ⟨[30,0],0⟩)) ∨
    recoverChannel (reference anyone) (crashed sampleStore)
        (movedChannel.fundingTxid (reference anyone)) =
      .ok (some (movedChannel.reloaded movedChannel.state)) := by
  have hsafe : CrashSafe (reference anyone) sampleStore movedChannel :=
    .sameRow metaRow_movedChannel (by decide +kernel)
  have h := persist_crash_atomic (readsHex anyone) written_sampleStore canonical_movedChannel
    (persistMeta_movedChannel sampleStore) recover_sampleStore
  exact h.mpr hsafe

open Reference in
/-- A channel that is written for the first time at version 1 comes back at version 0, with the whole
balance at the funder. -/
theorem crash_returns_initial_state :
    movedChannel.state = ⟨[20,10],1⟩ ∧
    persistMeta (reference anyone) .fresh movedChannel = .ok (crashed .fresh) ∧
    recoverChannel (reference anyone) .fresh (movedChannel.fundingTxid (reference anyone)) = .ok none ∧
    recoverChannel (reference anyone) (crashed .fresh) (movedChannel.fundingTxid (reference anyone)) =
      .ok (some (movedChannel.reloaded ⟨[30,0],0⟩)) := by
  refine ⟨rfl,persistMeta_movedChannel .fresh,rfl,?_⟩
  rw [recover_crashed]
  rfl

end SubsatChannel
