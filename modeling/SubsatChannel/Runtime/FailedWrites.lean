import SubsatChannel.Runtime.Restart

/-! A transfer of the manager when a write of the store fails. The channel object is advanced before
`persist_channel` runs, and nothing takes this back. -/
namespace SubsatChannel
open Transition

/-- The exceptions of the two writes of one `persist_channel`, where they fail. A failed write is
rolled back. -/
structure WriteFailures where
  channelMeta : Option Fault
  channelState : Option Fault

/-- Both writes succeed. -/
def WriteFailures.none : WriteFailures := ⟨.none,.none⟩

/-- `persist_channel` on a store whose writes may fail. -/
def persistChannelFailing (B : Bitcoinx) (f : WriteFailures) (store : SystemStore) (ch : Channel) :
    SystemStore × Except Fault Unit :=
  match ch.metaRow B with
  | .error e => (store,.error e)
  | .ok row =>
    match f.channelMeta with
    | some e => (store,.error e)
    | none =>
      let store := store.putChannelMeta (ch.fundingTxid B) row
      match f.channelState with
      | some e => (store,.error e)
      | none => (persistState B store ch,.ok ())

namespace ChannelManager

/-- `apply_transfer` on a store whose writes may fail. -/
def applyTransferFailing (B : Bitcoinx) (f : WriteFailures) (m : ChannelManager) (channelId : Bytes)
    (sender recipient delta : ℤ) : ChannelManager × Except Fault ℕ :=
  if channelId ∈ m.closedChannels then
    (m,.error ⟨.stateError,s!"channel {hex channelId.reverse} already closed"⟩)
  else
    m.locked channelId fun ch =>
      match ch.applyTransfer sender recipient delta with
      | .error e => (m,.error e)
      | .ok ch =>
        let m := { m with channels := m.channels.set channelId ch }
        match persistChannelFailing B f m.store ch with
        | (store,.error e) => ({ m with store := store },.error e)
        | (store,.ok _) => ({ m with store := store },.ok ch.state.version)

/-- Memory and store agree: the store holds the row and the latest state of every registered
channel. -/
def InSync (B : Bitcoinx) (m : ChannelManager) : Prop :=
  ∀ c ch,m.channels.get? c = some ch → ch.fundingTxid B = c ∧
    (∃ row,ch.metaRow B = .ok row ∧ m.store.getChannelMeta c = some row) ∧
    m.store.getLatestChannelState c = some (ch.state.version,Channel.stateDoc ch.state)

/-- The transfer is refused before anything is written: the channel is closed or not registered, or
its allocation does not allow it. -/
def Refuses (m : ChannelManager) (channelId : Bytes) (sender recipient delta : ℤ) : Prop :=
  channelId ∈ m.closedChannels ∨ channelId ∉ m.locks ∨
  ∀ ch,m.channels.get? channelId = some ch →
    ∀ s',transfer ch.state sender recipient delta ch.cfg ≠ .ok s'

/-- Nothing is left of a call: memory and store are what they were, and later calls get the same
answers. -/
structure AsBefore (B : Bitcoinx) (m m' : ChannelManager) : Prop where
  memory : ∀ c,m'.channels.get? c = m.channels.get? c
  metadata : ∀ c,m'.store.getChannelMeta c = m.store.getChannelMeta c
  latest : ∀ c,m'.store.getLatestChannelState c = m.store.getLatestChannelState c
  later : ∀ ops : List ManagerOp,(trace (call B) m' ops).map (fun x => x.2.2) =
    (trace (call B) m ops).map fun x => x.2.2

variable {B : Bitcoinx} {f : WriteFailures} {m : ChannelManager} {c : Bytes} {s r d : ℤ}

theorem asBefore_refl : AsBefore B m m := ⟨fun _ => rfl,fun _ => rfl,fun _ => rfl,fun _ => rfl⟩

/-- Without failures this is the manager's transfer, so that what is proved of failing writes is about the manager. -/
theorem applyTransferFailing_none : m.applyTransferFailing B .none c s r d = m.applyTransfer B c s r d := by
  unfold applyTransferFailing applyTransfer
  refine if_congr Iff.rfl rfl ?_
  refine congrArg (m.locked c) (funext fun ch => ?_)
  cases ch.applyTransfer s r d with
  | error e => rfl
  | ok ch' =>
    simp only [persistChannelFailing,persistChannel,persistMeta]
    cases ch'.metaRow B <;> rfl

/-- A refused transfer leaves the manager as it was. -/
theorem Refuses.unchanged (h : m.Refuses c s r d) :
    (m.applyTransferFailing B f c s r d).1 = m := by
  unfold applyTransferFailing
  split_ifs with hclosed
  · rfl
  unfold locked
  by_cases hlock : c ∉ m.locks
  · rw [if_pos hlock]
  rw [if_neg hlock]
  cases hget : m.channels.get? c with
  | none => rfl
  | some ch =>
    dsimp only
    obtain h | h | h := h
    · exact absurd h hclosed
    · exact absurd h hlock
    · cases ht : transfer ch.state s r d ch.cfg with
      | error e =>
        rw [Channel.applyTransfer,ht]
        rfl
      | ok s' => exact absurd ht (h ch hget s')

/-- A transfer that is not refused has advanced the channel in memory when the writes begin. -/
theorem applyTransferFailing_accepted (h : ¬ m.Refuses c s r d) :
    ∃ ch s',m.channels.get? c = some ch ∧ transfer ch.state s r d ch.cfg = .ok s' ∧
      m.applyTransferFailing B f c s r d =
        let w := persistChannelFailing B f m.store { ch with state := s' }
        (⟨w.1,m.channels.set c { ch with state := s' },m.locks,m.closedChannels⟩,
          w.2.map fun _ => s'.version) := by
  simp only [Refuses,not_or,not_not,not_forall] at h
  obtain ⟨hclosed,hlock,ch,hget,s',ht⟩ := h
  refine ⟨ch,s',hget,ht,?_⟩
  have happly : ch.applyTransfer s r d = .ok { ch with state := s' } := by
    rw [Channel.applyTransfer,ht]
    rfl
  rw [applyTransferFailing,if_neg hclosed,locked,if_neg (not_not.mpr hlock),hget]
  simp only [happly]
  obtain ⟨store,e | _⟩ := persistChannelFailing B f m.store { ch with state := s' }
  · rfl
  · rfl

/-- The writes of a channel that has a row return when neither fails. -/
theorem persistChannelFailing_ok_iff {store : SystemStore} {ch : Channel} {row : ChannelMeta}
    (h : ch.metaRow B = .ok row) : (persistChannelFailing B f store ch).2 = .ok () ↔
      f.channelMeta = .none ∧ f.channelState = .none := by
  obtain ⟨_ | e₁,_ | e₂⟩ := f
  · simp [persistChannelFailing,h]
  · simp [persistChannelFailing,h]
  · simp [persistChannelFailing,h]
  · simp [persistChannelFailing,h]

theorem inSync_fresh (store : SystemStore) : (fresh store).InSync B := nofun

/-- Memory and store still agree after the registration of a channel of which no state is stored. -/
theorem InSync.add (h : m.InSync B) {ch : Channel} {row : ChannelMeta} (hrow : ch.metaRow B = .ok row)
    (hnew : m.channels.get? (ch.fundingTxid B) = none)
    (hstates : ∀ v,(m.store.rows (ch.fundingTxid B)).2 v = none) : (m.add B ch).1.InSync B := by
  rw [add_new hrow hnew]
  intro c' ch' hch'
  simp only [Dict.get?_set] at hch'
  split_ifs at hch' with hc
  · cases hch'
    subst hc
    refine ⟨rfl,⟨row,hrow,congrArg Prod.fst (@rows_persist _ m.store _ _)⟩,?_⟩
    rw [SystemStore.getLatestChannelState_eq_some,rows_persist]
    refine ⟨Function.update_self _ _ _,fun v doc hv => ?_⟩
    simp only [Function.update_apply] at hv
    split_ifs at hv with heq
    · exact heq.le
    · rw [hstates v] at hv
      cases hv
  · obtain ⟨hid,⟨row',hrow',hstored⟩,hlatest⟩ := h c' ch' hch'
    have hrows : (persistState B (m.store.putChannelMeta (ch.fundingTxid B) row) ch).rows c' =
        m.store.rows c' := by
      rw [rows_persistState_of_ne hc,m.store.rows_putChannelMeta_of_ne hc]
    rw [SystemStore.getLatestChannelState_eq_some] at hlatest ⊢
    rw [hrows]
    exact ⟨hid,⟨row',hrow',(congrArg Prod.fst hrows).trans hstored⟩,hlatest⟩

end ChannelManager

/-- A transfer that raises leaves nothing behind exactly when it is refused before the writes or no
write fails. A call that has got as far as the writes has advanced the channel in memory, and keeps it
there when one of them raises. -/
theorem failed_transfer_atomic_iff {B : Bitcoinx} {m : ChannelManager} (hm : m.InSync B)
    (f : WriteFailures) (c : Bytes) (s r d : ℤ) :
    (∀ e,(m.applyTransferFailing B f c s r d).2 = .error e →
      ChannelManager.AsBefore B m (m.applyTransferFailing B f c s r d).1) ↔
    m.Refuses c s r d ∨ f.channelMeta = none ∧ f.channelState = none := by
  by_cases href : m.Refuses c s r d
  · refine iff_of_true (fun e _ => ?_) (.inl href)
    rw [href.unchanged]
    exact ChannelManager.asBefore_refl
  obtain ⟨ch,s',hget,ht,hcall⟩ := ChannelManager.applyTransferFailing_accepted (B := B) (f := f) href
  obtain ⟨_,⟨row,hrow,_⟩,_⟩ := hm c ch hget
  have hrow' : ({ ch with state := s' } : Channel).metaRow B = .ok row := hrow
  rw [hcall]
  dsimp only
  constructor
  · intro h
    refine .inr ((@ChannelManager.persistChannelFailing_ok_iff _ _ m.store _ _ hrow').mp ?_)
    cases hw : (persistChannelFailing B f m.store { ch with state := s' }).2 with
    | ok _ => rfl
    | error e =>
      -- the channel in memory has the next version
      have hmem := (h e (by rw [hw]; rfl)).memory c
      simp only [Dict.get?_set_self,hget,Option.some.injEq] at hmem
      have hver : s'.version = ch.state.version := congrArg (fun ch => ch.state.version) hmem
      rw [(transfer_ok ht).2] at hver
      omega
  · rintro (h | h) e he
    · exact absurd h href
    · rw [(ChannelManager.persistChannelFailing_ok_iff hrow').mpr h] at he
      cases he

namespace Reference

theorem inSync_sampleManager : sampleManager.InSync (reference anyone) :=
  (ChannelManager.inSync_fresh .fresh).add metaRow_sampleChannel rfl fun _ => rfl

/-- The second write of a transfer fails. -/
def diskFull : WriteFailures := ⟨none,some ⟨.runtimeError,"database or disk is full"⟩⟩

end Reference

open Reference in
/-- An overdrawn transfer is refused before the writes, so a failing store does no harm. -/
theorem failed_transfer_atomic_sample :
    ChannelManager.AsBefore (reference anyone) sampleManager
      (sampleManager.applyTransferFailing (reference anyone) diskFull sampleId 0 1 40).1 := by
  have href : sampleManager.Refuses sampleId 0 1 40 := by
    have hget : sampleManager.channels.get? sampleId = some (sampleChannel anyone) := by
      decide +kernel
    refine .inr (.inr fun ch hch s' ht => ?_)
    cases hget.symm.trans hch
    cases ht
  have hraise : (sampleManager.applyTransferFailing (reference anyone) diskFull sampleId 0 1 40).2 =
      .error ⟨.accountingError,"transfer of 40 exceeds sender balance 30"⟩ := by
    decide +kernel
  exact (failed_transfer_atomic_iff inSync_sampleManager diskFull sampleId 0 1 40).mpr (.inl href) _
    hraise

open Reference in
/-- A transfer of ten micro-units whose second write fails raises, and leaves version 1 in memory and
version 0 in the store. -/
theorem failed_write_leaves_advanced :
    sampleManager.InSync (reference anyone) ∧
    (sampleManager.applyTransferFailing (reference anyone) diskFull sampleId 0 1 10).2 =
      .error ⟨.runtimeError,"database or disk is full"⟩ ∧
    (sampleManager.applyTransferFailing (reference anyone) diskFull sampleId 0 1 10).1.channels.get?
      sampleId = some movedChannel ∧ movedChannel.state.version = 1 ∧
    (sampleManager.applyTransferFailing (reference anyone) diskFull sampleId 0 1 10).1.store.getLatestChannelState
      sampleId = some (0,Channel.stateDoc ⟨[30,0],0⟩) ∧
    ¬ ChannelManager.AsBefore (reference anyone) sampleManager
      (sampleManager.applyTransferFailing (reference anyone) diskFull sampleId 0 1 10).1 := by
  have hget : (sampleManager.applyTransferFailing (reference anyone) diskFull sampleId 0 1
      10).1.channels.get? sampleId = some movedChannel := by
    decide +kernel
  refine ⟨inSync_sampleManager,by decide +kernel,hget,rfl,by decide +kernel,fun h => ?_⟩
  have hbefore : sampleManager.channels.get? sampleId = some (sampleChannel anyone) := by
    decide +kernel
  have hsame := (hget.symm.trans (h.memory sampleId)).trans hbefore
  have hver : movedChannel.state.version = (sampleChannel anyone).state.version :=
    congrArg (fun ch => ch.state.version) (Option.some.inj hsame)
  cases hver

end SubsatChannel
