import SubsatChannel.Store.Recover

/-! The manager of many channels. The locks themselves are part of the callers' state: here is only
which channels have one. -/
namespace SubsatChannel

structure ChannelManager where
  store : SystemStore
  channels : Dict Bytes Channel
  locks : List Bytes
  closedChannels : List Bytes

namespace ChannelManager

/-- `ChannelManager(store)` -/
def fresh (store : SystemStore) : ChannelManager := ⟨store,∅,[],[]⟩

/-- Register a channel and write it to the store. When the write fails the channel stays
registered. -/
def add (B : Bitcoinx) (m : ChannelManager) (ch : Channel) : ChannelManager × Except Fault Bytes :=
  let channelId := ch.fundingTxid B
  match m.channels.get? channelId with
  | some _ => (m,.error ⟨.managerError,s!"channel {hex channelId.reverse} already registered"⟩)
  | none =>
    let m := { m with channels := m.channels.set channelId ch, locks := channelId :: m.locks }
    match persistChannel B m.store ch with
    | .error e => (m,.error e)
    | .ok store => ({ m with store := store },.ok channelId)

/-- The block of `with self.locked(..)`. -/
def locked {α : Type} (m : ChannelManager) (channelId : Bytes)
    (block : Channel → ChannelManager × Except Fault α) : ChannelManager × Except Fault α :=
  if channelId ∉ m.locks then
    (m,.error ⟨.managerError,s!"channel {hex channelId.reverse} not registered"⟩)
  else
    match m.channels.get? channelId with
    | none => (m,.error ⟨.keyError,hex channelId⟩)
    | some ch => block ch

/-- `apply_transfer` while no other call is running. -/
def applyTransfer (B : Bitcoinx) (m : ChannelManager) (channelId : Bytes)
    (sender recipient delta : ℤ) : ChannelManager × Except Fault ℕ :=
  if channelId ∈ m.closedChannels then
    (m,.error ⟨.stateError,s!"channel {hex channelId.reverse} already closed"⟩)
  else
    m.locked channelId fun ch =>
      match ch.applyTransfer sender recipient delta with
      | .error e => (m,.error e)
      | .ok ch =>
        let m := { m with channels := m.channels.set channelId ch }
        match persistChannel B m.store ch with
        | .error e => (m,.error e)
        | .ok store => ({ m with store := store },.ok ch.state.version)

/-- `cooperative_close` while no other call is running. -/
def cooperativeClose (B : Bitcoinx) (m : ChannelManager) (channelId : Bytes) :
    ChannelManager × Except Fault (Tx × List TxOutput) :=
  m.locked channelId fun ch =>
    if channelId ∈ m.closedChannels then (m,.error ⟨.stateError,"channel already closed"⟩)
    else
      match ch.cooperativeClose B none with
      | .error e => (m,.error e)
      | .ok close =>
        let m := { m with closedChannels := channelId :: m.closedChannels }
        match persistChannel B m.store ch with
        | .error e => (m,.error e)
        | .ok store => ({ m with store := store },.ok close)

end ChannelManager

/-- The managers on which only channels have been registered, each without an error. -/
inductive Registered (B : Bitcoinx) : ChannelManager → Prop
  | fresh (store : SystemStore) : Registered B (ChannelManager.fresh store)
  | add {m : ChannelManager} {ch : Channel} {channelId : Bytes} (hm : Registered B m)
      (h : (m.add B ch).2 = .ok channelId) : Registered B (m.add B ch).1

namespace Registered
variable {B : Bitcoinx} {m : ChannelManager}

/-- A registration without an error adds one channel that can be written to the store. -/
theorem add_ok {ch : Channel} {channelId : Bytes} (h : (m.add B ch).2 = .ok channelId) :
    ch.fundingUtxos ≠ [] ∧ ∃ store, (m.add B ch).1 =
      ⟨store,m.channels.set (ch.fundingTxid B) ch,ch.fundingTxid B :: m.locks,m.closedChannels⟩ := by
  unfold ChannelManager.add at h ⊢
  cases hg : m.channels.get? (ch.fundingTxid B) with
  | some _ => simp only [hg] at h; cases h
  | none =>
    cases hp : persistChannel B m.store ch with
    | error e => simp only [hg,hp] at h; cases h
    | ok store =>
      refine ⟨?_,store,by simp only [hg,hp]⟩
      obtain ⟨_,hmeta,_⟩ := persistChannel_ok hp
      obtain ⟨row,hr,_⟩ := persistMeta_ok hmeta
      exact metaRow_ok_iff.mp ⟨row,hr⟩

/-- Every lock belongs to a registered channel. -/
theorem present (hm : Registered B m) {c : Bytes} (hc : c ∈ m.locks) :
    ∃ ch, m.channels.get? c = some ch := by
  induction hm with
  | fresh => cases hc
  | @add m ch _ _ h ih =>
    obtain ⟨_,store,hm⟩ := add_ok h
    rw [hm] at hc ⊢
    simp only [Dict.get?_set]
    split_ifs with he
    · exact ⟨ch,rfl⟩
    · exact ih ((List.mem_cons.mp hc).resolve_left (Ne.symm he))

/-- A channel is registered under its funding transaction's id and can be written to the store. -/
theorem keyed (hm : Registered B m) {c : Bytes} {ch : Channel} (hc : m.channels.get? c = some ch) :
    ch.fundingTxid B = c ∧ ch.fundingUtxos ≠ [] := by
  induction hm with
  | fresh => cases hc
  | add _ h ih =>
    obtain ⟨hu,store,hm⟩ := add_ok h
    rw [hm] at hc
    simp only [Dict.get?_set] at hc
    split_ifs at hc with he
    · cases hc
      exact ⟨he,hu⟩
    · exact ih hc

end Registered
end SubsatChannel
