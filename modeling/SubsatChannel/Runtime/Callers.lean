import SubsatChannel.Lib.Transition
import SubsatChannel.Runtime.Manager

/-! Concurrent callers of the manager: each call is a sequence of steps, and the steps of different
callers interleave in any order. -/
namespace SubsatChannel

inductive ManagerCall
  | applyTransfer (channelId : Bytes) (sender recipient delta : ℤ)
  | cooperativeClose (channelId : Bytes)
  deriving DecidableEq, Repr

def ManagerCall.channelId : ManagerCall → Bytes
  | .applyTransfer c _ _ _ => c
  | .cooperativeClose c => c

abbrev CloseTx := Tx × List TxOutput

inductive ManagerAnswer
  | version (v : ℕ)
  | closed (close : CloseTx)
  | raised (e : Fault)
  deriving DecidableEq, Repr

/-- How far a call has got. A call that closes a channel carries the close from `built` on. -/
inductive Phase
  | start
  /-- A transfer that found the channel not closed; it does not hold the lock yet. -/
  | checked
  | locked
  /-- A close that found, under the lock, the channel not closed. -/
  | unsealed
  | built (close : CloseTx)
  /-- The channel is changed or marked closed in memory. -/
  | updated (close : Option CloseTx)
  /-- The first of the two writes of `persist_channel` is done. -/
  | metaWritten (close : Option CloseTx)
  | leaving (answer : ManagerAnswer)
  | returned (answer : ManagerAnswer)
  deriving DecidableEq

/-- Is the call inside its `with` block? -/
def Phase.inside : Phase → Bool
  | start | checked | returned _ => false
  | _ => true

/-- The manager, the holder of each lock and the phase of each caller. -/
structure World (κ : Type) where
  manager : ChannelManager
  holder : Bytes → Option κ
  phase : κ → Phase

namespace World
section State
variable {κ : Type} (w : World κ) (m : ChannelManager)

def init (m : ChannelManager) : World κ := ⟨m,fun _ => none,fun _ => .start⟩

def withManager : World κ := { w with manager := m }

@[simp] theorem withManager_manager : (w.withManager m).manager = m := rfl
@[simp] theorem withManager_holder : (w.withManager m).holder = w.holder := rfl
@[simp] theorem withManager_phase : (w.withManager m).phase = w.phase := rfl

end State

variable {κ : Type} [DecidableEq κ]

def goto (w : World κ) (i : κ) (p : Phase) : World κ :=
  { w with phase := Function.update w.phase i p }

@[simp] theorem goto_manager (w : World κ) (i : κ) (p : Phase) :
    (w.goto i p).manager = w.manager := rfl
@[simp] theorem goto_holder (w : World κ) (i : κ) (p : Phase) :
    (w.goto i p).holder = w.holder := rfl
@[simp] theorem goto_phase (w : World κ) (i j : κ) (p : Phase) :
    (w.goto i p).phase j = if j = i then p else w.phase j := by
  simp [goto,Function.update_apply]

/-- `locked`: the caller waits while another one holds the lock. -/
def acquire (w : World κ) (i : κ) (c : Bytes) : World κ :=
  if c ∉ w.manager.locks then
    w.goto i (.returned (.raised ⟨.managerError,s!"channel {hex c.reverse} not registered"⟩))
  else
    match w.holder c with
    | some _ => w
    | none => { w.goto i .locked with holder := Function.update w.holder c (some i) }

def release (w : World κ) (i : κ) (c : Bytes) (answer : ManagerAnswer) : World κ :=
  { w.goto i (.returned answer) with holder := Function.update w.holder c none }

/-- Continue with the channel of the `with` block, or leave the block with an exception. -/
def withChannel (w : World κ) (i : κ) (c : Bytes) (f : Channel → Except Fault (World κ)) : World κ :=
  match w.manager.channels.get? c with
  | none => w.goto i (.leaving (.raised ⟨.keyError,hex c⟩))
  | some ch =>
    match f ch with
    | .error e => w.goto i (.leaving (.raised e))
    | .ok w' => w'

/-- One step of caller `i`. -/
def step (B : Bitcoinx) (calls : κ → ManagerCall) (w : World κ) (i : κ) : World κ :=
  let m := w.manager
  let c := (calls i).channelId
  match w.phase i,calls i with
  | .start,.applyTransfer .. =>
    if c ∈ m.closedChannels then w.goto i
      (.returned (.raised ⟨.stateError,s!"channel {hex c.reverse} already closed"⟩))
    else w.goto i .checked
  | .start,.cooperativeClose _ => w.acquire i c
  | .checked,.applyTransfer .. => w.acquire i c
  | .locked,.applyTransfer _ sender recipient delta => w.withChannel i c fun ch =>
    (ch.applyTransfer sender recipient delta).map fun ch' =>
      (w.goto i (.updated none)).withManager { m with channels := m.channels.set c ch' }
  | .locked,.cooperativeClose _ =>
    if c ∈ m.closedChannels then
      w.goto i (.leaving (.raised ⟨.stateError,"channel already closed"⟩))
    else w.goto i .unsealed
  | .unsealed,.cooperativeClose _ => w.withChannel i c fun ch =>
    (ch.cooperativeClose B none).map fun close => w.goto i (.built close)
  | .built close,.cooperativeClose _ =>
    (w.goto i (.updated (some close))).withManager { m with closedChannels := c :: m.closedChannels }
  | .updated close,_ => w.withChannel i c fun ch =>
    (persistMeta B m.store ch).map fun store =>
      (w.goto i (.metaWritten close)).withManager { m with store := store }
  | .metaWritten close,_ => w.withChannel i c fun ch =>
    let answer := close.elim (.version ch.state.version) .closed
    .ok ((w.goto i (.leaving answer)).withManager { m with store := persistState B m.store ch })
  | .leaving answer,_ => w.release i c answer
  | _,_ => w

/-- The steps as a system that answers with the phase the caller has reached. -/
def tick (B : Bitcoinx) (calls : κ → ManagerCall) (w : World κ) (i : κ) : World κ × Phase :=
  (w.step B calls i,(w.step B calls i).phase i)

/-- What a step can do. -/
inductive Moved (B : Bitcoinx) (calls : κ → ManagerCall) (w : World κ) (i : κ) : World κ → Prop
  /-- The caller waits for the lock or has returned. -/
  | idle : Moved B calls w i w
  /-- The call raises outside the lock. -/
  | refused {e : Fault} (hp : w.phase i = .start ∨ w.phase i = .checked) :
      Moved B calls w i (w.goto i (.returned (.raised e)))
  | checked {c : Bytes} {s r d : ℤ} (hcall : calls i = .applyTransfer c s r d)
      (hp : w.phase i = .start) : Moved B calls w i (w.goto i .checked)
  | acquired {c : Bytes} (hcall : (calls i).channelId = c)
      (hp : w.phase i = .checked ∨ w.phase i = .start ∧ calls i = .cooperativeClose c)
      (hlock : c ∈ w.manager.locks) (hfree : w.holder c = none) :
      Moved B calls w i { w.goto i .locked with holder := Function.update w.holder c (some i) }
  /-- The call raises inside the lock before it has changed anything. -/
  | failed {e : Fault} (hp : w.phase i = .locked ∨ w.phase i = .unsealed) :
      Moved B calls w i (w.goto i (.leaving (.raised e)))
  /-- The call raises inside the lock because the channel cannot be written. -/
  | unwritten {e : Fault} {close : Option CloseTx}
      (hp : w.phase i = .updated close ∨ w.phase i = .metaWritten close)
      (hch : ∀ ch, w.manager.channels.get? (calls i).channelId = some ch → ch.fundingUtxos = []) :
      Moved B calls w i (w.goto i (.leaving (.raised e)))
  | applied {c : Bytes} {s r d : ℤ} {ch ch' : Channel} (hcall : calls i = .applyTransfer c s r d)
      (hp : w.phase i = .locked) (hch : w.manager.channels.get? c = some ch)
      (ht : ch.applyTransfer s r d = .ok ch') : Moved B calls w i
        ((w.goto i (.updated none)).withManager
          { w.manager with channels := w.manager.channels.set c ch' })
  | unsealed {c : Bytes} (hcall : calls i = .cooperativeClose c) (hp : w.phase i = .locked)
      (hopen : c ∉ w.manager.closedChannels) : Moved B calls w i (w.goto i .unsealed)
  | built {c : Bytes} {ch : Channel} {close : CloseTx} (hcall : calls i = .cooperativeClose c)
      (hp : w.phase i = .unsealed) (hch : w.manager.channels.get? c = some ch)
      (hclose : ch.cooperativeClose B none = .ok close) : Moved B calls w i (w.goto i (.built close))
  | marked {c : Bytes} {close : CloseTx} (hcall : calls i = .cooperativeClose c)
      (hp : w.phase i = .built close) : Moved B calls w i
        ((w.goto i (.updated (some close))).withManager
          { w.manager with closedChannels := c :: w.manager.closedChannels })
  | metaWritten {c : Bytes} {ch : Channel} {close : Option CloseTx} {store : SystemStore}
      (hcall : (calls i).channelId = c) (hp : w.phase i = .updated close)
      (hch : w.manager.channels.get? c = some ch)
      (hs : persistMeta B w.manager.store ch = .ok store) : Moved B calls w i
        ((w.goto i (.metaWritten close)).withManager { w.manager with store := store })
  | stateWritten {c : Bytes} {ch : Channel} {close : Option CloseTx}
      (hcall : (calls i).channelId = c) (hp : w.phase i = .metaWritten close)
      (hch : w.manager.channels.get? c = some ch) : Moved B calls w i
        ((w.goto i (.leaving (close.elim (.version ch.state.version) .closed))).withManager
          { w.manager with store := persistState B w.manager.store ch })
  | released {c : Bytes} {a : ManagerAnswer} (hcall : (calls i).channelId = c)
      (hp : w.phase i = .leaving a) : Moved B calls w i (w.release i c a)

section Moved
variable {B : Bitcoinx} {calls : κ → ManagerCall} {w : World κ} {i : κ}

theorem moved_acquire {c : Bytes} (hcall : (calls i).channelId = c)
    (hp : w.phase i = .checked ∨ w.phase i = .start ∧ calls i = .cooperativeClose c) :
    Moved B calls w i (w.acquire i c) := by
  unfold acquire
  split_ifs with hlock
  · split
    · exact .idle
    · exact .acquired hcall hp hlock ‹_›
  · refine .refused ?_
    rcases hp with hp | ⟨hp,_⟩
    · exact .inr hp
    · exact .inl hp

theorem step_moved (B : Bitcoinx) (calls : κ → ManagerCall) (w : World κ) (i : κ) :
    Moved B calls w i (w.step B calls i) := by
  unfold step
  dsimp only
  split
  next c s r d hp hcall =>
    split_ifs
    · exact .refused (.inl hp)
    · exact .checked hcall hp
  next c hp hcall =>
    refine moved_acquire rfl (.inr ⟨hp,?_⟩)
    rw [hcall]; rfl
  next hp _ => exact moved_acquire rfl (.inl hp)
  next c s r d hp hcall =>
    rw [hcall]
    unfold withChannel
    dsimp only
    split
    · exact .failed (.inl hp)
    next ch hch =>
      cases ht : ch.applyTransfer s r d with
      | error e => exact .failed (.inl hp)
      | ok ch' => exact .applied hcall hp hch ht
  next c hp hcall =>
    rw [hcall]
    split_ifs with hclosed
    · exact .failed (.inl hp)
    · exact .unsealed hcall hp hclosed
  next c hp hcall =>
    rw [hcall]
    unfold withChannel
    dsimp only
    split
    · exact .failed (.inr hp)
    next ch hch =>
      cases hclose : ch.cooperativeClose B none with
      | error e => exact .failed (.inr hp)
      | ok close => exact .built hcall hp hch hclose
  next close c hp hcall =>
    rw [hcall]
    exact .marked hcall hp
  next close hp =>
    unfold withChannel
    dsimp only
    split
    next hch => exact .unwritten (.inl hp) (by simp [hch])
    next ch hch =>
      cases hs : persistMeta B w.manager.store ch with
      | error e =>
        refine .unwritten (.inl hp) fun ch' hch' => ?_
        rw [hch] at hch'
        cases hch'
        exact persistMeta_error hs
      | ok store => exact .metaWritten rfl hp hch hs
  next close hp =>
    unfold withChannel
    split
    next hch => exact .unwritten (.inr hp) (by simp [hch])
    next ch hch => exact .stateWritten rfl hp hch
  next a hp => exact .released rfl hp
  next => exact .idle

theorem step_returned {a : ManagerAnswer} (h : w.phase i = .returned a) : w.step B calls i = w := by
  unfold step
  simp [h]

/-- A step moves no other caller. -/
theorem Moved.phase_of_ne {w' : World κ} (hm : Moved B calls w i w') {j : κ} (hj : j ≠ i) :
    w'.phase j = w.phase j := by
  cases hm <;> simp [release,hj]

/-- A step leaves every other channel as it is: its lock, its state and the closed mark. -/
theorem Moved.channel_of_ne {w' : World κ} (hm : Moved B calls w i w') {c : Bytes}
    (hc : c ≠ (calls i).channelId) : w'.holder c = w.holder c ∧
      w'.manager.channels.get? c = w.manager.channels.get? c ∧
      (c ∈ w'.manager.closedChannels ↔ c ∈ w.manager.closedChannels) := by
  cases hm with
  | acquired hcall => simp [← hcall,hc]
  | applied hcall =>
    rw [hcall] at hc
    refine ⟨rfl,?_,Iff.rfl⟩
    rw [withManager_manager,Dict.get?_set]
    exact if_neg (Ne.symm hc)
  | marked hcall =>
    rw [hcall] at hc
    refine ⟨rfl,rfl,?_⟩
    rw [withManager_manager,List.mem_cons]
    exact or_iff_right hc
  | released hcall => simp [release,← hcall,hc]
  | _ => simp

/-- A step leaves the locks alone, or takes a free lock, or gives the lock back. -/
theorem Moved.lock {w' : World κ} (hm : Moved B calls w i w') :
    (w'.holder = w.holder ∧ (w'.phase i).inside = (w.phase i).inside) ∨
    ((w.phase i).inside = false ∧ w'.phase i = .locked ∧
      (calls i).channelId ∈ w.manager.locks ∧ w.holder (calls i).channelId = none ∧
      w'.holder = Function.update w.holder (calls i).channelId (some i)) ∨
    ((w.phase i).inside = true ∧ (w'.phase i).inside = false ∧
      w'.holder = Function.update w.holder (calls i).channelId none) := by
  cases hm with
  | acquired hcall hp hlock hfree =>
    refine .inr (.inl ⟨?_,by simp,by rwa [hcall],by rwa [hcall],by rw [hcall]⟩)
    rcases hp with hp | ⟨hp,_⟩ <;> rw [hp] <;> rfl
  | released hcall hp => exact .inr (.inr ⟨by rw [hp]; rfl,by simp [release]; rfl,by rw [hcall]; rfl⟩)
  | idle => exact .inl ⟨rfl,rfl⟩
  | refused hp => rcases hp with hp | hp <;> exact .inl ⟨rfl,by simp [hp,Phase.inside]⟩
  | failed hp => rcases hp with hp | hp <;> exact .inl ⟨rfl,by simp [hp,Phase.inside]⟩
  | unwritten hp => rcases hp with hp | hp <;> exact .inl ⟨rfl,by simp [hp,Phase.inside]⟩
  | _ => exact .inl ⟨rfl,by simp [*,Phase.inside]⟩

/-- No step unregisters a channel. -/
theorem Moved.registered {w' : World κ} (hm : Moved B calls w i w') {c : Bytes}
    (hc : ∃ ch, w.manager.channels.get? c = some ch) :
    ∃ ch, w'.manager.channels.get? c = some ch := by
  cases hm with
  | applied =>
    simp only [withManager_manager,Dict.get?_set]
    split_ifs
    · exact ⟨_,rfl⟩
    · exact hc
  | _ => exact hc

end Moved
end World
end SubsatChannel
