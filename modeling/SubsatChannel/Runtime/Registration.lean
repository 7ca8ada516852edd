import SubsatChannel.Runtime.CloseRace

/-! Registrations beside the other callers of the manager. `add` writes the channel to the store
without its lock, so the steps of its `persist_channel` interleave with transfers on the channel. -/
namespace SubsatChannel

/-- How far a registration has got. -/
inductive AddPhase
  | start
  /-- The channel and its lock are in the registry. -/
  | registered
  | metaWritten
  | balancesRead (balances : List ℕ)
  /-- The JSON text of the state is made; the version for its row is read after that. -/
  | encoded (doc : StateDoc)
  | addressed (version : ℕ) (doc : StateDoc)
  | returned (answer : Except Fault Bytes)
  deriving DecidableEq

/-- Is the channel registered while its registration still has something to write? -/
def AddPhase.writing : AddPhase → Bool
  | start | returned _ => false
  | _ => true

/-- Has the registration read a part of the state, but not yet all of it? -/
def AddPhase.reading : AddPhase → Bool
  | balancesRead _ | encoded _ => true
  | _ => false

/-- One process: the callers of the manager and the registrations. -/
structure Process (κ ρ : Type) where
  world : World κ
  adding : ρ → AddPhase

namespace Process
variable {κ ρ : Type}

/-- A new process on a store. -/
def fresh (store : SystemStore) : Process κ ρ := ⟨World.init (.fresh store),fun _ => .start⟩

/-- No operation is in progress. -/
def Quiet (p : Process κ ρ) : Prop :=
  (∀ i, p.world.phase i = .start ∨ ∃ a, p.world.phase i = .returned a) ∧
  ∀ r, p.adding r = .start ∨ ∃ a, p.adding r = .returned a

variable [DecidableEq κ] [DecidableEq ρ]

def goto (p : Process κ ρ) (r : ρ) (phase : AddPhase) : Process κ ρ :=
  { p with adding := Function.update p.adding r phase }

def withManager (p : Process κ ρ) (m : ChannelManager) : Process κ ρ :=
  { p with world := p.world.withManager m }

omit [DecidableEq κ] in
@[simp] theorem goto_world (p : Process κ ρ) (r : ρ) (phase : AddPhase) :
    (p.goto r phase).world = p.world := rfl
omit [DecidableEq κ] in
@[simp] theorem goto_adding (p : Process κ ρ) (r t : ρ) (phase : AddPhase) :
    (p.goto r phase).adding t = if t = r then phase else p.adding t := by
  simp [goto,Function.update_apply]
omit [DecidableEq κ] [DecidableEq ρ] in
@[simp] theorem withManager_world (p : Process κ ρ) (m : ChannelManager) :
    (p.withManager m).world = p.world.withManager m := rfl
omit [DecidableEq κ] [DecidableEq ρ] in
@[simp] theorem withManager_adding (p : Process κ ρ) (m : ChannelManager) :
    (p.withManager m).adding = p.adding := rfl

/-- One step of registration `r`. After the registration the channel object is the one in the
registry. -/
def addStep (B : Bitcoinx) (chans : ρ → Channel) (p : Process κ ρ) (r : ρ) : Process κ ρ :=
  let m := p.world.manager
  let c := (chans r).fundingTxid B
  let ch := (m.channels.get? c).getD (chans r)
  match p.adding r with
  | .start =>
    match m.channels.get? c with
    | some _ => p.goto r
      (.returned (.error ⟨.managerError,s!"channel {hex c.reverse} already registered"⟩))
    | none => (p.goto r .registered).withManager
      { m with channels := m.channels.set c (chans r), locks := c :: m.locks }
  | .registered =>
    match persistMeta B m.store ch with
    | .error e => p.goto r (.returned (.error e))
    | .ok store => (p.goto r .metaWritten).withManager { m with store := store }
  | .metaWritten => p.goto r (.balancesRead ch.state.balances)
  | .balancesRead balances => p.goto r (.encoded ⟨balances.map Int.ofNat,ch.state.version⟩)
  | .encoded doc => p.goto r (.addressed ch.state.version doc)
  | .addressed version doc => (p.goto r (.returned (.ok c))).withManager
    { m with store := m.store.putChannelState c version doc }
  | .returned _ => p

/-- One step of a caller of the manager or of a registration. -/
def step (B : Bitcoinx) (calls : κ → ManagerCall) (chans : ρ → Channel) (p : Process κ ρ) :
    κ ⊕ ρ → Process κ ρ
  | .inl i => { p with world := p.world.step B calls i }
  | .inr r => p.addStep B chans r

def tick (B : Bitcoinx) (calls : κ → ManagerCall) (chans : ρ → Channel) (p : Process κ ρ)
    (x : κ ⊕ ρ) : Process κ ρ × Unit := (p.step B calls chans x,())

/-- What a step of a registration can do. -/
inductive Added (B : Bitcoinx) (chans : ρ → Channel) (p : Process κ ρ) (r : ρ) : Process κ ρ → Prop
  | idle (hp : ∃ a, p.adding r = .returned a) : Added B chans p r p
  | refused {e : Fault} (hp : p.adding r = .start) :
      Added B chans p r (p.goto r (.returned (.error e)))
  | registered {c : Bytes} (hc : (chans r).fundingTxid B = c) (hp : p.adding r = .start)
      (hnew : p.world.manager.channels.get? c = none) : Added B chans p r
        ((p.goto r .registered).withManager { p.world.manager with
          channels := p.world.manager.channels.set c (chans r)
          locks := c :: p.world.manager.locks })
  /-- The channel cannot be written. -/
  | unwritten {ch : Channel} {e : Fault} (hp : p.adding r = .registered)
      (hch : (p.world.manager.channels.get? ((chans r).fundingTxid B)).getD (chans r) = ch)
      (hutxos : ch.fundingUtxos = []) : Added B chans p r (p.goto r (.returned (.error e)))
  | metaWritten {ch : Channel} {store : SystemStore} (hp : p.adding r = .registered)
      (hch : (p.world.manager.channels.get? ((chans r).fundingTxid B)).getD (chans r) = ch)
      (hs : persistMeta B p.world.manager.store ch = .ok store) : Added B chans p r
        ((p.goto r .metaWritten).withManager { p.world.manager with store := store })
  | balancesRead {ch : Channel} (hp : p.adding r = .metaWritten)
      (hch : (p.world.manager.channels.get? ((chans r).fundingTxid B)).getD (chans r) = ch) :
      Added B chans p r (p.goto r (.balancesRead ch.state.balances))
  | encoded {ch : Channel} {balances : List ℕ} (hp : p.adding r = .balancesRead balances)
      (hch : (p.world.manager.channels.get? ((chans r).fundingTxid B)).getD (chans r) = ch) :
      Added B chans p r (p.goto r (.encoded ⟨balances.map Int.ofNat,ch.state.version⟩))
  | addressed {ch : Channel} {doc : StateDoc} (hp : p.adding r = .encoded doc)
      (hch : (p.world.manager.channels.get? ((chans r).fundingTxid B)).getD (chans r) = ch) :
      Added B chans p r (p.goto r (.addressed ch.state.version doc))
  | stateWritten {version : ℕ} {doc : StateDoc} {c : Bytes} (hc : (chans r).fundingTxid B = c)
      (hp : p.adding r = .addressed version doc) : Added B chans p r
        ((p.goto r (.returned (.ok c))).withManager { p.world.manager with
          store := p.world.manager.store.putChannelState c version doc })

omit [DecidableEq κ] in
theorem addStep_added (B : Bitcoinx) (chans : ρ → Channel) (p : Process κ ρ) (r : ρ) :
    Added B chans p r (p.addStep B chans r) := by
  unfold addStep
  dsimp only
  split
  next hp =>
    split
    next hget => exact .refused hp
    next hget => exact .registered rfl hp hget
  next hp =>
    cases hs : persistMeta B p.world.manager.store
        ((p.world.manager.channels.get? ((chans r).fundingTxid B)).getD (chans r)) with
    | error e => exact .unwritten hp rfl (persistMeta_error hs)
    | ok store => exact .metaWritten hp rfl hs
  next hp => exact .balancesRead hp rfl
  next hp => exact .encoded hp rfl
  next hp => exact .addressed hp rfl
  next hp => exact .stateWritten rfl hp
  next a hp => exact .idle ⟨a,hp⟩

end Process
end SubsatChannel
