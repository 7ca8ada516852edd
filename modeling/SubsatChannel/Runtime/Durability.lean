import SubsatChannel.Runtime.Registration
import SubsatChannel.Store.Crash

/-! The durable state against the live one: whatever the interleaving, a channel comes back from the
store as it is in memory, provided that no transfer falls between the reads of its registration. -/
namespace SubsatChannel
open Transition

/-- The call is about to write the channel to the store. -/
def Phase.persisting : Phase → Bool
  | updated _ | metaWritten _ => true
  | _ => false

/-- The registration will still write this version. -/
def AddPhase.owes (version : ℕ) : AddPhase → Bool
  | registered | metaWritten | balancesRead _ | encoded _ => true
  | addressed v _ => v = version
  | _ => false

/-- What the registration has read agrees with the state: a part of it with this very state, the
whole of it with the state of the version it is for. -/
def AddPhase.Agrees (s : State) : AddPhase → Prop
  | balancesRead balances => balances = s.balances
  | encoded doc => doc = Channel.stateDoc s
  | addressed version doc => version ≤ s.version ∧ (version = s.version → doc = Channel.stateDoc s)
  | _ => True

namespace World
variable {κ : Type} [DecidableEq κ] {B : Bitcoinx} {calls : κ → ManagerCall} {w w' : World κ} {i : κ}

/-- The four ways in which a step touches channels and store. -/
theorem Moved.effect (hs : Sound B w.manager) (hx : Exclusive calls w) (hm : Moved B calls w i w') :
    (w'.manager.channels = w.manager.channels ∧ w'.manager.store = w.manager.store ∧
      ((w.phase i).persisting → (w'.phase i).persisting)) ∨
    (∃ c s r d ch ch', calls i = .applyTransfer c s r d ∧ w.phase i = .locked ∧
      w.manager.channels.get? c = some ch ∧ ch.applyTransfer s r d = .ok ch' ∧
      w'.manager.channels = w.manager.channels.set c ch' ∧ w'.manager.store = w.manager.store ∧
      (w'.phase i).persisting) ∨
    (∃ ch row, w.manager.channels.get? (calls i).channelId = some ch ∧ ch.metaRow B = .ok row ∧
      w'.manager.channels = w.manager.channels ∧
      w'.manager.store = w.manager.store.putChannelMeta (calls i).channelId row ∧
      (w'.phase i).persisting) ∨
    ∃ ch, w.manager.channels.get? (calls i).channelId = some ch ∧
      w'.manager.channels = w.manager.channels ∧ w'.manager.store = w.manager.store.putChannelState
        (calls i).channelId ch.state.version (Channel.stateDoc ch.state) := by
  cases hm with
  | applied hcall hp hch ht =>
    exact .inr (.inl ⟨_,_,_,_,_,_,hcall,hp,hch,ht,rfl,rfl,by simp [Phase.persisting]⟩)
  | metaWritten hcall hp hch hs' =>
    obtain ⟨row,hrow,rfl⟩ := persistMeta_ok hs'
    subst hcall
    refine .inr (.inr (.inl ⟨_,row,hch,hrow,rfl,?_,by simp [Phase.persisting]⟩))
    rw [(hs.keyed _ _ hch).1]
    rfl
  | stateWritten hcall hp hch =>
    subst hcall
    refine .inr (.inr (.inr ⟨_,hch,rfl,?_⟩))
    rw [← (hs.keyed _ _ hch).1]
    rfl
  | unwritten hp hch =>
    obtain ⟨ch,hget⟩ := hx.present i (by rcases hp with hp | hp <;> rw [hp] <;> rfl)
    exact absurd (hch ch hget) (hs.keyed _ _ hget).2
  | idle => exact .inl ⟨rfl,rfl,id⟩
  | refused hp => rcases hp with hp | hp <;> exact .inl ⟨rfl,rfl,by simp [hp,Phase.persisting]⟩
  | acquired _ hp =>
    rcases hp with hp | ⟨hp,_⟩ <;> exact .inl ⟨rfl,rfl,by simp [hp,Phase.persisting]⟩
  | failed hp => rcases hp with hp | hp <;> exact .inl ⟨rfl,rfl,by simp [hp,Phase.persisting]⟩
  | _ => exact .inl ⟨rfl,rfl,by simp [*,Phase.persisting]⟩

end World

namespace Process
variable {κ ρ : Type} [DecidableEq κ] [DecidableEq ρ]

/-- Would the channel accept the transfer in its present state? -/
def accepts (p : Process κ ρ) (c : Bytes) (s r d : ℤ) : Bool :=
  match p.world.manager.channels.get? c with
  | some ch => (ch.applyTransfer s r d).toBool
  | none => false

omit [DecidableEq κ] [DecidableEq ρ] in
theorem accepts_of_ok {p : Process κ ρ} {c : Bytes} {ch ch' : Channel} {s r d : ℤ}
    (hch : p.world.manager.channels.get? c = some ch) (ht : ch.applyTransfer s r d = .ok ch') :
    p.accepts c s r d = true := by
  simp only [accepts,hch,ht,Except.toBool]

/-- A transfer is not applied while the registration of its channel has read a part of the state
only, and every channel that is registered has a parent output. -/
def Untorn (B : Bitcoinx) (calls : κ → ManagerCall) (chans : ρ → Channel) (p : Process κ ρ) :
    κ ⊕ ρ → Prop
  | .inl i => ∀ c s r d, calls i = .applyTransfer c s r d → p.world.phase i = .locked →
      p.accepts c s r d = true → ∀ t, (chans t).fundingTxid B = c → (p.adding t).reading = false
  | .inr t => (chans t).fundingUtxos ≠ []

omit [DecidableEq κ] [DecidableEq ρ] in
theorem untorn_iff {B : Bitcoinx} {calls : κ → ManagerCall} {chans : ρ → Channel} {p : Process κ ρ}
    {i : κ} : Untorn B calls chans p (.inl i) ↔
      match calls i with
      | .applyTransfer c s r d => p.world.phase i = .locked → p.accepts c s r d = true →
        ∀ t, (chans t).fundingTxid B = c → (p.adding t).reading = false
      | .cooperativeClose _ => True := by
  cases hcall : calls i with
  | applyTransfer c s r d =>
    refine ⟨fun h => h c s r d hcall,fun h c' s' r' d' he => ?_⟩
    rw [hcall] at he
    cases he
    exact h
  | cooperativeClose c => simp [Untorn,hcall]

instance [Fintype ρ] (B : Bitcoinx) (calls : κ → ManagerCall) (chans : ρ → Channel)
    (p : Process κ ρ) (x : κ ⊕ ρ) : Decidable (Untorn B calls chans p x) :=
  match x with
  | .inl i =>
    haveI : Decidable (match calls i with
        | .applyTransfer c s r d => p.world.phase i = .locked → p.accepts c s r d = true →
          ∀ t, (chans t).fundingTxid B = c → (p.adding t).reading = false
        | .cooperativeClose _ => True) :=
      match calls i with
      | .applyTransfer c s r d => inferInstanceAs (Decidable (p.world.phase i = .locked →
          p.accepts c s r d = true → ∀ t, (chans t).fundingTxid B = c → (p.adding t).reading = false))
      | .cooperativeClose _ => inferInstanceAs (Decidable True)
    decidable_of_iff' _ untorn_iff
  | .inr t => inferInstanceAs (Decidable ((chans t).fundingUtxos ≠ []))

/-- Some caller or the registration of the channel will still write the channel's state. -/
def Owed (B : Bitcoinx) (calls : κ → ManagerCall) (chans : ρ → Channel) (p : Process κ ρ) (c : Bytes)
    (ch : Channel) : Prop :=
  (∃ i, (calls i).channelId = c ∧ (p.world.phase i).persisting) ∨
  ∃ r, (chans r).fundingTxid B = c ∧ (p.adding r).owes ch.state.version

/-- What the store holds about a registered channel: its row, no state but its own and older ones,
and its own state, as far as they are not still to be written. -/
structure Mirror (B : Bitcoinx) (calls : κ → ManagerCall) (chans : ρ → Channel) (p : Process κ ρ)
    (c : Bytes) (ch : Channel) : Prop where
  canonical : ch.Canonical B
  row : (∃ row, ch.metaRow B = .ok row ∧ (p.world.manager.store.rows c).1 = some row) ∨
    ∃ r, (chans r).fundingTxid B = c ∧ p.adding r = .registered
  newest : ∀ v doc, (p.world.manager.store.rows c).2 v = some doc →
    v ≤ ch.state.version ∧ (v = ch.state.version → doc = Channel.stateDoc ch.state)
  current : (p.world.manager.store.rows c).2 ch.state.version = some (Channel.stateDoc ch.state) ∨
    Owed B calls chans p c ch
  agrees : ∀ r, (chans r).fundingTxid B = c → (p.adding r).Agrees ch.state

/-- The store mirrors the registered channels and holds nothing else. -/
structure Mirrored (B : Bitcoinx) (calls : κ → ManagerCall) (chans : ρ → Channel) (p : Process κ ρ) :
    Prop where
  sound : World.Sound B p.world.manager
  exclusive : World.Exclusive calls p.world
  mirror : ∀ c ch, p.world.manager.channels.get? c = some ch → Mirror B calls chans p c ch
  empty : ∀ c, p.world.manager.channels.get? c = none →
    p.world.manager.store.rows c = (none,fun _ => none)
  registered : ∀ r, (p.adding r).writing →
    ∃ ch, p.world.manager.channels.get? ((chans r).fundingTxid B) = some ch

section Callers
variable {B : Bitcoinx} {calls : κ → ManagerCall} {chans : ρ → Channel} {p : Process κ ρ} {i : κ}
  {w' : World κ} {c : Bytes} {ch : Channel}

/-- A transfer moves a channel to the next version and changes nothing else about it. -/
theorem applyTransfer_next {ch' : Channel} {s r d : ℤ} (hc : ch.Canonical B)
    (h : ch.applyTransfer s r d = .ok ch') : ch'.Canonical B ∧
      ch'.state.version = ch.state.version + 1 ∧ ch'.metaRow B = ch.metaRow B := by
  unfold Channel.applyTransfer at h
  cases ht : transfer ch.state s r d ch.cfg with
  | error e => rw [ht] at h; cases h
  | ok state =>
    rw [ht] at h
    cases h
    obtain ⟨hs,hv⟩ := transfer_ok ht
    exact ⟨hc.withState hs,hv,rfl⟩

omit [DecidableEq κ] [DecidableEq ρ] in
theorem Mirror.congr {p' : Process κ ρ} (h : Mirror B calls chans p c ch)
    (hrows : p'.world.manager.store.rows c = p.world.manager.store.rows c)
    (hadding : ∀ r, (chans r).fundingTxid B = c → p'.adding r = p.adding r)
    (howed : ∀ i, (calls i).channelId = c → (p.world.phase i).persisting →
      (p'.world.phase i).persisting) : Mirror B calls chans p' c ch where
  canonical := h.canonical
  row := by
    rw [hrows]
    refine h.row.imp_right fun ⟨r,hr,hp⟩ => ⟨r,hr,?_⟩
    rw [hadding r hr,hp]
  newest := by
    rw [hrows]
    exact h.newest
  current := by
    rw [hrows]
    refine h.current.imp_right fun ho => ho.imp ?_ ?_
    · rintro ⟨i,hi,hp⟩
      exact ⟨i,hi,howed i hi hp⟩
    · rintro ⟨r,hr,ho⟩
      exact ⟨r,hr,by rwa [hadding r hr]⟩
  agrees r hr := by
    rw [hadding r hr]
    exact h.agrees r hr

omit [DecidableEq κ] [DecidableEq ρ] in
/-- The transfer of caller `i` takes effect on its channel. -/
theorem Mirror.applied {ch' : Channel} {s r d : ℤ} (h : Mirror B calls chans p c ch)
    (hget : p.world.manager.channels.get? c = some ch) (hu : Untorn B calls chans p (.inl i)) (hcall : calls i = .applyTransfer c s r d)
    (hp : p.world.phase i = .locked) (happly : ch.applyTransfer s r d = .ok ch')
    (hstore : w'.manager.store = p.world.manager.store) (hi : (w'.phase i).persisting) :
    Mirror B calls chans { p with world := w' } c ch' := by
  obtain ⟨hcanon,hv,hrow⟩ := applyTransfer_next h.canonical happly
  have hbelow : ∀ v, v ≤ ch.state.version → v ≠ ch'.state.version := by
    intro v hle
    omega
  refine ⟨hcanon,?_,fun v doc hdoc => ?_,?_,fun t ht => ?_⟩
  · rw [hrow]
    simp only [hstore]
    exact h.row
  · simp only [hstore] at hdoc
    have hle := (h.newest v doc hdoc).1
    exact ⟨by omega,fun he => absurd he (hbelow v hle)⟩
  · exact .inr (.inl ⟨i,by rw [hcall]; rfl,hi⟩)
  · have hread := hu c s r d hcall hp (accepts_of_ok hget happly) t ht
    have hagree := h.agrees t ht
    change (p.adding t).Agrees ch'.state
    cases hphase : p.adding t with
    | balancesRead balances => rw [hphase] at hread; cases hread
    | encoded doc => rw [hphase] at hread; cases hread
    | addressed version doc =>
      rw [hphase] at hagree
      have hle := hagree.1
      exact ⟨by omega,fun he => absurd he (hbelow version hle)⟩
    | _ => trivial

omit [DecidableEq κ] [DecidableEq ρ] in
/-- The row of the channel is written. -/
theorem Mirror.rowWritten {p' : Process κ ρ} {row : ChannelMeta} (h : Mirror B calls chans p c ch)
    (hrow : ch.metaRow B = .ok row) (hstore : p'.world.manager.store =
      p.world.manager.store.putChannelMeta c row)
    (howed : ∀ i, (calls i).channelId = c → (p.world.phase i).persisting →
      (p'.world.phase i).persisting)
    (hadding : ∀ r, (chans r).fundingTxid B = c →
      ((p.adding r).owes ch.state.version → (p'.adding r).owes ch.state.version) ∧
      ((p.adding r).Agrees ch.state → (p'.adding r).Agrees ch.state)) :
    Mirror B calls chans p' c ch := by
  have hrows : p'.world.manager.store.rows c = (some row,(p.world.manager.store.rows c).2) := by
    rw [hstore,SystemStore.rows_putChannelMeta]
  refine ⟨h.canonical,.inl ⟨row,hrow,by rw [hrows]⟩,by rw [hrows]; exact h.newest,?_,fun r hr => ?_⟩
  · rw [hrows]
    refine h.current.imp_right fun ho => ho.imp ?_ ?_
    · rintro ⟨i,hi,hp⟩
      exact ⟨i,hi,howed i hi hp⟩
    · rintro ⟨r,hr,ho⟩
      exact ⟨r,hr,(hadding r hr).1 ho⟩
  · exact (hadding r hr).2 (h.agrees r hr)

omit [DecidableEq κ] [DecidableEq ρ] in
/-- A state of the channel is written: its own, or an older one while its own is still owed. -/
theorem Mirror.stateWritten {p' : Process κ ρ} {version : ℕ} {doc : StateDoc}
    (h : Mirror B calls chans p c ch) (hstore : p'.world.manager.store =
      p.world.manager.store.putChannelState c version doc)
    (hdoc : version ≤ ch.state.version ∧ (version = ch.state.version → doc = Channel.stateDoc ch.state))
    (hregistered : ∀ r, (chans r).fundingTxid B = c → p.adding r = .registered → p'.adding r = .registered)
    (howed : version ≠ ch.state.version → Owed B calls chans p c ch → Owed B calls chans p' c ch)
    (hagrees : ∀ r, (chans r).fundingTxid B = c → (p.adding r).Agrees ch.state →
      (p'.adding r).Agrees ch.state) : Mirror B calls chans p' c ch := by
  have hrows : p'.world.manager.store.rows c = ((p.world.manager.store.rows c).1,
      Function.update (p.world.manager.store.rows c).2 version (some doc)) := by
    rw [hstore,SystemStore.rows_putChannelState]
  have hstates : (p'.world.manager.store.rows c).2 =
      Function.update (p.world.manager.store.rows c).2 version (some doc) := by rw [hrows]
  refine ⟨h.canonical,?_,fun v d hd => ?_,?_,fun r hr => hagrees r hr (h.agrees r hr)⟩
  · rw [hrows]
    exact h.row.imp_right fun ⟨r,hr,hp⟩ => ⟨r,hr,hregistered r hr hp⟩
  · rw [hstates,Function.update_apply] at hd
    split_ifs at hd with hv
    · cases hd
      rw [hv]
      exact hdoc
    · exact h.newest v d hd
  · by_cases hv : version = ch.state.version
    · left
      rw [hstates,← hv,Function.update_self,hdoc.2 hv]
    · refine h.current.imp (fun hcur => ?_) (howed hv)
      rw [hstates,Function.update_of_ne (Ne.symm hv)]
      exact hcur

omit [DecidableEq ρ] in
theorem Mirrored.caller (h : Mirrored B calls chans p) (hu : Untorn B calls chans p (.inl i))
    (hm : World.Moved B calls p.world i w') : Mirrored B calls chans { p with world := w' } := by
  have hsound := h.sound.step hm
  have hexcl := h.exclusive.step h.sound hm
  have hreg : ∀ r, (p.adding r).writing →
      ∃ ch, w'.manager.channels.get? ((chans r).fundingTxid B) = some ch :=
    fun r hr => hm.registered (h.registered r hr)
  -- whoever else is writing goes on writing
  have hothers : ∀ c, c ≠ (calls i).channelId → ∀ j, (calls j).channelId = c →
      (p.world.phase j).persisting → (w'.phase j).persisting := by
    intro c hc j hj hpers
    have hji : j ≠ i := by
      rintro rfl
      exact hc hj.symm
    rwa [hm.phase_of_ne hji]
  have hkeep : ((p.world.phase i).persisting → (w'.phase i).persisting) → ∀ c j,
      (calls j).channelId = c → (p.world.phase j).persisting → (w'.phase j).persisting := by
    intro hi c j _ hpers
    by_cases hji : j = i
    · subst hji
      exact hi hpers
    · rwa [hm.phase_of_ne hji]
  refine ⟨hsound,hexcl,fun c ch hget => ?_,fun c hnone => ?_,hreg⟩
  · rcases hm.effect h.sound h.exclusive with ⟨hch,hstore,hi⟩ |
      ⟨c₀,s,r,d,ch₀,ch₁,hcall,hp,hch₀,ht,hch,hstore,hi⟩ | ⟨ch₀,row,hch₀,hrow,hch,hstore,hi⟩ |
      ⟨ch₀,hch₀,hch,hstore⟩
    · simp only [hch] at hget
      exact (h.mirror c ch hget).congr (by rw [hstore]) (fun _ _ => rfl) (hkeep hi c)
    · simp only [hch,Dict.get?_set] at hget
      split_ifs at hget with hc
      · subst hc
        cases hget
        exact (h.mirror c₀ ch₀ hch₀).applied hch₀ hu hcall hp ht hstore hi
      · refine (h.mirror c ch hget).congr (by rw [hstore]) (fun _ _ => rfl) (hothers c ?_)
        rw [hcall]
        exact Ne.symm hc
    · simp only [hch] at hget
      by_cases hc : c = (calls i).channelId
      · subst hc
        rw [hch₀] at hget
        cases hget
        exact (h.mirror _ _ hch₀).rowWritten hrow hstore (hkeep (fun _ => hi) _)
          (fun _ _ => ⟨id,id⟩)
      · refine (h.mirror c ch hget).congr ?_ (fun _ _ => rfl) (hothers c hc)
        rw [hstore]
        exact SystemStore.rows_putChannelMeta_of_ne _ (Ne.symm hc) row
    · simp only [hch] at hget
      by_cases hc : c = (calls i).channelId
      · subst hc
        rw [hch₀] at hget
        cases hget
        exact (h.mirror _ _ hch₀).stateWritten hstore ⟨le_rfl,fun _ => rfl⟩ (fun _ _ hp => hp)
          (fun hne => absurd rfl hne) fun _ _ hagree => hagree
      · refine (h.mirror c ch hget).congr ?_ (fun _ _ => rfl) (hothers c hc)
        rw [hstore]
        exact SystemStore.rows_putChannelState_of_ne _ (Ne.symm hc) _ _
  · have hold : p.world.manager.channels.get? c = none := by
      by_contra hne
      obtain ⟨ch,hch⟩ := Option.ne_none_iff_exists'.mp hne
      obtain ⟨ch',hch'⟩ := hm.registered ⟨ch,hch⟩
      simp only [hch'] at hnone
      cases hnone
    rw [← h.empty c hold]
    refine hm.rows_of_idle h.sound fun hc close => ⟨fun hp => ?_,fun hp => ?_⟩
    all_goals
      obtain ⟨ch,hch⟩ := h.exclusive.present i (by rw [hp]; rfl)
      rw [← hc,hold] at hch
      cases hch

end Callers

section Registrations
variable {B : Bitcoinx} {calls : κ → ManagerCall} {chans : ρ → Channel} {p p' : Process κ ρ} {r : ρ}

omit [DecidableEq κ] in
/-- The registration of another channel, or of this one without a write, goes on. -/
theorem Mirror.advanced {c : Bytes} {ch : Channel} {phase : AddPhase}
    (h : Mirror B calls chans p c ch)
    (hstart : p.adding r ≠ .registered)
    (howes : (p.adding r).owes ch.state.version → phase.owes ch.state.version)
    (hagrees : (chans r).fundingTxid B = c → phase.Agrees ch.state) :
    Mirror B calls chans (p.goto r phase) c ch := by
  refine ⟨h.canonical,?_,h.newest,?_,fun t ht => ?_⟩
  · refine h.row.imp_right fun ⟨t,ht,hp⟩ => ⟨t,ht,?_⟩
    have htr : t ≠ r := by
      rintro rfl
      exact hstart hp
    rw [goto_adding,if_neg htr,hp]
  · refine h.current.imp_right fun ho => ho.imp id ?_
    rintro ⟨t,ht,ho⟩
    refine ⟨t,ht,?_⟩
    rw [goto_adding]
    split_ifs with htr
    · exact howes (htr ▸ ho)
    · exact ho
  · rw [goto_adding]
    split_ifs with htr
    · exact hagrees (htr ▸ ht)
    · exact h.agrees t ht

omit [DecidableEq κ] [DecidableEq ρ] in
/-- While it has something to write, the channel object of a registration is the registered one. -/
theorem Mirrored.live (h : Mirrored B calls chans p) (hw : (p.adding r).writing) {ch : Channel}
    (hch : (p.world.manager.channels.get? ((chans r).fundingTxid B)).getD (chans r) = ch) :
    p.world.manager.channels.get? ((chans r).fundingTxid B) = some ch := by
  obtain ⟨ch',hget⟩ := h.registered r hw
  rw [hget] at hch ⊢
  rw [← hch]
  rfl

omit [DecidableEq κ] in
/-- A registration that goes on without writing. -/
theorem Mirrored.advance (h : Mirrored B calls chans p) {phase : AddPhase}
    (hstart : p.adding r ≠ .registered) (hreg : phase.writing → (p.adding r).writing)
    (howes : ∀ ch, p.world.manager.channels.get? ((chans r).fundingTxid B) = some ch →
      (p.adding r).owes ch.state.version → phase.owes ch.state.version)
    (hagrees : ∀ ch, p.world.manager.channels.get? ((chans r).fundingTxid B) = some ch →
      phase.Agrees ch.state) : Mirrored B calls chans (p.goto r phase) := by
  refine ⟨h.sound,h.exclusive,fun c ch hget => ?_,h.empty,fun t ht => ?_⟩
  · by_cases hc : (chans r).fundingTxid B = c
    · subst hc
      exact (h.mirror _ ch hget).advanced hstart (howes ch hget) fun _ => hagrees ch hget
    · refine (h.mirror c ch hget).congr rfl (fun t ht => ?_) fun _ _ hp => hp
      rw [goto_adding]
      refine if_neg ?_
      rintro rfl
      exact hc ht
  · rw [goto_adding] at ht
    split_ifs at ht with htr
    · exact htr ▸ h.registered r (hreg ht)
    · exact h.registered t ht

omit [DecidableEq κ] in
theorem Mirrored.register (h : Mirrored B calls chans p) (hch : (chans r).Canonical B)
    (hu : Untorn B calls chans p (.inr r)) (hp : p.adding r = .start) {c : Bytes}
    (hc : (chans r).fundingTxid B = c) (hnew : p.world.manager.channels.get? c = none) :
    Mirrored B calls chans ((p.goto r .registered).withManager { p.world.manager with
      channels := p.world.manager.channels.set c (chans r), locks := c :: p.world.manager.locks }) := by
  have hmono : ∀ d, (∃ ch, p.world.manager.channels.get? d = some ch) →
      ∃ ch, (p.world.manager.channels.set c (chans r)).get? d = some ch := by
    rintro d ⟨ch,hd⟩
    rw [Dict.get?_set]
    split_ifs
    · exact ⟨_,rfl⟩
    · exact ⟨ch,hd⟩
  have hidle : ∀ t, (chans t).fundingTxid B = c → (p.adding t).writing = false := by
    intro t ht
    by_contra hw
    obtain ⟨ch,hget⟩ := h.registered t (by simpa using hw)
    rw [ht,hnew] at hget
    cases hget
  refine ⟨⟨fun d hd => ?_,fun d ch hd => ?_⟩,⟨fun i hi => h.exclusive.holds i hi,fun i hi => ?_⟩,
    fun d ch hd => ?_,fun d hd => ?_,fun t ht => ?_⟩
  · rcases List.mem_cons.mp hd with rfl | hd
    · exact ⟨chans r,Dict.get?_set_self _ _ _⟩
    · exact hmono d (h.sound.present d hd)
  · simp only [withManager_world,World.withManager_manager,Dict.get?_set] at hd
    split_ifs at hd with he
    · cases hd
      exact ⟨hc.trans he,hu⟩
    · exact h.sound.keyed d ch hd
  · exact hmono _ (h.exclusive.present i hi)
  · simp only [withManager_world,World.withManager_manager,Dict.get?_set] at hd
    split_ifs at hd with he
    · subst he
      cases hd
      have hrows : p.world.manager.store.rows c = (none,fun _ => none) := h.empty c hnew
      refine ⟨hch,.inr ⟨r,hc,by simp⟩,fun v doc hdoc => ?_,.inr (.inr ⟨r,hc,by simp [AddPhase.owes]⟩),
        fun t ht => ?_⟩
      · change (p.world.manager.store.rows c).2 v = some doc at hdoc
        rw [hrows] at hdoc
        cases hdoc
      · have hw := hidle t ht
        rw [withManager_adding,goto_adding]
        split_ifs
        · trivial
        · cases hphase : p.adding t with
          | start => trivial
          | returned a => trivial
          | _ => rw [hphase] at hw; cases hw
    · refine (h.mirror d ch hd).congr rfl (fun t ht => ?_) fun _ _ hp => hp
      rw [withManager_adding,goto_adding]
      refine if_neg ?_
      rintro rfl
      exact he (hc.symm.trans ht)
  · simp only [withManager_world,World.withManager_manager,Dict.get?_set] at hd
    split_ifs at hd
    exact h.empty d hd
  · rw [withManager_adding,goto_adding] at ht
    split_ifs at ht with htr
    · subst htr
      exact ⟨chans t,by rw [hc]; exact Dict.get?_set_self _ _ _⟩
    · exact hmono _ (h.registered t ht)

omit [DecidableEq κ] in
/-- A registration writes to the store: the rows of its channel are the new ones. -/
theorem Mirrored.write (h : Mirrored B calls chans p) (hw : (p.adding r).writing) {phase : AddPhase}
    {store : SystemStore}
    (hother : ∀ d, (chans r).fundingTxid B ≠ d → store.rows d = p.world.manager.store.rows d)
    (hself : ∀ ch, p.world.manager.channels.get? ((chans r).fundingTxid B) = some ch →
      Mirror B calls chans ((p.goto r phase).withManager { p.world.manager with store := store })
        ((chans r).fundingTxid B) ch) :
    Mirrored B calls chans ((p.goto r phase).withManager { p.world.manager with store := store }) := by
  refine ⟨⟨h.sound.present,h.sound.keyed⟩,⟨h.exclusive.holds,h.exclusive.present⟩,
    fun d ch hd => ?_,fun d hd => ?_,fun t ht => ?_⟩
  · by_cases he : (chans r).fundingTxid B = d
    · subst he
      exact hself ch hd
    · refine (h.mirror d ch hd).congr (hother d he) (fun t ht => ?_) fun _ _ hp => hp
      rw [withManager_adding,goto_adding]
      refine if_neg ?_
      rintro rfl
      exact he ht
  · have hne : (chans r).fundingTxid B ≠ d := by
      rintro rfl
      obtain ⟨ch,hget⟩ := h.registered r hw
      simp only [withManager_world,World.withManager_manager] at hd
      rw [hd] at hget
      cases hget
    exact (hother d hne).trans (h.empty d hd)
  · rw [withManager_adding,goto_adding] at ht
    split_ifs at ht with htr
    · exact htr ▸ h.registered r hw
    · exact h.registered t ht

omit [DecidableEq κ] in
theorem Mirrored.registration (h : Mirrored B calls chans p) (hch : (chans r).Canonical B)
    (hu : Untorn B calls chans p (.inr r)) (hm : Added B chans p r p') :
    Mirrored B calls chans p' := by
  cases hm with
  | idle => exact h
  | refused hp =>
    refine h.advance ?_ ?_ ?_ fun _ _ => trivial
    all_goals simp [hp,AddPhase.writing,AddPhase.owes]
  | registered hc hp hnew => exact h.register hch hu hp hc hnew
  | unwritten hp hlive hutxos =>
    have hget := h.live (by rw [hp]; rfl) hlive
    exact absurd hutxos (h.sound.keyed _ _ hget).2
  | @metaWritten ch store hp hlive hs =>
    have hget := h.live (by rw [hp]; rfl) hlive
    have hkey := (h.sound.keyed _ _ hget).1
    obtain ⟨row,hrow,rfl⟩ := persistMeta_ok hs
    rw [hkey]
    refine h.write (by rw [hp]; rfl) (fun d hd => ?_) fun ch' hget' => ?_
    · exact SystemStore.rows_putChannelMeta_of_ne _ hd row
    · rw [hget] at hget'
      cases hget'
      refine (h.mirror _ _ hget).rowWritten hrow rfl (fun _ _ hp => hp) fun t _ => ?_
      rw [withManager_adding,goto_adding]
      split_ifs with htr
      · exact ⟨fun _ => rfl,fun _ => trivial⟩
      · exact ⟨id,id⟩
  | balancesRead hp hlive =>
    have hget := h.live (by rw [hp]; rfl) hlive
    refine h.advance (by simp [hp]) (fun _ => by rw [hp]; rfl) (fun _ _ _ => rfl) fun ch' hget' => ?_
    rw [hget] at hget'
    cases hget'
    rfl
  | encoded hp hlive =>
    have hget := h.live (by rw [hp]; rfl) hlive
    have hagree := (h.mirror _ _ hget).agrees r rfl
    rw [hp] at hagree
    refine h.advance (by simp [hp]) (fun _ => by rw [hp]; rfl) (fun _ _ _ => rfl) fun ch' hget' => ?_
    rw [hget] at hget'
    cases hget'
    simp only [AddPhase.Agrees] at hagree ⊢
    rw [hagree]
    rfl
  | addressed hp hlive =>
    have hget := h.live (by rw [hp]; rfl) hlive
    have hagree := (h.mirror _ _ hget).agrees r rfl
    rw [hp] at hagree
    refine h.advance (by simp [hp]) (fun _ => by rw [hp]; rfl) (fun ch' hget' _ => ?_)
      fun ch' hget' => ?_
    · rw [hget] at hget'
      cases hget'
      simp [AddPhase.owes]
    · rw [hget] at hget'
      cases hget'
      exact ⟨le_rfl,fun _ => hagree⟩
  | @stateWritten version doc c hc hp =>
    subst hc
    refine h.write (by rw [hp]; rfl) (fun d hd => ?_) fun ch hget => ?_
    · exact SystemStore.rows_putChannelState_of_ne _ hd _ _
    · have hagree := (h.mirror _ _ hget).agrees r rfl
      rw [hp] at hagree
      refine (h.mirror _ _ hget).stateWritten rfl hagree (fun t _ hreg => ?_) (fun hv howed => ?_)
        fun t _ hother => ?_
      · have htr : t ≠ r := by
          rintro rfl
          rw [hp] at hreg
          cases hreg
        rw [withManager_adding,goto_adding,if_neg htr,hreg]
      · -- the registration itself owes only the version that it writes
        refine howed.imp id ?_
        rintro ⟨t,ht,ho⟩
        have htr : t ≠ r := by
          rintro rfl
          rw [hp] at ho
          exact hv (of_decide_eq_true ho)
        refine ⟨t,ht,?_⟩
        rw [withManager_adding,goto_adding,if_neg htr]
        exact ho
      · rw [withManager_adding,goto_adding]
        split_ifs
        · trivial
        · exact hother

end Registrations

section Runs
variable {B : Bitcoinx} {calls : κ → ManagerCall} {chans : ρ → Channel} {p : Process κ ρ}

omit [DecidableEq κ] [DecidableEq ρ] in
theorem mirrored_fresh : Mirrored B calls chans (fresh .fresh) where
  sound := ⟨(fun _ hc => nomatch hc),(fun _ _ hc => nomatch hc)⟩
  exclusive := ⟨(fun _ hi => nomatch hi),(fun _ hi => nomatch hi)⟩
  mirror _ _ hc := by cases hc
  empty _ _ := SystemStore.rows_fresh
  registered _ hr := by cases hr

theorem Mirrored.step (h : Mirrored B calls chans p) (hch : ∀ r, (chans r).Canonical B) (x : κ ⊕ ρ)
    (hu : Untorn B calls chans p x) : Mirrored B calls chans (p.step B calls chans x) := by
  cases x with
  | inl i => exact h.caller hu (World.step_moved B calls p.world i)
  | inr r => exact h.registration (hch r) hu (addStep_added B chans p r)

omit [DecidableEq κ] [DecidableEq ρ] in
/-- When no operation is in progress, a mirrored channel comes back from the store. -/
theorem Mirror.recovered (hread : ReadsHex B) {c : Bytes} {ch : Channel}
    (h : Mirror B calls chans p c ch) (hq : p.Quiet) :
    recoverChannel B p.world.manager.store c = .ok (some (ch.reloaded ch.state)) := by
  have hrow : ∃ row, ch.metaRow B = .ok row ∧ (p.world.manager.store.rows c).1 = some row := by
    refine h.row.resolve_right ?_
    rintro ⟨r,_,hr⟩
    rcases hq.2 r with hs | ⟨a,hs⟩ <;> rw [hs] at hr <;> cases hr
  have hcur : (p.world.manager.store.rows c).2 ch.state.version =
      some (Channel.stateDoc ch.state) := by
    refine h.current.resolve_right ?_
    rintro (⟨i,_,hi⟩ | ⟨r,_,hr⟩)
    · rcases hq.1 i with hs | ⟨a,hs⟩ <;> rw [hs] at hi <;> cases hi
    · rcases hq.2 r with hs | ⟨a,hs⟩ <;> rw [hs] at hr <;> cases hr
  obtain ⟨row,hrow,hstored⟩ := hrow
  have hlatest := (p.world.manager.store.getLatestChannelState_eq_some (c := c)).mpr
    ⟨hcur,fun v d hd => (h.newest v d hd).1⟩
  have hget : p.world.manager.store.getChannelMeta c = some row := hstored
  simp only [recoverChannel,hget,hlatest,recoverRow_eq hread h.canonical hrow,
    recoverState_of_conserving h.canonical.conserving]
  rfl

end Runs
end Process

/-- In every run of registrations, transfers and closes that starts with an empty store, with any
interleaving of their steps in which no transfer is applied between the reads of the registration of
its channel: when no operation is in progress, every registered channel comes back from the store as
it is in memory, but for the scripts of its parent outputs. -/
theorem durable_equals_live {κ ρ : Type} [DecidableEq κ] [DecidableEq ρ] {B : Bitcoinx}
    (hread : ReadsHex B) (calls : κ → ManagerCall) {chans : ρ → Channel}
    (hch : ∀ r, (chans r).Obtained B) {sched : List (κ ⊕ ρ)}
    (hc : Along (Process.tick B calls chans) (Process.Untorn B calls chans)
      (Process.fresh SystemStore.fresh) sched) {p : Process κ ρ}
    (hp : p = run (Process.tick B calls chans) (Process.fresh SystemStore.fresh) sched)
    (hquiet : p.Quiet) {c : Bytes} {ch : Channel} (hlive : p.world.manager.channels.get? c = some ch) :
    ∃ utxos, recoverChannel B p.world.manager.store c =
      .ok (some { ch with fundingUtxos := utxos }) := by
  have keep := fun (q : Process κ ρ) x (hq : Process.Mirrored B calls chans q) hx =>
    hq.step (fun r => (hch r).canonical) x hx
  have hend := run_invariant keep Process.mirrored_fresh hc
  rw [← hp] at hend
  exact ⟨_,(hend.mirror c ch hlive).recovered hread hquiet⟩

namespace Reference

/-- The registration of the sample channel and a transfer of ten micro-units. -/
def sampleTransfer (_ : Unit) : ManagerCall :=
  .applyTransfer ((sampleChannel anyone).fundingTxid (reference anyone)) 0 1 10

def registering (_ : Unit) : Channel := sampleChannel anyone

def durableRun (sched : List (Unit ⊕ Unit)) : Process Unit Unit :=
  run (Process.tick (reference anyone) sampleTransfer registering) (Process.fresh SystemStore.fresh) sched

/-- The registration has written the row when the transfer runs; it reads and writes the state after
that. -/
def goodSchedule : List (Unit ⊕ Unit) :=
  List.replicate 2 (.inr ()) ++ List.replicate 6 (.inl ()) ++ List.replicate 4 (.inr ())

/-- The registration has made the text of the state when the transfer runs; it reads the version for
the row and writes the state after that. -/
def tornSchedule : List (Unit ⊕ Unit) :=
  List.replicate 4 (.inr ()) ++ List.replicate 6 (.inl ()) ++ List.replicate 2 (.inr ())


def sampleId : Bytes := (sampleChannel anyone).fundingTxid (reference anyone)

theorem quiet_durableRun {sched : List (Unit ⊕ Unit)}
    (h : (durableRun sched).world.phase () = .returned (.version 1) ∧
      (durableRun sched).adding () = .returned (.ok sampleId)) : (durableRun sched).Quiet :=
  ⟨fun _ => .inr ⟨_,h.1⟩,fun _ => .inr ⟨_,h.2⟩⟩

end Reference

open Reference in
theorem durable_equals_live_sample :
    ∃ utxos, recoverChannel (reference anyone) (durableRun goodSchedule).world.manager.store sampleId =
      .ok (some { movedChannel with fundingUtxos := utxos }) := by
  have hlive : (durableRun goodSchedule).world.manager.channels.get? sampleId = some movedChannel := by
    decide +kernel
  have hch : ∀ r, (registering r).Obtained (reference anyone) := fun _ => obtained_sampleChannel anyone
  have hc : Along (Process.tick (reference anyone) sampleTransfer registering)
      (Process.Untorn (reference anyone) sampleTransfer registering) (Process.fresh SystemStore.fresh)
      goodSchedule := by
    decide +kernel
  have hquiet : (durableRun goodSchedule).Quiet := quiet_durableRun (by decide +kernel)
  have hp : durableRun goodSchedule = run (Process.tick (reference anyone) sampleTransfer registering)
      (Process.fresh SystemStore.fresh) goodSchedule := rfl
  exact durable_equals_live (readsHex anyone) sampleTransfer hch hc hp hquiet hlive

open Reference in
/-- A transfer between the reads of a registration: the registration writes the text of version 0 to
the row of version 1, and this is what comes back. -/
theorem torn_registration_recovered :
    (durableRun tornSchedule).Quiet ∧
    (durableRun tornSchedule).world.manager.channels.get? sampleId = some movedChannel ∧
    recoverChannel (reference anyone) (durableRun tornSchedule).world.manager.store sampleId =
      .ok (some ((sampleChannel anyone).reloaded ⟨[30,0],0⟩)) := by
  refine ⟨quiet_durableRun (by decide +kernel),by decide +kernel,?_⟩
  exact @recover_firstState _ _ 1 (by decide +kernel) (by decide +kernel)

end SubsatChannel
