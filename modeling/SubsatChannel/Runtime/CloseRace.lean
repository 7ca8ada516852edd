import SubsatChannel.Channel.Opened
import SubsatChannel.Runtime.Callers

/-! Transfers against the cooperative close. A transfer reads the set of closed channels before it
takes the lock, so a close can come between the two; when none does, every run is in order. -/
namespace SubsatChannel
open Transition

/-- The close of a call that has marked its channel closed. -/
def Phase.sealed? : Phase → Option CloseTx
  | updated (some r) | metaWritten (some r) => some r
  | leaving (.closed r) | returned (.closed r) => some r
  | _ => none

/-- The phases inside the lock in which a call can be while its channel is marked closed. -/
def Phase.outlasts : Phase → Bool
  | locked | updated (some _) | metaWritten (some _) => true
  | leaving (.raised _) | leaving (.closed _) => true
  | _ => false

/-- A transfer that has taken effect. -/
def Phase.landed : Phase → Bool
  | updated none | metaWritten none | leaving (.version _) | returned (.version _) => true
  | _ => false

/-- A call that has sealed its channel and left the lock has returned its close. -/
theorem Phase.returned_of_sealed {p : Phase} (hs : p.sealed?.isSome) (hi : p.inside = false) :
    ∃ close, p = .returned (.closed close) := by
  cases p with
  | returned a =>
    cases a with
    | closed close => exact ⟨close,rfl⟩
    | _ => cases hs
  | start | checked => cases hs
  | _ => cases hi

/-- The transfers of these callers, one after the other. -/
def applyInOrder {κ : Type} (calls : κ → ManagerCall) : Channel → List κ → Except Fault Channel
  | ch, [] => .ok ch
  | ch, j :: js =>
    match calls j with
    | .applyTransfer _ sender recipient delta =>
      (ch.applyTransfer sender recipient delta).bind fun ch' => applyInOrder calls ch' js
    | .cooperativeClose _ => applyInOrder calls ch js

theorem applyInOrder_append {κ : Type} (calls : κ → ManagerCall) (ch : Channel) (js ks : List κ) :
    applyInOrder calls ch (js ++ ks) = (applyInOrder calls ch js).bind fun ch' => applyInOrder calls ch' ks := by
  induction js generalizing ch with
  | nil => rfl
  | cons j js ih =>
    simp only [List.cons_append,applyInOrder]
    split
    · cases ch.applyTransfer _ _ _ with
      | error e => rfl
      | ok ch' => exact ih ch'
    · exact ih ch

theorem Channel.applyTransfer_ok {ch ch' : Channel} {s r d : ℤ}
    (h : ch.applyTransfer s r d = .ok ch') : ∃ state, ch' = { ch with state := state } := by
  unfold Channel.applyTransfer at h
  cases ht : transfer ch.state s r d ch.cfg with
  | error e => rw [ht] at h; cases h
  | ok state => rw [ht] at h; cases h; exact ⟨state,rfl⟩

namespace World
variable {κ : Type} [DecidableEq κ]

/-- Caller `j` is a transfer on channel `c` that has taken effect. -/
def Landed (calls : κ → ManagerCall) (w : World κ) (c : Bytes) (j : κ) : Prop :=
  (∃ s r d, calls j = .applyTransfer c s r d) ∧ (w.phase j).landed

/-- Every channel that can be locked is registered under its id and can be written. -/
structure Sound (B : Bitcoinx) (m : ChannelManager) : Prop where
  present : ∀ c ∈ m.locks, ∃ ch, m.channels.get? c = some ch
  keyed : ∀ c ch, m.channels.get? c = some ch → ch.fundingTxid B = c ∧ ch.fundingUtxos ≠ []

/-- A caller inside its `with` block holds the lock of a registered channel. -/
structure Exclusive (calls : κ → ManagerCall) (w : World κ) : Prop where
  holds : ∀ i, (w.phase i).inside → w.holder (calls i).channelId = some i
  present : ∀ i, (w.phase i).inside → ∃ ch, w.manager.channels.get? (calls i).channelId = some ch

/-- No transfer that has passed the closed-set check gets the lock of a channel that was closed in
the meantime. -/
def InTime (calls : κ → ManagerCall) (w : World κ) (i : κ) : Prop :=
  ∀ c s r d, calls i = .applyTransfer c s r d → w.phase i = .checked → w.holder c = none →
    c ∉ w.manager.closedChannels

omit [DecidableEq κ] in
theorem inTime_iff {calls : κ → ManagerCall} {w : World κ} {i : κ} : InTime calls w i ↔
    match calls i with
    | .applyTransfer c _ _ _ =>
      w.phase i = .checked → w.holder c = none → c ∉ w.manager.closedChannels
    | .cooperativeClose _ => True := by
  unfold InTime
  cases calls i with
  | applyTransfer c s r d =>
    refine ⟨fun h => h c s r d rfl,fun h c' s' r' d' he => ?_⟩
    cases he
    exact h
  | cooperativeClose c => simp

instance (calls : κ → ManagerCall) (w : World κ) (i : κ) : Decidable (InTime calls w i) :=
  haveI : Decidable (match calls i with
    | .applyTransfer c _ _ _ =>
      w.phase i = .checked → w.holder c = none → c ∉ w.manager.closedChannels
    | .cooperativeClose _ => True) := by
    cases calls i <;> infer_instance
  decidable_of_iff' _ inTime_iff

/-- Once a channel is marked closed, only the call that closed it works on it. -/
structure ClosedOnce (B : Bitcoinx) (calls : κ → ManagerCall) (w : World κ) : Prop where
  out : ∀ i, (w.phase i).inside → (calls i).channelId ∈ w.manager.closedChannels →
    calls i = .cooperativeClose (calls i).channelId ∧ (w.phase i).outlasts
  marked : ∀ i r, (w.phase i).sealed? = some r →
    calls i = .cooperativeClose (calls i).channelId ∧ (calls i).channelId ∈ w.manager.closedChannels
  pays : ∀ i r, w.phase i = .built r ∨ (w.phase i).sealed? = some r →
    ∃ ch, w.manager.channels.get? (calls i).channelId = some ch ∧ ch.cooperativeClose B none = .ok r
  unique : ∀ i j, (w.phase i).sealed?.isSome → (w.phase j).sealed?.isSome →
    (calls i).channelId = (calls j).channelId → i = j

/-- What the call that closed a channel has written to the store so far. -/
structure Durable (B : Bitcoinx) (calls : κ → ManagerCall) (w : World κ) : Prop where
  row : ∀ i r, w.phase i = .metaWritten (some r) →
    ∃ ch row, w.manager.channels.get? (calls i).channelId = some ch ∧ ch.metaRow B = .ok row ∧
      (w.manager.store.rows (calls i).channelId).1 = some row
  saved : ∀ i r, w.phase i = .leaving (.closed r) ∨ w.phase i = .returned (.closed r) →
    ∃ ch, w.manager.channels.get? (calls i).channelId = some ch ∧ Saved B w.manager.store ch

/-- The state of every channel is its first one after the transfers that have taken effect. -/
def History (calls : κ → ManagerCall) (m₀ : ChannelManager) (w : World κ) : Prop :=
  ∀ c ch, w.manager.channels.get? c = some ch → ∃ ch₀ order, m₀.channels.get? c = some ch₀ ∧
    order.Nodup ∧ (∀ j, j ∈ order ↔ Landed calls w c j) ∧ applyInOrder calls ch₀ order = .ok ch

section Steps
variable {B : Bitcoinx} {calls : κ → ManagerCall} {w w' : World κ} {i : κ}

theorem Sound.step (h : Sound B w.manager) (hm : Moved B calls w i w') : Sound B w'.manager := by
  cases hm with
  | @applied c s r d ch ch' hcall hp hch ht =>
    obtain ⟨state,rfl⟩ := Channel.applyTransfer_ok ht
    refine ⟨fun c' hc' => ?_,fun c' ch' hc' => ?_⟩
    · simp only [withManager_manager,Dict.get?_set]
      split_ifs
      · exact ⟨_,rfl⟩
      · exact h.present c' hc'
    · simp only [withManager_manager,Dict.get?_set] at hc'
      split_ifs at hc' with he
      · cases hc'
        exact he ▸ h.keyed c ch hch
      · exact h.keyed c' ch' hc'
  | _ => exact ⟨h.present,h.keyed⟩

theorem Exclusive.step (h : Exclusive calls w) (hs : Sound B w.manager)
    (hm : Moved B calls w i w') : Exclusive calls w' := by
  have hother : ∀ j, j ≠ i → (w'.phase j).inside → w.holder (calls j).channelId = some j :=
    fun j hj hin => h.holds j (hm.phase_of_ne hj ▸ hin)
  have hpresent : ∀ j, (w.phase j).inside →
      ∃ ch, w'.manager.channels.get? (calls j).channelId = some ch :=
    fun j hin => hm.registered (h.present j hin)
  rcases hm.lock with ⟨hh,hin⟩ | ⟨_,_,hlock,hfree,hh⟩ | ⟨hi,hout,hh⟩
  · refine ⟨fun j hj => ?_,fun j hj => ?_⟩ <;> by_cases hji : j = i
    · subst hji
      rw [hh]
      exact h.holds j (hin ▸ hj)
    · rw [hh]
      exact hother j hji hj
    · subst hji
      exact hpresent j (hin ▸ hj)
    · exact hpresent j (hm.phase_of_ne hji ▸ hj)
  · refine ⟨fun j hj => ?_,fun j hj => ?_⟩ <;> by_cases hji : j = i
    · rw [hh,hji,Function.update_self]
    · have := hother j hji hj
      rwa [hh,Function.update_of_ne]
      rintro he
      rw [he,hfree] at this
      cases this
    · rw [hji]
      exact hm.registered (hs.present _ hlock)
    · exact hpresent j (hm.phase_of_ne hji ▸ hj)
  · refine ⟨fun j hj => ?_,fun j hj => ?_⟩ <;> by_cases hji : j = i
    · subst hji
      rw [hout] at hj
      cases hj
    · have := hother j hji hj
      rwa [hh,Function.update_of_ne]
      rintro he
      rw [he,h.holds i hi] at this
      exact hji (Option.some.inj this).symm
    · subst hji
      exact hpresent j hi
    · exact hpresent j (hm.phase_of_ne hji ▸ hj)

/-- While a caller is inside, no other one changes its channel. -/
theorem Exclusive.undisturbed (h : Exclusive calls w) (hm : Moved B calls w i w') {j : κ}
    (hji : j ≠ i) (hj : (w.phase j).inside) :
    w'.manager.channels.get? (calls j).channelId = w.manager.channels.get? (calls j).channelId := by
  by_cases hc : (calls j).channelId = (calls i).channelId
  · cases hm with
    | applied hcall hp =>
      have hi := h.holds i (by rw [hp]; rfl)
      rw [← hc,h.holds j hj] at hi
      exact absurd (Option.some.inj hi) hji
    | _ => rfl
  · exact (hm.channel_of_ne hc).2.1

theorem Moved.closed_mono (hm : Moved B calls w i w') {c : Bytes}
    (hc : c ∈ w.manager.closedChannels) : c ∈ w'.manager.closedChannels := by
  cases hm with
  | marked => exact List.mem_cons_of_mem _ hc
  | _ => exact hc

/-- A channel is newly closed by a caller that has built its close. -/
theorem Moved.newly_closed (hm : Moved B calls w i w') {c : Bytes}
    (hc : c ∈ w'.manager.closedChannels) :
    c ∈ w.manager.closedChannels ∨ c = (calls i).channelId ∧ ∃ r, w.phase i = .built r := by
  cases hm with
  | marked hcall hp =>
    rcases List.mem_cons.mp hc with rfl | hc
    · exact .inr ⟨by rw [hcall]; rfl,_,hp⟩
    · exact .inl hc
  | _ => exact .inl hc

/-- The state of a closed channel does not change in memory. -/
theorem ClosedOnce.unchanged (h : ClosedOnce B calls w) (hm : Moved B calls w i w') {c : Bytes}
    (hc : c ∈ w.manager.closedChannels) :
    w'.manager.channels.get? c = w.manager.channels.get? c := by
  by_cases hci : c = (calls i).channelId
  · cases hm with
    | applied hcall hp =>
      have hout := (h.out i (by rw [hp]; rfl) (hci ▸ hc)).1
      rw [hcall] at hout
      cases hout
    | _ => rfl
  · exact (hm.channel_of_ne hci).2.1

/-- A call seals its channel in the step that marks it closed, and its close stays the same. -/
theorem Moved.sealed (hm : Moved B calls w i w') {r : CloseTx}
    (hr : (w'.phase i).sealed? = some r) : (w.phase i).sealed? = some r ∨
      w.phase i = .built r ∧ calls i = .cooperativeClose (calls i).channelId ∧
        (calls i).channelId ∈ w'.manager.closedChannels := by
  cases hm with
  | idle => exact .inl hr
  | marked hcall hp =>
    simp only [withManager_phase,goto_phase,if_pos,Phase.sealed?,Option.some.injEq] at hr
    subst hr
    exact .inr ⟨hp,by rw [hcall]; rfl,by rw [hcall]; exact List.mem_cons_self⟩
  | @metaWritten _ _ close _ _ hp =>
    cases close with
    | none => simp [Phase.sealed?] at hr
    | some close => exact .inl (by simpa [hp,Phase.sealed?] using hr)
  | @stateWritten _ _ close _ hp =>
    cases close with
    | none => simp [Phase.sealed?] at hr
    | some close => exact .inl (by simpa [hp,Phase.sealed?] using hr)
  | @released _ a _ hp =>
    cases a with
    | closed close => exact .inl (by simpa [hp,release,Phase.sealed?] using hr)
    | _ => simp [release,Phase.sealed?] at hr
  | _ => simp [Phase.sealed?] at hr

theorem ClosedOnce.step_out (h : ClosedOnce B calls w) (hx : Exclusive calls w)
    (ht : InTime calls w i) (hm : Moved B calls w i w') {j : κ} (hj : (w'.phase j).inside)
    (hc : (calls j).channelId ∈ w'.manager.closedChannels) :
    calls j = .cooperativeClose (calls j).channelId ∧ (w'.phase j).outlasts := by
  by_cases hji : j = i
  · subst hji
    have hout : ∀ {p}, w.phase j = p → p.inside →
        (calls j).channelId ∈ w.manager.closedChannels →
        calls j = .cooperativeClose (calls j).channelId ∧ p.outlasts :=
      fun hp hin hc => hp ▸ h.out j (hp ▸ hin) hc
    cases hm with
    | idle => exact h.out j hj hc
    | refused => simp [Phase.inside] at hj
    | checked => simp [Phase.inside] at hj
    | acquired hcall hp _ hfree =>
      refine ⟨?_,by simp [Phase.outlasts]⟩
      rcases hp with hp | ⟨_,hclose⟩
      · cases he : calls j with
        | cooperativeClose c => rfl
        | applyTransfer c s r d =>
          rw [he] at hcall
          subst hcall
          rw [he] at hc
          exact absurd hc (ht _ s r d he hp hfree)
      · rw [hclose]
        rfl
    | failed hp =>
      refine ⟨?_,by simp [Phase.outlasts]⟩
      rcases hp with hp | hp <;> exact (hout hp rfl hc).1
    | unwritten hp =>
      refine ⟨?_,by simp [Phase.outlasts]⟩
      rcases hp with hp | hp <;> exact (hout hp rfl hc).1
    | applied hcall hp =>
      have hclose := (hout hp rfl hc).1
      rw [hcall] at hclose
      cases hclose
    | unsealed hcall _ hopen =>
      rw [hcall] at hc
      exact absurd hc hopen
    | built _ hp => cases (hout hp rfl hc).2
    | marked hcall => exact ⟨by rw [hcall]; rfl,by simp [Phase.outlasts]⟩
    | @metaWritten _ _ close _ _ hp =>
      obtain ⟨hclose,hlast⟩ := hout hp rfl hc
      cases close with
      | none => cases hlast
      | some close => exact ⟨hclose,by simp [Phase.outlasts]⟩
    | @stateWritten _ _ close _ hp =>
      obtain ⟨hclose,hlast⟩ := hout hp rfl hc
      cases close with
      | none => cases hlast
      | some close => exact ⟨hclose,by simp [Phase.outlasts]⟩
    | released => simp [release,Phase.inside] at hj
  · rw [hm.phase_of_ne hji] at hj ⊢
    rcases hm.newly_closed hc with hc | ⟨he,r,hp⟩
    · exact h.out j hj hc
    · have hi := hx.holds i (by rw [hp]; rfl)
      rw [← he,hx.holds j hj] at hi
      exact absurd (Option.some.inj hi) hji

theorem ClosedOnce.step_pays (h : ClosedOnce B calls w) (hx : Exclusive calls w)
    (hm : Moved B calls w i w') {j : κ} {r : CloseTx}
    (hr : w'.phase j = .built r ∨ (w'.phase j).sealed? = some r) :
    ∃ ch, w'.manager.channels.get? (calls j).channelId = some ch ∧
      ch.cooperativeClose B none = .ok r := by
  by_cases hji : j = i
  · subst hji
    have hkeep : w'.manager.channels.get? (calls j).channelId =
        w.manager.channels.get? (calls j).channelId := by
      cases hm with
      | applied => simp [Phase.sealed?] at hr
      | _ => rfl
    rw [hkeep]
    rcases hr with hr | hr
    · cases hm with
      | idle => exact h.pays j r (.inl hr)
      | built hcall _ hch hclose =>
        simp only [goto_phase,if_pos,Phase.built.injEq] at hr
        subst hr
        rw [hcall]
        exact ⟨_,hch,hclose⟩
      | _ => simp [release] at hr
    · rcases hm.sealed hr with hr | ⟨hp,_⟩
      · exact h.pays j r (.inr hr)
      · exact h.pays j r (.inl hp)
  · rw [hm.phase_of_ne hji] at hr
    have hkeep : w'.manager.channels.get? (calls j).channelId =
        w.manager.channels.get? (calls j).channelId := by
      rcases hr with hr | hr
      · exact hx.undisturbed hm hji (by rw [hr]; rfl)
      · exact h.unchanged hm (h.marked j r hr).2
    rw [hkeep]
    exact h.pays j r hr

theorem ClosedOnce.step (h : ClosedOnce B calls w) (hx : Exclusive calls w)
    (ht : InTime calls w i) (hm : Moved B calls w i w') : ClosedOnce B calls w' := by
  have hmarked : ∀ j r, (w'.phase j).sealed? = some r →
      calls j = .cooperativeClose (calls j).channelId ∧
        (calls j).channelId ∈ w'.manager.closedChannels := by
    intro j r hr
    by_cases hji : j = i
    · subst hji
      rcases hm.sealed hr with hr | ⟨_,hm⟩
      · exact ⟨(h.marked j r hr).1,hm.closed_mono (h.marked j r hr).2⟩
      · exact hm
    · rw [hm.phase_of_ne hji] at hr
      exact ⟨(h.marked j r hr).1,hm.closed_mono (h.marked j r hr).2⟩
  -- a call that has sealed its channel is the only one that can
  have hfirst : ∀ j, j ≠ i → (w.phase j).sealed?.isSome → (w'.phase i).sealed?.isSome →
      (calls j).channelId ≠ (calls i).channelId := by
    intro j hji hj hi he
    obtain ⟨r,hr⟩ := Option.isSome_iff_exists.mp hj
    obtain ⟨r',hr'⟩ := Option.isSome_iff_exists.mp hi
    rcases hm.sealed hr' with hr' | ⟨hp,_⟩
    · exact hji (h.unique j i hj (by rw [hr']; rfl) he)
    · have hout := h.out i (by rw [hp]; rfl) (he ▸ (h.marked j r hr).2)
      rw [hp] at hout
      cases hout.2
  refine ⟨fun j => h.step_out hx ht hm,hmarked,fun j r => h.step_pays hx hm,fun a b ha hb he => ?_⟩
  by_cases hai : a = i <;> by_cases hbi : b = i
  · rw [hai,hbi]
  · subst hai
    rw [hm.phase_of_ne hbi] at hb
    exact absurd he.symm (hfirst b hbi hb ha)
  · subst hbi
    rw [hm.phase_of_ne hai] at ha
    exact absurd he (hfirst a hai ha hb)
  · rw [hm.phase_of_ne hai] at ha
    rw [hm.phase_of_ne hbi] at hb
    exact h.unique a b ha hb he

/-- Only the two writes of a call change the rows of its channel. -/
theorem Moved.rows_of_idle (hs : Sound B w.manager) (hm : Moved B calls w i w') {c : Bytes}
    (hc : c = (calls i).channelId → ∀ close, w.phase i ≠ .updated close ∧
      w.phase i ≠ .metaWritten close) : w'.manager.store.rows c = w.manager.store.rows c := by
  cases hm with
  | metaWritten hcall hp hch hs' =>
    refine rows_persistMeta_of_ne hs' fun he => ?_
    exact (hc (by rw [hcall,← he,(hs.keyed _ _ hch).1]) _).1 hp
  | stateWritten hcall hp hch =>
    refine rows_persistState_of_ne fun he => ?_
    exact (hc (by rw [hcall,← he,(hs.keyed _ _ hch).1]) _).2 hp
  | _ => rfl

/-- The rows of a sealed channel are only written by the call that sealed it, inside the lock. -/
theorem ClosedOnce.rows_unchanged (h : ClosedOnce B calls w) (hs : Sound B w.manager)
    (hm : Moved B calls w i w') {j : κ} (hj : (w.phase j).sealed?.isSome)
    (hji : j = i → (w.phase j).inside = false) :
    w'.manager.store.rows (calls j).channelId = w.manager.store.rows (calls j).channelId := by
  obtain ⟨r,hr⟩ := Option.isSome_iff_exists.mp hj
  have hclosed := (h.marked j r hr).2
  have houter : (calls j).channelId = (calls i).channelId → (w.phase i).inside → (w.phase i).outlasts →
      ¬ (w.phase i).sealed?.isSome := by
    intro he hin hlast hi
    obtain rfl := h.unique j i hj hi he
    rw [hji rfl] at hin
    cases hin
  refine hm.rows_of_idle hs fun he close => ⟨fun hp => ?_,fun hp => ?_⟩
  all_goals
    have hin : (w.phase i).inside := by rw [hp]; rfl
    have hlast := (h.out i hin (he ▸ hclosed)).2
    refine houter he hin hlast ?_
    rw [hp] at hlast ⊢
    cases close with
    | none => cases hlast
    | some close => rfl

theorem Durable.step (h : Durable B calls w) (ho : ClosedOnce B calls w) (hx : Exclusive calls w)
    (hs : Sound B w.manager) (hm : Moved B calls w i w') : Durable B calls w' := by
  refine ⟨fun j r hr => ?_,fun j r hr => ?_⟩
  · by_cases hji : j = i
    · subst hji
      cases hm with
      | idle => exact h.row j r hr
      | metaWritten hcall hp hch hs' =>
        obtain ⟨row,hrow,rfl⟩ := persistMeta_ok hs'
        subst hcall
        refine ⟨_,row,hch,hrow,?_⟩
        rw [(hs.keyed _ _ hch).1]
        simp
      | _ => simp [release] at hr
    · rw [hm.phase_of_ne hji] at hr
      obtain ⟨ch,row,hch,hrow,hsaved⟩ := h.row j r hr
      have hin : (w.phase j).inside := by rw [hr]; rfl
      refine ⟨ch,row,hx.undisturbed hm hji hin ▸ hch,hrow,?_⟩
      rw [ho.rows_unchanged hs hm (by rw [hr]; rfl) (fun he => absurd he hji)]
      exact hsaved
  · by_cases hji : j = i
    · subst hji
      cases hm with
      | idle => exact h.saved j r hr
      | @stateWritten _ ch close hcall hp hch =>
        cases close with
        | none => simp at hr
        | some close =>
          obtain ⟨ch',row,hch',hrow,hsaved⟩ := h.row j close hp
          subst hcall
          rw [hch] at hch'
          cases hch'
          refine ⟨ch,hch,⟨row,hrow,?_⟩,?_⟩
          · rw [(hs.keyed _ _ hch).1,withManager_manager]
            simp [persistState,(hs.keyed _ _ hch).1,hsaved]
          · simp [persistState]
      | @released _ a _ hp =>
        simp only [release,goto_phase,if_pos] at hr
        refine h.saved j r (.inl ?_)
        rw [hp]
        simpa using hr
      | _ => simp at hr
    · rw [hm.phase_of_ne hji] at hr
      obtain ⟨ch,hch,hsaved⟩ := h.saved j r hr
      have hseal : (w.phase j).sealed? = some r := by rcases hr with hr | hr <;> rw [hr] <;> rfl
      refine ⟨ch,?_,?_⟩
      · rw [ho.unchanged hm (ho.marked j r hseal).2]
        exact hch
      · have hrows := ho.rows_unchanged hs hm (by rw [hseal]; rfl) (fun he => absurd he hji)
        obtain ⟨hrow,hstate⟩ := hsaved
        rw [(hs.keyed _ _ hch).1] at hrow hstate
        refine ⟨?_,?_⟩ <;> rw [(hs.keyed _ _ hch).1,hrows]
        · exact hrow
        · exact hstate

/-- A step is the effect of a transfer, or it changes neither a channel nor what has landed. -/
theorem Moved.landing (hs : Sound B w.manager) (hx : Exclusive calls w) (hm : Moved B calls w i w') :
    (w'.manager.channels = w.manager.channels ∧ (w'.phase i).landed = (w.phase i).landed) ∨
    ∃ c s r d ch ch', calls i = .applyTransfer c s r d ∧ (w.phase i).landed = false ∧
      (w'.phase i).landed = true ∧ w.manager.channels.get? c = some ch ∧
      ch.applyTransfer s r d = .ok ch' ∧ w'.manager.channels = w.manager.channels.set c ch' := by
  cases hm with
  | applied hcall hp hch ht =>
    exact .inr ⟨_,_,_,_,_,_,hcall,by rw [hp]; rfl,by simp [Phase.landed],hch,ht,rfl⟩
  | unwritten hp hch =>
    obtain ⟨ch,hget⟩ := hx.present i (by rcases hp with hp | hp <;> rw [hp] <;> rfl)
    exact absurd (hch ch hget) (hs.keyed _ _ hget).2
  | idle => exact .inl ⟨rfl,rfl⟩
  | refused hp => rcases hp with hp | hp <;> exact .inl ⟨rfl,by simp [hp,Phase.landed]⟩
  | acquired _ hp =>
    rcases hp with hp | ⟨hp,_⟩ <;> exact .inl ⟨rfl,by simp [hp,Phase.landed]⟩
  | failed hp => rcases hp with hp | hp <;> exact .inl ⟨rfl,by simp [hp,Phase.landed]⟩
  | @metaWritten _ _ close _ _ hp =>
    cases close <;> exact .inl ⟨rfl,by simp [hp,Phase.landed]⟩
  | @stateWritten _ _ close _ hp =>
    cases close <;> exact .inl ⟨rfl,by simp [hp,Phase.landed]⟩
  | @released _ a _ hp =>
    cases a <;> exact .inl ⟨rfl,by simp [hp,release,Phase.landed]⟩
  | _ => exact .inl ⟨rfl,by simp [*,Phase.landed]⟩

theorem History.step {m₀ : ChannelManager} (h : History calls m₀ w) (hs : Sound B w.manager)
    (hx : Exclusive calls w) (hm : Moved B calls w i w') : History calls m₀ w' := by
  intro c ch hget
  have hothers : ∀ j, j ≠ i → (Landed calls w' c j ↔ Landed calls w c j) := by
    intro j hji
    simp only [Landed,hm.phase_of_ne hji]
  rcases hm.landing hs hx with ⟨hch,hl⟩ | ⟨c',s,r,d,ch₁,ch₂,hcall,hno,hyes,hget₁,ht,hch⟩
  · rw [hch] at hget
    obtain ⟨ch₀,order,hch₀,hnodup,hmem,hrun⟩ := h c ch hget
    refine ⟨ch₀,order,hch₀,hnodup,fun j => (hmem j).trans ?_,hrun⟩
    by_cases hji : j = i
    · subst hji
      simp only [Landed,hl]
    · exact (hothers j hji).symm
  · rw [hch,Dict.get?_set] at hget
    split_ifs at hget with hc
    · -- the transfer is the last one of the order
      subst hc
      cases hget
      obtain ⟨ch₀,order,hch₀,hnodup,hmem,hrun⟩ := h c' ch₁ hget₁
      have hi : i ∉ order := by
        rw [hmem]
        rintro ⟨_,hl⟩
        rw [hno] at hl
        cases hl
      refine ⟨ch₀,order ++ [i],hch₀,?_,fun j => ?_,?_⟩
      · exact hnodup.append (List.nodup_singleton i) (by simpa using hi)
      · rw [List.mem_append,List.mem_singleton,hmem]
        by_cases hji : j = i
        · subst hji
          simp only [or_true,true_iff]
          exact ⟨⟨s,r,d,hcall⟩,hyes⟩
        · rw [hothers j hji]
          simp [hji]
      · rw [applyInOrder_append,hrun]
        simp [Except.bind,applyInOrder,hcall,ht]
    · obtain ⟨ch₀,order,hch₀,hnodup,hmem,hrun⟩ := h c ch hget
      refine ⟨ch₀,order,hch₀,hnodup,fun j => (hmem j).trans ?_,hrun⟩
      by_cases hji : j = i
      · subst hji
        have hne : ¬ ∃ s r d, calls j = .applyTransfer c s r d := by
          rintro ⟨s',r',d',he⟩
          rw [hcall] at he
          cases he
          exact hc rfl
        simp [Landed,hne]
      · exact (hothers j hji).symm

/-- What has landed stays so: it is never undone by an exception. -/
theorem Moved.landed_mono (hs : Sound B w.manager) (hx : Exclusive calls w)
    (hm : Moved B calls w i w') {j : κ} (hj : (w.phase j).landed) : (w'.phase j).landed := by
  by_cases hji : j = i
  · subst hji
    rcases hm.landing hs hx with ⟨_,hl⟩ | ⟨_,_,_,_,_,_,_,_,hl,_⟩
    · rw [hl]; exact hj
    · exact hl
  · rw [hm.phase_of_ne hji]
    exact hj

/-- A transfer that changes anything in the manager has landed. -/
theorem Moved.landed_of_change (ho : ClosedOnce B calls w) (hm : Moved B calls w i w') {c : Bytes}
    {s r d : ℤ} (hcall : calls i = .applyTransfer c s r d) (hne : w'.manager ≠ w.manager) :
    (w'.phase i).landed := by
  have hnone : ∀ r, (w.phase i).sealed? ≠ some r := by
    intro r hr
    have := (ho.marked i r hr).1
    rw [hcall] at this
    cases this
  cases hm with
  | applied => simp [Phase.landed]
  | marked hc =>
    rw [hcall] at hc
    cases hc
  | @metaWritten _ _ close _ _ hp =>
    cases close with
    | none => simp [Phase.landed]
    | some close => exact absurd (by rw [hp]; rfl) (hnone close)
  | @stateWritten _ _ close _ hp =>
    cases close with
    | none => simp [Phase.landed]
    | some close => exact absurd (by rw [hp]; rfl) (hnone close)
  | _ => exact absurd rfl hne

end Steps

/-- What holds in every run in which all transfers are in time. -/
structure Orderly (B : Bitcoinx) (calls : κ → ManagerCall) (m₀ : ChannelManager) (w : World κ) :
    Prop where
  sound : Sound B w.manager
  exclusive : Exclusive calls w
  once : ClosedOnce B calls w
  durable : Durable B calls w
  history : History calls m₀ w

theorem Orderly.init {B : Bitcoinx} {m : ChannelManager} {κ : Type} (hm : Registered B m)
    (calls : κ → ManagerCall) : Orderly B calls m (World.init m) where
  sound := ⟨fun c hc => hm.present hc,fun c ch hch => hm.keyed hch⟩
  exclusive := ⟨by simp [World.init,Phase.inside],by simp [World.init,Phase.inside]⟩
  once := ⟨by simp [World.init,Phase.inside],by simp [World.init,Phase.sealed?],
    by simp [World.init,Phase.sealed?],by simp [World.init,Phase.sealed?]⟩
  durable := ⟨by simp [World.init],by simp [World.init]⟩
  history c ch hch := ⟨ch,[],hch,by simp,by simp [Landed,World.init,Phase.landed],rfl⟩

section Runs
variable {B : Bitcoinx} {calls : κ → ManagerCall} {m₀ : ChannelManager} {w : World κ} {i : κ}

theorem Orderly.step (h : Orderly B calls m₀ w) (ht : InTime calls w i) :
    Orderly B calls m₀ (w.step B calls i) where
  sound := h.sound.step (step_moved B calls w i)
  exclusive := h.exclusive.step h.sound (step_moved B calls w i)
  once := h.once.step h.exclusive ht (step_moved B calls w i)
  durable := h.durable.step h.once h.exclusive h.sound (step_moved B calls w i)
  history := h.history.step h.sound h.exclusive (step_moved B calls w i)

theorem Orderly.run (h : Orderly B calls m₀ w) {sched : List κ}
    (ht : Along (tick B calls) (InTime calls) w sched) :
    Orderly B calls m₀ (run (tick B calls) w sched) :=
  run_invariant (fun _ _ h ht => h.step ht) h ht

omit [DecidableEq κ] in
/-- When the close of a channel has returned, what has landed on the channel has returned too. -/
theorem Orderly.landed_iff (h : Orderly B calls m₀ w) {close : CloseTx}
    (hi : w.phase i = .returned (.closed close)) (j : κ) :
    Landed calls w (calls i).channelId j ↔
      (∃ s r d, calls j = .applyTransfer (calls i).channelId s r d) ∧
        ∃ v, w.phase j = .returned (.version v) := by
  constructor
  · rintro ⟨⟨s,r,d,hcall⟩,hl⟩
    refine ⟨⟨s,r,d,hcall⟩,?_⟩
    have hin : ¬ (w.phase j).inside := by
      intro hin
      have hclosed := (h.once.marked i close (by rw [hi]; rfl)).2
      have hout := (h.once.out j hin (by rw [hcall]; exact hclosed)).1
      rw [hcall] at hout
      cases hout
    cases hp : w.phase j with
    | returned a =>
      cases a with
      | version v => exact ⟨v,rfl⟩
      | _ => rw [hp] at hl; cases hl
    | _ => simp [hp,Phase.inside,Phase.landed] at hin hl
  · rintro ⟨hcall,v,hv⟩
    exact ⟨hcall,by rw [hv]; rfl⟩

/-- A step leaves a channel whose close has returned as it is, in memory and in the store. -/
theorem Orderly.frozen (h : Orderly B calls m₀ w) {j : κ} {close : CloseTx}
    (hj : w.phase j = .returned (.closed close)) :
    (w.step B calls i).phase j = .returned (.closed close) ∧
      (w.step B calls i).manager.channels.get? (calls j).channelId =
        w.manager.channels.get? (calls j).channelId ∧
      (w.step B calls i).manager.store.rows (calls j).channelId =
        w.manager.store.rows (calls j).channelId := by
  have hm := step_moved B calls w i
  have hclosed := (h.once.marked j close (by rw [hj]; rfl)).2
  refine ⟨?_,h.once.unchanged hm hclosed,
    h.once.rows_unchanged h.sound hm (by rw [hj]; rfl) (fun _ => by rw [hj]; rfl)⟩
  by_cases hji : j = i
  · subst hji
    rw [step_returned hj]
    exact hj
  · rw [hm.phase_of_ne hji]
    exact hj

theorem Orderly.frozen_run (h : Orderly B calls m₀ w) {j : κ} {close : CloseTx}
    (hj : w.phase j = .returned (.closed close)) {sched : List κ}
    (ht : Along (tick B calls) (InTime calls) w sched) :
    (Transition.run (tick B calls) w sched).manager.channels.get? (calls j).channelId =
        w.manager.channels.get? (calls j).channelId ∧
      (Transition.run (tick B calls) w sched).manager.store.rows (calls j).channelId =
        w.manager.store.rows (calls j).channelId := by
  induction sched generalizing w with
  | nil => exact ⟨rfl,rfl⟩
  | cons i sched ih =>
    obtain ⟨hstill,hch,hrows⟩ := h.frozen (i := i) hj
    obtain ⟨hch',hrows'⟩ := ih (h.step ht.1) hstill ht.2
    exact ⟨hch'.trans hch,hrows'.trans hrows⟩

theorem Orderly.landed_run (h : Orderly B calls m₀ w) {j : κ} (hj : (w.phase j).landed)
    {sched : List κ} (ht : Along (tick B calls) (InTime calls) w sched) :
    ((Transition.run (tick B calls) w sched).phase j).landed := by
  induction sched generalizing w with
  | nil => exact hj
  | cons i sched ih =>
    exact ih (h.step ht.1) ((step_moved B calls w i).landed_mono h.sound h.exclusive hj) ht.2

end Runs
end World

/-- The transfers and closes of a run are in one order: what a close pays is the state after the
transfers that have returned a version, a refused transfer has changed nothing, and a channel stays
as it is once its close has returned. -/
structure Linearised {κ : Type} [DecidableEq κ] (B : Bitcoinx) (calls : κ → ManagerCall)
    (m : ChannelManager) (sched : List κ) : Prop where
  contained : ∀ w, w = run (World.tick B calls) (World.init m) sched → ∀ i c close,
    calls i = .cooperativeClose c → w.phase i = .returned (.closed close) →
    ∃ ch₀ ch order, m.channels.get? c = some ch₀ ∧ order.Nodup ∧
      (∀ j, j ∈ order ↔ (∃ s r d, calls j = .applyTransfer c s r d) ∧
        ∃ v, w.phase j = .returned (.version v)) ∧
      applyInOrder calls ch₀ order = .ok ch ∧ ch.cooperativeClose B none = .ok close ∧
      w.manager.channels.get? c = some ch ∧ Saved B w.manager.store ch
  refused : ∀ j c s r d a, calls j = .applyTransfer c s r d →
    (run (World.tick B calls) (World.init m) sched).phase j = .returned a →
    (∃ v, a = .version v) ∨ (∃ e, a = .raised e) ∧
      ∀ t p, (t,j,p) ∈ trace (World.tick B calls) (World.init m) sched →
        (t.step B calls j).manager = t.manager
  frozen : ∀ pre post w w', sched = pre ++ post → w = run (World.tick B calls) (World.init m) pre →
    w' = run (World.tick B calls) (World.init m) sched → ∀ i c close,
    calls i = .cooperativeClose c → w.phase i = .returned (.closed close) →
      w'.manager.channels.get? c = w.manager.channels.get? c ∧
      w'.manager.store.rows c = w.manager.store.rows c

/-- On any set of registered channels, with any number of callers and any interleaving of their
steps in which the transfers are in time: transfers and closes are in one order. -/
theorem close_linearises {κ : Type} [DecidableEq κ] {B : Bitcoinx} {m : ChannelManager}
    (hm : Registered B m) (calls : κ → ManagerCall) {sched : List κ}
    (ht : Along (World.tick B calls) (World.InTime calls) (World.init m) sched) :
    Linearised B calls m sched where
  contained := by
    rintro w rfl i c close hcall hi
    have h := (World.Orderly.init hm calls).run ht
    obtain ⟨ch,hch,hpays⟩ := h.once.pays i close (.inr (by rw [hi]; rfl))
    obtain ⟨ch',hch',hsaved⟩ := h.durable.saved i close (.inr hi)
    obtain ⟨ch₀,order,hch₀,hnodup,hmem,hrun⟩ := h.history _ ch hch
    rw [hch] at hch'
    cases hch'
    have hiff := fun j => (hmem j).trans (h.landed_iff hi j)
    rw [hcall] at hch hch₀ hiff
    exact ⟨ch₀,ch,order,hch₀,hnodup,hiff,hrun,hpays,hch,hsaved⟩
  refused j c s r d a hcall ha := by
    have h := (World.Orderly.init hm calls).run ht
    cases a with
    | version v => exact .inl ⟨v,rfl⟩
    | closed close =>
      have := (h.once.marked j close (by rw [ha]; rfl)).1
      rw [hcall] at this
      cases this
    | raised e =>
      refine .inr ⟨⟨e,rfl⟩,fun t p hmem => ?_⟩
      obtain ⟨pre,post,rfl,rfl⟩ := split_of_mem_trace hmem
      obtain ⟨hpre,hj,hpost⟩ := (along_append _ _ _ _ _).mp ht
      have hbefore := (World.Orderly.init hm calls).run hpre
      by_contra hne
      have hlanded := (World.step_moved B calls _ j).landed_of_change hbefore.once hcall hne
      have hend := (hbefore.step hj).landed_run hlanded hpost
      rw [run_append] at ha
      rw [run_cons] at ha
      change (World.phase (run _ (World.step B calls _ j) post) j) = _ at ha
      rw [ha] at hend
      cases hend
  frozen := by
    rintro pre post w w' rfl rfl rfl i c close hcall hi
    obtain ⟨hpre,hpost⟩ := (along_append _ _ _ _ _).mp ht
    have h := ((World.Orderly.init hm calls).run hpre).frozen_run hi hpost
    rw [hcall] at h
    rw [run_append]
    exact h

namespace Reference

/-- A manager of the sample channel. -/
def sampleManager : ChannelManager :=
  (ChannelManager.add (reference anyone) (.fresh .fresh) (sampleChannel anyone)).1

theorem registered_sampleManager : Registered (reference anyone) sampleManager :=
  .add (.fresh _) rfl

/-- A transfer and a close of the sample channel. -/
def sampleCalls : Bool → ManagerCall
  | true => .applyTransfer ((sampleChannel anyone).fundingTxid (reference anyone)) 0 1 5
  | false => .cooperativeClose ((sampleChannel anyone).fundingTxid (reference anyone))

end Reference

open Reference in
theorem close_linearises_sample :
    Linearised (reference anyone) sampleCalls sampleManager
      (List.replicate 6 true ++ List.replicate 8 false) :=
  close_linearises registered_sampleManager sampleCalls (by decide +kernel)

open Reference in
/-- The close runs between the check and the lock of a transfer, which then changes the closed
channel and returns a version. -/
theorem late_transfer_accepted :
    (run (World.tick (reference anyone) sampleCalls) (World.init sampleManager)
      ([true] ++ List.replicate 7 false ++ List.replicate 5 true)).phase true =
        .returned (.version 1) ∧
    ¬ Linearised (reference anyone) sampleCalls sampleManager
      ([true] ++ List.replicate 7 false ++ List.replicate 5 true) := by
  refine ⟨by decide +kernel,fun h => ?_⟩
  obtain ⟨close,hclose⟩ := Phase.returned_of_sealed
    (p := (run (World.tick (reference anyone) sampleCalls) (World.init sampleManager)
      ([true] ++ List.replicate 7 false)).phase false) (by decide +kernel) (by decide +kernel)
  have hfrozen := h.frozen _ (List.replicate 5 true) _ _ rfl rfl rfl false _ close rfl hclose
  exact absurd (congrArg (Option.map fun ch : Channel => ch.state.version) hfrozen.1)
    (by decide +kernel)

end SubsatChannel
