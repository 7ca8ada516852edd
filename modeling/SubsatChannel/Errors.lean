import Mathlib

/-! The exceptions of the package and the Python exceptions its code can raise. -/
namespace SubsatChannel

inductive ErrorKind
  | configError
  | accountingError
  | fractionalSatoshiError
  | stateError
  | unconfirmedFundingError
  | scriptBuildError
  | verificationError
  | routingError
  | keyReplacementError
  | headerError
  | p2pError
  | managerError
  | clusterError
  | persistenceError
  | registryError
  | towerError
  | walletError
  | walletBuildError
  | sendError
  | keyError
  | indexError
  | valueError
  | runtimeError
  | overflowError
  | attributeError
  /-- `struct.error`: a number does not fit the bytes it is packed into. -/
  | structError
  /-- An exception of the `bitcoinx` interpreter. -/
  | interpreterError
  /-- An exception of `bitcoinx` while it reads a transaction. -/
  | streamError
  deriving DecidableEq, Repr

/-- A raised exception: its class and the text it carries. -/
structure Fault where
  kind : ErrorKind
  message : String := ""
  deriving DecidableEq, Repr

/-- Did the call return, and not raise? -/
def returned {α : Type*} (r : Except Fault α) : Bool := r.toBool

/-- A sequence of two calls returns exactly when both do. -/
theorem bind_eq_ok {ε α β : Type*} {x : Except ε α} {f : α → Except ε β} {b : β} :
    x.bind f = .ok b ↔ ∃ a, x = .ok a ∧ f a = .ok b := by
  cases x with
  | error e => simp [Except.bind]
  | ok a => simp [Except.bind]

theorem map_eq_ok {ε α β : Type*} {x : Except ε α} {f : α → β} {b : β} :
    x.map f = .ok b ↔ ∃ a, x = .ok a ∧ f a = b := by
  cases x with
  | error e => simp [Except.map]
  | ok a => simp [Except.map]

/-- When the call returns for every element, so does the loop over the list. -/
theorem mapM_eq_ok {ε α β : Type} {f : α → Except ε β} {g : α → β} {l : List α}
    (h : ∀ a ∈ l, f a = .ok (g a)) : l.mapM f = .ok (l.map g) := by
  induction l with
  | nil => rfl
  | cons a l ih =>
    have ha := h a (by simp)
    have hl := ih fun b hb => h b (by simp [hb])
    rw [List.mapM_cons,ha,hl]
    rfl

/-- A loop stops at the one error that its calls raise. -/
theorem mapM_eq_error {ε α β : Type} {f : α → Except ε β} {l : List α} {e : ε}
    (h : ∀ a ∈ l, (∃ b, f a = .ok b) ∨ f a = .error e) (hex : ∃ a ∈ l, f a = .error e) :
    l.mapM f = .error e := by
  induction l with
  | nil =>
    obtain ⟨a,ha,_⟩ := hex
    cases ha
  | cons x l ih =>
    rw [List.mapM_cons]
    cases h x (by simp) with
    | inr hx =>
      rw [hx]
      rfl
    | inl hx =>
      obtain ⟨b,hb⟩ := hx
      have hrest : ∃ a ∈ l, f a = .error e := by
        obtain ⟨a,ha,he⟩ := hex
        cases List.mem_cons.mp ha with
        | inl hax =>
          rw [hax,hb] at he
          cases he
        | inr hal => exact ⟨a,hal,he⟩
      rw [hb,ih (fun a ha => h a (by simp [ha])) hrest]
      rfl

/-- When the loop returns, so does the call for every element. -/
theorem exists_of_mapM_eq_ok {ε α β : Type} {f : α → Except ε β} {l : List α} {bs : List β}
    (h : l.mapM f = .ok bs) : ∀ a ∈ l, ∃ b, f a = .ok b := by
  induction l generalizing bs with
  | nil => simp
  | cons x l ih =>
    rw [List.mapM_cons] at h
    obtain ⟨b,hb,h⟩ := bind_eq_ok.mp h
    obtain ⟨cs,hcs,_⟩ := bind_eq_ok.mp h
    intro a ha
    rcases List.mem_cons.mp ha with rfl | hm
    · exact ⟨b,hb⟩
    · exact ih hcs a hm

/-- When the loop returns, each of its results is that of a call. -/
theorem mem_of_mapM_eq_ok {ε α β : Type} {f : α → Except ε β} {l : List α} {bs : List β}
    (h : l.mapM f = .ok bs) : ∀ b ∈ bs, ∃ a ∈ l, f a = .ok b := by
  induction l generalizing bs with
  | nil =>
    cases h
    simp
  | cons x l ih =>
    rw [List.mapM_cons] at h
    obtain ⟨b,hb,h⟩ := bind_eq_ok.mp h
    obtain ⟨cs,hcs,h⟩ := bind_eq_ok.mp h
    cases h
    intro c hc
    rcases List.mem_cons.mp hc with rfl | hm
    · exact ⟨x,by simp,hb⟩
    · obtain ⟨a,ha,hfa⟩ := ih hcs c hm
      exact ⟨a,by simp [ha],hfa⟩

/-- A property of the result of a call, if it returns, can be decided by making the call. -/
instance decidableForallOk {ε α β : Type} {x : Except ε (α × β)} {P : α → β → Prop}
    [∀ a b, Decidable (P a b)] : Decidable (∀ a b, x = .ok (a,b) → P a b) :=
  match x with
  | .error _ => isTrue fun _ _ h => nomatch h
  | .ok (a,b) => decidable_of_iff (P a b)
      ⟨fun h c d he => by cases he; exact h,fun h => h a b rfl⟩

end SubsatChannel
