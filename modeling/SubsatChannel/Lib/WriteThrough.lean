import SubsatChannel.Lib.Transition

/-! A machine that writes its state through to a medium and can be started again from there: nobody
who calls it can tell the restarts. -/
namespace WriteThrough
open Transition
variable {σ ι ω δ : Type*}

/-- A call that `writes` leaves the new state on the medium; the call `none` is a restart, which reads
the medium. A medium that cannot be read leaves the machine as it was. -/
def durable (step : σ → ι → σ × ω) (writes : ι → Bool) (save : σ → δ) (load : δ → Option σ) :
    σ × δ → Option ι → (σ × δ) × Option ω
  | (s,d), some i => (((step s i).1,if writes i then save (step s i).1 else d),some (step s i).2)
  | (s,d), none => (((load d).getD s,d),none)

/-- The answers of a run, without those to restarts. -/
def answers {τ κ : Type*} (past : List (τ × κ × Option ω)) : List ω := past.filterMap fun x => x.2.2

section Durable
variable {step : σ → ι → σ × ω} {writes : ι → Bool} {save : σ → δ} {load : δ → Option σ} {I : σ → Prop}
  (hload : ∀ s, I s → load (save s) = some s) (hkeep : ∀ s i, I s → I (step s i).1)
  (hreads : ∀ s i, writes i = false → (step s i).1 = s)

include hload hkeep hreads

/-- One call keeps what the medium gives back equal to the state. -/
theorem durable_step {s : σ} {d : δ} (hs : I s) (hd : load d = some s) (c : Option ι) :
    I (durable step writes save load (s,d) c).1.1 ∧
    load (durable step writes save load (s,d) c).1.2 = some (durable step writes save load (s,d) c).1.1 := by
  cases c with
  | none =>
    simp only [durable,hd,Option.getD_some]
    exact ⟨hs,trivial⟩
  | some i =>
    simp only [durable]
    cases hw : writes i with
    | true =>
      simp only [if_true]
      exact ⟨hkeep s i hs,hload _ (hkeep s i hs)⟩
    | false =>
      simp only [Bool.false_eq_true,if_false]
      exact ⟨hkeep s i hs,by rw [hd,hreads s i hw]⟩

/-- The state and the answers of a run are those of the run without its restarts, and at the end the
medium gives the state back. -/
theorem durable_run {s : σ} {d : δ} (hs : I s) (hd : load d = some s) (calls : List (Option ι)) :
    (run (durable step writes save load) (s,d) calls).1 = run step s (calls.filterMap id) ∧
    answers (trace (durable step writes save load) (s,d) calls) =
      (trace step s (calls.filterMap id)).map (fun x => x.2.2) ∧
    I (run (durable step writes save load) (s,d) calls).1 ∧
    load (run (durable step writes save load) (s,d) calls).2 =
      some (run (durable step writes save load) (s,d) calls).1 := by
  induction calls generalizing s d with
  | nil => exact ⟨rfl,rfl,hs,hd⟩
  | cons c calls ih =>
    obtain ⟨hs',hd'⟩ := durable_step hload hkeep hreads hs hd c
    obtain ⟨hrun,hans,hI,hmedium⟩ := ih hs' hd'
    cases c with
    | none =>
      have hsame : (durable step writes save load (s,d) none).1 = (s,d) := by
        simp only [durable,hd,Option.getD_some]
      rw [run_cons,trace_cons]
      rw [hsame] at hrun hans hI hmedium ⊢
      exact ⟨hrun,hans,hI,hmedium⟩
    | some i =>
      exact ⟨hrun,congrArg (List.cons (step s i).2) hans,hI,hmedium⟩

end Durable
end WriteThrough
