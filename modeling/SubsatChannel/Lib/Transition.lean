import Mathlib

/-! Deterministic systems that answer calls: runs, traces and the invariant rules for them. -/
namespace Transition
variable {σ ι ω : Type*}

/-- The state after a list of calls. -/
def run (step : σ → ι → σ × ω) : σ → List ι → σ
  | s, [] => s
  | s, i :: is => run step (step s i).1 is

/-- Every call of a run, with the state it was made in and the answer it got. -/
def trace (step : σ → ι → σ × ω) : σ → List ι → List (σ × ι × ω)
  | _, [] => []
  | s, i :: is => (s,i,(step s i).2) :: trace step (step s i).1 is

/-- Every call of the run is made in a state that meets the condition. -/
def Along (step : σ → ι → σ × ω) (C : σ → ι → Prop) : σ → List ι → Prop
  | _, [] => True
  | s, i :: is => C s i ∧ Along step C (step s i).1 is

variable (step : σ → ι → σ × ω)

@[simp] theorem run_nil (s : σ) : run step s [] = s := rfl
@[simp] theorem run_cons (s : σ) (i : ι) (is : List ι) :
    run step s (i :: is) = run step (step s i).1 is := rfl
@[simp] theorem trace_nil (s : σ) : trace step s [] = [] := rfl
@[simp] theorem trace_cons (s : σ) (i : ι) (is : List ι) :
    trace step s (i :: is) = (s,i,(step s i).2) :: trace step (step s i).1 is := rfl
@[simp] theorem along_nil (C : σ → ι → Prop) (s : σ) : Along step C s [] := trivial
@[simp] theorem along_cons (C : σ → ι → Prop) (s : σ) (i : ι) (is : List ι) :
    Along step C s (i :: is) ↔ C s i ∧ Along step C (step s i).1 is := Iff.rfl

theorem along_true (s : σ) (is : List ι) : Along step (fun _ _ => True) s is := by
  induction is generalizing s with
  | nil => trivial
  | cons i is ih => exact ⟨trivial,ih _⟩

theorem run_append (s : σ) (is js : List ι) :
    run step s (is ++ js) = run step (run step s is) js := by
  induction is generalizing s with
  | nil => rfl
  | cons i is ih => exact ih (step s i).1

theorem trace_append (s : σ) (is js : List ι) :
    trace step s (is ++ js) = trace step s is ++ trace step (run step s is) js := by
  induction is generalizing s with
  | nil => rfl
  | cons i is ih => simp only [List.cons_append,trace_cons,run_cons,ih]

theorem run_concat (s : σ) (is : List ι) (i : ι) :
    run step s (is ++ [i]) = (step (run step s is) i).1 :=
  run_append step s is [i]

/-- A call after the calls `is` is made in the state they lead to. -/
theorem mem_trace_append (s : σ) (is : List ι) (i : ι) (js : List ι) :
    (run step s is,i,(step (run step s is) i).2) ∈ trace step s (is ++ i :: js) := by
  induction is generalizing s with
  | nil => exact List.mem_cons_self
  | cons j is ih => exact List.mem_cons_of_mem _ (ih _)

theorem along_append (C : σ → ι → Prop) (s : σ) (is js : List ι) :
    Along step C s (is ++ js) ↔ Along step C s is ∧ Along step C (run step s is) js := by
  induction is generalizing s with
  | nil => simp
  | cons i is ih => simp [ih,and_assoc]

instance Along.decidable (C : σ → ι → Prop) [∀ s i, Decidable (C s i)] (s : σ) (is : List ι) :
    Decidable (Along step C s is) :=
  match is with
  | [] => isTrue trivial
  | i :: is => haveI := Along.decidable C (step s i).1 is; inferInstanceAs (Decidable (_ ∧ _))

variable {step}

theorem Along.imp {C D : σ → ι → Prop} (h : ∀ s i, C s i → D s i) {s : σ} {is : List ι}
    (hc : Along step C s is) : Along step D s is := by
  induction is generalizing s with
  | nil => trivial
  | cons i is ih => exact ⟨h s i hc.1,ih hc.2⟩

/-- A state property kept by every admissible call holds after every admissible run. -/
theorem run_invariant {I : σ → Prop} {C : σ → ι → Prop}
    (keep : ∀ s i, I s → C s i → I (step s i).1) {s : σ} {is : List ι}
    (hs : I s) (hc : Along step C s is) : I (run step s is) := by
  induction is generalizing s with
  | nil => exact hs
  | cons i is ih => exact ih (keep s i hs hc.1) hc.2

/-- Every call of an admissible run is made in a state with the invariant. -/
theorem trace_invariant {I : σ → Prop} {C : σ → ι → Prop}
    (keep : ∀ s i, I s → C s i → I (step s i).1) {s : σ} {is : List ι}
    (hs : I s) (hc : Along step C s is) {t : σ} {i : ι} {o : ω}
    (ht : (t,i,o) ∈ trace step s is) : I t ∧ C t i ∧ o = (step t i).2 := by
  induction is generalizing s with
  | nil => simp at ht
  | cons j is ih =>
    rcases List.mem_cons.mp ht with h | h
    · simp only [Prod.mk.injEq] at h
      obtain ⟨rfl,rfl,rfl⟩ := h
      exact ⟨hs,hc.1,rfl⟩
    · exact ih (keep s j hs hc.1) hc.2 h

/-- A property of the past calls and the state that every admissible call extends holds of an
admissible run. -/
theorem history_invariant {I : List (σ × ι × ω) → σ → Prop} {C : σ → ι → Prop}
    (keep : ∀ past s i, I past s → C s i → I (past ++ [(s,i,(step s i).2)]) (step s i).1)
    {past : List (σ × ι × ω)} {s : σ} {is : List ι} (hs : I past s) (hc : Along step C s is) :
    I (past ++ trace step s is) (run step s is) := by
  induction is generalizing past s with
  | nil => simpa using hs
  | cons i is ih =>
    have h := ih (keep past s i hs hc.1) hc.2
    rwa [List.append_assoc,List.singleton_append] at h

/-- A call of a run splits it into the calls before and the calls after it. -/
theorem split_of_mem_trace {s t : σ} {is : List ι} {i : ι} {o : ω}
    (h : (t,i,o) ∈ trace step s is) :
    ∃ pre post, is = pre ++ i :: post ∧ t = run step s pre := by
  induction is generalizing s with
  | nil => simp at h
  | cons j is ih =>
    rcases List.mem_cons.mp h with h | h
    · simp only [Prod.mk.injEq] at h
      obtain ⟨rfl,rfl,_⟩ := h
      exact ⟨[],is,rfl,rfl⟩
    · obtain ⟨pre,post,rfl,rfl⟩ := ih h
      exact ⟨j :: pre,post,rfl,rfl⟩

end Transition
