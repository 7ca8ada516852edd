import Mathlib
import SubsatChannel.Lib.Transition

/-! Items that are handed on: whatever leaves a collection leaves an item in its place that is
better than it, or moves to where it is final. -/
namespace Succession
open Relation Transition
variable {α : Type*} (better : α → α → Prop)

/-- Everything in the first collection is in the second one, or something that took its place is,
after any number of replacements. -/
def Handed (P Q : Set α) : Prop := ∀ a ∈ P, ∃ b ∈ Q, ReflTransGen better a b

variable {better} {P Q S : Set α}

theorem Handed.of_subset (h : P ⊆ Q) : Handed better P Q := fun a ha => ⟨a,h ha,.refl⟩

theorem Handed.trans (h : Handed better P Q) (h' : Handed better Q S) : Handed better P S := by
  intro a ha
  obtain ⟨b,hb,hab⟩ := h a ha
  obtain ⟨c,hc,hbc⟩ := h' b hb
  exact ⟨c,hc,hab.trans hbc⟩

theorem Handed.mono (h : Handed better P Q) (hQ : Q ⊆ S) : Handed better P S :=
  h.trans (.of_subset hQ)

/-- What is handed on piece by piece is handed on. -/
theorem Handed.union {P' : Set α} (h : Handed better P S) (h' : Handed better P' S) :
    Handed better (P ∪ P') S := by
  rintro a (ha | ha)
  · exact h a ha
  · exact h' a ha

/-- One replacement: the old item goes and a better one comes. -/
theorem Handed.replace {old new : α} (hbetter : better old new) (hnew : new ∈ Q)
    (hrest : ∀ a ∈ P, a ≠ old → a ∈ Q) : Handed better P Q := by
  intro a ha
  by_cases he : a = old
  · subst he
    exact ⟨new,hnew,.single hbetter⟩
  · exact ⟨a,hrest a ha he,.refl⟩

section Run
variable {σ ι ω : Type*} {step : σ → ι → σ × ω}

/-- What the answers of a run carry away. -/
def carried (gone : ω → Set α) (past : List (σ × ι × ω)) : Set α := {a | ∃ x ∈ past, a ∈ gone x.2.2}

/-- When every admissible call of a machine hands its items on to the next state or carries them away
for good, so does every admissible run. -/
theorem handed_run (pool : σ → Set α) (gone : ω → Set α) {I : σ → Prop} {C : σ → ι → Prop}
    (keep : ∀ s i, I s → C s i → I (step s i).1)
    (hand : ∀ s i, I s → C s i → Handed better (pool s) (pool (step s i).1 ∪ gone (step s i).2))
    {s : σ} {is : List ι} (hs : I s) (hc : Along step C s is) :
    Handed better (pool s) (pool (run step s is) ∪ carried gone (trace step s is)) := by
  induction is generalizing s with
  | nil => exact .of_subset Set.subset_union_left
  | cons i is ih =>
    have hnext := ih (keep s i hs hc.1) hc.2
    refine (hand s i hs hc.1).trans (.union (hnext.mono ?_) (.of_subset ?_))
    · rintro a (ha | ⟨x,hx,ha⟩)
      · exact .inl ha
      · exact .inr ⟨x,List.mem_cons_of_mem _ hx,ha⟩
    · exact fun a ha => .inr ⟨_,List.mem_cons_self,ha⟩

end Run
end Succession
