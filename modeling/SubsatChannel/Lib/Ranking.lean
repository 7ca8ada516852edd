import Mathlib

/-! The first elements of a list in a given order, and sums that give one unit to each of them. -/
namespace Ranking
variable {α : Type*} (r : α → α → Prop) [DecidableRel r]

/-- The first `m` elements of a list when it is sorted by `r`. -/
def top (m : ℕ) (l : List α) : List α := (l.insertionSort r).take m

variable {r} {m : ℕ} {l : List α}

theorem top_subset : top r m l ⊆ l := fun _ ha =>
  (List.perm_insertionSort r l).subset (List.mem_of_mem_take ha)

theorem top_nodup (h : l.Nodup) : (top r m l).Nodup :=
  ((List.perm_insertionSort r l).nodup_iff.mpr h).sublist (List.take_sublist _ _)

theorem top_length (h : m ≤ l.length) : (top r m l).length = m := by
  rw [top,List.length_take,List.length_insertionSort]
  exact min_eq_left h

theorem sum_indicator (p : α → Prop) [DecidablePred p] (l : List α) :
    (l.map fun a => if p a then 1 else 0).sum = (l.filter fun a => p a).length := by
  induction l with
  | nil => rfl
  | cons a l ih =>
    by_cases ha : p a
    · simp [ha,ih,Nat.add_comm]
    · simp [ha,ih]

variable [DecidableEq α]

/-- The elements of a duplicate-free list that are among its first ones are exactly these. -/
theorem filter_top_perm (h : l.Nodup) : (l.filter fun a => a ∈ top r m l).Perm (top r m l) := by
  rw [List.perm_ext_iff_of_nodup (h.filter _) (top_nodup h)]
  intro a
  rw [List.mem_filter,decide_eq_true_eq]
  exact ⟨fun ha => ha.2,fun ha => ⟨top_subset ha,ha⟩⟩

/-- One unit for each of the first `m` elements makes `m` units. -/
theorem sum_top (h : l.Nodup) (hm : m ≤ l.length) :
    (l.map fun a => if a ∈ top r m l then 1 else 0).sum = m := by
  rw [sum_indicator,(filter_top_perm h).length_eq,top_length hm]

/-- An element of a list is among the first `m` when fewer than `m` elements come before it. -/
theorem mem_top_iff [Std.Total r] [IsTrans α r] [Std.Antisymm r] (h : l.Nodup) {a : α} (ha : a ∈ l) :
    a ∈ top r m l ↔ (l.filter fun b => r b a ∧ b ≠ a).length < m := by
  have hperm := List.perm_insertionSort r l
  have hsorted := List.pairwise_insertionSort r l
  have hmem : a ∈ l.insertionSort r := hperm.mem_iff.mpr ha
  have hnodup : (l.insertionSort r).Nodup := hperm.nodup_iff.mpr h
  obtain ⟨t₁,t₂,ht⟩ := List.append_of_mem hmem
  rw [ht] at hsorted hnodup
  have hnot : a ∉ t₁ := fun hin => (List.nodup_append.mp hnodup).2.2 _ hin a List.mem_cons_self rfl
  have hfilter : (t₁ ++ a :: t₂).filter (fun b => r b a ∧ b ≠ a) = t₁ := by
    obtain ⟨-,hcons,hcross⟩ := List.pairwise_append.mp hsorted
    obtain ⟨-,hnodup₂,hdisjoint⟩ := List.nodup_append.mp hnodup
    have hfirst : ∀ b ∈ t₁,r b a ∧ b ≠ a := fun b hb =>
      ⟨hcross b hb a List.mem_cons_self,hdisjoint b hb a List.mem_cons_self⟩
    have hsecond : ∀ b ∈ t₂,¬ (r b a ∧ b ≠ a) := fun b hb hba =>
      hba.2 (Std.Antisymm.antisymm b a hba.1 (List.rel_of_pairwise_cons hcons hb))
    rw [List.filter_append,List.filter_cons_of_neg (by simp),
      List.filter_eq_self.mpr (by simpa using hfirst),
      List.filter_eq_nil_iff.mpr (by simpa using hsecond),List.append_nil]
  rw [top,List.mem_take_iff_idxOf_lt hmem,← (hperm.filter _).length_eq,ht,hfilter,
    List.idxOf_append_of_notMem hnot,List.idxOf_cons_self,Nat.add_zero]

end Ranking
