import Mathlib

/-! Covering a target with the largest elements of a list: what the first elements of a list in
descending order are worth, against any other selection of as many. -/
namespace GreedyCover
variable {α M : Type*} [AddCommGroup M] {w : α → M}

/-- What a list is worth. -/
def worth (w : α → M) (l : List α) : M := (l.map w).sum

@[simp] theorem worth_nil : worth w [] = 0 := rfl
@[simp] theorem worth_cons (a : α) (l : List α) : worth w (a :: l) = w a + worth w l := rfl

theorem worth_append (a b : List α) : worth w (a ++ b) = worth w a + worth w b := by
  rw [worth,List.map_append,List.sum_append]
  rfl

theorem worth_perm {a b : List α} (h : a.Perm b) : worth w a = worth w b := (h.map w).sum_eq

variable [LinearOrder M]

/-- No element is worth more than one before it. -/
def Descending (w : α → M) (l : List α) : Prop := l.Pairwise fun a b => w b ≤ w a

/-- The first `k` elements reach the target, and fewer of them do not. -/
structure Reaches (w : α → M) (target : M) (l : List α) (k : ℕ) : Prop where
  within : k ≤ l.length
  covers : target ≤ worth w (l.take k)
  least : ∀ j < k, worth w (l.take j) < target

namespace Reaches
variable {target : M} {l : List α} {k m : ℕ}

theorem unique (h : Reaches w target l k) (h' : Reaches w target l m) : k = m := by
  apply le_antisymm
  · by_contra hlt
    exact absurd h'.covers (not_le.mpr (h.least m (by omega)))
  · by_contra hlt
    exact absurd h.covers (not_le.mpr (h'.least k (by omega)))

theorem pos (h : Reaches w target l k) (ht : 0 < target) : 0 < k := by
  by_contra hz
  obtain rfl : k = 0 := by omega
  exact absurd h.covers (not_le.mpr ht)

/-- One element may be enough. -/
theorem one {a : α} (ht : 0 < target) (h : target ≤ w a) : Reaches w target (a :: l) 1 where
  within := by simp
  covers := by simpa using h
  least j hj := by
    obtain rfl : j = 0 := by omega
    exact ht

end Reaches

section Ordered
variable [IsOrderedAddMonoid M]

theorem worth_take_le {l : List α} (h : ∀ a ∈ l, 0 ≤ w a) (k : ℕ) : worth w (l.take k) ≤ worth w l := by
  have hdrop : 0 ≤ worth w (l.drop k) := by
    apply List.sum_nonneg
    intro x hx
    obtain ⟨a,ha,rfl⟩ := List.mem_map.mp hx
    exact h a (List.mem_of_mem_drop ha)
  have hsplit := worth_append (w := w) (l.take k) (l.drop k)
  rw [List.take_append_drop] at hsplit
  rw [hsplit]
  exact le_add_of_nonneg_right hdrop

/-- When the last of the first elements adds something, each of them does. -/
theorem pos_of_gain {l : List α} {k : ℕ} (hd : Descending w l) (hk : k < l.length)
    (h : worth w (l.take k) < worth w (l.take (k+1))) : ∀ a ∈ l.take (k+1), 0 < w a := by
  have hlast := List.take_append_getElem hk
  have hgain : 0 < w l[k] := by
    rw [← hlast,worth_append,worth_cons,worth_nil,add_zero] at h
    exact (lt_add_iff_pos_right _).mp h
  intro a ha
  have hpair := hd.sublist (List.take_sublist (k+1) l)
  rw [← hlast] at ha hpair
  cases List.mem_append.mp ha with
  | inl hfirst => exact hgain.trans_le ((List.pairwise_append.mp hpair).2.2 a hfirst _ (by simp))
  | inr hsame =>
    rw [List.mem_singleton.mp hsame]
    exact hgain

/-- Putting a largest element in front makes the first elements worth more. -/
theorem worth_take_cons {a : α} {l : List α} (h : Descending w (a :: l)) {k : ℕ} (hk : k ≤ l.length) :
    worth w (l.take k) ≤ worth w ((a :: l).take k) := by
  induction k generalizing a l with
  | zero => rfl
  | succ k ih =>
    cases l with
    | nil => simp at hk
    | cons b l =>
      have hab : w b ≤ w a := List.rel_of_pairwise_cons h List.mem_cons_self
      have hrest := ih h.of_cons (by simpa using hk)
      rw [List.take_succ_cons,List.take_succ_cons,worth_cons,worth_cons]
      exact add_le_add hab hrest

theorem worth_sublist_le {s l : List α} (h : Descending w l) (hs : s.Sublist l) :
    worth w s ≤ worth w (l.take s.length) := by
  induction hs with
  | slnil => rfl
  | cons a hs ih => exact (ih h.of_cons).trans (worth_take_cons h hs.length_le)
  | cons_cons a hs ih =>
    rw [List.length_cons,List.take_succ_cons,worth_cons,worth_cons]
    exact add_le_add le_rfl (ih h.of_cons)

/-- No selection of as many elements is worth more than the first ones. -/
theorem worth_subperm_le {s l : List α} (h : Descending w l) (hs : s.Subperm l) :
    worth w s ≤ worth w (l.take s.length) := by
  obtain ⟨s',hperm,hsub⟩ := hs
  rw [← worth_perm hperm,← hperm.length_eq]
  exact worth_sublist_le h hsub

namespace Reaches
variable {target : M} {l : List α} {k : ℕ}

/-- What an element leaves of the target is left to the elements behind it. -/
theorem succ_iff {a : α} (ht : 0 < target) :
    Reaches w target (a :: l) (k+1) ↔ Reaches w (target - w a) l k := by
  constructor
  · rintro ⟨hw,hc,hl⟩
    refine ⟨by simpa using hw,sub_le_iff_le_add'.mpr hc,fun j hj => ?_⟩
    exact lt_sub_iff_add_lt'.mpr (hl (j+1) (by omega))
  · rintro ⟨hw,hc,hl⟩
    refine ⟨by simpa using hw,sub_le_iff_le_add'.mp hc,fun j hj => ?_⟩
    cases j with
    | zero => exact ht
    | succ j => exact lt_sub_iff_add_lt'.mp (hl j (by omega))

/-- No selection of fewer elements reaches the target. -/
theorem minimal (h : Reaches w target l k) (hd : Descending w l) {s : List α} (hs : s.Subperm l)
    (hlt : s.length < k) : worth w s < target :=
  (worth_subperm_le hd hs).trans_lt (h.least _ hlt)

/-- Every element that is needed adds to what the list is worth. -/
theorem needed_pos (h : Reaches w target l k) (hd : Descending w l) : ∀ a ∈ l.take k, 0 < w a := by
  cases k with
  | zero =>
    intro a ha
    cases ha
  | succ k => exact pos_of_gain hd h.within ((h.least k (Nat.lt_succ_self k)).trans_le h.covers)

/-- Where the last step reaches the target, no earlier one did. -/
theorem of_step (hd : Descending w l) (hk : k < l.length) (hlow : worth w (l.take k) < target)
    (hreach : target ≤ worth w (l.take (k+1))) : Reaches w target l (k+1) where
  within := hk
  covers := hreach
  least j hj := by
    have hpos := pos_of_gain hd hk (hlow.trans_le hreach)
    have hfront : ∀ a ∈ l.take k, 0 ≤ w a := fun a ha =>
      (hpos a ((List.take_prefix_take_left (Nat.le_succ k)).subset ha)).le
    have hle := worth_take_le hfront j
    rw [List.take_take,Nat.min_eq_left (Nat.le_of_lt_succ hj)] at hle
    exact hle.trans_lt hlow

end Reaches

/-- Elements of no negative worth: the target is reached exactly when all of them together reach it. -/
theorem exists_reaches_iff {target : M} {l : List α} (h : ∀ a ∈ l, 0 ≤ w a) :
    (∃ k, Reaches w target l k) ↔ target ≤ worth w l := by
  constructor
  · rintro ⟨k,hk⟩
    exact hk.covers.trans (worth_take_le h k)
  · intro ht
    have hex : ∃ k, target ≤ worth w (l.take k) := ⟨l.length,by rwa [List.take_length]⟩
    classical
    refine ⟨Nat.find hex,?_,Nat.find_spec hex,fun j hj => not_le.mp (Nat.find_min hex hj)⟩
    exact Nat.find_min' hex (by rwa [List.take_length])

end Ordered
end GreedyCover
