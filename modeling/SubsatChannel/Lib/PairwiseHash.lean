import Mathlib

/-! Combining a list in pairs, level by level, until one element is left. A level of odd length repeats
its last element. -/
namespace PairwiseHash
variable {α : Type*}

def pairs : List α → List (α × α)
  | [] => []
  | [_] => []
  | a :: b :: rest => (a,b) :: pairs rest

def padded (l : List α) : List α := if l.length % 2 = 1 then l ++ l.getLast?.toList else l

/-- The next level. -/
def level (f : α → α → α) (l : List α) : List α := (pairs (padded l)).map fun p => f p.1 p.2

def run (f : α → α → α) : ℕ → List α → List α
  | 0, l => l
  | fuel+1, l => if l.length ≤ 1 then l else run f fuel (level f l)

/-- The pairs that are combined on the way. -/
def combined (f : α → α → α) : ℕ → List α → List (α × α)
  | 0, _ => []
  | fuel+1, l => if l.length ≤ 1 then [] else pairs (padded l) ++ combined f fuel (level f l)

variable {f : α → α → α} {l l' : List α} {fuel fuel' : ℕ}

section Levels

@[simp] theorem length_pairs (l : List α) : (pairs l).length = l.length / 2 := by
  induction l using pairs.induct with
  | case1 => simp [pairs]
  | case2 a => simp [pairs]
  | case3 a b rest ih =>
    rw [pairs,List.length_cons,ih,List.length_cons,List.length_cons]
    omega

@[simp] theorem length_padded (l : List α) : (padded l).length = 2 * ((l.length + 1) / 2) := by
  unfold padded
  split_ifs with hodd
  · have hne : l ≠ [] := by
      rintro rfl
      simp at hodd
    rw [List.getLast?_eq_some_getLast hne,Option.toList_some,List.length_append,List.length_singleton]
    omega
  · omega

/-- Every level is half as long, rounded up. -/
@[simp] theorem length_level (l : List α) : (level f l).length = (l.length + 1) / 2 := by
  rw [level,List.length_map,length_pairs,length_padded]
  omega

theorem padded_inj (hlen : l.length = l'.length) (h : padded l = padded l') : l = l' := by
  unfold padded at h
  rw [hlen] at h
  split_ifs at h
  · exact List.append_inj_left h hlen
  · exact h

theorem pairs_inj (heven : l.length % 2 = 0) (hlen : l.length = l'.length) (h : pairs l = pairs l') :
    l = l' := by
  induction l using pairs.induct generalizing l' with
  | case1 => exact (List.length_eq_zero_iff.mp hlen.symm).symm
  | case2 a => simp at heven
  | case3 a b rest ih =>
    cases l' with
    | nil => simp at hlen
    | cons a' l' =>
      cases l' with
      | nil => simp at hlen
      | cons b' rest' =>
        rw [pairs,pairs] at h
        obtain ⟨hpair,hrest⟩ := List.cons.inj h
        obtain ⟨rfl,rfl⟩ := Prod.mk.inj hpair
        simp only [List.length_cons] at heven hlen
        rw [ih (by omega) (by omega) hrest]

theorem mem_of_mem_pairs {p : α × α} (h : p ∈ pairs l) : p.1 ∈ l ∧ p.2 ∈ l := by
  induction l using pairs.induct with
  | case1 => cases h
  | case2 a => cases h
  | case3 a b rest ih =>
    rw [pairs] at h
    cases List.mem_cons.mp h with
    | inl hp => simp [hp]
    | inr hrest =>
      obtain ⟨h₁,h₂⟩ := ih hrest
      simp [h₁,h₂]

theorem mem_of_mem_padded {a : α} (h : a ∈ padded l) : a ∈ l := by
  unfold padded at h
  split_ifs at h
  · cases List.mem_append.mp h with
    | inl hl => exact hl
    | inr hlast => exact List.mem_of_getLast? (Option.mem_toList.mp hlast)
  · exact h

end Levels

section Run

/-- As many passes as the list is long leave at most one element. -/
theorem length_run_le_one (h : l.length ≤ fuel) : (run f fuel l).length ≤ 1 := by
  induction fuel generalizing l with
  | zero => exact h.trans (Nat.zero_le 1)
  | succ fuel ih =>
    rw [run]
    split_ifs with hshort
    · exact hshort
    · apply ih
      rw [length_level]
      omega

/-- Further passes change nothing. -/
theorem run_eq_run (h : l.length ≤ fuel) (h' : l.length ≤ fuel') : run f fuel l = run f fuel' l := by
  induction fuel generalizing l fuel' with
  | zero =>
    obtain rfl := List.length_eq_zero_iff.mp (Nat.le_zero.mp h)
    cases fuel' <;> rfl
  | succ fuel ih =>
    cases fuel' with
    | zero =>
      obtain rfl := List.length_eq_zero_iff.mp (Nat.le_zero.mp h')
      rfl
    | succ fuel' =>
      rw [run,run]
      split_ifs
      · rfl
      · apply ih
        · rw [length_level]
          omega
        · rw [length_level]
          omega

theorem run_ne_nil (h : l ≠ []) : run f fuel l ≠ [] := by
  induction fuel generalizing l with
  | zero => exact h
  | succ fuel ih =>
    rw [run]
    split_ifs
    · exact h
    · apply ih
      have hpos := List.length_pos_iff.mpr h
      apply List.length_pos_iff.mp
      rw [length_level]
      omega

/-- What holds of the elements and of every combination holds of all that is combined. -/
theorem forall_combined {P : α → Prop} (hf : ∀ a b, P (f a b)) (hl : ∀ a ∈ l, P a) :
    ∀ p ∈ combined f fuel l, P p.1 ∧ P p.2 := by
  induction fuel generalizing l with
  | zero =>
    intro p hp
    cases hp
  | succ fuel ih =>
    intro p hp
    rw [combined] at hp
    split_ifs at hp
    · cases hp
    · cases List.mem_append.mp hp with
      | inl hpair =>
        obtain ⟨h₁,h₂⟩ := mem_of_mem_pairs hpair
        exact ⟨hl _ (mem_of_mem_padded h₁),hl _ (mem_of_mem_padded h₂)⟩
      | inr hrest =>
        refine ih (fun a ha => ?_) p hrest
        obtain ⟨q,_,rfl⟩ := List.mem_map.mp ha
        exact hf q.1 q.2

end Run

section Collision

theorem exists_collision_of_map_eq {β γ : Type*} {g : β → γ} {s t : List β} (h : s.map g = t.map g)
    (hne : s ≠ t) : ∃ p ∈ s, ∃ q ∈ t, p ≠ q ∧ g p = g q := by
  induction s generalizing t with
  | nil => exact absurd (List.map_eq_nil_iff.mp h.symm).symm hne
  | cons p s ih =>
    cases t with
    | nil => simp at h
    | cons q t =>
      obtain ⟨hhead,htail⟩ := List.cons.inj h
      by_cases hpq : p = q
      · obtain ⟨p',hp',q',hq',hcol⟩ := ih htail fun heq => hne (by rw [hpq,heq])
        exact ⟨p',List.mem_cons_of_mem _ hp',q',List.mem_cons_of_mem _ hq',hcol⟩
      · exact ⟨p,List.mem_cons_self,q,List.mem_cons_self,hpq,hhead⟩

/-- Different lists of one length that end in the same elements combine two different pairs into one
element on the way. -/
theorem exists_collision (hlen : l.length = l'.length) (hne : l ≠ l') (h : run f fuel l = run f fuel l') :
    ∃ p ∈ combined f fuel l, ∃ q ∈ combined f fuel l', p ≠ q ∧ f p.1 p.2 = f q.1 q.2 := by
  induction fuel generalizing l l' with
  | zero => exact absurd h hne
  | succ fuel ih =>
    rw [run,run,hlen] at h
    rw [combined,combined,hlen]
    by_cases hshort : l'.length ≤ 1
    · rw [if_pos hshort,if_pos hshort] at h
      exact absurd h hne
    · rw [if_neg hshort,if_neg hshort] at h
      rw [if_neg hshort,if_neg hshort]
      by_cases hlevel : level f l = level f l'
      · have hpairs : pairs (padded l) ≠ pairs (padded l') := fun heq =>
          hne (padded_inj hlen (pairs_inj (by rw [length_padded]; omega) (by simp [hlen]) heq))
        obtain ⟨p,hp,q,hq,hcol⟩ := exists_collision_of_map_eq hlevel hpairs
        exact ⟨p,List.mem_append_left _ hp,q,List.mem_append_left _ hq,hcol⟩
      · obtain ⟨p,hp,q,hq,hcol⟩ := ih (by rw [length_level,length_level,hlen]) hlevel h
        exact ⟨p,List.mem_append_right _ hp,q,List.mem_append_right _ hq,hcol⟩

end Collision
end PairwiseHash
