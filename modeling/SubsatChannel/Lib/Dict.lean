import Mathlib

/-! A dictionary that keeps its keys in the order of their insertion. -/

/-- An insertion-ordered dictionary: no key occurs twice. -/
structure Dict (κ ν : Type*) where
  items : List (κ × ν)
  nodup : (items.map Prod.fst).Nodup

namespace Dict
variable {κ ν : Type*}

def empty : Dict κ ν := ⟨[],List.nodup_nil⟩
instance : EmptyCollection (Dict κ ν) := ⟨empty⟩

def values (d : Dict κ ν) : List ν := d.items.map Prod.snd

@[simp] theorem values_empty : (∅ : Dict κ ν).values = [] := rfl

variable [DecidableEq κ]

def get? (d : Dict κ ν) (k : κ) : Option ν := (d.items.find? (fun p => p.1 = k)).map Prod.snd

theorem mem_items_iff {d : Dict κ ν} {k : κ} {v : ν} : (k,v) ∈ d.items ↔ d.get? k = some v := by
  obtain ⟨l,hl⟩ := d
  simp only [get?]
  induction l with
  | nil => simp
  | cons p l ih =>
    obtain ⟨a,b⟩ := p
    simp only [List.map_cons,List.nodup_cons] at hl
    by_cases h : a = k
    · subst h
      have hn : (a,v) ∉ l := fun hm => hl.1 (List.mem_map.mpr ⟨_,hm,rfl⟩)
      simp [hn,eq_comm]
    · simp [h,Ne.symm h,ih hl.2]

theorem mem_values_iff {d : Dict κ ν} {v : ν} : v ∈ d.values ↔ ∃ k, d.get? k = some v := by
  simp only [values,List.mem_map,Prod.exists,mem_items_iff]
  constructor
  · rintro ⟨k,w,hw,rfl⟩; exact ⟨k,hw⟩
  · rintro ⟨k,hk⟩; exact ⟨k,v,hk,rfl⟩

theorem get?_eq_none_iff {d : Dict κ ν} {k : κ} :
    d.get? k = none ↔ k ∉ d.items.map Prod.fst := by
  simp only [get?,Option.map_eq_none_iff,List.find?_eq_none,List.mem_map,Prod.exists]
  constructor
  · rintro h ⟨a,b,hab,rfl⟩; exact h _ hab (by simp)
  · rintro h ⟨a,b⟩ hab he; exact h ⟨a,b,hab,by simpa using he⟩

@[simp] theorem get?_empty (k : κ) : (∅ : Dict κ ν).get? k = none := rfl

/-- Assigning to a key that is present keeps its place; a new key goes to the end. -/
def set (d : Dict κ ν) (k : κ) (v : ν) : Dict κ ν :=
  if h : k ∈ d.items.map Prod.fst then
    ⟨d.items.map (fun p => if p.1 = k then (k,v) else p),by
      have he : (d.items.map (fun p => if p.1 = k then (k,v) else p)).map Prod.fst =
          d.items.map Prod.fst := by
        rw [List.map_map]
        apply List.map_congr_left
        intro p _
        by_cases hp : p.1 = k <;> simp [hp]
      rw [he]
      exact d.nodup⟩
  else
    ⟨d.items ++ [(k,v)],by
      simp only [List.map_append,List.map_cons,List.map_nil]
      exact d.nodup.append (List.nodup_singleton k) (by simpa using h)⟩

/-- Removing a key; nothing happens when it is absent. -/
def erase (d : Dict κ ν) (k : κ) : Dict κ ν :=
  ⟨d.items.filter (fun p => p.1 ≠ k),d.nodup.sublist ((List.filter_sublist).map _)⟩

theorem items_set_of_fresh {d : Dict κ ν} {k : κ} (h : d.get? k = none) (v : ν) :
    (d.set k v).items = d.items ++ [(k,v)] := by
  rw [get?_eq_none_iff] at h
  simp only [set,h,dif_neg,not_false_eq_true]

theorem get?_set (d : Dict κ ν) (k : κ) (v : ν) (j : κ) :
    (d.set k v).get? j = if k = j then some v else d.get? j := by
  by_cases hk : k ∈ d.items.map Prod.fst
  · simp only [set,hk,dif_pos]
    by_cases hj : k = j
    · subst hj
      rw [if_pos rfl,← mem_items_iff]
      obtain ⟨p,hp,he⟩ := List.mem_map.mp hk
      exact List.mem_map.mpr ⟨p,hp,by simp [he]⟩
    · rw [if_neg hj]
      apply Option.ext
      intro w
      rw [← mem_items_iff,← mem_items_iff]
      simp only [List.mem_map]
      constructor
      · rintro ⟨p,hp,he⟩
        by_cases h : p.1 = k
        · rw [if_pos h] at he
          exact absurd (congrArg Prod.fst he) hj
        · rw [if_neg h] at he
          rwa [he] at hp
      · intro h
        exact ⟨(j,w),h,by simp [Ne.symm hj]⟩
  · have hf := items_set_of_fresh (get?_eq_none_iff.mpr hk) v
    have hn := get?_eq_none_iff.mpr hk
    simp only [get?,hf,List.find?_append] at hn ⊢
    by_cases hj : k = j
    · subst hj
      simp only [Option.map_eq_none_iff] at hn
      simp [hn]
    · simp [hj]

@[simp] theorem get?_set_self (d : Dict κ ν) (k : κ) (v : ν) : (d.set k v).get? k = some v := by
  simp [get?_set]

theorem get?_erase (d : Dict κ ν) (k j : κ) :
    (d.erase k).get? j = if k = j then none else d.get? j := by
  apply Option.ext
  intro w
  rw [← mem_items_iff]
  by_cases h : k = j
  · subst h; simp [erase]
  · rw [if_neg h,← mem_items_iff]
    simp [erase,Ne.symm h]

@[simp] theorem get?_erase_self (d : Dict κ ν) (k : κ) : (d.erase k).get? k = none := by
  simp [get?_erase]

/-- Distinct positions of the value list belong to distinct keys. -/
theorem values_pairwise {d : Dict κ ν} {R : ν → ν → Prop}
    (h : ∀ j k v w, j ≠ k → d.get? j = some v → d.get? k = some w → R v w) :
    d.values.Pairwise R := by
  have hp : d.items.Pairwise (fun p q => p.1 ≠ q.1) := List.pairwise_map.mp d.nodup
  rw [values,List.pairwise_map]
  refine hp.imp_of_mem ?_
  rintro ⟨j,v⟩ ⟨k,w⟩ hj hk hne
  exact h j k v w hne (mem_items_iff.mp hj) (mem_items_iff.mp hk)

end Dict
