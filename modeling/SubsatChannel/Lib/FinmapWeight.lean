import Mathlib

/-! Lists of insertions and erasures on a finite map, and the total weight of its values. -/
namespace Finmap
variable {κ ν M : Type*} [DecidableEq κ] [AddCommMonoid M]

/-- The sum of the weights of all values. -/
def weight (w : ν → M) (m : Finmap fun _ : κ => ν) : M := (m.entries.map fun s => w s.2).sum

/-- The weight held at one key; zero when the key is absent. -/
def weightAt (w : ν → M) (m : Finmap fun _ : κ => ν) (k : κ) : M := ((m.lookup k).map w).getD 0

variable (w : ν → M) (m : Finmap fun _ : κ => ν)

omit [DecidableEq κ] in
@[simp] theorem weight_empty : weight w (∅ : Finmap fun _ : κ => ν) = 0 := by
  change (Multiset.map _ (0 : Multiset (Sigma fun _ : κ => ν))).sum = 0
  rw [Multiset.map_zero,Multiset.sum_zero]

theorem weightAt_of_lookup {k : κ} {v : ν} (h : m.lookup k = some v) : weightAt w m k = w v := by
  simp [weightAt,h]

theorem weightAt_of_none {k : κ} (h : m.lookup k = none) : weightAt w m k = 0 := by
  simp [weightAt,h]

theorem weightAt_congr {m' : Finmap fun _ : κ => ν} {k : κ} (h : m.lookup k = m'.lookup k) :
    weightAt w m k = weightAt w m' k := by
  simp [weightAt,h]

omit [AddCommMonoid M] in
theorem insert_erase_of_lookup {k : κ} {v : ν} (h : m.lookup k = some v) :
    (m.erase k).insert k v = m := by
  apply ext_lookup
  intro j
  by_cases hj : j = k
  · subst hj; rw [lookup_insert,h]
  · rw [lookup_insert_of_ne _ hj,lookup_erase_ne hj]

omit [AddCommMonoid M] in
theorem erase_of_lookup_none {k : κ} (h : m.lookup k = none) : m.erase k = m := by
  apply ext_lookup
  intro j
  by_cases hj : j = k
  · subst hj; rw [lookup_erase,h]
  · rw [lookup_erase_ne hj]

theorem weight_insert_of_fresh {k : κ} (h : k ∉ m) (v : ν) :
    weight w (m.insert k v) = w v + weight w m := by
  rw [weight,weight,entries_insert_of_notMem h,Multiset.map_cons,Multiset.sum_cons]

theorem weight_erase (k : κ) : weight w (m.erase k) + weightAt w m k = weight w m := by
  cases hv : m.lookup k with
  | some v =>
    calc weight w (m.erase k) + weightAt w m k
        = w v + weight w (m.erase k) := by rw [weightAt_of_lookup w m hv,add_comm]
      _ = weight w ((m.erase k).insert k v) :=
          (weight_insert_of_fresh w (m.erase k) notMem_erase_self v).symm
      _ = weight w m := by rw [insert_erase_of_lookup m hv]
  | none => rw [erase_of_lookup_none m hv,weightAt_of_none w m hv,add_zero]

/-- Replacing the value at a key exchanges the old weight there for the new one. -/
theorem weight_insert (k : κ) (v : ν) :
    weight w (m.insert k v) + weightAt w m k = w v + weight w m := by
  have hi : (m.erase k).insert k v = m.insert k v := by
    apply ext_lookup
    intro j
    by_cases hj : j = k
    · subst hj; rw [lookup_insert,lookup_insert]
    · rw [lookup_insert_of_ne _ hj,lookup_insert_of_ne _ hj,lookup_erase_ne hj]
  rw [← hi,weight_insert_of_fresh w (m.erase k) notMem_erase_self,add_assoc,weight_erase]

/-- Erasing a list of keys, one after the other. -/
def eraseAll (ks : List κ) : Finmap fun _ : κ => ν := ks.foldl (fun acc k => acc.erase k) m

omit [AddCommMonoid M] in
@[simp] theorem eraseAll_nil : m.eraseAll [] = m := rfl
omit [AddCommMonoid M] in
@[simp] theorem eraseAll_cons (k : κ) (ks : List κ) :
    m.eraseAll (k :: ks) = (m.erase k).eraseAll ks := rfl

omit [AddCommMonoid M] in
theorem lookup_eraseAll (ks : List κ) (j : κ) :
    (m.eraseAll ks).lookup j = if j ∈ ks then none else m.lookup j := by
  induction ks generalizing m with
  | nil => simp
  | cons k ks ih =>
    rw [eraseAll_cons,ih]
    by_cases hk : j = k
    · subst hk; simp
    · simp [hk,lookup_erase_ne hk]

/-- Erasing a list takes away the weight at every listed key, provided that a key
listed twice has weight zero. -/
theorem weight_eraseAll (ks : List κ) (h : ∀ k, 2 ≤ ks.count k → weightAt w m k = 0) :
    weight w (m.eraseAll ks) + (ks.map (weightAt w m)).sum = weight w m := by
  induction ks generalizing m with
  | nil => simp
  | cons k ks ih =>
    have hsame : ∀ j ∈ ks, weightAt w (m.erase k) j = weightAt w m j := by
      intro j hj
      by_cases hjk : j = k
      · subst hjk
        have hc : 0 < ks.count j := List.count_pos_iff.mpr hj
        rw [weightAt_of_none w _ (lookup_erase j m),h j (by rw [List.count_cons_self]; omega)]
      · exact weightAt_congr w _ (lookup_erase_ne hjk)
    have hcount : ∀ j, 2 ≤ ks.count j → weightAt w (m.erase k) j = 0 := by
      intro j hj
      rw [hsame j (List.count_pos_iff.mp (by omega))]
      exact h j (hj.trans (List.count_le_count_cons))
    have hmap : ks.map (weightAt w (m.erase k)) = ks.map (weightAt w m) :=
      List.map_congr_left hsame
    rw [eraseAll_cons,List.map_cons,List.sum_cons,add_comm (weightAt w m k),← add_assoc,
      ← hmap,ih (m.erase k) hcount,weight_erase]

omit [AddCommMonoid M] in
theorem lookup_foldl_insert (v : ν) (ks : List κ) (j : κ) :
    (ks.foldl (fun d k => d.insert k v) m).lookup j = if j ∈ ks then some v else m.lookup j := by
  induction ks generalizing m with
  | nil => simp
  | cons k ks ih =>
    rw [List.foldl_cons,ih]
    by_cases hk : j = k
    · subst hk; simp
    · simp [hk,lookup_insert_of_ne]

omit [AddCommMonoid M] in
/-- Erasing the listed keys that hold a given value. -/
theorem lookup_foldl_erase_if [DecidableEq ν] (v : ν) (ks : List κ) (j : κ) :
    (ks.foldl (fun d k => if d.lookup k = some v then d.erase k else d) m).lookup j =
      if j ∈ ks ∧ m.lookup j = some v then none else m.lookup j := by
  induction ks generalizing m with
  | nil => simp
  | cons k ks ih =>
    rw [List.foldl_cons,ih]
    by_cases hk : j = k
    · subst hk
      by_cases hv : m.lookup j = some v <;> simp [hv]
    · have hs : (if m.lookup k = some v then m.erase k else m).lookup j = m.lookup j := by
        split_ifs
        · exact lookup_erase_ne hk
        · rfl
      simp [hk,hs]

end Finmap
