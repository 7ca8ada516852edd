import Mathlib
import SubsatChannel.Lib.FinmapWeight

/-! The weight of a finite map as a sum over its keys, and lists that run through its entries. -/
namespace Finmap
variable {κ ν M : Type*} [DecidableEq κ] [AddCommMonoid M] (w : ν → M) (m : Finmap fun _ : κ => ν)

omit [AddCommMonoid M] in
theorem mem_entries_iff (s : Sigma fun _ : κ => ν) : s ∈ m.entries ↔ m.lookup s.1 = some s.2 := by
  induction m using Finmap.induction_on with
  | H a => exact AList.mem_lookup_iff.symm

/-- The weight is the sum over any keys among which those of the map with a weight are. -/
theorem weight_eq_sum {S : Finset κ} (h : ∀ k v, m.lookup k = some v → w v ≠ 0 → k ∈ S) :
    weight w m = ∑ k ∈ S, weightAt w m k := by
  have hkeys : weight w m = ∑ k ∈ m.keys, weightAt w m k := by
    have hat : m.entries.map (fun s => w s.2) = m.entries.map fun s => weightAt w m s.1 := by
      refine Multiset.map_congr rfl fun s hs => ?_
      exact (weightAt_of_lookup w m ((mem_entries_iff m s).mp hs)).symm
    rw [weight,hat]
    change _ = ((m.entries.map Sigma.fst).map (weightAt w m)).sum
    rw [Multiset.map_map]
    rfl
  rw [hkeys]
  refine Finset.sum_bij_ne_zero (fun k _ _ => k) (fun k hk hne => ?_) (fun _ _ _ _ _ _ he => he)
    (fun k _ hne => ⟨k,?_,hne,rfl⟩) fun _ _ _ => rfl
  · obtain ⟨v,hv⟩ := mem_iff.mp (mem_keys.mp hk)
    rw [weightAt_of_lookup w m hv] at hne
    exact h k v hv hne
  · by_contra hk
    exact hne (weightAt_of_none w m (lookup_eq_none.mpr fun hin => hk (mem_keys.mpr hin)))

omit m in
theorem sum_map_eq_sum_ite {l : List κ} (f : κ → M) (hl : l.Nodup) {S : Finset κ}
    (hsub : ∀ k ∈ l, k ∈ S) : (l.map f).sum = ∑ k ∈ S, if k ∈ l then f k else 0 := by
  have hfin : S ∩ l.toFinset = l.toFinset := by
    refine Finset.inter_eq_right.mpr fun k hk => hsub k (List.mem_toFinset.mp hk)
  rw [← List.sum_toFinset f hl,← hfin,← Finset.sum_ite_mem]
  exact Finset.sum_congr rfl fun k _ => by simp only [List.mem_toFinset]

/-- Taking some keys out and putting others in exchanges their weights. A key that is put in must not
have had a weight. -/
theorem weight_exchange {m' : Finmap fun _ : κ => ν} {new : κ → ν} {ins outs : List κ}
    (hins : ins.Nodup) (houts : outs.Nodup) (hput : ∀ k ∈ ins, m'.lookup k = some (new k))
    (htake : ∀ k ∈ outs, k ∉ ins → m'.lookup k = none)
    (hkeep : ∀ k ∉ ins, k ∉ outs → m'.lookup k = m.lookup k) (hfresh : ∀ k ∈ ins, weightAt w m k = 0) :
    weight w m' + (outs.map (weightAt w m)).sum = weight w m + (ins.map fun k => w (new k)).sum := by
  have hpoint : ∀ k, weightAt w m' k + (if k ∈ outs then weightAt w m k else 0) =
      weightAt w m k + if k ∈ ins then w (new k) else 0 := by
    intro k
    by_cases hin : k ∈ ins
    · simp [weightAt_of_lookup w m' (hput k hin),hin,hfresh k hin]
    · by_cases hout : k ∈ outs
      · simp [weightAt_of_none w m' (htake k hout hin),hin,hout]
      · simp [weightAt_congr w m' (hkeep k hin hout),hin,hout]
  let S := m.keys ∪ m'.keys ∪ ins.toFinset ∪ outs.toFinset
  have hkeys : ∀ n : Finmap fun _ : κ => ν, n.keys ⊆ S → weight w n = ∑ k ∈ S, weightAt w n k :=
    fun n hn => weight_eq_sum w n fun k v hv _ => hn (mem_keys.mpr (mem_iff.mpr ⟨v,hv⟩))
  rw [hkeys m' (by intro k hk; simp [S,hk]),hkeys m (by intro k hk; simp [S,hk]),
    sum_map_eq_sum_ite (weightAt w m) houts (S := S) (by intro k hk; simp [S,hk]),
    sum_map_eq_sum_ite (fun k => w (new k)) hins (S := S) (by intro k hk; simp [S,hk]),
    ← Finset.sum_add_distrib,← Finset.sum_add_distrib]
  exact Finset.sum_congr rfl fun k _ => hpoint k

omit m in
theorem sum_map_filter {σ : Type*} (s : Multiset σ) (f : σ → M) (p : σ → Prop) [DecidablePred p] :
    ((s.filter p).map f).sum = (s.map fun a => if p a then f a else 0).sum := by
  induction s using Multiset.induction_on with
  | empty => rfl
  | cons a s ih =>
    rw [Multiset.map_cons,Multiset.sum_cons,← ih]
    by_cases h : p a
    · rw [Multiset.filter_cons_of_pos _ h,Multiset.map_cons,Multiset.sum_cons,if_pos h]
    · rw [Multiset.filter_cons_of_neg _ h,if_neg h,zero_add]

/-- A list that runs through the entries with a property once each has their weight. -/
theorem sum_map_eq_weight {β : Type*} {l : List β} {entry : β → Sigma fun _ : κ => ν} {p : ν → Prop}
    [DecidablePred p] (hinj : Function.Injective entry) (hnodup : l.Nodup)
    (hmem : ∀ s : Sigma fun _ : κ => ν, (∃ b ∈ l, entry b = s) ↔ m.lookup s.1 = some s.2 ∧ p s.2) :
    (l.map fun b => w (entry b).2).sum = weight (fun v => if p v then w v else 0) m := by
  have hperm : ((l.map entry : List _) : Multiset (Sigma fun _ : κ => ν)) =
      m.entries.filter fun s => p s.2 := by
    refine (Multiset.Nodup.ext (Multiset.coe_nodup.mpr (hnodup.map hinj))
      (m.nodup_entries.filter _)).mpr fun s => ?_
    rw [Multiset.mem_coe,List.mem_map,hmem,Multiset.mem_filter,mem_entries_iff]
  have hsum := congrArg (fun s : Multiset (Sigma fun _ : κ => ν) => (s.map fun s => w s.2).sum) hperm
  simp only [Multiset.map_coe,List.map_map,Multiset.sum_coe,sum_map_filter] at hsum
  exact hsum

end Finmap
