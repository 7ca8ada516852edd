import SubsatChannel.Lib.PairwiseHash
import SubsatChannel.Reference

/-! What a merkle root commits to: lists of one length with the same root collide under the hash. -/
namespace SubsatChannel

section Strings
variable (B : Bitcoinx)

/-- The strings that are hashed in pairs of one level. -/
def pairStrings : List Bytes → List Bytes
  | a :: b :: rest => (a ++ b) :: pairStrings rest
  | _ => []

/-- The strings that `merkleLoop` hashes. -/
def loopStrings : ℕ → List Bytes → List Bytes
  | 0, _ => []
  | fuel+1, level =>
    if level.length ≤ 1 then []
    else pairStrings (if level.length % 2 = 1 then level ++ level.getLast?.toList else level) ++
      loopStrings fuel (merkleLevel B level)

/-- The strings hashed while computing a merkle root. -/
def merkleStrings (txids : List Bytes) : List Bytes :=
  if txids = [] then [] else loopStrings B txids.length txids

end Strings

section Loop
variable {B : Bitcoinx} {fuel : ℕ} {level : List Bytes}

/-- How two neighbours of a level are combined. -/
def hashPair (B : Bitcoinx) (a b : Bytes) : Bytes := B.doubleSha256 (a ++ b)

theorem merklePairs_eq (level : List Bytes) :
    merklePairs B level = (PairwiseHash.pairs level).map fun p => hashPair B p.1 p.2 := by
  induction level using PairwiseHash.pairs.induct with
  | case1 => rfl
  | case2 a => rfl
  | case3 a b rest ih =>
    rw [merklePairs,ih]
    rfl

theorem pairStrings_eq (level : List Bytes) :
    pairStrings level = (PairwiseHash.pairs level).map fun p => p.1 ++ p.2 := by
  induction level using PairwiseHash.pairs.induct with
  | case1 => rfl
  | case2 a => rfl
  | case3 a b rest ih =>
    rw [pairStrings,ih]
    rfl

theorem merkleLevel_eq (level : List Bytes) : merkleLevel B level = PairwiseHash.level (hashPair B) level :=
  merklePairs_eq _

/-- The level loop is an instance of combining in pairs. -/
theorem merkleLoop_eq : merkleLoop B fuel level = PairwiseHash.run (hashPair B) fuel level := by
  induction fuel generalizing level with
  | zero => rfl
  | succ fuel ih => rw [merkleLoop,PairwiseHash.run,ih,merkleLevel_eq]

theorem loopStrings_eq : loopStrings B fuel level =
    (PairwiseHash.combined (hashPair B) fuel level).map fun p => p.1 ++ p.2 := by
  induction fuel generalizing level with
  | zero => rfl
  | succ fuel ih =>
    rw [loopStrings,PairwiseHash.combined,ih,merkleLevel_eq,pairStrings_eq]
    by_cases hshort : level.length ≤ 1
    · rw [if_pos hshort,if_pos hshort]
      rfl
    · rw [if_neg hshort,if_neg hshort,List.map_append]
      rfl

/-- The loop of a list that is not empty leaves the root alone. -/
theorem merkleLoop_eq_singleton {txids : List Bytes} (hne : txids ≠ []) :
    merkleLoop B txids.length txids = [merkleRoot B txids] := by
  rw [merkleRoot,if_neg hne]
  have hone : (merkleLoop B txids.length txids).length ≤ 1 := by
    rw [merkleLoop_eq]
    exact PairwiseHash.length_run_le_one le_rfl
  have hsome : merkleLoop B txids.length txids ≠ [] := by
    rw [merkleLoop_eq]
    exact PairwiseHash.run_ne_nil hne
  cases hloop : merkleLoop B txids.length txids with
  | nil => exact absurd hloop hsome
  | cons root rest =>
    rw [hloop,List.length_cons] at hone
    obtain rfl := List.length_eq_zero_iff.mp (Nat.le_zero.mp (Nat.le_of_succ_le_succ hone))
    rfl

end Loop

/-- Two strings of 64 bytes, hashed for the roots of two lists, that show a collision of the hash. -/
def RootsCollide (B : Bitcoinx) (txids txids' : List Bytes) : Prop :=
  ∃ s ∈ merkleStrings B txids, ∃ s' ∈ merkleStrings B txids',
    s ≠ s' ∧ s.length = 64 ∧ s'.length = 64 ∧ B.doubleSha256 s = B.doubleSha256 s'

section Binding
variable {B : Bitcoinx} {txids txids' : List Bytes}

theorem rootsCollide (hsha : ∀ m, (B.doubleSha256 m).length = 32) (h32 : ∀ t ∈ txids, t.length = 32)
    (h32' : ∀ t ∈ txids', t.length = 32) (hlen : txids.length = txids'.length) (hne : txids ≠ txids')
    (hroot : merkleRoot B txids = merkleRoot B txids') : RootsCollide B txids txids' := by
  have hnil : txids ≠ [] := by
    rintro rfl
    exact hne (List.length_eq_zero_iff.mp hlen.symm).symm
  have hnil' : txids' ≠ [] := by
    rintro rfl
    exact hnil (List.length_eq_zero_iff.mp hlen)
  have hloop : PairwiseHash.run (hashPair B) txids.length txids =
      PairwiseHash.run (hashPair B) txids.length txids' := by
    have hrun := merkleLoop_eq_singleton (B := B) hnil'
    rw [← hroot,← merkleLoop_eq_singleton hnil,merkleLoop_eq,merkleLoop_eq,← hlen] at hrun
    exact hrun.symm
  obtain ⟨p,hp,q,hq,hpq,hcol⟩ := PairwiseHash.exists_collision hlen hne hloop
  obtain ⟨hp₁,hp₂⟩ := PairwiseHash.forall_combined (fun a b => hsha (a ++ b)) h32 p hp
  obtain ⟨hq₁,hq₂⟩ := PairwiseHash.forall_combined (fun a b => hsha (a ++ b)) h32' q hq
  refine ⟨p.1 ++ p.2,?_,q.1 ++ q.2,?_,?_,?_,?_,hcol⟩
  · rw [merkleStrings,if_neg hnil,loopStrings_eq]
    exact List.mem_map_of_mem hp
  · rw [merkleStrings,if_neg hnil',loopStrings_eq,← hlen]
    exact List.mem_map_of_mem hq
  · intro heq
    obtain ⟨h₁,h₂⟩ := List.append_inj heq (hp₁.trans hq₁.symm)
    exact hpq (Prod.ext h₁ h₂)
  · rw [List.length_append,hp₁,hp₂]
  · rw [List.length_append,hq₁,hq₂]

/-- Lists of one length are bound by their root up to a collision of the hash, and the level loop ends
for every list: enough passes leave one element at most, and further ones change nothing. -/
theorem merkle_root_binding {B : Bitcoinx} (hsha : ∀ m, (B.doubleSha256 m).length = 32) :
    (∀ txids txids' : List Bytes, (∀ t ∈ txids, t.length = 32) → (∀ t ∈ txids', t.length = 32) →
      txids.length = txids'.length → txids ≠ txids' → merkleRoot B txids = merkleRoot B txids' →
      RootsCollide B txids txids') ∧
    ∀ (level : List Bytes) fuel, level.length ≤ fuel → (merkleLoop B fuel level).length ≤ 1 ∧
      merkleLoop B fuel level = merkleLoop B level.length level := by
  refine ⟨fun txids txids' h32 h32' => rootsCollide hsha h32 h32',fun level fuel hfuel => ?_⟩
  rw [merkleLoop_eq,merkleLoop_eq]
  exact ⟨PairwiseHash.length_run_le_one hfuel,PairwiseHash.run_eq_run hfuel le_rfl⟩

open Reference in
/-- A hash under which everything collides: three txids and the same three in another order. -/
theorem merkle_root_binding_sample :
    RootsCollide { reference anyone with doubleSha256 := fun _ => List.replicate 32 0 }
      [List.replicate 32 1,List.replicate 32 2,List.replicate 32 3]
      [List.replicate 32 2,List.replicate 32 1,List.replicate 32 3] :=
  (merkle_root_binding fun _ => List.length_replicate).1 _ _ (by decide) (by decide) rfl (by decide)
    (by decide)

end Binding
end SubsatChannel
