import Mathlib
import SubsatChannel.Channel.Config
import SubsatChannel.Lib.Ranking

/-! Allocations of micro-units, transfers between them and the netting quantisation. -/
namespace SubsatChannel

/-- The whole-satoshi guard. A value that is not an integer cannot be written here. -/
def ensureWholeSatoshi (value : ℤ) : Except Fault ℤ :=
  if value < 0 then .error ⟨.fractionalSatoshiError,s!"satoshi value must be >= 0 (got {value})"⟩
  else .ok value

/-- The guard on every value of a list. -/
def ensureAllWhole : List ℤ → Except Fault Unit
  | [] => .ok ()
  | v :: vs =>
    match ensureWholeSatoshi v with
    | .error e => .error e
    | .ok _ => ensureAllWhole vs

@[simp] theorem ensureWholeSatoshi_natCast (n : ℕ) : ensureWholeSatoshi n = .ok (n : ℤ) := by
  simp [ensureWholeSatoshi]

theorem ensureAllWhole_of_nonneg {vs : List ℤ} (h : ∀ v ∈ vs, 0 ≤ v) : ensureAllWhole vs = .ok () := by
  induction vs with
  | nil => rfl
  | cons v vs ih =>
    have hv : ¬ v < 0 := not_lt.mpr (h v (by simp))
    rw [ensureAllWhole,ensureWholeSatoshi,if_neg hv]
    exact ih fun x hx => h x (by simp [hx])

@[simp] theorem ensureAllWhole_natCast (l : List ℕ) : ensureAllWhole (l.map Int.ofNat) = .ok () :=
  ensureAllWhole_of_nonneg (List.forall_mem_map.mpr fun n _ => Int.natCast_nonneg n)

/-- A channel allocation. Balances and version are not negative by their type. -/
structure State where
  balances : List ℕ
  version : ℕ
  deriving DecidableEq, Repr

namespace State

/-- `State(..)` with the checks of `__post_init__`. -/
def make (balances : List ℤ) (version : ℤ) : Except Fault State :=
  if version < 0 then .error ⟨.accountingError,s!"version must be >= 0 (got {version})"⟩
  else
    match balances.zipIdx.find? fun p => p.1 < 0 with
    | some (b,i) => .error ⟨.accountingError,s!"balance[{i}] must be >= 0 (got {b})"⟩
    | none => .ok ⟨balances.map Int.toNat,version.toNat⟩

/-- The values of a state pass the checks again. -/
theorem make_self (s : State) : make (s.balances.map Int.ofNat) s.version = .ok s := by
  have hb : (s.balances.map Int.ofNat).zipIdx.find? (fun p => p.1 < 0) = none := by
    refine List.find?_eq_none.mpr fun p hp => ?_
    obtain ⟨b,_,heq⟩ := List.mem_map.mp (List.fst_mem_of_mem_zipIdx hp)
    simp only [decide_eq_true_eq,← heq,Int.ofNat_eq_natCast]
    omega
  have hid : (s.balances.map Int.ofNat).map Int.toNat = s.balances := by
    rw [List.map_map]
    exact List.map_id _
  have hv : ¬ ((s.version : ℤ) < 0) := by omega
  simp only [make,if_neg hv,hb,hid,Int.toNat_natCast]

def totalMicro (s : State) : ℕ := s.balances.sum

def conservationCheck (s : State) (cfg : ChannelConfig) : Except Fault Unit :=
  if s.totalMicro ≠ cfg.k * cfg.S then .error ⟨.accountingError,
    s!"conservation violated: sum(a)={s.totalMicro} != k*S={cfg.k * cfg.S}"⟩
  else if s.balances.length ≠ cfg.n then .error ⟨.accountingError,
    s!"state has {s.balances.length} balances; cfg.n={cfg.n}"⟩
  else .ok ()

/-- The allocations that pass the check. -/
structure Conserving (s : State) (cfg : ChannelConfig) : Prop where
  total : s.balances.sum = cfg.k * cfg.S
  length : s.balances.length = cfg.n

theorem conservationCheck_ok_iff {s : State} {cfg : ChannelConfig} :
    s.conservationCheck cfg = .ok () ↔ s.Conserving cfg := by
  unfold conservationCheck totalMicro
  split_ifs with ht hl
  · simp only [false_iff]
    exact fun h => ht h.total
  · simp only [false_iff]
    exact fun h => hl h.length
  · simp only [true_iff]
    exact ⟨not_not.mp ht,not_not.mp hl⟩

theorem Conserving.check {s : State} {cfg : ChannelConfig} (h : s.Conserving cfg) :
    s.conservationCheck cfg = .ok () := conservationCheck_ok_iff.mpr h

end State

def initialState (cfg : ChannelConfig) (funderIndex : ℤ) : Except Fault State :=
  if ¬ (0 ≤ funderIndex ∧ funderIndex < cfg.n) then .error ⟨.accountingError,
    s!"funder_index {funderIndex} out of [0, {cfg.n})"⟩
  else do
    let s : State := ⟨(List.replicate cfg.n 0).set funderIndex.toNat (cfg.k * cfg.S),0⟩
    s.conservationCheck cfg
    .ok s

/-- Move `delta` micro-units from `sender` to `recipient`. -/
def transfer (state : State) (sender recipient delta : ℤ) (cfg : ChannelConfig) :
    Except Fault State :=
  if sender = recipient then .error ⟨.accountingError,"sender and recipient must differ"⟩
  else if ¬ (0 ≤ sender ∧ sender < cfg.n) then .error ⟨.accountingError,
    s!"sender {sender} out of [0, {cfg.n})"⟩
  else if ¬ (0 ≤ recipient ∧ recipient < cfg.n) then .error ⟨.accountingError,
    s!"recipient {recipient} out of [0, {cfg.n})"⟩
  else if delta < 0 then .error ⟨.accountingError,
    s!"delta must be a non-negative int (got {delta})"⟩
  else
    match state.balances[sender.toNat]?,state.balances[recipient.toNat]? with
    | some a,some b =>
      if (a : ℤ) < delta then .error ⟨.accountingError,
        s!"transfer of {delta} exceeds sender balance {a}"⟩
      else do
        let moved := (state.balances.set sender.toNat (a - delta.toNat)).set recipient.toNat
          (b + delta.toNat)
        let new : State := ⟨moved,state.version+1⟩
        new.conservationCheck cfg
        .ok new
    | some a,none =>
      if (a : ℤ) < delta then .error ⟨.accountingError,
        s!"transfer of {delta} exceeds sender balance {a}"⟩
      else .error ⟨.indexError,"list index out of range"⟩
    | none,_ => .error ⟨.indexError,"tuple index out of range"⟩

/-- `assert_conservation_over_sequence` -/
def applyTransfers (cfg : ChannelConfig) : State → List (ℤ × ℤ × ℤ) → Except Fault State
  | cur, [] => .ok cur
  | cur, (s,r,d) :: ops => do
    let next ← transfer cur s r d cfg
    next.conservationCheck cfg
    applyTransfers cfg next ops

def assertConservationOverSequence (initial : State) (transfers : List (ℤ × ℤ × ℤ))
    (cfg : ChannelConfig) : Except Fault State := do
  initial.conservationCheck cfg
  applyTransfers cfg initial transfers

section Quantise

/-- The order of the keys `(-remainders[i], i)`: the larger remainder first, then the smaller
index. -/
def remainderFirst (remainders : List ℕ) (i j : ℕ) : Prop :=
  remainders.getD j 0 < remainders.getD i 0 ∨ remainders.getD i 0 = remainders.getD j 0 ∧ i ≤ j

instance (remainders : List ℕ) : DecidableRel (remainderFirst remainders) := fun _ _ => by
  unfold remainderFirst
  infer_instance

/-- The parties that are paid one satoshi above their floor. -/
def winners (remainders : List ℕ) (R n : ℕ) : List ℕ :=
  Ranking.top (remainderFirst remainders) R (List.range n)

/-- The floors, with one satoshi more for each winner. -/
def netted (floors remainders : List ℕ) (R n : ℕ) : List ℕ :=
  (List.range n).map fun i => floors.getD i 0 + if i ∈ winners remainders R n then 1 else 0

/-- The netting quantisation `Q*`. -/
def quantise (state : State) (cfg : ChannelConfig) : Except Fault (List ℕ) := do
  state.conservationCheck cfg
  let floors := state.balances.map (· / cfg.k)
  let remainders := state.balances.map (· % cfg.k)
  let R : ℤ := cfg.S - (floors.sum : ℕ)
  if R < 0 ∨ cfg.n ≤ R then
    .error ⟨.accountingError,s!"netting invariant violated: R={R} not in [0, n={cfg.n})"⟩
  else
    let q := netted floors remainders R.toNat cfg.n
    if q.sum ≠ cfg.S then .error ⟨.accountingError,s!"Q* sum {q.sum} != S {cfg.S}"⟩
    else do
      ensureAllWhole (q.map Int.ofNat)
      .ok q

variable {s : State} {cfg : ChannelConfig}

/-- Division with remainder, summed over the balances. -/
theorem sum_div_add_sum_mod (k : ℕ) (l : List ℕ) :
    k * (l.map (· / k)).sum + (l.map (· % k)).sum = l.sum := by
  induction l with
  | nil => rfl
  | cons a l ih =>
    have ha := Nat.div_add_mod a k
    simp only [List.map_cons,List.sum_cons,Nat.mul_add]
    omega

theorem sum_mod_lt {k : ℕ} (hk : 0 < k) {l : List ℕ} (hl : l ≠ []) :
    (l.map (· % k)).sum < l.length * k := by
  induction l with
  | nil => exact absurd rfl hl
  | cons a l ih =>
    have ha := Nat.mod_lt a hk
    simp only [List.map_cons,List.sum_cons,List.length_cons,Nat.add_mul,Nat.one_mul]
    by_cases h : l = []
    · subst h
      simpa using ha
    · have := ih h
      omega

/-- What the floors leave over: the sum of the remainders is a number of whole satoshis, and it is
smaller than the number of parties. -/
theorem State.Conserving.leftover (h : s.Conserving cfg) :
    (s.balances.map (· / cfg.k)).sum ≤ cfg.S ∧
    cfg.S - (s.balances.map (· / cfg.k)).sum < cfg.n := by
  have hsum := sum_div_add_sum_mod cfg.k s.balances
  have hne : s.balances ≠ [] := by
    intro hnil
    have hlen := h.length
    rw [hnil] at hlen
    exact absurd cfg.two_le_n (by rw [← hlen]; simp)
  have hmod := sum_mod_lt cfg.k_pos hne
  rw [h.length] at hmod
  rw [h.total] at hsum
  have hle : (s.balances.map (· / cfg.k)).sum ≤ cfg.S :=
    Nat.le_of_mul_le_mul_left (by omega) cfg.k_pos
  refine ⟨hle,Nat.lt_of_mul_lt_mul_left (a := cfg.k) ?_⟩
  rw [Nat.mul_sub,Nat.mul_comm cfg.k cfg.n]
  omega

theorem map_getD_range {l : List ℕ} {n : ℕ} (h : l.length = n) :
    (List.range n).map (fun i => l.getD i 0) = l := by
  refine List.ext_getElem (by simp [h]) fun i h₁ h₂ => ?_
  rw [List.getElem_map,List.getElem_range,List.getD_eq_getElem _ _ h₂]

theorem sum_netted (floors remainders : List ℕ) {R n : ℕ} (hR : R ≤ n) (hn : floors.length = n) :
    (netted floors remainders R n).sum = floors.sum + R := by
  have hf : ((List.range n).map fun i => floors.getD i 0).sum = floors.sum := by
    rw [map_getD_range hn]
  have hw := Ranking.sum_top (r := remainderFirst remainders) (m := R) List.nodup_range
    (by rw [List.length_range]; exact hR : R ≤ (List.range n).length)
  rw [netted,List.sum_map_add,hf]
  exact congrArg _ hw

/-- What `quantise` pays the parties of a conserving allocation. -/
def payouts (s : State) (cfg : ChannelConfig) : List ℕ :=
  netted (s.balances.map (· / cfg.k)) (s.balances.map (· % cfg.k))
    (cfg.S - (s.balances.map (· / cfg.k)).sum) cfg.n

@[simp] theorem length_payouts : (payouts s cfg).length = cfg.n := by simp [payouts,netted]

theorem sum_payouts (h : s.Conserving cfg) : (payouts s cfg).sum = cfg.S := by
  obtain ⟨hle,hlt⟩ := h.leftover
  rw [payouts,sum_netted _ _ hlt.le (by rw [List.length_map]; exact h.length)]
  omega

/-- Quantisation returns for every conserving allocation. -/
theorem quantise_eq (h : s.Conserving cfg) : quantise s cfg = .ok (payouts s cfg) := by
  obtain ⟨hle,hlt⟩ := h.leftover
  have hR : (cfg.S - ((s.balances.map (· / cfg.k)).sum : ℕ) : ℤ) =
      ((cfg.S - (s.balances.map (· / cfg.k)).sum : ℕ) : ℤ) := by omega
  have hin : ¬ ((cfg.S - ((s.balances.map (· / cfg.k)).sum : ℕ) : ℤ) < 0 ∨
      (cfg.n : ℤ) ≤ cfg.S - ((s.balances.map (· / cfg.k)).sum : ℕ)) := by omega
  have hs := sum_payouts h
  simp only [quantise,h.check,bind,Except.bind,hin,if_false]
  rw [hR,Int.toNat_natCast]
  rw [payouts] at hs
  simp only [hs,ne_eq,not_true,if_false,ensureAllWhole_natCast,payouts]

end Quantise
end SubsatChannel
