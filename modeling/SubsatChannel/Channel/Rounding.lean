import Mathlib
import SubsatChannel.Channel.Obtained
import SubsatChannel.Lib.Apportionment

/-! The netting quantisation is a largest-remainder apportionment of the balances: it rounds fairly,
a payment never backfires at settlement, and no other settlement is closer to the balances. -/
namespace SubsatChannel
open Apportionment Finset

section Order
variable {remainders : List ℕ}

instance : Std.Total (remainderFirst remainders) := ⟨fun i j => by
  unfold remainderFirst
  omega⟩

instance : IsTrans ℕ (remainderFirst remainders) := ⟨fun i j l => by
  unfold remainderFirst
  omega⟩

instance : Std.Antisymm (remainderFirst remainders) := ⟨fun i j => by
  unfold remainderFirst
  omega⟩

end Order

section Shares
variable {s : State} {cfg : ChannelConfig} {n : ℕ}

/-- The balance of a party. -/
def State.balance (s : State) (i : ℕ) : ℕ := s.balances.getD i 0

/-- What the netting quantisation stands for: the share of each party when the balances are
apportioned in whole satoshis. -/
def State.share (s : State) (cfg : ChannelConfig) : ℕ → ℕ :=
  Apportionment.share (range cfg.n) cfg.k s.balance

theorem getD_map_mod (k i : ℕ) (l : List ℕ) : (l.map (· % k)).getD i 0 = l.getD i 0 % k := by
  have h := List.getD_map (l := l) (d := 0) (n := i) (f := (· % k))
  rwa [Nat.zero_mod] at h

theorem getD_map_div (k i : ℕ) (l : List ℕ) : (l.map (· / k)).getD i 0 = l.getD i 0 / k := by
  have h := List.getD_map (l := l) (d := 0) (n := i) (f := (· / k))
  rwa [Nat.zero_div] at h

theorem sum_range_eq_sum_map {M : Type*} [AddCommMonoid M] (f : ℕ → M) (n : ℕ) :
    ∑ i ∈ range n, f i = ((List.range n).map f).sum := rfl

theorem sum_range_balance (f : ℕ → ℕ) (h : s.balances.length = n) :
    ∑ i ∈ range n, f (s.balance i) = (s.balances.map f).sum := by
  have hmap : (List.range n).map (fun i => f (s.balance i)) = s.balances.map f := by
    conv_rhs => rw [← map_getD_range h,List.map_map]
    rfl
  rw [sum_range_eq_sum_map,hmap]

/-- The winners are the parties of the smallest ranks. -/
theorem mem_winners_iff (k R : ℕ) {i : ℕ} (hi : i < n) :
    i ∈ winners (s.balances.map (· % k)) R n ↔ rank (range n) k s.balance i < R := by
  have hbefore : ∀ j,remainderFirst (s.balances.map (· % k)) j i ∧ j ≠ i ↔
      Before k s.balance j i := by
    intro j
    simp only [remainderFirst,Before,getD_map_mod,State.balance]
    by_cases hij : j = i
    · subst hij
      omega
    · omega
  rw [winners,Ranking.mem_top_iff List.nodup_range (List.mem_range.mpr hi)]
  simp only [hbefore]
  rfl

/-- The units that the floors leave over. -/
theorem State.Conserving.leftover_eq (h : s.Conserving cfg) :
    cfg.S - (s.balances.map (· / cfg.k)).sum =
      Apportionment.leftover (range cfg.n) cfg.k s.balance := by
  have hsum := sum_div_add_sum_mod cfg.k s.balances
  rw [h.total] at hsum
  rw [Apportionment.leftover,sum_range_balance (· % cfg.k) h.length]
  refine (Nat.div_eq_of_eq_mul_right cfg.k_pos ?_).symm
  rw [Nat.mul_sub]
  omega

/-- Quantisation computes the shares. -/
theorem payouts_eq (h : s.Conserving cfg) : payouts s cfg = (List.range cfg.n).map (s.share cfg) := by
  refine List.map_congr_left fun i hi => ?_
  simp only [getD_map_div,mem_winners_iff _ _ (List.mem_range.mp hi),h.leftover_eq]
  rfl

theorem payouts_getD (h : s.Conserving cfg) {i : ℕ} (hi : i < cfg.n) :
    (payouts s cfg).getD i 0 = s.share cfg i := by
  rw [payouts_eq h,List.getD_eq_getElem _ _ (by simpa using hi),List.getElem_map,List.getElem_range]

theorem sum_share (h : s.Conserving cfg) : ∑ i ∈ range cfg.n, s.share cfg i = cfg.S := by
  rw [sum_range_eq_sum_map,← payouts_eq h,sum_payouts h]

end Shares

/-- The check raises only its own errors. -/
theorem State.conservationCheck_cases (s : State) (cfg : ChannelConfig) :
    s.conservationCheck cfg = .ok () ∨
    ∃ e : Fault,s.conservationCheck cfg = .error e ∧ e.kind = .accountingError := by
  unfold conservationCheck
  split_ifs
  · exact .inr ⟨_,rfl,rfl⟩
  · exact .inr ⟨_,rfl,rfl⟩
  · exact .inl rfl

/-- An accepted transfer takes its amount from the sender and gives it to the recipient. -/
theorem transfer_moved {s s' : State} {cfg : ChannelConfig} {i j delta : ℤ}
    (h : transfer s i j delta cfg = .ok s') : i.toNat < cfg.n ∧ j.toNat < cfg.n ∧
      i.toNat ≠ j.toNat ∧ Moved s.balance s'.balance i.toNat j.toNat delta.toNat := by
  unfold transfer at h
  split_ifs at h with hij hi hj hd
  split at h
  · rename_i a b ha hb
    split_ifs at h with hle
    obtain ⟨_,_,h⟩ := bind_eq_ok.mp h
    cases h
    have hne : i.toNat ≠ j.toNat := by omega
    obtain ⟨hia,rfl⟩ := List.getElem?_eq_some_iff.mp ha
    obtain ⟨hjb,rfl⟩ := List.getElem?_eq_some_iff.mp hb
    refine ⟨by omega,by omega,hne,?_,?_,fun l hl hl' => ?_⟩
    · simp [State.balance,hne.symm,hia]
      omega
    · simp [State.balance,hjb]
    · simp [State.balance,hl.symm,hl'.symm]
  · split_ifs at h
  · cases h

/-- Quantisation is a fair exact rounding: it succeeds for exactly the conserving allocations, pays
out the whole capacity, rounds every balance down or up, and keeps the order of the balances. -/
theorem quantise_fair (s : State) (cfg : ChannelConfig) :
    (s.conservationCheck cfg = .ok () → ∃ q,quantise s cfg = .ok q ∧ q.length = cfg.n ∧
      q.sum = cfg.S ∧
      (∀ i < cfg.n,(q.getD i 0 = s.balance i / cfg.k ∨ q.getD i 0 = s.balance i ⌈/⌉ cfg.k) ∧
        |(cfg.k * q.getD i 0 - s.balance i : ℤ)| < cfg.k ∧ (s.balance i = 0 → q.getD i 0 = 0)) ∧
      ∀ i < cfg.n,∀ j < cfg.n,
        (s.balance j < s.balance i ∨ s.balance i = s.balance j ∧ i < j) →
        q.getD j 0 ≤ q.getD i 0) ∧
    (s.conservationCheck cfg ≠ .ok () →
      ∃ e : Fault,quantise s cfg = .error e ∧ e.kind = .accountingError) := by
  constructor
  · intro hcheck
    have h := State.conservationCheck_ok_iff.mp hcheck
    refine ⟨payouts s cfg,quantise_eq h,length_payouts,sum_payouts h,fun i hi => ?_,
      fun i hi j hj hij => ?_⟩
    · rw [payouts_getD h hi]
      have hround := share_eq_floor_or_ceil (s := range cfg.n) (a := s.balance) (i := i) cfg.k_pos
      refine ⟨hround,abs_deviation_lt cfg.k_pos,fun hzero => ?_⟩
      rw [hzero,Nat.zero_div,zero_ceilDiv,or_self] at hround
      exact hround
    · rw [payouts_getD h hi,payouts_getD h hj]
      exact share_mono hij (mem_range.mpr hi)
  · intro hcheck
    obtain hok | ⟨e,he,hkind⟩ := s.conservationCheck_cases cfg
    · exact absurd hok hcheck
    · exact ⟨e,by rw [quantise,he]; rfl,hkind⟩

namespace Reference

/-- Three parties that share five satoshis of six micro-units each. -/
def threeParties : ChannelConfig where
  n := 3
  k := 6
  S := 5
  bonds := [1,1,1]
  L0 := 1
  delta := 1
  two_le_n := by decide
  k_pos := by decide
  S_pos := by decide
  bonds_length := rfl
  bonds_pos := by decide
  L0_pos := by decide
  delta_pos := by decide
  L0_lt := by decide

theorem conserving_threeParties : State.Conserving ⟨[4,9,17],0⟩ threeParties := ⟨rfl,rfl⟩

end Reference

/-- A payment never backfires at settlement. -/
theorem transfer_never_backfires {s s' : State} {cfg : ChannelConfig} {i j delta : ℤ}
    (h : s.Conserving cfg) (ht : transfer s i j delta cfg = .ok s') :
    ∃ q q',quantise s cfg = .ok q ∧ quantise s' cfg = .ok q' ∧
      q'.getD i.toNat 0 ≤ q.getD i.toNat 0 ∧ q.getD j.toNat 0 ≤ q'.getD j.toNat 0 ∧
      ∀ m < cfg.n,m ≠ i.toNat → m ≠ j.toNat → |(q'.getD m 0 - q.getD m 0 : ℤ)| ≤ 1 := by
  obtain ⟨hi,hj,hne,hmoved⟩ := transfer_moved ht
  have h' := (transfer_ok ht).1
  refine ⟨_,_,quantise_eq h,quantise_eq h',?_,?_,fun m hm hmi hmj => ?_⟩
  · rw [payouts_getD h hi,payouts_getD h' hi]
    exact hmoved.share_sender cfg.k_pos (mem_range.mpr hi) (mem_range.mpr hj) hne
  · rw [payouts_getD h hj,payouts_getD h' hj]
    exact hmoved.share_recipient cfg.k_pos (mem_range.mpr hi) (mem_range.mpr hj) hne
  · rw [payouts_getD h hm,payouts_getD h' hm]
    exact hmoved.share_others hmi hmj

/-- Six micro-units from the richest party to the poorest one. -/
theorem transfer_never_backfires_sample :
    ∃ q q',quantise ⟨[4,9,17],0⟩ Reference.threeParties = .ok q ∧
      quantise ⟨[10,9,11],1⟩ Reference.threeParties = .ok q' ∧
      q'.getD 2 0 ≤ q.getD 2 0 ∧ q.getD 0 0 ≤ q'.getD 0 0 ∧
      ∀ m < 3,m ≠ 2 → m ≠ 0 → |(q'.getD m 0 - q.getD m 0 : ℤ)| ≤ 1 := by
  have ht : transfer ⟨[4,9,17],0⟩ 2 0 6 Reference.threeParties = .ok ⟨[10,9,11],1⟩ := by decide
  exact transfer_never_backfires Reference.conserving_threeParties ht

/-- How far a settlement in whole satoshis is from the balances, in micro-units. -/
def deviation (s : State) (cfg : ChannelConfig) (p : List ℕ) : ℤ :=
  ((s.balances.zip p).map fun x => |(cfg.k * x.2 - x.1 : ℤ)|).sum

theorem deviation_eq {s : State} {cfg : ChannelConfig} {p : List ℕ} (h : s.Conserving cfg)
    (hp : p.length = cfg.n) :
    deviation s cfg p = ∑ i ∈ range cfg.n, |(cfg.k * p.getD i 0 - s.balance i : ℤ)| := by
  rw [sum_range_eq_sum_map,deviation]
  refine congrArg List.sum (List.ext_getElem ?_ fun i h₁ h₂ => ?_)
  · simp [h.length,hp]
  · simp only [List.length_map,List.length_range] at h₂
    have hi : i < s.balances.length := h.length ▸ h₂
    have hip : i < p.length := hp ▸ h₂
    simp [State.balance,hi,hip]

/-- No other settlement that pays out the whole capacity is closer to the balances. -/
theorem quantise_optimal {s : State} {cfg : ChannelConfig} (h : s.Conserving cfg) :
    ∃ q,quantise s cfg = .ok q ∧ ∀ p : List ℕ,p.length = cfg.n → p.sum = cfg.S →
      deviation s cfg q ≤ deviation s cfg p := by
  refine ⟨_,quantise_eq h,fun p hp hsum => ?_⟩
  have hpsum : ∑ i ∈ range cfg.n, p.getD i 0 = ∑ i ∈ range cfg.n, s.share cfg i := by
    rw [sum_share h,sum_range_eq_sum_map,map_getD_range hp,hsum]
  rw [deviation_eq h length_payouts,deviation_eq h hp]
  calc ∑ i ∈ range cfg.n, |(cfg.k * (payouts s cfg).getD i 0 - s.balance i : ℤ)|
      = ∑ i ∈ range cfg.n, |(cfg.k * s.share cfg i - s.balance i : ℤ)| :=
        sum_congr rfl fun i hi => by rw [payouts_getD h (mem_range.mp hi)]
    _ ≤ ∑ i ∈ range cfg.n, |(cfg.k * p.getD i 0 - s.balance i : ℤ)| :=
        sum_deviation_le cfg.k_pos hpsum

theorem quantise_optimal_sample :
    ∃ q,quantise ⟨[4,9,17],0⟩ Reference.threeParties = .ok q ∧
      ∀ p : List ℕ,p.length = 3 → p.sum = 5 →
        deviation ⟨[4,9,17],0⟩ Reference.threeParties q ≤
          deviation ⟨[4,9,17],0⟩ Reference.threeParties p :=
  quantise_optimal Reference.conserving_threeParties

end SubsatChannel
