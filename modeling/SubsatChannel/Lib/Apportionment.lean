import Mathlib

/-! Largest-remainder apportionment: every party is given its weight over `k` rounded down, and the
units left over go to the largest remainders, with ties broken by an order of the parties. -/
namespace Apportionment
open Finset
variable {ι : Type*} (s : Finset ι) (k : ℕ) (a a' : ι → ℕ)

/-- The whole units that the rounded-down shares leave over. -/
def leftover : ℕ := (∑ i ∈ s, a i % k) / k

section Leftover
variable {s k a}

/-- The units left over are paid for by the remainders. -/
theorem leftover_mul_le : leftover s k a * k ≤ ∑ i ∈ s, a i % k := Nat.div_mul_le_self _ _

/-- There are at least as many parties with a remainder as units left over. -/
theorem leftover_le_card (hk : 0 < k) : leftover s k a ≤ #{j ∈ s | 0 < a j % k} := by
  have hsum : ∑ i ∈ s, a i % k ≤ #{j ∈ s | 0 < a j % k} * k := by
    calc ∑ i ∈ s, a i % k = ∑ i ∈ s with 0 < a i % k, a i % k := by
          refine (sum_filter_of_ne fun i _ hne => ?_).symm
          exact Nat.pos_of_ne_zero hne
      _ ≤ ∑ i ∈ s with 0 < a i % k, k := sum_le_sum fun i _ => (Nat.mod_lt _ hk).le
      _ = #{j ∈ s | 0 < a j % k} * k := by rw [sum_const,smul_eq_mul]
  exact Nat.le_of_mul_le_mul_right (leftover_mul_le.trans hsum) hk

end Leftover

/-- `d` is taken from the weight of `i` and given to `j`. -/
structure Moved (a a' : ι → ℕ) (i j : ι) (d : ℕ) : Prop where
  sender : a' i+d = a i
  recipient : a' j = a j+d
  others : ∀ l,l ≠ i → l ≠ j → a' l = a l

theorem Moved.symm {a a' : ι → ℕ} {i j : ι} {d : ℕ} (h : Moved a a' i j d) : Moved a' a j i d :=
  ⟨h.recipient.symm,h.sender.symm,fun l hj hi => (h.others l hi hj).symm⟩

variable [LinearOrder ι]

/-- `i` is served before `j`: its remainder is larger, or it is the same and `i` comes first. -/
def Before (i j : ι) : Prop := a j % k < a i % k ∨ a i % k = a j % k ∧ i < j

instance (i j : ι) : Decidable (Before k a i j) :=
  inferInstanceAs (Decidable (_ ∨ _ ∧ _))

/-- The number of parties that are served before `i`. -/
def rank (i : ι) : ℕ := #{j ∈ s | Before k a j i}

/-- The parties that are given one of the units left over. -/
def Wins (i : ι) : Prop := rank s k a i < leftover s k a

instance (i : ι) : Decidable (Wins s k a i) := inferInstanceAs (Decidable (_ < _))

def share (i : ι) : ℕ := a i / k + if Wins s k a i then 1 else 0

variable {s k a a'} {i j l : ι}

section Order

theorem not_before_self : ¬ Before k a i i := by
  rintro (h | ⟨-,h⟩)
  · exact lt_irrefl _ h
  · exact lt_irrefl _ h

theorem Before.trans (hij : Before k a i j) (hjl : Before k a j l) : Before k a i l := by
  obtain h | ⟨h,hlt⟩ := hij
  · obtain h' | ⟨h',-⟩ := hjl
    · exact .inl (h'.trans h)
    · exact .inl (h'.symm ▸ h)
  · obtain h' | ⟨h',hlt'⟩ := hjl
    · exact .inl (h.symm ▸ h')
    · exact .inr ⟨h.trans h',hlt.trans hlt'⟩

/-- Who is served before another has the smaller rank. -/
theorem rank_lt (h : Before k a i j) (hi : i ∈ s) : rank s k a i < rank s k a j := by
  apply card_lt_card
  rw [ssubset_iff_of_subset fun l hl => by
    simp only [mem_filter] at hl ⊢
    exact ⟨hl.1,hl.2.trans h⟩]
  refine ⟨i,mem_filter.mpr ⟨hi,h⟩,?_⟩
  simp only [mem_filter,not_and]
  exact fun _ => not_before_self

theorem Wins.of_before (h : Before k a i j) (hi : i ∈ s) (hj : Wins s k a j) : Wins s k a i :=
  (rank_lt h hi).trans hj

end Order

section Fair

theorem floor_le_share : a i / k ≤ share s k a i := Nat.le_add_right _ _

theorem share_le_floor_add_one : share s k a i ≤ a i / k+1 := by
  unfold share
  split_ifs <;> omega

/-- A party without a remainder is not given a unit: all parties with one come before it. -/
theorem Wins.remainder_pos (hk : 0 < k) (h : Wins s k a i) : 0 < a i % k := by
  by_contra hzero
  have hle : #{j ∈ s | 0 < a j % k} ≤ rank s k a i := by
    apply card_le_card
    intro j hj
    simp only [mem_filter] at hj ⊢
    exact ⟨hj.1,.inl (by omega)⟩
  have := leftover_le_card (s := s) (a := a) hk
  unfold Wins at h
  omega

/-- A share is the weight over `k`, rounded down or up. -/
theorem share_eq_floor_or_ceil (hk : 0 < k) :
    share s k a i = a i / k ∨ share s k a i = a i ⌈/⌉ k := by
  by_cases h : Wins s k a i
  · right
    have hpos := h.remainder_pos hk
    have hdiv := Nat.div_add_mod (a i) k
    have hlt := Nat.mod_lt (a i) hk
    rw [share,if_pos h,Nat.ceilDiv_eq_add_pred_div]
    refine (Nat.div_eq_of_lt_le ?_ ?_).symm
    · rw [Nat.add_mul,Nat.mul_comm]
      omega
    · rw [Nat.add_mul,Nat.add_mul,Nat.mul_comm]
      omega
  · left
    rw [share,if_neg h,Nat.add_zero]

/-- A share is less than one unit away from the weight. -/
theorem abs_deviation_lt (hk : 0 < k) : |(k * share s k a i - a i : ℤ)| < k := by
  have hdiv : (k : ℤ) * (a i / k : ℕ) + (a i % k : ℕ) = a i := by
    exact_mod_cast Nat.div_add_mod (a i) k
  have hlt := Nat.mod_lt (a i) hk
  by_cases h : Wins s k a i
  · have hpos := h.remainder_pos hk
    rw [share,if_pos h,Nat.cast_add,mul_add,abs_lt]
    constructor <;> push_cast at hdiv ⊢ <;> omega
  · rw [share,if_neg h,Nat.add_zero,abs_lt]
    constructor <;> omega

/-- The order of the weights, with ties broken by the parties, is kept by the shares. -/
theorem share_mono (h : a j < a i ∨ a i = a j ∧ i < j) (hi : i ∈ s) :
    share s k a j ≤ share s k a i := by
  have hdiv : a j / k ≤ a i / k := Nat.div_le_div_right (by omega)
  obtain hlt | heq := hdiv.lt_or_eq
  · exact share_le_floor_add_one.trans (hlt.trans_le floor_le_share)
  have hbefore : Before k a i j := by
    obtain hlt | ⟨hsame,hij⟩ := h
    · have hai := Nat.div_add_mod (a i) k
      have haj := Nat.div_add_mod (a j) k
      rw [heq] at haj
      exact .inl (by omega)
    · exact .inr ⟨by rw [hsame],hij⟩
  unfold share
  by_cases hw : Wins s k a j
  · rw [if_pos hw,if_pos (hw.of_before hbefore hi),heq]
  · rw [if_neg hw,heq]
    exact Nat.le_add_right _ _

end Fair

section Transfer
variable {d : ℕ}

theorem Before.shift (h : Before k a l i) (hl : a l % k ≤ a' l % k) (hi : a' i % k ≤ a i % k) :
    Before k a' l i := by
  obtain hlt | ⟨heq,hli⟩ := h
  · exact .inl (by omega)
  · by_cases hsame : a' i % k = a' l % k
    · exact .inr ⟨hsame.symm,hli⟩
    · exact .inl (by omega)

namespace Moved

/-- A party that takes no part keeps its share up to one unit. -/
theorem share_others (h : Moved a a' i j d) (hi : l ≠ i) (hj : l ≠ j) :
    |(share s k a' l - share s k a l : ℤ)| ≤ 1 := by
  have hfloor : a' l / k = a l / k := by rw [h.others l hi hj]
  have h₁ : a l / k ≤ share s k a l ∧ share s k a l ≤ a l / k+1 :=
    ⟨floor_le_share,share_le_floor_add_one⟩
  have h₂ : a' l / k ≤ share s k a' l ∧ share s k a' l ≤ a' l / k+1 :=
    ⟨floor_le_share,share_le_floor_add_one⟩
  rw [abs_le]
  omega

/-- When the floor of the sender stays, the number of units left over stays too, unless the
recipient's remainder wraps; then one unit less is left over. -/
theorem leftover_cases (h : Moved a a' i j d) (hk : 0 < k) (hi : i ∈ s) (hj : j ∈ s) (hne : i ≠ j)
    (hfloor : a' i / k = a i / k) :
    leftover s k a' = leftover s k a ∧ a j % k ≤ a' j % k ∨
    leftover s k a'+1 = leftover s k a := by
  have hsplit : ∀ b : ι → ℕ,∑ l ∈ s, b l % k =
      b i % k + (b j % k + ∑ l ∈ (s.erase i).erase j, b l % k) := by
    intro b
    rw [← add_sum_erase s (fun l => b l % k) hi,
      ← add_sum_erase (s.erase i) (fun l => b l % k) (mem_erase.mpr ⟨hne.symm,hj⟩)]
  have hrest : ∑ l ∈ (s.erase i).erase j, a' l % k = ∑ l ∈ (s.erase i).erase j, a l % k := by
    refine sum_congr rfl fun l hl => ?_
    simp only [mem_erase] at hl
    rw [h.others l hl.2.1 hl.1]
  have hsender : a' i % k+d = a i % k := by
    have h₁ := Nat.div_add_mod (a i) k
    have h₂ := Nat.div_add_mod (a' i) k
    have h₃ := h.sender
    rw [hfloor] at h₂
    omega
  have hlt := Nat.mod_lt (a i) hk
  have hd : d % k = d := Nat.mod_eq_of_lt (by omega)
  have hrecipient := Nat.add_mod_eq_ite (m := a j) (n := d) (k := k)
  rw [← h.recipient,hd] at hrecipient
  split_ifs at hrecipient with hwrap
  · right
    have hsum : ∑ l ∈ s, a l % k = ∑ l ∈ s, a' l % k+k := by
      rw [hsplit a,hsplit a',hrest]
      omega
    rw [leftover,leftover,hsum,Nat.add_div_right _ hk]
  · left
    have hsum : ∑ l ∈ s, a l % k = ∑ l ∈ s, a' l % k := by
      rw [hsplit a,hsplit a',hrest]
      omega
    exact ⟨by rw [leftover,leftover,hsum],by omega⟩

/-- The share of the sender does not rise. Its own remainder can only fall, so everyone who came
before it still does, except perhaps the recipient; and where the recipient's remainder wraps, one
unit less is left over as well. -/
theorem share_sender (h : Moved a a' i j d) (hk : 0 < k) (hi : i ∈ s) (hj : j ∈ s) (hne : i ≠ j) :
    share s k a' i ≤ share s k a i := by
  have hle : a' i ≤ a i := by
    have := h.sender
    omega
  obtain hlt | hfloor := (Nat.div_le_div_right (c := k) hle).lt_or_eq
  · exact share_le_floor_add_one.trans (hlt.trans_le floor_le_share)
  have hmod : a' i % k ≤ a i % k := by
    have h₁ := Nat.div_add_mod (a i) k
    have h₂ := Nat.div_add_mod (a' i) k
    rw [hfloor] at h₂
    omega
  have hstay : ∀ l,l ≠ j → Before k a l i → Before k a' l i := by
    intro l hlj hl
    have hli : l ≠ i := by
      rintro rfl
      exact not_before_self hl
    exact hl.shift (by rw [h.others l hli hlj]) hmod
  have hwins : Wins s k a' i → Wins s k a i := by
    intro hw
    unfold Wins at hw ⊢
    obtain ⟨hsame,hrec⟩ | hless := h.leftover_cases hk hi hj hne hfloor
    · have hrank : rank s k a i ≤ rank s k a' i := by
        refine card_le_card fun l hl => ?_
        obtain ⟨hls,hl⟩ := mem_filter.mp hl
        refine mem_filter.mpr ⟨hls,?_⟩
        by_cases hlj : l = j
        · subst hlj
          exact hl.shift hrec hmod
        · exact hstay l hlj hl
      omega
    · have hrank : rank s k a i ≤ rank s k a' i+1 := by
        refine (card_le_card fun l hl => ?_).trans (card_insert_le j _)
        obtain ⟨hls,hl⟩ := mem_filter.mp hl
        by_cases hlj : l = j
        · exact mem_insert.mpr (.inl hlj)
        · exact mem_insert_of_mem (mem_filter.mpr ⟨hls,hstay l hlj hl⟩)
      omega
  unfold share
  rw [hfloor]
  by_cases hw : Wins s k a' i
  · rw [if_pos hw,if_pos (hwins hw)]
  · rw [if_neg hw]
    exact Nat.le_add_right _ _

/-- The share of the recipient does not fall. -/
theorem share_recipient (h : Moved a a' i j d) (hk : 0 < k) (hi : i ∈ s) (hj : j ∈ s)
    (hne : i ≠ j) : share s k a j ≤ share s k a' j :=
  h.symm.share_sender hk hj hi hne.symm

end Moved
end Transfer

section Optimal

/-- A line under the distance from a multiple of `k`: with `x` the signed deviation of the share and
`c` its slope, a change of `d` units costs at least `c` times `d`. -/
theorem deviation_tangent {x c d : ℤ} {k : ℤ} (h₀ : -k ≤ c) (h₁ : c ≤ k) (hpos : 0 ≤ x → 2*x-k ≤ c)
    (hneg : x ≤ 0 → c ≤ k+2*x) : |x|+c*d ≤ |x+k*d| := by
  have hup : x+k*d ≤ |x+k*d| := le_abs_self _
  have hdown : -(x+k*d) ≤ |x+k*d| := neg_le_abs _
  obtain hx | hx := le_total 0 x
  · rw [abs_of_nonneg hx]
    have hc := hpos hx
    obtain hd | hd : 0 ≤ d ∨ d ≤ -1 := by omega
    · nlinarith
    · nlinarith
  · rw [abs_of_nonpos hx]
    have hc := hneg hx
    obtain hd | hd : d ≤ 0 ∨ 1 ≤ d := by omega
    · nlinarith
    · nlinarith

/-- Between the remainders of the losers and those of the winners there is a threshold. -/
theorem exists_threshold (hk : 0 < k) : ∃ t ≤ k,(∀ i ∈ s,¬ Wins s k a i → a i % k ≤ t) ∧
    ∀ i ∈ s,Wins s k a i → t ≤ a i % k := by
  refine ⟨({i ∈ s | ¬ Wins s k a i}).sup fun i => a i % k,?_,?_,?_⟩
  · exact Finset.sup_le fun i _ => (Nat.mod_lt _ hk).le
  · intro i hi hl
    exact Finset.le_sup (f := fun i => a i % k) (mem_filter.mpr ⟨hi,hl⟩)
  · intro i hi hw
    refine Finset.sup_le fun j hj => ?_
    obtain ⟨hjs,hjl⟩ := mem_filter.mp hj
    have hne : i ≠ j := by
      rintro rfl
      exact hjl hw
    by_contra hlt
    exact hjl (hw.of_before (.inl (not_le.mp hlt)) hjs)

/-- No other vector of whole units with the same sum is closer to the weights. The common slope of
the parties' deviations at their shares is `k - 2t`, where `t` is the threshold. -/
theorem sum_deviation_le (hk : 0 < k) {p : ι → ℕ} (hp : ∑ i ∈ s, p i = ∑ i ∈ s, share s k a i) :
    ∑ i ∈ s, |(k * share s k a i - a i : ℤ)| ≤ ∑ i ∈ s, |(k * p i - a i : ℤ)| := by
  obtain ⟨t,htk,hlose,hwin⟩ := exists_threshold (s := s) (a := a) hk
  have hparty : ∀ i ∈ s,|(k * share s k a i - a i : ℤ)|+(k-2*t)*(p i-share s k a i) ≤
      |(k * p i - a i : ℤ)| := by
    intro i hi
    have hdiv : (k : ℤ)*(a i / k : ℕ)+(a i % k : ℕ) = a i := by
      exact_mod_cast Nat.div_add_mod (a i) k
    have hlt := Nat.mod_lt (a i) hk
    have hx : (k * p i - a i : ℤ) = (k * share s k a i - a i)+k*(p i-share s k a i) := by ring
    rw [hx]
    by_cases hw : Wins s k a i
    · have ht := hwin i hi hw
      have hshare : (k * share s k a i - a i : ℤ) = k-(a i % k : ℕ) := by
        rw [share,if_pos hw,Nat.cast_add,mul_add]
        omega
      rw [hshare]
      exact deviation_tangent (by omega) (by omega) (fun _ => by omega) fun _ => by omega
    · have ht := hlose i hi hw
      have hshare : (k * share s k a i - a i : ℤ) = -(a i % k : ℕ) := by
        rw [share,if_neg hw,Nat.add_zero]
        omega
      rw [hshare]
      exact deviation_tangent (by omega) (by omega) (fun _ => by omega) fun _ => by omega
  have hzero : ∑ i ∈ s, ((k : ℤ)-2*t)*(p i-share s k a i) = 0 := by
    rw [← mul_sum,sum_sub_distrib,← Nat.cast_sum,← Nat.cast_sum,hp,sub_self,mul_zero]
  calc ∑ i ∈ s, |(k * share s k a i - a i : ℤ)|
      = ∑ i ∈ s, (|(k * share s k a i - a i : ℤ)|+(k-2*t)*(p i-share s k a i)) := by
        rw [sum_add_distrib,hzero,add_zero]
    _ ≤ ∑ i ∈ s, |(k * p i - a i : ℤ)| := sum_le_sum hparty

end Optimal
end Apportionment
