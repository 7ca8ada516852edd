import Mathlib
import SubsatChannel.Bitcoinx

/-! Constants of the channel layer and the configuration of a channel. -/
namespace SubsatChannel

def sighashAllForkid : UInt8 := 0x41
def startSequence : ℕ := 0
def finalSequence : ℕ := 0xFFFFFFFF
def maxNonFinalSequence : ℕ := 0xFFFFFFFE
def defaultDelta : ℕ := 144
def defaultL0 : ℕ := 100000
def coopLocktime : ℕ := 0

theorem finalSequence_lt : finalSequence < 2^32 := by norm_num [finalSequence]

/-- From this value on a lock time is read as a time, not as a block height. -/
def locktimeThreshold : ℕ := 500000000

/-- The configuration of a channel. Its fields have passed the checks of `__post_init__`. -/
structure ChannelConfig where
  n : ℕ
  k : ℕ
  S : ℕ
  bonds : List ℕ
  L0 : ℕ
  delta : ℕ
  two_le_n : 2 ≤ n
  k_pos : 0 < k
  S_pos : 0 < S
  bonds_length : bonds.length = n
  bonds_pos : ∀ b ∈ bonds, 0 < b
  L0_pos : 0 < L0
  delta_pos : 0 < delta
  L0_lt : L0 < locktimeThreshold
  deriving DecidableEq

/-- The first bond below one satoshi, with its index. -/
def firstBadBond (bonds : List ℤ) : Option (ℤ × ℕ) := bonds.zipIdx.find? fun p => p.1 < 1

namespace ChannelConfig

/-- `ChannelConfig(..)` with the checks of `__post_init__`, in their order. -/
def make (n k S : ℤ) (bonds : List ℤ) (L0 delta : ℤ) : Except Fault ChannelConfig :=
  if hn : n < 2 then .error ⟨.configError,s!"n must be >= 2 (got {n})"⟩
  else if hk : k < 1 then .error ⟨.configError,s!"k must be >= 1 (got {k})"⟩
  else if hS : S < 1 then .error ⟨.configError,s!"S must be >= 1 (got {S})"⟩
  else if hl : (bonds.length : ℤ) ≠ n then
    .error ⟨.configError,s!"bonds tuple length {bonds.length} != n={n}"⟩
  else
    match hb : firstBadBond bonds with
    | some (b,i) => .error ⟨.configError,s!"bond[{i}] must be >= 1 (got {b})"⟩
    | none =>
      if hL : L0 < 1 then .error ⟨.configError,s!"L0 must be >= 1 (got {L0})"⟩
      else if hd : delta < 1 then .error ⟨.configError,s!"delta must be >= 1 (got {delta})"⟩
      else if ht : (locktimeThreshold : ℤ) ≤ L0 then .error
        ⟨.configError,"L0 must be below the BIP113 nLockTime height/time threshold"⟩
      else .ok
        { n := n.toNat, k := k.toNat, S := S.toNat, bonds := bonds.map Int.toNat
          L0 := L0.toNat, delta := delta.toNat
          two_le_n := by omega
          k_pos := by omega
          S_pos := by omega
          bonds_length := by rw [List.length_map]; omega
          bonds_pos := by
            intro b hmem
            obtain ⟨c,hc,rfl⟩ := List.mem_map.mp hmem
            obtain ⟨i,hi,rfl⟩ := List.getElem_of_mem hc
            have h := List.find?_eq_none.mp hb (bonds[i],i)
              (List.mk_mem_zipIdx_iff_getElem?.mpr (List.getElem?_eq_getElem hi))
            simp only [decide_eq_true_eq] at h
            omega
          L0_pos := by omega
          delta_pos := by omega
          L0_lt := by unfold locktimeThreshold at *; omega }

/-- What the checks let through is what was asked for. -/
theorem make_ok {n k S L0 delta : ℤ} {bonds : List ℤ} {cfg : ChannelConfig}
    (h : make n k S bonds L0 delta = .ok cfg) : cfg.n = n.toNat ∧ cfg.k = k.toNat ∧
      cfg.S = S.toNat ∧ cfg.bonds = bonds.map Int.toNat ∧ cfg.L0 = L0.toNat ∧
      cfg.delta = delta.toNat := by
  unfold make at h
  split_ifs at h
  all_goals split at h
  all_goals cases h
  exact ⟨rfl,rfl,rfl,rfl,rfl,rfl⟩

/-- The values of a configuration pass the checks again, with any other horizon that is a block
height. -/
theorem make_of_config (cfg : ChannelConfig) {L0 : ℤ} (hpos : 1 ≤ L0) (hlt : L0 < locktimeThreshold) :
    ∃ new, make cfg.n cfg.k cfg.S (cfg.bonds.map Int.ofNat) L0 cfg.delta = .ok new := by
  have hn := cfg.two_le_n
  have hk := cfg.k_pos
  have hS := cfg.S_pos
  have hd := cfg.delta_pos
  have hl := cfg.bonds_length
  have hb : firstBadBond (cfg.bonds.map Int.ofNat) = none := by
    refine List.find?_eq_none.mpr fun p hp => ?_
    obtain ⟨b,hmem,heq⟩ := List.mem_map.mp (List.fst_mem_of_mem_zipIdx hp)
    have hpos := cfg.bonds_pos b hmem
    simp only [decide_eq_true_eq,← heq,Int.ofNat_eq_natCast]
    omega
  cases hm : make cfg.n cfg.k cfg.S (cfg.bonds.map Int.ofNat) L0 cfg.delta with
  | ok new => exact ⟨new,rfl⟩
  | error e =>
    exfalso
    unfold make at hm
    rw [dif_neg (by omega),dif_neg (by omega),dif_neg (by omega),
      dif_neg (by rw [List.length_map]; omega)] at hm
    split at hm
    · rename_i hbad
      rw [hb] at hbad
      cases hbad
    · rw [dif_neg (by omega),dif_neg (by omega),dif_neg (by omega)] at hm
      cases hm

/-- A configuration is what its own values make. -/
theorem make_self (cfg : ChannelConfig) :
    make cfg.n cfg.k cfg.S (cfg.bonds.map Int.ofNat) cfg.L0 cfg.delta = .ok cfg := by
  have hpos := cfg.L0_pos
  obtain ⟨new,hnew⟩ := @make_of_config cfg cfg.L0 (by omega) (by exact_mod_cast cfg.L0_lt)
  obtain ⟨hn,hk,hS,hb,hL,hd⟩ := make_ok hnew
  simp only [Int.toNat_natCast,List.map_map] at hn hk hS hL hd hb
  have hid : cfg.bonds.map (Int.toNat ∘ Int.ofNat) = cfg.bonds := List.map_id _
  rw [hid] at hb
  rw [hnew]
  obtain ⟨n,k,S,bonds,L0,delta⟩ := cfg
  obtain ⟨n',k',S',bonds',L0',delta'⟩ := new
  simp only at hn hk hS hb hL hd
  subst hn hk hS hb hL hd
  rfl

/-- No configuration has a horizon that would be read as a time. -/
theorem make_of_late {n k S L0 delta : ℤ} {bonds : List ℤ} (h : (locktimeThreshold : ℤ) ≤ L0)
    (cfg : ChannelConfig) : make n k S bonds L0 delta ≠ .ok cfg := by
  intro hm
  have hlt := cfg.L0_lt
  have hL := (make_ok hm).2.2.2.2.1
  omega

/-- `uniform_bond` -/
def uniformBond (n k S bond L0 delta : ℤ) : Except Fault ChannelConfig :=
  make n k S (List.replicate n.toNat bond) L0 delta

/-- The satoshis a channel locks: its balance and all bonds. -/
def locked (cfg : ChannelConfig) : ℕ := cfg.S + cfg.bonds.sum

end ChannelConfig
end SubsatChannel
