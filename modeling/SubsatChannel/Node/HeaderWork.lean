import SubsatChannel.Reference

/-! The work of accepted headers, for every value of the compact target. -/
namespace SubsatChannel

/-- The number that a compact target stands for: a 23-bit magnitude in steps of 256 to the exponent
less three, with a sign bit. -/
def compactTarget (bits : ℕ) : ℤ :=
  let magnitude : ℕ := bits % 2^23 * 256^(bits / 2^24) / 256^3
  if bits.testBit 23 then -(magnitude : ℤ) else magnitude

theorem bitsToTarget_eq (bits : ℕ) : bitsToTarget bits = bits % 2^23 * 256^(bits / 2^24) / 256^3 := by
  have hmask : bits &&& 0x007FFFFF = bits % 2^23 := Nat.and_two_pow_sub_one_eq_mod bits 23
  have hexp : bits >>> 24 = bits / 2^24 := Nat.shiftRight_eq_div_pow bits 24
  simp only [bitsToTarget,hmask,hexp]
  generalize bits / 2^24 = exponent
  have hbyte : ∀ d,2^(8*d) = 256^d := fun d => pow_mul 2 8 d
  split_ifs with h
  · obtain ⟨d,hd⟩ := Nat.exists_eq_add_of_le h
    have hshift : 3-exponent = d := by omega
    rw [hshift,Nat.shiftRight_eq_div_pow,hbyte,hd,pow_add,Nat.mul_comm (256^exponent),
      Nat.mul_div_mul_right _ _ (by positivity)]
  · obtain ⟨d,rfl⟩ := Nat.exists_eq_add_of_le (show 3 ≤ exponent by omega)
    rw [Nat.add_sub_cancel_left,Nat.shiftLeft_eq,hbyte,pow_add,Nat.mul_comm (256^3),← Nat.mul_assoc,
      Nat.mul_div_cancel _ (by positivity)]

/-- The decoded target is the magnitude: the sign is dropped. -/
theorem compactTarget_eq (bits : ℕ) : compactTarget bits =
    if bits.testBit 23 then -(bitsToTarget bits : ℤ) else bitsToTarget bits := by
  rw [bitsToTarget_eq]
  rfl

theorem workForBits_pos_iff (bits : ℕ) :
    0 < workForBits bits ↔ 0 < bitsToTarget bits ∧ bitsToTarget bits < 2^256 := by
  unfold workForBits
  dsimp only
  split_ifs with h
  · omega
  · rw [Nat.div_pos_iff]
    omega

namespace HeaderStore

/-- The checks that `connect` makes of a header it does not know. -/
structure Passes (B : Bitcoinx) (hs : HeaderStore) (raw : Bytes) : Prop where
  fresh : hs.lookup (headerHash B raw) = none
  valid : ValidHeader B raw
  parent : ∃ parent,hs.lookup (rawPrevHash raw) = some parent

/-- The target of a header is a positive number of 256 bits. -/
def FitTarget (raw : Bytes) : Prop :=
  0 < compactTarget (rawBits raw) ∧ compactTarget (rawBits raw) < 2^256

theorem FitTarget.decoded {raw : Bytes} (h : FitTarget raw) :
    0 < bitsToTarget (rawBits raw) ∧ bitsToTarget (rawBits raw) < 2^256 := by
  unfold FitTarget at h
  rw [compactTarget_eq] at h
  split_ifs at h
  · omega
  · omega

/-- A new header that is accepted has a fit target and adds work, and so becomes the tip if it
extends it; a header without a fit target is refused and changes nothing. -/
structure AddsWork (B : Bitcoinx) (hs : HeaderStore) (raw : Bytes) : Prop where
  accepted : ∀ hs' hd,hs.lookup (headerHash B raw) = none → hs.connect B raw = (hs',.ok hd) →
    FitTarget raw ∧ ∃ parent,hs.lookup (rawPrevHash raw) = some parent ∧
      parent.cumulativeWork < hd.cumulativeWork ∧
      (rawPrevHash raw = hs.tipHash → hs'.tipHash = headerHash B raw)
  refused : hs.lookup (headerHash B raw) = none → ¬ FitTarget raw →
    ∃ e : Fault,hs.connect B raw = (hs,.error e) ∧ e.kind = .headerError

variable {B : Bitcoinx} {hs hs' : HeaderStore} {raw : Bytes} {hd parent : Header}

/-- A new header that fails a check is refused with a header error. -/
theorem connect_of_not_passes (hfresh : hs.lookup (headerHash B raw) = none)
    (h : ¬ hs.Passes B raw) : ∃ e : Fault,hs.connect B raw = (hs,.error e) ∧ e.kind = .headerError := by
  unfold connect
  split_ifs with hlen
  · exact ⟨_,rfl,rfl⟩
  simp only [hfresh]
  cases hp : hs.lookup (rawPrevHash raw) with
  | none => exact ⟨_,rfl,rfl⟩
  | some parent =>
    dsimp only
    split_ifs with htarget hpow
    · exact ⟨_,rfl,rfl⟩
    · exact ⟨_,rfl,rfl⟩
    · exact absurd ⟨hfresh,⟨not_not.mp hlen,by omega,by omega⟩,parent,hp⟩ h

/-- The header that `connect` stores below its parent, and the store before the tip is chosen. -/
def childOf (parent : Header) (raw : Bytes) : Header :=
  ⟨raw,parent.height+1,parent.cumulativeWork+workForBits (rawBits raw)⟩

def grown (B : Bitcoinx) (hs : HeaderStore) (parent : Header) (raw : Bytes) : HeaderStore :=
  { hs with byHash := hs.byHash.insert (headerHash B raw) (childOf parent raw) }

/-- The end of `connect`: the stored header becomes the tip if it has more work. -/
def chooseTip (B : Bitcoinx) (hs : HeaderStore) (new : Header) : HeaderStore × Except Fault Header :=
  match hs.tip with
  | none => (hs,.error ⟨.keyError,""⟩)
  | some tip => if tip.cumulativeWork < new.cumulativeWork
    then ({ hs with tipHash := headerHash B new.raw },.ok new) else (hs,.ok new)

/-- A new header that passes the checks is stored below its parent. -/
theorem connect_of_passes (h : hs.Passes B raw) (hp : hs.lookup (rawPrevHash raw) = some parent) :
    hs.connect B raw = (hs.grown B parent raw).chooseTip B (childOf parent raw) := by
  have htarget : ¬ bitsToTarget (rawBits raw) ≤ 0 := by
    have := h.valid.target
    omega
  have hpow : ¬ bitsToTarget (rawBits raw) < hashToInt (headerHash B raw) := by
    have := h.valid.pow
    omega
  have hlen : ¬ raw.length ≠ headerSize := not_not.mpr h.valid.length
  simp only [connect,if_neg hlen,h.fresh,hp,if_neg htarget,if_neg hpow]
  rfl

theorem chooseTip_byHash (hs : HeaderStore) (new : Header) :
    (hs.chooseTip B new).1.byHash = hs.byHash := by
  unfold chooseTip
  split
  · rfl
  · split_ifs <;> rfl

theorem chooseTip_ok {new : Header} (h : hs.chooseTip B new = (hs',.ok hd)) :
    hd = new ∧ ∃ tip,hs.tip = some tip ∧
      (tip.cumulativeWork < new.cumulativeWork → hs'.tipHash = headerHash B new.raw) := by
  unfold chooseTip at h
  split at h
  · cases h
  · rename_i tip htip
    split_ifs at h with hwork
    · cases h
      exact ⟨rfl,tip,htip,fun _ => rfl⟩
    · cases h
      exact ⟨rfl,tip,htip,fun hlt => absurd hlt hwork⟩

end HeaderStore

/-- Every new header that `connect` accepts adds work, and every header without a fit target is refused,
exactly when the target is fit or the header fails one of the checks that `connect` does make. -/
theorem header_adds_work_iff (B : Bitcoinx) (hs : HeaderStore) (raw : Bytes) :
    hs.AddsWork B raw ↔ HeaderStore.FitTarget raw ∨ ¬ hs.Passes B raw := by
  constructor
  · intro h
    by_contra hnot
    simp only [not_or,not_not] at hnot
    obtain ⟨hfit,hpass⟩ := hnot
    obtain ⟨parent,hp⟩ := hpass.parent
    obtain ⟨e,he,_⟩ := h.refused hpass.fresh hfit
    -- the header has been stored
    have hstored := congrArg (fun r => r.1.byHash) he
    rw [HeaderStore.connect_of_passes hpass hp,HeaderStore.chooseTip_byHash] at hstored
    have hlookup := hpass.fresh
    rw [HeaderStore.lookup,← hstored,HeaderStore.grown,Finmap.lookup_insert] at hlookup
    cases hlookup
  · intro h
    constructor
    · intro hs' hd hfresh hc
      have hpass : hs.Passes B raw := by
        by_contra hn
        obtain ⟨e,he,_⟩ := HeaderStore.connect_of_not_passes hfresh hn
        rw [he] at hc
        cases hc
      have hfit := h.resolve_right (not_not.mpr hpass)
      obtain ⟨parent,hp⟩ := hpass.parent
      rw [HeaderStore.connect_of_passes hpass hp] at hc
      obtain ⟨rfl,tip,htip,hbetter⟩ := HeaderStore.chooseTip_ok hc
      have hwork : parent.cumulativeWork < (HeaderStore.childOf parent raw).cumulativeWork :=
        Nat.lt_add_of_pos_right ((workForBits_pos_iff _).mpr hfit.decoded)
      refine ⟨hfit,parent,hp,hwork,fun hext => hbetter ?_⟩
      -- the tip is the parent
      rw [hext] at hp
      have hne : hs.tipHash ≠ headerHash B raw := by
        intro heq
        rw [heq,hfresh] at hp
        cases hp
      have htip' : (hs.grown B parent raw).tip = some parent :=
        (Finmap.lookup_insert_of_ne _ hne).trans hp
      rw [htip] at htip'
      cases htip'
      exact hwork
    · intro hfresh hfit
      exact HeaderStore.connect_of_not_passes hfresh (h.resolve_left hfit)

namespace Reference

/-- A header with the given bits on the genesis header of the sample node. -/
def headerWithBits (bits : ℕ) : Bytes :=
  (buildRawHeader regtestVersion (sampleNode anyone []).headers.tipHash (List.replicate 32 0) 0 bits
    0).toOption.getD []

end Reference

open Reference in
/-- The regtest target with the sign bit set is accepted as if it were positive; a target of more than
two thousand bits is accepted without adding work, and the tip stays. -/
theorem unfit_targets_accepted :
    compactTarget 0x20FFFFFF < 0 ∧ 2^256 ≤ compactTarget 0xFF7FFFFF ∧
    returned ((sampleNode anyone []).headers.connect (reference anyone) (headerWithBits 0x20FFFFFF)).2 =
      true ∧
    ((sampleNode anyone []).headers.connect (reference anyone) (headerWithBits 0xFF7FFFFF)).2.map
      Header.cumulativeWork = .ok (workForBits regtestBits) ∧
    ((sampleNode anyone []).headers.connect (reference anyone) (headerWithBits 0xFF7FFFFF)).1.tipHash =
      (sampleNode anyone []).headers.tipHash ∧
    ¬ (sampleNode anyone []).headers.AddsWork (reference anyone) (headerWithBits 0x20FFFFFF) ∧
    ¬ (sampleNode anyone []).headers.AddsWork (reference anyone) (headerWithBits 0xFF7FFFFF) := by
  have hneg : compactTarget 0x20FFFFFF < 0 := by decide +kernel
  have hbig : 2^256 ≤ compactTarget 0xFF7FFFFF := by decide +kernel
  have hbits : rawBits (headerWithBits 0x20FFFFFF) = 0x20FFFFFF ∧
      rawBits (headerWithBits 0xFF7FFFFF) = 0xFF7FFFFF := by decide +kernel
  have hfresh : (sampleNode anyone []).headers.lookup (headerHash (reference anyone)
      (headerWithBits 0x20FFFFFF)) = none ∧ (sampleNode anyone []).headers.lookup (headerHash
      (reference anyone) (headerWithBits 0xFF7FFFFF)) = none := by decide +kernel
  have haccepted : returned ((sampleNode anyone []).headers.connect (reference anyone)
      (headerWithBits 0x20FFFFFF)).2 = true := by decide +kernel
  have hwork : ((sampleNode anyone []).headers.connect (reference anyone)
      (headerWithBits 0xFF7FFFFF)).2.map Header.cumulativeWork = .ok (workForBits regtestBits) := by
    decide +kernel
  refine ⟨hneg,hbig,haccepted,hwork,by decide +kernel,fun h => ?_,fun h => ?_⟩
  · obtain ⟨e,he,_⟩ := h.refused hfresh.1 fun hfit => by
      have hpos := hfit.1
      rw [hbits.1] at hpos
      omega
    rw [he] at haccepted
    cases haccepted
  · obtain ⟨e,he,_⟩ := h.refused hfresh.2 fun hfit => by
      have hlt := hfit.2
      rw [hbits.2] at hlt
      omega
    rw [he] at hwork
    cases hwork

end SubsatChannel
