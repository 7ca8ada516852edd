import SubsatChannel.Channel.SpendConditions
import SubsatChannel.Node.Network

/-! Script numbers: no shorter string decodes to the same number, and the heights of coinbases and the
counts of scripts are written in the same way. -/
namespace SubsatChannel

section Bytes

theorem signBit_le {b : UInt8} (h : b &&& 0x80 ≠ 0) : 128 ≤ b.toNat := by
  have key : ∀ i : Fin 256, (UInt8.ofFin i &&& 0x80) ≠ 0 → 128 ≤ (UInt8.ofFin i).toNat := by
    decide +kernel
  exact key b.toFin h

theorem magnitude_lt (b : UInt8) : (b &&& 0x7F).toNat < 128 := by
  have key : ∀ i : Fin 256, (UInt8.ofFin i &&& 0x7F).toNat < 128 := by decide +kernel
  exact key b.toFin

/-- The sign bit halves what the bytes of a script number can hold. -/
theorem natAbs_decodeScriptNum_lt (front : Bytes) (b : UInt8) :
    (decodeScriptNum (front ++ [b])).natAbs < 128 * 256^front.length := by
  have habs : (decodeScriptNum (front ++ [b])).natAbs = LittleEndian.decode (front ++ [b &&& 0x7F]) := by
    rw [decodeScriptNum_concat]
    split_ifs
    · rw [Int.natAbs_neg,Int.natAbs_natCast]
    · rw [Int.natAbs_natCast]
  have hfront := LittleEndian.decode_lt front
  have htop : 256^front.length * (b &&& 0x7F).toNat ≤ 256^front.length * 127 :=
    Nat.mul_le_mul_left _ (Nat.le_of_lt_succ (magnitude_lt b))
  rw [habs,LittleEndian.decode_concat]
  omega

/-- An encoding is as short as its number is small, the byte for a sign included. -/
theorem pow_length_encodeScriptNum {n : ℤ} (hn : n ≠ 0) :
    256^(encodeScriptNum n).length ≤ 512 * n.natAbs := by
  have hmin := LittleEndian.pow_length_minimal (Int.natAbs_ne_zero.mpr hn)
  have hd := LittleEndian.decode_minimal n.natAbs
  cases List.eq_nil_or_concat (LittleEndian.minimal n.natAbs) with
  | inl hnil =>
    rw [hnil] at hd
    exact absurd (Int.natAbs_eq_zero.mp hd.symm) hn
  | inr hcons =>
    obtain ⟨front,last,hout⟩ := hcons
    rw [List.concat_eq_append] at hout
    rw [hout] at hd hmin
    have hlast : (front ++ [last]).getLast?.getD 0 = last := by simp
    simp only [encodeScriptNum,hn,if_false,hout,hlast]
    by_cases htop : last &&& 0x80 ≠ 0
    · -- The last byte alone makes the number at least `128 * 256^front.length`.
      have hbig : 256^front.length * 128 ≤ n.natAbs := by
        rw [LittleEndian.decode_concat] at hd
        have := Nat.mul_le_mul_left (256^front.length) (signBit_le htop)
        omega
      rw [if_pos htop,List.length_append,List.length_append,List.length_singleton,List.length_singleton,
        pow_add,pow_add]
      omega
    · rw [if_neg htop]
      have hlen : (if n < 0 then (front ++ [last]).dropLast ++ [last ||| 0x80] else front ++ [last]).length =
          (front ++ [last]).length := by
        split_ifs <;> simp
      rw [hlen]
      omega

/-- No shorter byte string decodes to the same number. -/
theorem length_encodeScriptNum_le (bs : Bytes) : (encodeScriptNum (decodeScriptNum bs)).length ≤ bs.length := by
  by_cases hz : decodeScriptNum bs = 0
  · rw [hz]
    exact Nat.zero_le _
  · cases List.eq_nil_or_concat bs with
    | inl hnil => exact absurd (by rw [hnil]; rfl) hz
    | inr hcons =>
      obtain ⟨front,b,rfl⟩ := hcons
      rw [List.concat_eq_append] at hz ⊢
      have hpow : 256^(encodeScriptNum (decodeScriptNum (front ++ [b]))).length < 256^(front.length+2) := by
        calc 256^(encodeScriptNum (decodeScriptNum (front ++ [b]))).length
            ≤ 512 * (decodeScriptNum (front ++ [b])).natAbs := pow_length_encodeScriptNum hz
          _ < 512 * (128 * 256^front.length) :=
            Nat.mul_lt_mul_of_pos_left (natAbs_decodeScriptNum_lt front b) (by decide)
          _ = 256^(front.length+2) := by ring
      have hlt := (Nat.pow_lt_pow_iff_right (by decide)).mp hpow
      rw [List.length_append,List.length_singleton]
      omega

theorem encodeScriptNum_injective : Function.Injective encodeScriptNum :=
  Function.LeftInverse.injective decodeScriptNum_encodeScriptNum

end Bytes

section Heights
variable {value value' : ℤ} {script script' : Script} {height height' : ℕ} {extra extra' : Bytes}

/-- `make_coinbase` writes heights as `_encode_script_num` writes counts. -/
theorem heightBytes_eq (height : ℕ) : heightBytes height = encodeScriptNum height := by
  by_cases hz : height = 0
  · rw [hz]
    rfl
  · have hne : (height : ℤ) ≠ 0 := by omega
    have hpos : ¬ (height : ℤ) < 0 := by omega
    simp only [heightBytes,encodeScriptNum,hz,hne,hpos,if_false,Int.natAbs_natCast]

/-- What the inputs of a transaction present. -/
def scriptSigs (tx : Tx) : List Script := tx.inputs.map TxInput.scriptSig

theorem scriptSigs_makeCoinbase : scriptSigs (makeCoinbase value script height extra) =
    [.push (heightBytes height) :: if extra = [] then [] else [.push extra]] := by
  unfold makeCoinbase scriptSigs
  split_ifs <;> rfl

theorem height_eq_of_scriptSigs (h : scriptSigs (makeCoinbase value script height extra) =
    scriptSigs (makeCoinbase value' script' height' extra')) : height = height' := by
  rw [scriptSigs_makeCoinbase,scriptSigs_makeCoinbase] at h
  have hpush := (List.cons.inj (List.cons.inj h).1).1
  have hbytes : heightBytes height = heightBytes height' := ScriptItem.push.inj hpush
  rw [heightBytes_eq,heightBytes_eq] at hbytes
  exact Int.natCast_inj.mp (encodeScriptNum_injective hbytes)

end Heights

/-- `push_count` appends one element to a script, and whenever that is executed it leaves an element on
the stack that decodes to the count. -/
def LeavesCount (n : ℤ) : Prop :=
  ∃ item element, (∀ script, pushCount script n = script ++ [item]) ∧ decodeScriptNum element = n ∧
    ∀ ctx (m : Machine), m.executing = true → stepItem ctx m item = some (m.push element)

theorem leavesCount (n : ℤ) : LeavesCount n := by
  unfold LeavesCount pushCount
  have hcount := decodeScriptNum_countElement n
  by_cases hn : 0 ≤ n ∧ n ≤ 16
  · refine ⟨.op (.opN n.toNat),countElement n,fun script => if_pos hn,hcount,fun ctx m hm => ?_⟩
    rw [countElement,if_pos hn,stepItem,if_pos hm]
    · rfl
    all_goals rintro ⟨⟩
  · refine ⟨.push (encodeScriptNum n),countElement n,fun script => if_neg hn,hcount,fun ctx m hm => ?_⟩
    rw [countElement,if_neg hn,stepItem,if_pos hm]

/-- Script numbers are read back, as short as possible and different for different numbers; coinbases
carry their height as one, and a count is left on the stack as one. -/
theorem script_numbers_exact :
    (∀ n, decodeScriptNum (encodeScriptNum n) = n) ∧
    (∀ n bs, decodeScriptNum bs = n → (encodeScriptNum n).length ≤ bs.length) ∧
    Function.Injective encodeScriptNum ∧
    (∀ height : ℕ, heightBytes height = encodeScriptNum height) ∧
    (∀ value value' script script' extra extra' height height', height ≠ height' →
      scriptSigs (makeCoinbase value script height extra) ≠
        scriptSigs (makeCoinbase value' script' height' extra')) ∧
    ∀ n, 0 ≤ n → LeavesCount n := by
  refine ⟨decodeScriptNum_encodeScriptNum,?_,encodeScriptNum_injective,heightBytes_eq,?_,fun n _ => leavesCount n⟩
  · rintro n bs rfl
    exact length_encodeScriptNum_le bs
  · intro value value' script script' extra extra' height height' hne heq
    exact hne (height_eq_of_scriptSigs heq)

end SubsatChannel
