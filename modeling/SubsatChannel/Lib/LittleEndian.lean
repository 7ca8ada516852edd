import Mathlib

/-! Little-endian byte strings of a fixed width. -/
namespace LittleEndian

/-- The `width` low-order bytes of `n`, least significant first. -/
def encode : ℕ → ℕ → List UInt8
  | 0, _ => []
  | width+1, n => UInt8.ofNat (n % 256) :: encode width (n / 256)

def decode : List UInt8 → ℕ
  | [] => 0
  | b :: bs => b.toNat + 256 * decode bs

@[simp] theorem encode_length (width n : ℕ) : (encode width n).length = width := by
  induction width generalizing n with
  | zero => rfl
  | succ width ih => simp [encode,ih]

theorem decode_encode (width n : ℕ) : decode (encode width n) = n % 256^width := by
  induction width generalizing n with
  | zero => simp [encode,decode,Nat.mod_one]
  | succ width ih =>
    have hb : (UInt8.ofNat (n % 256)).toNat = n % 256 := by
      simp
    rw [encode,decode,ih,hb,pow_succ,Nat.mul_comm (256^width) 256,Nat.mod_mul]

theorem decode_encode_of_lt {width n : ℕ} (h : n < 256^width) : decode (encode width n) = n := by
  rw [decode_encode,Nat.mod_eq_of_lt h]

theorem decode_append (a b : List UInt8) : decode (a ++ b) = decode a + 256^a.length * decode b := by
  induction a with
  | nil => simp [decode]
  | cons x a ih =>
    rw [List.cons_append,decode,ih,decode,List.length_cons]
    ring

theorem decode_concat (front : List UInt8) (b : UInt8) :
    decode (front ++ [b]) = decode front + 256^front.length * b.toNat := by
  rw [decode_append]
  simp [decode]

theorem decode_lt (bs : List UInt8) : decode bs < 256^bs.length := by
  induction bs with
  | nil => simp [decode]
  | cons b bs ih =>
    have hb := b.toNat_lt
    rw [decode,List.length_cons,pow_succ]
    omega

/-- The loop that emits the low byte of `n` and shifts it out until nothing is left. -/
def minimalAux : ℕ → ℕ → List UInt8
  | 0, _ => []
  | fuel+1, n => if n = 0 then [] else UInt8.ofNat (n % 256) :: minimalAux fuel (n / 256)

/-- The shortest little-endian byte string of `n`; empty for zero. -/
def minimal (n : ℕ) : List UInt8 := minimalAux n n

theorem decode_minimalAux {fuel n : ℕ} (h : n ≤ fuel) : decode (minimalAux fuel n) = n := by
  induction fuel generalizing n with
  | zero => simp [minimalAux,decode]; omega
  | succ fuel ih =>
    by_cases hn : n = 0
    · simp [minimalAux,hn,decode]
    · have hb : (UInt8.ofNat (n % 256)).toNat = n % 256 := by simp
      rw [minimalAux,if_neg hn,decode,hb,ih (by omega)]
      omega

theorem pow_length_minimalAux {fuel n : ℕ} (hn : n ≠ 0) (h : n ≤ fuel) :
    256^(minimalAux fuel n).length ≤ 256 * n := by
  induction fuel generalizing n with
  | zero => omega
  | succ fuel ih =>
    rw [minimalAux,if_neg hn,List.length_cons,pow_succ]
    by_cases hz : n / 256 = 0
    · have hnil : minimalAux fuel (n / 256) = [] := by
        rw [hz]
        cases fuel <;> simp [minimalAux]
      rw [hnil,List.length_nil]
      omega
    · have hrest := ih hz (by omega)
      omega

/-- The shortest byte string of a number has no leading zero. -/
theorem pow_length_minimal {n : ℕ} (hn : n ≠ 0) : 256^(minimal n).length ≤ 256 * n :=
  pow_length_minimalAux hn le_rfl

@[simp] theorem decode_minimal (n : ℕ) : decode (minimal n) = n := decode_minimalAux le_rfl

end LittleEndian
