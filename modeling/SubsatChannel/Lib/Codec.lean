import SubsatChannel.Lib.LittleEndian

/-! Self-delimiting byte codecs. Each one carries its law: reading what was written gives back the
value and leaves the rest of the stream. -/

structure Codec (α : Type) where
  write : α → List UInt8
  read : List UInt8 → Option (α × List UInt8)
  read_write : ∀ a rest, read (write a ++ rest) = some (a,rest)

namespace Codec
variable {α β : Type}

/-- No value's bytes begin with the bytes of another value. -/
theorem prefix_free (c : Codec α) {a b : α} {s t : List UInt8}
    (h : c.write a ++ s = c.write b ++ t) : a = b ∧ s = t := by
  have hr := c.read_write a s
  rw [h,c.read_write] at hr
  simp only [Option.some.injEq,Prod.mk.injEq] at hr
  exact ⟨hr.1.symm,hr.2.symm⟩

theorem write_injective (c : Codec α) : Function.Injective c.write := fun a b h =>
  (c.prefix_free (s := []) (t := []) (by rw [h])).1

def byte : Codec UInt8 where
  write b := [b]
  read
    | [] => none
    | b :: rest => some (b,rest)
  read_write _ _ := rfl

/-- Read as many bytes as there are ones in front of the first zero. -/
def readNat (bs : List UInt8) : Option (ℕ × List UInt8) :=
  let n := (bs.takeWhile (· = 1)).length
  match bs.drop n with
  | 0 :: rest => if rest.length < n then none else some (LittleEndian.decode (rest.take n),rest.drop n)
  | _ => none

/-- The shortest little-endian bytes, after their number in unary. -/
def nat : Codec ℕ where
  write n := List.replicate (LittleEndian.minimal n).length 1 ++ 0 :: LittleEndian.minimal n
  read := readNat
  read_write n rest := by
    have ht : (List.replicate (LittleEndian.minimal n).length (1 : UInt8) ++
        0 :: (LittleEndian.minimal n ++ rest)).takeWhile (· = 1) =
        List.replicate (LittleEndian.minimal n).length 1 := by
      rw [List.takeWhile_append_of_pos (by simp)]
      simp
    simp [readNat,ht]

def pair (c : Codec α) (d : Codec β) : Codec (α × β) where
  write p := c.write p.1 ++ d.write p.2
  read bs := (c.read bs).bind fun p => (d.read p.2).map fun q => ((p.1,q.1),q.2)
  read_write p rest := by simp [c.read_write,d.read_write]

/-- Write a value as another one it can be rebuilt from. -/
def along (c : Codec α) (unpack : β → α) (pack : α → β) (h : ∀ b, pack (unpack b) = b) : Codec β where
  write b := c.write (unpack b)
  read bs := (c.read bs).map fun p => (pack p.1,p.2)
  read_write b rest := by simp [c.read_write,h]

def readMany (c : Codec α) : ℕ → List UInt8 → Option (List α × List UInt8)
  | 0, bs => some ([],bs)
  | n+1, bs => (c.read bs).bind fun p => (readMany c n p.2).map fun q => (p.1 :: q.1,q.2)

theorem readMany_flatMap (c : Codec α) (l : List α) (rest : List UInt8) :
    readMany c l.length (l.flatMap c.write ++ rest) = some (l,rest) := by
  induction l with
  | nil => rfl
  | cons a l ih => simp [readMany,c.read_write,ih]

def list (c : Codec α) : Codec (List α) where
  write l := nat.write l.length ++ l.flatMap c.write
  read bs := (nat.read bs).bind fun p => readMany c p.1 p.2
  read_write l rest := by simp [nat.read_write,readMany_flatMap]

/-- An integer as the difference of its positive and its negative part. -/
def int : Codec ℤ := (nat.pair nat).along (fun i => (i.toNat,(-i).toNat)) (fun p => p.1 - p.2)
  (by intro i; dsimp only; omega)

end Codec
