import SubsatChannel.Lib.ByteStream

/-! Readers with a log of the elements they read, and how long that log can get. -/
namespace ByteStream

/-- A run of a reader: for every element whose reading was begun, whether it was read in full. -/
structure LoggedRun (ε α : Type) where
  log : List Bool
  result : Except ε (α × List UInt8)

def LoggedReader (ε α : Type) := List UInt8 → LoggedRun ε α

namespace LoggedReader
variable {ε α β : Type}

/-- A reader of something that is not an element. -/
def silent (read : Reader ε α) : LoggedReader ε α := fun buf => ⟨[],read buf⟩

/-- A reader of one element, which is whole when the predicate says so. -/
def element (whole : α → Bool) (read : Reader ε α) : LoggedReader ε α := fun buf =>
  match read buf with
  | .error e => ⟨[false],.error e⟩
  | .ok (a,rest) => ⟨[whole a],.ok (a,rest)⟩

def bind (c : LoggedReader ε α) (next : α → LoggedReader ε β) : LoggedReader ε β := fun buf =>
  match (c buf).result with
  | .error e => ⟨(c buf).log,.error e⟩
  | .ok (a,rest) => ⟨(c buf).log ++ (next a rest).log,(next a rest).result⟩

instance : Monad (LoggedReader ε) where
  pure a := silent (pure a)
  bind := bind

/-- Read a number of elements one after the other. -/
def many (c : LoggedReader ε α) : ℕ → LoggedReader ε (List α)
  | 0 => pure []
  | n+1 => do
    let a ← c
    let as ← many c n
    pure (a :: as)

/-- Without its log the reader is this one. -/
def Erases (c : LoggedReader ε α) (read : Reader ε α) : Prop := ∀ buf, (c buf).result = read buf

section Erasure
variable {c : LoggedReader ε α} {read : Reader ε α} {next : α → LoggedReader ε β} {rear : α → Reader ε β}

theorem Erases.silent (read : Reader ε α) : Erases (silent read) read := fun _ => rfl

theorem Erases.element (whole : α → Bool) (read : Reader ε α) : Erases (element whole read) read := by
  intro buf
  rw [LoggedReader.element]
  cases hr : read buf with
  | error e => rfl
  | ok r => rfl

theorem Erases.bind (hc : Erases c read) (hnext : ∀ a, Erases (next a) (rear a)) :
    Erases (c >>= next) (read >>= rear) := by
  intro buf
  change (LoggedReader.bind c next buf).result = (read buf).bind fun r => rear r.1 r.2
  rw [LoggedReader.bind,hc buf]
  cases hr : read buf with
  | error e => rfl
  | ok r => exact hnext r.1 r.2

theorem Erases.many (hc : Erases c read) (n : ℕ) : Erases (many c n) (ByteStream.many read n) := by
  induction n with
  | zero => exact Erases.silent (pure [])
  | succ n ih => exact hc.bind fun a => ih.bind fun as => Erases.silent (pure (a :: as))

end Erasure

section Log
variable {c : LoggedReader ε α} {read : Reader ε α} {next : α → LoggedReader ε β} {buf rest : List UInt8} {a : α}

theorem log_silent_error {e : ε} (h : read buf = .error e) : ((silent read >>= next) buf).log = [] := by
  change (LoggedReader.bind (silent read) next buf).log = []
  simp only [LoggedReader.bind,silent,h]

theorem log_silent (h : read buf = .ok (a,rest)) : ((silent read >>= next) buf).log = (next a rest).log := by
  change (LoggedReader.bind (silent read) next buf).log = _
  simp only [LoggedReader.bind,silent,h,List.nil_append]

/-- What follows in silence adds nothing to the log. -/
theorem log_bind_silent (h : ∀ a rest, (next a rest).log = []) : ((c >>= next) buf).log = (c buf).log := by
  change (LoggedReader.bind c next buf).log = _
  rw [LoggedReader.bind]
  cases hc : (c buf).result with
  | error e => rfl
  | ok r => simp only [h,List.append_nil]

theorem log_many_error {whole : α → Bool} {e : ε} (h : read buf = .error e) (n : ℕ) :
    (many (element whole read) (n+1) buf).log = [false] := by
  change (LoggedReader.bind (element whole read) _ buf).log = _
  simp only [LoggedReader.bind,element,h]

theorem log_many {whole : α → Bool} (h : read buf = .ok (a,rest)) (n : ℕ) :
    (many (element whole read) (n+1) buf).log = whole a :: (many (element whole read) n rest).log := by
  have htail : ((many (element whole read) n >>= fun as => (pure (a :: as) : LoggedReader ε (List α))) rest).log =
      (many (element whole read) n rest).log := log_bind_silent fun _ _ => rfl
  change (LoggedReader.bind (element whole read) _ buf).log = _
  simp only [LoggedReader.bind,element,h,htail,List.singleton_append]

end Log
end LoggedReader

/-- Every element that was begun, but the last, was read in full. -/
def StopsAtShort (log : List Bool) : Prop := ∀ i, i+1 < log.length → log[i]? = some true

/-- A successful read takes at least so many bytes off the stream. -/
def Takes {ε α : Type} (k : ℕ) (read : Reader ε α) : Prop :=
  ∀ buf a rest, read buf = .ok (a,rest) → rest.length + k ≤ buf.length

section Bounds
open LoggedReader (element log_many log_many_error)
variable {ε α β : Type} {j k : ℕ} {read : Reader ε α} {next : α → Reader ε β}

theorem Takes.pure (a : α) : Takes 0 (pure a : Reader ε α) := by
  intro buf b rest h
  cases h
  exact le_rfl

theorem Takes.take (n : ℕ) : Takes 0 (take n : Reader ε (List UInt8)) := by
  intro buf a rest h
  cases h
  rw [List.length_drop]
  omega

theorem Takes.bind (hread : Takes j read) (hnext : ∀ a, Takes k (next a)) : Takes (j+k) (read >>= next) := by
  intro buf b rest h
  change (read buf).bind (fun r => next r.1 r.2) = _ at h
  cases hr : read buf with
  | error e =>
    rw [hr] at h
    cases h
  | ok r =>
    rw [hr] at h
    have hfirst := hread buf r.1 r.2 hr
    have hsecond := hnext r.1 r.2 b rest h
    omega

/-- Elements that are read whole or not at all: the loop stops at the first that is not. -/
theorem stopsAtShort_many (n : ℕ) (buf : List UInt8) :
    StopsAtShort (LoggedReader.many (element (fun _ => true) read) n buf).log := by
  induction n generalizing buf with
  | zero =>
    intro i hi
    cases hi
  | succ n ih =>
    cases hr : read buf with
    | error e =>
      rw [log_many_error hr]
      intro i hi
      rw [List.length_singleton] at hi
      omega
    | ok r =>
      rw [log_many hr]
      intro i hi
      cases i with
      | zero => rfl
      | succ i => exact ih r.2 i (by rw [List.length_cons] at hi; omega)

/-- When every element takes a byte, no more elements are begun than there are bytes, and one. -/
theorem length_log_many_le {whole : α → Bool} (h : Takes k read) (hk : 0 < k) (n : ℕ) (buf : List UInt8) :
    (LoggedReader.many (element whole read) n buf).log.length ≤ buf.length + 1 := by
  induction n generalizing buf with
  | zero => exact Nat.zero_le _
  | succ n ih =>
    cases hr : read buf with
    | error e =>
      rw [log_many_error hr,List.length_singleton]
      omega
    | ok r =>
      have htakes := h buf r.1 r.2 hr
      have hrest := ih r.2
      rw [log_many hr,List.length_cons]
      omega

/-- Pieces of one size are read as often as the loop is told to, past the end of the stream too. -/
theorem log_many_take (size n : ℕ) (buf : List UInt8) :
    (LoggedReader.many (element (fun piece => decide (piece.length = size)) (take size : Reader ε _)) n buf).log =
      (List.range n).map fun i => decide ((i+1)*size ≤ buf.length) := by
  induction n generalizing buf with
  | zero => rfl
  | succ n ih =>
    have hread : (take size : Reader ε _) buf = .ok (buf.take size,buf.drop size) := rfl
    rw [log_many hread,ih,List.range_succ_eq_map,List.map_cons,List.map_map]
    congr 1
    · rw [decide_eq_decide,List.length_take]
      omega
    · apply List.map_congr_left
      intro i _
      rw [Function.comp_apply,decide_eq_decide,List.length_drop]
      rw [Nat.succ_eq_add_one,Nat.add_mul (i+1) 1 size]
      have hpos : 0 < (i+1)*size ∨ size = 0 := by
        rw [Nat.mul_pos_iff_of_pos_left (Nat.succ_pos i)]
        omega
      omega

end Bounds
end ByteStream
