import Mathlib

/-! Readers of byte streams, and the law that a reader takes exactly the bytes of a value off the
front of any stream. -/
namespace ByteStream

abbrev Reader (ε α : Type) := StateT (List UInt8) (Except ε) α

/-- `read(n)`: the next `n` bytes, fewer at the end of the stream. -/
def take {ε : Type} (n : ℕ) : Reader ε (List UInt8) := fun buf => .ok (buf.take n,buf.drop n)

/-- Read a number of values one after the other. -/
def many {ε α : Type} (read : Reader ε α) : ℕ → Reader ε (List α)
  | 0 => pure []
  | n+1 => do
    let a ← read
    let as ← many read n
    pure (a :: as)

/-- The reader takes these bytes off the front of every stream and returns this value. -/
def Reads {ε α : Type} (read : Reader ε α) (bytes : List UInt8) (a : α) : Prop :=
  ∀ rest, read (bytes ++ rest) = .ok (a,rest)

section Laws
variable {ε α β : Type} {read : Reader ε α} {next : α → Reader ε β} {xs ys : List UInt8} {a : α} {b : β}

theorem Reads.take {n : ℕ} (h : xs.length = n) : Reads (take n : Reader ε _) xs xs := by
  intro rest
  rw [ByteStream.take,List.take_left' h,List.drop_left' h]

theorem Reads.pure (a : α) : Reads (pure a : Reader ε α) [] a := fun _ => rfl

theorem Reads.bind (hread : Reads read xs a) (hnext : Reads (next a) ys b) :
    Reads (read >>= next) (xs ++ ys) b := by
  intro rest
  change (read (xs ++ ys ++ rest)).bind (fun p => next p.1 p.2) = _
  rw [List.append_assoc,hread]
  exact hnext rest

/-- A step that reads nothing more. -/
theorem Reads.last (hread : Reads read xs a) (hnext : Reads (next a) [] b) :
    Reads (read >>= next) xs b := by
  have h := hread.bind hnext
  rwa [List.append_nil] at h

theorem Reads.many {write : α → List UInt8} {l : List α}
    (h : ∀ a ∈ l, Reads read (write a) a) : Reads (many read l.length) (l.flatMap write) l := by
  induction l with
  | nil => exact Reads.pure []
  | cons a l ih =>
    have hrest := ih fun b hb => h b (by simp [hb])
    exact (h a (by simp)).bind (hrest.last (Reads.pure (a :: l)))

/-- On the bytes of the value alone nothing is left over. -/
theorem Reads.all (h : Reads read xs a) : read xs = .ok (a,[]) := by
  have hnil := h []
  rwa [List.append_nil] at hnil

/-- After these bytes the reader goes on as another one. -/
def Continues {ε α : Type} (read : Reader ε α) (bytes : List UInt8) (rear : Reader ε α) : Prop :=
  ∀ rest, read (bytes ++ rest) = rear rest

theorem Reads.continues (hread : Reads read xs a) : Continues (read >>= next) xs (next a) := by
  intro rest
  change (read (xs ++ rest)).bind (fun p => next p.1 p.2) = _
  rw [hread]
  rfl

theorem Reads.then {rear : Reader ε β} (hread : Reads read xs a) (hnext : Continues (next a) ys rear) :
    Continues (read >>= next) (xs ++ ys) rear := by
  intro rest
  have hfirst : (read >>= next) (xs ++ (ys ++ rest)) = next a (ys ++ rest) := hread.continues (ys ++ rest)
  rw [List.append_assoc,hfirst]
  exact hnext rest

theorem Continues.reads {rear : Reader ε β} {first : Reader ε β} (h : Continues first xs rear)
    (hrear : Reads rear ys b) : Reads first (xs ++ ys) b := by
  intro rest
  rw [List.append_assoc,h]
  exact hrear rest

end Laws

/-! Streams that stop inside the bytes of a value. -/

section Truncation
variable {ε α β : Type} (E : ε → Prop)

/-- The reader raises one of these errors on the stream. -/
def Raises (read : Reader ε α) (buf : List UInt8) : Prop := ∃ e, read buf = .error e ∧ E e

/-- The reader raises on every stream that stops inside these bytes. -/
def Refuses (read : Reader ε α) (xs : List UInt8) : Prop := ∀ p, p <+: xs → p ≠ xs → Raises E read p

/-- On a stream that stops inside these bytes the reader raises or reads the stream to its end. -/
def Exhausts (read : Reader ε α) (xs : List UInt8) : Prop :=
  ∀ p, p <+: xs → p ≠ xs → Raises E read p ∨ ∃ a, read p = .ok (a,[])

variable {E}
variable {read : Reader ε α} {next : α → Reader ε β} {xs ys p : List UInt8} {a : α}

/-- A stream that stops inside two runs of bytes stops inside the first, or after it inside the second. -/
theorem stops_in_append (hp : p <+: xs ++ ys) (hne : p ≠ xs ++ ys) :
    (p <+: xs ∧ p ≠ xs) ∨ ∃ q, p = xs ++ q ∧ q <+: ys ∧ q ≠ ys := by
  by_cases hx : xs <+: p
  · obtain ⟨q,rfl⟩ := hx
    right
    refine ⟨q,rfl,(List.prefix_append_right_inj xs).mp hp,?_⟩
    rintro rfl
    exact hne rfl
  · left
    have hor := List.prefix_or_prefix_of_prefix hp (List.prefix_append xs ys)
    refine ⟨hor.resolve_right hx,?_⟩
    rintro rfl
    exact hx (List.prefix_refl p)

theorem Raises.first (h : Raises E read p) : Raises E (read >>= next) p := by
  obtain ⟨e,he,hE⟩ := h
  refine ⟨e,?_,hE⟩
  change (read p).bind (fun r => next r.1 r.2) = _
  rw [he]
  rfl

theorem Raises.after {q : List UInt8} (hread : read p = .ok (a,q)) (h : Raises E (next a) q) :
    Raises E (read >>= next) p := by
  obtain ⟨e,he,hE⟩ := h
  refine ⟨e,?_,hE⟩
  change (read p).bind (fun r => next r.1 r.2) = _
  rw [hread]
  exact he

theorem Refuses.exhausts (h : Refuses E read xs) : Exhausts E read xs :=
  fun p hp hne => .inl (h p hp hne)

theorem Refuses.first (h : Refuses E read xs) : Refuses E (read >>= next) xs :=
  fun p hp hne => (h p hp hne).first

/-- A reader that takes what there is and is followed by one that raises at the end of the stream. -/
theorem Exhausts.first (h : Exhausts E read xs) (hnext : ∀ a, Raises E (next a) []) :
    Refuses E (read >>= next) xs := by
  intro p hp hne
  cases h p hp hne with
  | inl hr => exact hr.first
  | inr ho =>
    obtain ⟨a,ha⟩ := ho
    exact Raises.after ha (hnext a)

/-- The second reader takes nothing more. -/
theorem Exhausts.last (h : Exhausts E read xs) (hnext : ∀ a, ∃ b, next a [] = .ok (b,[])) :
    Exhausts E (read >>= next) xs := by
  intro p hp hne
  cases h p hp hne with
  | inl hr => exact .inl hr.first
  | inr ho =>
    obtain ⟨a,ha⟩ := ho
    obtain ⟨b,hb⟩ := hnext a
    right
    refine ⟨b,?_⟩
    change (read p).bind (fun r => next r.1 r.2) = _
    rw [ha]
    exact hb

theorem Refuses.append (hfront : Refuses E (read >>= next) xs) (hread : Reads read xs a)
    (hnext : Refuses E (next a) ys) : Refuses E (read >>= next) (xs ++ ys) := by
  intro p hp hne
  cases stops_in_append hp hne with
  | inl h => exact hfront p h.1 h.2
  | inr h =>
    obtain ⟨q,rfl,hq,hqne⟩ := h
    exact Raises.after (hread q) (hnext q hq hqne)

theorem Exhausts.append (hfront : Exhausts E (read >>= next) xs) (hread : Reads read xs a)
    (hnext : Exhausts E (next a) ys) : Exhausts E (read >>= next) (xs ++ ys) := by
  intro p hp hne
  cases stops_in_append hp hne with
  | inl h => exact hfront p h.1 h.2
  | inr h =>
    obtain ⟨q,rfl,hq,hqne⟩ := h
    cases hnext q hq hqne with
    | inl hr => exact .inl (Raises.after (hread q) hr)
    | inr ho =>
      obtain ⟨b,hb⟩ := ho
      right
      refine ⟨b,?_⟩
      change (read (xs ++ q)).bind (fun r => next r.1 r.2) = _
      rw [hread q]
      exact hb

theorem length_lt_of_stops (hp : p <+: xs) (hne : p ≠ xs) : p.length < xs.length := by
  have hle := hp.length_le
  have h : p.length ≠ xs.length := fun h => hne (hp.eq_of_length h)
  omega

theorem Exhausts.take {n : ℕ} (h : xs.length = n) : Exhausts E (take n : Reader ε _) xs := by
  intro p hp hne
  have hlt := length_lt_of_stops hp hne
  right
  refine ⟨p,?_⟩
  rw [ByteStream.take,List.take_of_length_le (by omega),List.drop_of_length_le (by omega)]

/-- A list is refused as soon as one of its elements is. -/
theorem Refuses.many {write : α → List UInt8} {l : List α} (hread : ∀ a ∈ l, Reads read (write a) a)
    (h : ∀ a ∈ l, Refuses E read (write a)) : Refuses E (many read l.length) (l.flatMap write) := by
  induction l with
  | nil =>
    intro p hp hne
    exact absurd (List.prefix_nil.mp hp) hne
  | cons a l ih =>
    have hrest := ih (fun b hb => hread b (by simp [hb])) fun b hb => h b (by simp [hb])
    exact (h a (by simp)).first.append (hread a (by simp)) hrest.first

/-- Pieces of one size are always read, the last of them short when the stream is. -/
theorem many_take (size n : ℕ) (buf : List UInt8) : ∃ l rest,
    many (take size : Reader ε _) n buf = .ok (l,rest) ∧ l.length = n ∧ l.flatten ++ rest = buf := by
  induction n generalizing buf with
  | zero => exact ⟨[],buf,rfl,rfl,rfl⟩
  | succ n ih =>
    obtain ⟨l,rest,hread,hlen,hflat⟩ := ih (buf.drop size)
    refine ⟨buf.take size :: l,rest,?_,by simp [hlen],?_⟩
    · change (many (take size) n (buf.drop size)).bind _ = _
      rw [hread]
      rfl
    · rw [List.flatten_cons,List.append_assoc,hflat,List.take_append_drop]

end Truncation
end ByteStream
