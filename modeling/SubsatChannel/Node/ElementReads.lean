import SubsatChannel.Lib.ReadLog
import SubsatChannel.Node.Messages

/-! How many elements the list parsers read before they stop. -/
namespace SubsatChannel
open ByteStream (Reader LoggedReader StopsAtShort Takes)
open ByteStream.LoggedReader (silent element Erases)

/-- `readInv`, with a log of the vectors it reads. -/
def loggedInv : LoggedReader Fault (List InvVector) := do
  let n ← silent (readVarint : Reader Fault ℕ)
  LoggedReader.many (element (fun _ => true) InvVector.read) n

/-- `HeadersMessage.read`, with a log of the headers it reads. -/
def loggedHeaders : LoggedReader Fault HeadersMessage := do
  let n ← silent (readVarint : Reader Fault ℕ)
  let headers ← LoggedReader.many (element (fun _ => true) HeadersMessage.readHeader) n
  pure ⟨headers⟩

/-- `GetHeadersMessage.read`, with a log of the locator hashes it reads. -/
def loggedGetHeaders : LoggedReader Fault GetHeadersMessage := do
  let version ← silent (readInt 4)
  let n ← silent (readVarint : Reader Fault ℕ)
  let locator ← LoggedReader.many (element (fun h => decide (h.length = 32)) (ByteStream.take 32)) n
  if locator.any fun h => h.length ≠ 32 then silent (throw ⟨.p2pError,"short locator hash"⟩)
  else do
    let hashStop ← silent (readExactly 32 "short hash_stop")
    pure ⟨version,locator,hashStop⟩

/-- The logged parsers read what the parsers read: with the log left out each of them is the parser that it
logs. -/
theorem loggedInv_erases : Erases loggedInv readInv :=
  (Erases.silent _).bind fun n => (Erases.element _ InvVector.read).many n

theorem loggedHeaders_erases : Erases loggedHeaders HeadersMessage.read :=
  (Erases.silent _).bind fun n => ((Erases.element _ HeadersMessage.readHeader).many n).bind
    fun headers => Erases.silent (pure (⟨headers⟩ : HeadersMessage))

theorem loggedGetHeaders_erases : Erases loggedGetHeaders GetHeadersMessage.read := by
  refine (Erases.silent _).bind fun version => (Erases.silent _).bind fun n =>
    ((Erases.element _ (ByteStream.take 32)).many n).bind fun locator => ?_
  split
  · exact Erases.silent _
  · exact (Erases.silent _).bind fun hashStop => Erases.silent (pure (⟨version,locator,hashStop⟩ : GetHeadersMessage))

/-- The parsers of payloads with a counted list. -/
inductive ListParser
  | inv
  | headers
  | getHeaders
  deriving DecidableEq, Repr

namespace ListParser

/-- The log of the elements a parser reads from a payload. -/
def log : ListParser → Bytes → List Bool
  | inv,payload => (loggedInv payload).log
  | headers,payload => (loggedHeaders payload).log
  | getHeaders,payload => (loggedGetHeaders payload).log

/-- The number of element reads before the parser returns or raises. -/
def elementReads (k : ListParser) (payload : Bytes) : ℕ := (k.log payload).length

end ListParser

section Bounds
variable {payload rest : Bytes} {n : ℕ}

theorem takes_fixed (width : ℕ) (text : String) : Takes width (readFixed width text : Reader Fault ℕ) := by
  intro buf a rest h
  rw [readFixed] at h
  split_ifs at h with hlen
  cases h
  rw [not_not,List.length_take] at hlen
  rw [List.length_drop]
  omega

theorem takes_varint : Takes 1 (readVarint : Reader Fault ℕ) := by
  intro buf a rest h
  cases buf with
  | nil => cases h
  | cons b buf =>
    rw [readVarint] at h
    rw [List.length_cons]
    split_ifs at h
    · cases h
      exact le_rfl
    · have hfixed := takes_fixed 2 _ buf a rest h
      omega
    · have hfixed := takes_fixed 4 _ buf a rest h
      omega
    · have hfixed := takes_fixed 8 _ buf a rest h
      omega

theorem takes_exactly (width : ℕ) (text : String) : Takes width (readExactly width text) := by
  intro buf a rest h
  change (if (buf.take width).length ≠ width then throw ⟨.p2pError,text⟩ else pure (buf.take width) :
    Reader Fault Bytes) (buf.drop width) = _ at h
  split_ifs at h with hlen
  · cases h
  · cases h
    rw [not_not,List.length_take] at hlen
    rw [List.length_drop]
    omega

theorem takes_invVector : Takes 32 InvVector.read :=
  ((Takes.take 4).bind fun _ => Takes.pure _).bind fun _ => (takes_exactly 32 _).bind fun _ => Takes.pure _

theorem takes_header : Takes 81 HeadersMessage.readHeader :=
  (takes_exactly 80 _).bind fun _ => takes_varint.bind fun _ => Takes.pure _

/-- A counted list of whole elements, whatever its count claims. -/
theorem counted_list_bounded {α β : Type} {read : Reader Fault α} {k : ℕ} (hread : Takes k read) (hk : 0 < k)
    {body : ℕ → LoggedReader Fault β}
    (hbody : ∀ n buf, (body n buf).log = (LoggedReader.many (element (fun _ => true) read) n buf).log)
    (payload : Bytes) : ((silent readVarint >>= body) payload).log.length ≤ payload.length + 1 ∧
      StopsAtShort ((silent readVarint >>= body) payload).log := by
  cases hv : (readVarint : Reader Fault ℕ) payload with
  | error e =>
    rw [LoggedReader.log_silent_error hv]
    exact ⟨Nat.zero_le _,fun i hi => by cases hi⟩
  | ok r =>
    have htakes := takes_varint payload r.1 r.2 hv
    have hlen : (LoggedReader.many (element (fun _ => true) read) r.1 r.2).log.length ≤ r.2.length + 1 :=
      ByteStream.length_log_many_le hread hk r.1 r.2
    rw [LoggedReader.log_silent hv,hbody]
    exact ⟨by omega,ByteStream.stopsAtShort_many r.1 r.2⟩

theorem inv_bounded (payload : Bytes) :
    (loggedInv payload).log.length ≤ payload.length + 1 ∧ StopsAtShort (loggedInv payload).log :=
  counted_list_bounded takes_invVector (by decide) (fun _ _ => rfl) payload

theorem headers_bounded (payload : Bytes) :
    (loggedHeaders payload).log.length ≤ payload.length + 1 ∧ StopsAtShort (loggedHeaders payload).log :=
  counted_list_bounded takes_header (by decide) (fun _ _ => LoggedReader.log_bind_silent fun _ _ => rfl) payload

/-- The locator is read as often as its count says, whatever is left of the payload. -/
theorem log_getHeaders (h : readVarint (payload.drop 4) = .ok (n,rest)) :
    (loggedGetHeaders payload).log = (List.range n).map fun i => decide ((i+1)*32 ≤ rest.length) := by
  have hversion : readInt 4 payload = .ok (LittleEndian.decode (payload.take 4),payload.drop 4) := rfl
  have hcount : (readVarint : Reader Fault ℕ) (payload.drop 4) = .ok (n,rest) := h
  rw [loggedGetHeaders,LoggedReader.log_silent hversion,LoggedReader.log_silent hcount,
    LoggedReader.log_bind_silent ?_]
  · exact ByteStream.log_many_take 32 n rest
  · intro locator buf
    split
    · rfl
    · cases hstop : readExactly 32 "short hash_stop" buf with
      | error e => rw [LoggedReader.log_silent_error hstop]
      | ok r =>
        rw [LoggedReader.log_silent hstop]
        rfl

theorem log_getHeaders_error {e : Fault} (h : readVarint (payload.drop 4) = .error e) :
    (loggedGetHeaders payload).log = [] := by
  have hversion : readInt 4 payload = .ok (LittleEndian.decode (payload.take 4),payload.drop 4) := rfl
  have hcount : (readVarint : Reader Fault ℕ) (payload.drop 4) = .error e := h
  rw [loggedGetHeaders,LoggedReader.log_silent hversion,LoggedReader.log_silent_error hcount]

theorem stopsAtShort_pieces {n size length : ℕ} (hsize : 0 < size) :
    StopsAtShort ((List.range n).map fun i => decide ((i+1)*size ≤ length)) ↔ n ≤ length/size + 1 := by
  rw [StopsAtShort,List.length_map,List.length_range]
  constructor
  · intro h
    by_contra hlt
    have hi : length/size + 1 < n := by omega
    have hone := h (length/size) hi
    rw [List.getElem?_map,List.getElem?_range (by omega),Option.map_some,Option.some.injEq,
      decide_eq_true_eq,← Nat.le_div_iff_mul_le hsize] at hone
    omega
  · intro h i hi
    rw [List.getElem?_map,List.getElem?_range (by omega),Option.map_some,Option.some.injEq,
      decide_eq_true_eq,← Nat.le_div_iff_mul_le hsize]
    omega

end Bounds

namespace ListParser

/-- A locator whose count claims at most one hash more than the bytes after it hold. -/
def ClaimHolds (payload : Bytes) : Prop :=
  ∀ n rest, readVarint (payload.drop 4) = .ok (n,rest) → n ≤ rest.length/32 + 1

/-- A locator whose count is at most one more than the length of the payload. -/
def ClaimBounded (payload : Bytes) : Prop :=
  ∀ n rest, readVarint (payload.drop 4) = .ok (n,rest) → n ≤ payload.length + 1

end ListParser

open ListParser in
/-- A list parser stops at the first element it cannot read in full, unless it is the one of a locator with a
count beyond its bytes. -/
theorem element_reads_bounded_iff (k : ListParser) (payload : Bytes) :
    ((k.elementReads payload ≤ payload.length + 1 ∧ StopsAtShort (k.log payload)) ↔
      (k = getHeaders → ClaimHolds payload)) ∧
    (k.elementReads payload ≤ payload.length + 1 ↔ (k = getHeaders → ClaimBounded payload)) := by
  cases k with
  | inv =>
    have hb := inv_bounded payload
    exact ⟨iff_of_true hb nofun,iff_of_true hb.1 nofun⟩
  | headers =>
    have hb := headers_bounded payload
    exact ⟨iff_of_true hb nofun,iff_of_true hb.1 nofun⟩
  | getHeaders =>
    simp only [forall_const,elementReads,log]
    cases hv : readVarint (payload.drop 4) with
    | error e =>
      have hholds : ClaimHolds payload := fun n rest h => by rw [hv] at h; cases h
      have hbounded : ClaimBounded payload := fun n rest h => by rw [hv] at h; cases h
      rw [log_getHeaders_error hv]
      refine ⟨iff_of_true ⟨Nat.zero_le _,fun i hi => ?_⟩ hholds,iff_of_true (Nat.zero_le _) hbounded⟩
      cases hi
    | ok r =>
      have hholds : ClaimHolds payload ↔ r.1 ≤ r.2.length/32 + 1 := by
        refine ⟨fun h => h r.1 r.2 hv,fun h n rest hread => ?_⟩
        obtain rfl := Except.ok.inj (hv.symm.trans hread)
        exact h
      have hbounded : ClaimBounded payload ↔ r.1 ≤ payload.length + 1 := by
        refine ⟨fun h => h r.1 r.2 hv,fun h n rest hread => ?_⟩
        obtain rfl := Except.ok.inj (hv.symm.trans hread)
        exact h
      have htakes := takes_varint (payload.drop 4) r.1 r.2 hv
      rw [List.length_drop] at htakes
      rw [log_getHeaders hv,stopsAtShort_pieces (by decide),List.length_map,List.length_range,hholds,hbounded]
      -- whole hashes are bytes of the payload, so the first bound implies the second
      have hle := Nat.div_le_self r.2.length 32
      refine ⟨⟨fun h => h.2,fun h => ⟨by omega,h⟩⟩,Iff.rfl⟩

/-- Thirteen bytes that claim a locator of 2^64 - 1 hashes. -/
theorem locator_read_past_end :
    ListParser.getHeaders.elementReads ([0,0,0,0] ++ List.replicate 9 255) = 2^64 - 1 ∧
    ¬ ListParser.getHeaders.elementReads ([0,0,0,0] ++ List.replicate 9 255) ≤
      ([0,0,0,0] ++ List.replicate 9 255 : Bytes).length + 1 := by
  have hcount : readVarint (([0,0,0,0] ++ List.replicate 9 255 : Bytes).drop 4) = .ok (2^64 - 1,[]) := by
    decide +kernel
  have hreads : ListParser.getHeaders.elementReads ([0,0,0,0] ++ List.replicate 9 255) = 2^64 - 1 := by
    rw [ListParser.elementReads,ListParser.log,log_getHeaders hcount,List.length_map,List.length_range]
  refine ⟨hreads,?_⟩
  rw [hreads]
  decide

end SubsatChannel
