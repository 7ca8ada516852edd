import SubsatChannel.Lib.ByteStream
import SubsatChannel.Node.Block
import SubsatChannel.Node.Frames

/-! The payloads of the wire protocol: every message is read back as it was written. -/
namespace SubsatChannel
open ByteStream (Reader Reads Continues)

/-- `to_bytes(width, "little")` -/
def toBytes (width n : ℕ) : Except Fault Bytes :=
  if n < 256^width then .ok (LittleEndian.encode width n)
  else .error ⟨.overflowError,"int too big to convert"⟩

/-- `to_bytes(width, "little", signed=True)` -/
def toBytesSigned (width : ℕ) (z : ℤ) : Except Fault Bytes :=
  if -256^width ≤ 2*z ∧ 2*z < 256^width then .ok (LittleEndian.encode width (z % 256^width).toNat)
  else .error ⟨.overflowError,"int too big to convert"⟩

/-- `int.from_bytes(.., "little", signed=True)` -/
def fromBytesSigned (bs : Bytes) : ℤ :=
  if 256^bs.length ≤ 2 * LittleEndian.decode bs then LittleEndian.decode bs - 256^bs.length
  else LittleEndian.decode bs

/-- `int.from_bytes(buf.read(width), "little")` -/
def readInt (width : ℕ) : Reader Fault ℕ := do
  let data ← ByteStream.take width
  pure (LittleEndian.decode data)

/-- `int.from_bytes(buf.read(width), "little", signed=True)` -/
def readSigned (width : ℕ) : Reader Fault ℤ := do
  let data ← ByteStream.take width
  pure (fromBytesSigned data)

/-- `int.from_bytes(buf.read(width), "big")` -/
def readBig (width : ℕ) : Reader Fault ℕ := do
  let data ← ByteStream.take width
  pure (LittleEndian.decode data.reverse)

/-- `buf.read(width)` with a check that all bytes were there. -/
def readExactly (width : ℕ) (text : String) : Reader Fault Bytes := do
  let data ← ByteStream.take width
  if data.length ≠ width then throw ⟨.p2pError,text⟩ else pure data

/-- What a reader makes of a payload; the bytes after it are ignored. -/
def parsePayload {α : Type} (read : Reader Fault α) (payload : Bytes) : Except Fault α :=
  (read payload).map Prod.fst

def encodeVarBytes (b : Bytes) : Except Fault Bytes := do
  let n ← encodeVarint b.length
  .ok (n ++ b)

def readVarBytes (cap : ℕ) : Reader Fault Bytes := do
  let n ← (readVarint : Reader Fault ℕ)
  if cap < n then throw ⟨.p2pError,s!"var_bytes length {n} exceeds cap {cap}"⟩
  else do
    let data ← ByteStream.take n
    if data.length ≠ n then throw ⟨.p2pError,s!"short var_bytes (wanted {n}, got {data.length})"⟩
    else pure data

section Fields
variable {width : ℕ}

theorem toBytes_of_lt {n : ℕ} (h : n < 256^width) : toBytes width n = .ok (LittleEndian.encode width n) :=
  if_pos h

theorem reads_int {n : ℕ} (h : n < 256^width) : Reads (readInt width) (LittleEndian.encode width n) n := by
  have hr : Reads (readInt width) (LittleEndian.encode width n)
      (LittleEndian.decode (LittleEndian.encode width n)) :=
    (Reads.take (LittleEndian.encode_length width n)).last (Reads.pure _)
  rwa [LittleEndian.decode_encode_of_lt h] at hr

theorem reads_big {n : ℕ} (h : n < 256^width) :
    Reads (readBig width) (LittleEndian.encode width n).reverse n := by
  have hlen : (LittleEndian.encode width n).reverse.length = width := by
    rw [List.length_reverse,LittleEndian.encode_length]
  have hr : Reads (readBig width) (LittleEndian.encode width n).reverse
      (LittleEndian.decode (LittleEndian.encode width n).reverse.reverse) :=
    (Reads.take hlen).last (Reads.pure _)
  rwa [List.reverse_reverse,LittleEndian.decode_encode_of_lt h] at hr

/-- An integer that fits a signed width. -/
def FitsSigned (width : ℕ) (z : ℤ) : Prop := -256^width ≤ 2*z ∧ 2*z < 256^width

instance (width : ℕ) (z : ℤ) : Decidable (FitsSigned width z) := by
  unfold FitsSigned
  infer_instance

theorem toBytesSigned_of_fits {z : ℤ} (h : FitsSigned width z) :
    toBytesSigned width z = .ok (LittleEndian.encode width (z % 256^width).toNat) := if_pos h

theorem fromBytesSigned_encode {z : ℤ} (h : FitsSigned width z) :
    fromBytesSigned (LittleEndian.encode width (z % 256^width).toNat) = z := by
  obtain ⟨hlo,hhi⟩ := h
  have hpos : (0 : ℤ) < 256^width := by positivity
  have hnn := Int.emod_nonneg z hpos.ne'
  have hlt := Int.emod_lt_of_pos z hpos
  have hcast : ((z % 256^width).toNat : ℤ) = z % 256^width := Int.toNat_of_nonneg hnn
  have hfit : (z % 256^width).toNat < 256^width := by
    zify
    rw [hcast]
    exact hlt
  have hcond : 256^width ≤ 2*(z % 256^width).toNat ↔ (256^width : ℤ) ≤ 2*(z % 256^width) := by
    zify
    rw [hcast]
  rw [fromBytesSigned,LittleEndian.encode_length,LittleEndian.decode_encode_of_lt hfit,hcast,
    if_congr hcond rfl rfl]
  -- the residue of a negative value is one modulus above it
  by_cases hz : 0 ≤ z
  · have he : z % 256^width = z := Int.emod_eq_of_lt hz (by omega)
    rw [he,if_neg (by omega)]
  · have he : z % 256^width = z + 256^width := by
      rw [← Int.add_emod_right,Int.emod_eq_of_lt (by omega) (by omega)]
    rw [he,if_pos (by omega)]
    ring

theorem reads_signed {z : ℤ} (h : FitsSigned width z) :
    Reads (readSigned width) (LittleEndian.encode width (z % 256^width).toNat) z := by
  have hr : Reads (readSigned width) (LittleEndian.encode width (z % 256^width).toNat)
      (fromBytesSigned (LittleEndian.encode width (z % 256^width).toNat)) :=
    (Reads.take (LittleEndian.encode_length width (z % 256^width).toNat)).last (Reads.pure _)
  rwa [fromBytesSigned_encode h] at hr

theorem reads_exactly {bs : Bytes} (h : bs.length = width) (text : String) :
    Reads (readExactly width text) bs bs := by
  refine (Reads.take h).last ?_
  rw [if_neg (not_not.mpr h)]
  exact Reads.pure bs

theorem reads_varint {n : ℕ} {bs : Bytes} (h : encodeVarint n = .ok bs) :
    Reads (readVarint : Reader Fault ℕ) bs n := readVarint_encodeVarint h

theorem reads_varBytes {b n : Bytes} {cap : ℕ} (hn : encodeVarint b.length = .ok n)
    (hcap : b.length ≤ cap) : Reads (readVarBytes cap) (n ++ b) b := by
  refine (reads_varint hn).bind ?_
  rw [if_neg (not_lt.mpr hcap)]
  refine (Reads.take rfl).last ?_
  rw [if_neg (not_not.mpr rfl)]
  exact Reads.pure b

theorem parsePayload_of_reads {α : Type} {read : Reader Fault α} {bytes : Bytes} {a : α}
    (h : Reads read bytes a) : parsePayload read bytes = .ok a := by
  rw [parsePayload,h.all]
  rfl

end Fields

structure NetAddr where
  services : ℕ
  ip : Bytes
  port : ℕ
  deriving DecidableEq, Repr

namespace NetAddr

/-- The serialised address, after a timestamp when one is included. -/
def serialise (a : NetAddr) (timestamp : Option ℕ) : Except Fault Bytes := do
  let time ← match timestamp with
    | none => .ok []
    | some ts => toBytes 4 ts
  let services ← toBytes 8 a.services
  let port ← toBytes 2 a.port
  .ok (time ++ services ++ (a.ip ++ List.replicate 16 0).take 16 ++ port.reverse)

def read (includeTime : Bool) : Reader Fault NetAddr := do
  if includeTime then
    let _ ← readExactly 4 "short NetAddr.timestamp"
  let services ← readInt 8
  let ip ← readExactly 16 "short NetAddr.ip"
  let port ← readBig 2
  pure ⟨services,ip,port⟩

structure Fits (a : NetAddr) : Prop where
  services : a.services < 256^8
  ip : a.ip.length = 16
  port : a.port < 256^2

/-- The bytes of an address that fits. -/
def bytes (a : NetAddr) : Bytes :=
  LittleEndian.encode 8 a.services ++ (a.ip ++ (LittleEndian.encode 2 a.port).reverse)

variable {a : NetAddr}

theorem Fits.serialise_eq (h : a.Fits) : a.serialise none = .ok a.bytes := by
  have hip : (a.ip ++ List.replicate 16 0).take 16 = a.ip := List.take_left' h.ip
  simp only [serialise,toBytes_of_lt h.services,toBytes_of_lt h.port,bind,Except.bind,hip,bytes,
    List.nil_append,List.append_assoc]

theorem Fits.reads (h : a.Fits) : Reads (NetAddr.read false) a.bytes a :=
  (reads_int h.services).bind ((reads_exactly h.ip _).bind ((reads_big h.port).last (Reads.pure a)))

end NetAddr

structure VersionMessage where
  version : ℤ
  services : ℕ
  timestamp : ℤ
  addrRecv : NetAddr
  addrFrom : NetAddr
  nonce : ℕ
  userAgent : Bytes
  startHeight : ℤ
  relay : Bool
  deriving DecidableEq, Repr

namespace VersionMessage

def serialise (m : VersionMessage) : Except Fault Bytes := do
  let version ← toBytesSigned 4 m.version
  let services ← toBytes 8 m.services
  let timestamp ← toBytesSigned 8 m.timestamp
  let addrRecv ← m.addrRecv.serialise none
  let addrFrom ← m.addrFrom.serialise none
  let nonce ← toBytes 8 m.nonce
  let userAgent ← encodeVarBytes m.userAgent
  let startHeight ← toBytesSigned 4 m.startHeight
  .ok (version ++ services ++ timestamp ++ addrRecv ++ addrFrom ++ nonce ++ userAgent ++ startHeight ++
    [if m.relay then 1 else 0])

def read : Reader Fault VersionMessage := do
  let version ← readSigned 4
  let services ← readInt 8
  let timestamp ← readSigned 8
  let addrRecv ← NetAddr.read false
  let addrFrom ← NetAddr.read false
  let nonce ← readInt 8
  let userAgent ← readVarBytes maxMessageSize
  let startHeight ← readSigned 4
  let relay ← ByteStream.take 1
  pure ⟨version,services,timestamp,addrRecv,addrFrom,nonce,userAgent,startHeight,
    relay.head?.any fun b => b ≠ 0⟩

def parse (payload : Bytes) : Except Fault VersionMessage := parsePayload read payload

structure Fits (m : VersionMessage) : Prop where
  version : FitsSigned 4 m.version
  services : m.services < 256^8
  timestamp : FitsSigned 8 m.timestamp
  addrRecv : m.addrRecv.Fits
  addrFrom : m.addrFrom.Fits
  nonce : m.nonce < 256^8
  userAgent : m.userAgent.length ≤ maxMessageSize
  startHeight : FitsSigned 4 m.startHeight

/-- The bytes up to the user agent, whose length is written as `n`. -/
def front (m : VersionMessage) (n : Bytes) : Bytes :=
  LittleEndian.encode 4 (m.version % 256^4).toNat ++ (LittleEndian.encode 8 m.services ++
    (LittleEndian.encode 8 (m.timestamp % 256^8).toNat ++ (m.addrRecv.bytes ++ (m.addrFrom.bytes ++
    (LittleEndian.encode 8 m.nonce ++ (n ++ m.userAgent))))))

/-- The bytes after the user agent. -/
def rear (m : VersionMessage) : Bytes :=
  LittleEndian.encode 4 (m.startHeight % 256^4).toNat ++ [if m.relay then 1 else 0]

/-- What is read after the user agent. -/
def readRear (m : VersionMessage) : Reader Fault VersionMessage := do
  let startHeight ← readSigned 4
  let relay ← ByteStream.take 1
  pure {m with startHeight := startHeight, relay := relay.head?.any fun b => b ≠ 0}

theorem Fits.serialise_eq {m : VersionMessage} (h : m.Fits) :
    ∃ n, encodeVarint m.userAgent.length = .ok n ∧ m.serialise = .ok (m.front n ++ m.rear) := by
  have hagent := h.userAgent
  obtain ⟨n,hn⟩ := encodeVarint_of_lt (n := m.userAgent.length) (by unfold maxMessageSize at hagent; omega)
  refine ⟨n,hn,?_⟩
  simp only [serialise,toBytesSigned_of_fits h.version,toBytes_of_lt h.services,
    toBytesSigned_of_fits h.timestamp,h.addrRecv.serialise_eq,h.addrFrom.serialise_eq,
    toBytes_of_lt h.nonce,encodeVarBytes,hn,toBytesSigned_of_fits h.startHeight,bind,Except.bind,
    front,rear,List.append_assoc]

theorem Fits.continues {m : VersionMessage} (h : m.Fits) {n : Bytes}
    (hn : encodeVarint m.userAgent.length = .ok n) : Continues read (m.front n) m.readRear :=
  (reads_signed h.version).then ((reads_int h.services).then ((reads_signed h.timestamp).then
    (h.addrRecv.reads.then (h.addrFrom.reads.then ((reads_int h.nonce).then
    (reads_varBytes hn h.userAgent).continues)))))

theorem Fits.round_trip {m : VersionMessage} (h : m.Fits) :
    ∃ raw, m.serialise = .ok raw ∧ parse raw = .ok m := by
  obtain ⟨n,hn,hraw⟩ := h.serialise_eq
  have hrelay : Reads (ByteStream.take 1 : Reader Fault Bytes) [if m.relay then 1 else 0]
      [if m.relay then 1 else 0] := Reads.take rfl
  have hbit : ([if m.relay then 1 else 0] : Bytes).head?.any (fun b => b ≠ 0) = m.relay := by
    cases m.relay <;> rfl
  have hrear : Reads m.readRear m.rear m := by
    refine (reads_signed h.startHeight).bind (hrelay.last ?_)
    rw [hbit]
    exact Reads.pure m
  exact ⟨_,hraw,parsePayload_of_reads ((h.continues hn).reads hrear)⟩

end VersionMessage

structure InvVector where
  invType : ℕ
  hash : Bytes
  deriving DecidableEq, Repr

namespace InvVector

def serialise (v : InvVector) : Except Fault Bytes :=
  if v.hash.length ≠ 32 then
    .error ⟨.p2pError,s!"InvVector.hash must be 32 bytes (got {v.hash.length})"⟩
  else do
    let t ← toBytes 4 v.invType
    .ok (t ++ v.hash)

def read : Reader Fault InvVector := do
  let t ← readInt 4
  let h ← readExactly 32 "short InvVector.hash"
  pure ⟨t,h⟩

structure Fits (v : InvVector) : Prop where
  invType : v.invType < 256^4
  hash : v.hash.length = 32

def bytes (v : InvVector) : Bytes := LittleEndian.encode 4 v.invType ++ v.hash

variable {v : InvVector}

theorem Fits.serialise_eq (h : v.Fits) : v.serialise = .ok v.bytes := by
  rw [serialise,if_neg (not_not.mpr h.hash),toBytes_of_lt h.invType]
  rfl

theorem Fits.reads (h : v.Fits) : Reads read v.bytes v :=
  (reads_int h.invType).bind ((reads_exactly h.hash _).last (Reads.pure v))

end InvVector

def encodeInv (vectors : List InvVector) : Except Fault Bytes := do
  let count ← encodeVarint vectors.length
  let items ← vectors.mapM InvVector.serialise
  .ok (count ++ items.flatten)

def readInv : Reader Fault (List InvVector) := do
  let n ← (readVarint : Reader Fault ℕ)
  ByteStream.many InvVector.read n

def parseInv (payload : Bytes) : Except Fault (List InvVector) := parsePayload readInv payload

theorem encodeInv_eq {vectors : List InvVector} (h : ∀ v ∈ vectors, v.Fits) {count : Bytes}
    (hcount : encodeVarint vectors.length = .ok count) :
    encodeInv vectors = .ok (count ++ vectors.flatMap InvVector.bytes) := by
  have hitems := mapM_eq_ok (f := InvVector.serialise) (g := InvVector.bytes)
    fun v hv => (h v hv).serialise_eq
  simp only [encodeInv,hcount,bind,Except.bind,hitems,List.flatMap_def]

theorem inv_round_trip {vectors : List InvVector} (h : ∀ v ∈ vectors, v.Fits)
    (hlen : vectors.length < 2^64) : ∃ raw, encodeInv vectors = .ok raw ∧ parseInv raw = .ok vectors := by
  obtain ⟨count,hcount⟩ := encodeVarint_of_lt hlen
  refine ⟨_,encodeInv_eq h hcount,?_⟩
  exact parsePayload_of_reads ((reads_varint hcount).bind (Reads.many fun v hv => (h v hv).reads))

structure GetHeadersMessage where
  version : ℕ
  blockLocator : List Bytes
  hashStop : Bytes
  deriving DecidableEq, Repr

namespace GetHeadersMessage

def serialise (m : GetHeadersMessage) : Except Fault Bytes := do
  let version ← toBytes 4 m.version
  let count ← encodeVarint m.blockLocator.length
  if m.blockLocator.any fun h => h.length ≠ 32 then
    .error ⟨.p2pError,"locator hash must be 32 bytes"⟩
  else if m.hashStop.length ≠ 32 then .error ⟨.p2pError,"hash_stop must be 32 bytes"⟩
  else .ok (version ++ count ++ m.blockLocator.flatten ++ m.hashStop)

/-- The locator is read to its end before the lengths of its hashes are checked. -/
def read : Reader Fault GetHeadersMessage := do
  let version ← readInt 4
  let n ← (readVarint : Reader Fault ℕ)
  let locator ← ByteStream.many (ByteStream.take 32) n
  if locator.any fun h => h.length ≠ 32 then throw ⟨.p2pError,"short locator hash"⟩
  else do
    let hashStop ← readExactly 32 "short hash_stop"
    pure ⟨version,locator,hashStop⟩

def parse (payload : Bytes) : Except Fault GetHeadersMessage := parsePayload read payload

structure Fits (m : GetHeadersMessage) : Prop where
  version : m.version < 256^4
  count : m.blockLocator.length < 2^64
  locator : ∀ h ∈ m.blockLocator, h.length = 32
  hashStop : m.hashStop.length = 32

theorem Fits.locator_whole {m : GetHeadersMessage} (h : m.Fits) :
    m.blockLocator.any (fun h => h.length ≠ 32) = false := by
  simpa using h.locator

theorem Fits.serialise_eq {m : GetHeadersMessage} (h : m.Fits) {count : Bytes}
    (hcount : encodeVarint m.blockLocator.length = .ok count) :
    m.serialise = .ok (LittleEndian.encode 4 m.version ++ (count ++ (m.blockLocator.flatten ++ m.hashStop))) := by
  simp only [serialise,toBytes_of_lt h.version,hcount,bind,Except.bind,h.locator_whole,List.append_assoc]
  rw [if_neg Bool.false_ne_true,if_neg (not_not.mpr h.hashStop)]

theorem Fits.reads_locator {m : GetHeadersMessage} (h : m.Fits) :
    Reads (ByteStream.many (ByteStream.take 32 : Reader Fault Bytes) m.blockLocator.length)
      m.blockLocator.flatten m.blockLocator := by
  have hl : Reads (ByteStream.many (ByteStream.take 32 : Reader Fault Bytes) m.blockLocator.length)
      (m.blockLocator.flatMap id) m.blockLocator :=
    Reads.many fun b hb => Reads.take (h.locator b hb)
  rwa [List.flatMap_id] at hl

theorem Fits.round_trip {m : GetHeadersMessage} (h : m.Fits) :
    ∃ raw, m.serialise = .ok raw ∧ parse raw = .ok m := by
  obtain ⟨count,hcount⟩ := encodeVarint_of_lt h.count
  refine ⟨_,h.serialise_eq hcount,?_⟩
  refine parsePayload_of_reads ((reads_int h.version).bind ((reads_varint hcount).bind
    (h.reads_locator.bind ?_)))
  rw [h.locator_whole,if_neg Bool.false_ne_true]
  exact (reads_exactly h.hashStop _).last (Reads.pure m)

end GetHeadersMessage

structure HeadersMessage where
  rawHeaders : List Bytes
  deriving DecidableEq, Repr

namespace HeadersMessage

/-- A header with the count of its transactions, which is zero. -/
def serialiseHeader (h : Bytes) : Except Fault Bytes :=
  if h.length ≠ headerSize then .error ⟨.p2pError,s!"header must be 80 bytes (got {h.length})"⟩
  else .ok (h ++ [0])

def serialise (m : HeadersMessage) : Except Fault Bytes := do
  let count ← encodeVarint m.rawHeaders.length
  let items ← m.rawHeaders.mapM serialiseHeader
  .ok (count ++ items.flatten)

def readHeader : Reader Fault Bytes := do
  let h ← readExactly headerSize "short header"
  let _ ← (readVarint : Reader Fault ℕ)
  pure h

def read : Reader Fault HeadersMessage := do
  let n ← (readVarint : Reader Fault ℕ)
  let headers ← ByteStream.many readHeader n
  pure ⟨headers⟩

def parse (payload : Bytes) : Except Fault HeadersMessage := parsePayload read payload

structure Fits (m : HeadersMessage) : Prop where
  count : m.rawHeaders.length < 2^64
  headers : ∀ h ∈ m.rawHeaders, h.length = headerSize

theorem Fits.serialise_eq {m : HeadersMessage} (h : m.Fits) {count : Bytes}
    (hcount : encodeVarint m.rawHeaders.length = .ok count) :
    m.serialise = .ok (count ++ m.rawHeaders.flatMap fun b => b ++ [0]) := by
  have hitems := mapM_eq_ok (f := serialiseHeader) (g := fun h => h ++ [0])
    fun b hb => if_neg (not_not.mpr (h.headers b hb))
  simp only [serialise,hcount,bind,Except.bind,hitems,List.flatMap_def]

theorem Fits.reads_header {m : HeadersMessage} (h : m.Fits) {b : Bytes} (hb : b ∈ m.rawHeaders) :
    Reads readHeader (b ++ [0]) b := by
  have hzero : encodeVarint 0 = .ok [0] := rfl
  exact (reads_exactly (h.headers b hb) _).bind ((reads_varint hzero).last (Reads.pure b))

theorem Fits.round_trip {m : HeadersMessage} (h : m.Fits) :
    ∃ raw, m.serialise = .ok raw ∧ parse raw = .ok m := by
  obtain ⟨count,hcount⟩ := encodeVarint_of_lt h.count
  refine ⟨_,h.serialise_eq hcount,?_⟩
  exact parsePayload_of_reads ((reads_varint hcount).bind
    ((Reads.many fun b hb => h.reads_header hb).last (Reads.pure m)))

end HeadersMessage

structure PingMessage where
  nonce : ℕ
  deriving DecidableEq, Repr

namespace PingMessage

def serialise (m : PingMessage) : Except Fault Bytes := toBytes 8 m.nonce

def parse (payload : Bytes) : Except Fault PingMessage :=
  if payload.length < 8 then .error ⟨.p2pError,"short ping payload"⟩
  else .ok ⟨LittleEndian.decode (payload.take 8)⟩

theorem round_trip {m : PingMessage} (h : m.nonce < 256^8) :
    ∃ raw, m.serialise = .ok raw ∧ parse raw = .ok m := by
  have hlen := LittleEndian.encode_length 8 m.nonce
  refine ⟨_,toBytes_of_lt h,?_⟩
  rw [parse,if_neg (by omega),List.take_of_length_le hlen.le,LittleEndian.decode_encode_of_lt h]

end PingMessage

/-- Every codec of the wire protocol gives back what was written: varints in front of any stream, every
message whose fields fit their widths, and every block whose transactions are read back. -/
theorem codecs_round_trip (B : Bitcoinx) :
    (∀ n < 2^64, ∃ bs, encodeVarint n = .ok bs ∧ ∀ rest, readVarint (bs ++ rest) = .ok (n,rest)) ∧
    (∀ m : VersionMessage, m.Fits → ∃ raw, m.serialise = .ok raw ∧ VersionMessage.parse raw = .ok m) ∧
    (∀ vectors : List InvVector, (∀ v ∈ vectors, v.Fits) → vectors.length < 2^64 →
      ∃ raw, encodeInv vectors = .ok raw ∧ parseInv raw = .ok vectors) ∧
    (∀ m : GetHeadersMessage, m.Fits →
      ∃ raw, m.serialise = .ok raw ∧ GetHeadersMessage.parse raw = .ok m) ∧
    (∀ m : HeadersMessage, m.Fits → ∃ raw, m.serialise = .ok raw ∧ HeadersMessage.parse raw = .ok m) ∧
    (∀ m : PingMessage, m.nonce < 256^8 →
      ∃ raw, m.serialise = .ok raw ∧ PingMessage.parse raw = .ok m) ∧
    ∀ header txs, header.length = headerSize → txs.length < 2^64 → ReadsBack B txs →
      ∃ raw, serialiseBlock B header txs = .ok raw ∧ parseBlock B raw = .ok (header,txs) := by
  refine ⟨fun n hn => ?_,fun m h => h.round_trip,fun vectors h hlen => inv_round_trip h hlen,
    fun m h => h.round_trip,fun m h => h.round_trip,fun m h => PingMessage.round_trip h,
    fun header txs hheader hlen hread => ?_⟩
  · obtain ⟨bs,hbs⟩ := encodeVarint_of_lt hn
    exact ⟨bs,hbs,readVarint_encodeVarint hbs⟩
  · obtain ⟨raw,hraw⟩ := serialiseBlock_of_lt B hheader hlen fun tx htx => (hread tx htx).1
    exact ⟨raw,hraw,parseBlock_serialiseBlock hread hraw⟩

namespace Reference

/-- A message before the epoch, from a node that does not relay. -/
def sampleVersion : VersionMessage :=
  ⟨70016,0,-1,⟨0,List.replicate 16 0,8333⟩,⟨1,List.replicate 16 0,18444⟩,7,[0x2f,0x2f],-1,false⟩

theorem fits_sampleVersion : sampleVersion.Fits := by
  refine ⟨?_,?_,?_,⟨?_,?_,?_⟩,⟨?_,?_,?_⟩,?_,?_,?_⟩ <;>
    simp [sampleVersion,FitsSigned,maxMessageSize]

end Reference

open Reference in
theorem codecs_round_trip_sample : ∃ raw, sampleVersion.serialise = .ok raw ∧
    VersionMessage.parse raw = .ok sampleVersion :=
  (codecs_round_trip (reference anyone)).2.1 sampleVersion fits_sampleVersion

end SubsatChannel
