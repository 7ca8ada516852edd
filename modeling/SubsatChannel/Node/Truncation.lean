import SubsatChannel.Node.Messages

/-! Payloads cut short: which cuts of a message its parser refuses. -/
namespace SubsatChannel
open ByteStream (Reader Reads Raises Refuses Exhausts)

/-- The errors of the wire protocol. -/
def IsP2pError (e : Fault) : Prop := e.kind = .p2pError

section Fields
variable {width : ℕ} {xs : Bytes}

theorem exhausts_int (h : xs.length = width) : Exhausts IsP2pError (readInt width) xs :=
  (Exhausts.take h).last fun data => ⟨LittleEndian.decode data,rfl⟩

theorem exhausts_signed (h : xs.length = width) : Exhausts IsP2pError (readSigned width) xs :=
  (Exhausts.take h).last fun data => ⟨fromBytesSigned data,rfl⟩

theorem exhausts_big (h : xs.length = width) : Exhausts IsP2pError (readBig width) xs :=
  (Exhausts.take h).last fun data => ⟨LittleEndian.decode data.reverse,rfl⟩

theorem raises_exactly {p : Bytes} (h : p.length < width) (text : String) :
    Raises IsP2pError (readExactly width text) p := by
  have hlen : (p.take width).length ≠ width := by
    rw [List.length_take]
    omega
  apply Raises.after (a := p.take width) (q := p.drop width) rfl
  rw [if_pos hlen]
  exact ⟨_,rfl,rfl⟩

theorem refuses_exactly (h : xs.length = width) (text : String) :
    Refuses IsP2pError (readExactly width text) xs := by
  intro p hp hne
  have hlt := ByteStream.length_lt_of_stops hp hne
  exact raises_exactly (by omega) text

theorem readFixed_of_lt {p : Bytes} (h : p.length < width) (text : String) :
    readFixed width text p = .error ⟨.p2pError,text⟩ := by
  apply if_pos
  rw [List.length_take]
  omega

theorem raises_varint_nil : Raises IsP2pError (readVarint : Reader Fault ℕ) [] := ⟨_,rfl,rfl⟩

theorem refuses_varint {n : ℕ} {bs : Bytes} (h : encodeVarint n = .ok bs) :
    Refuses IsP2pError (readVarint : Reader Fault ℕ) bs := by
  intro p hp hne
  have hlt := ByteStream.length_lt_of_stops hp hne
  cases p with
  | nil => exact raises_varint_nil
  | cons b q =>
    rw [List.length_cons] at hlt
    unfold encodeVarint at h
    -- a one-byte form has no strict prefix but the empty one; the others lose bytes of their fixed tail
    split_ifs at h with h1 h2 h4 h8
    · cases h
      rw [List.length_singleton] at hlt
      omega
    · cases h
      rw [List.length_cons,LittleEndian.encode_length] at hlt
      obtain ⟨rfl,_⟩ := List.cons_prefix_cons.mp hp
      exact ⟨_,readFixed_of_lt (by omega) "short varint(2)",rfl⟩
    · cases h
      rw [List.length_cons,LittleEndian.encode_length] at hlt
      obtain ⟨rfl,_⟩ := List.cons_prefix_cons.mp hp
      exact ⟨_,readFixed_of_lt (by omega) "short varint(4)",rfl⟩
    · cases h
      rw [List.length_cons,LittleEndian.encode_length] at hlt
      obtain ⟨rfl,_⟩ := List.cons_prefix_cons.mp hp
      exact ⟨_,readFixed_of_lt (by omega) "short varint(8)",rfl⟩

theorem refuses_varBytes {b n : Bytes} {cap : ℕ} (hn : encodeVarint b.length = .ok n)
    (hcap : b.length ≤ cap) : Refuses IsP2pError (readVarBytes cap) (n ++ b) := by
  refine (refuses_varint hn).first.append (reads_varint hn) ?_
  rw [if_neg (not_lt.mpr hcap)]
  intro p hp hne
  have hlt := ByteStream.length_lt_of_stops hp hne
  have hlen : (p.take b.length).length ≠ b.length := by
    rw [List.length_take]
    omega
  apply Raises.after (a := p.take b.length) (q := p.drop b.length) rfl
  rw [if_pos hlen]
  exact ⟨_,rfl,rfl⟩

theorem raises_varBytes_nil (cap : ℕ) : Raises IsP2pError (readVarBytes cap) [] := raises_varint_nil.first

end Fields

theorem NetAddr.raises_nil : Raises IsP2pError (NetAddr.read false) [] :=
  Raises.after (a := 0) (q := []) rfl (raises_exactly (by decide) _).first

/-- A cut inside the port is not noticed. -/
theorem NetAddr.Fits.exhausts {a : NetAddr} (h : a.Fits) : Exhausts IsP2pError (NetAddr.read false) a.bytes := by
  have hport : (LittleEndian.encode 2 a.port).reverse.length = 2 := by
    rw [List.length_reverse,LittleEndian.encode_length]
  have hip : Raises IsP2pError (readExactly 16 "short NetAddr.ip") [] := raises_exactly (by decide) _
  have hservices : Refuses IsP2pError (NetAddr.read false) (LittleEndian.encode 8 a.services) :=
    (exhausts_int (LittleEndian.encode_length 8 a.services)).first fun _ => hip.first
  refine hservices.exhausts.append (reads_int h.services) ?_
  refine (refuses_exactly h.ip _).first.exhausts.append (reads_exactly h.ip _) ?_
  exact (exhausts_big hport).last fun port => ⟨⟨a.services,a.ip,port⟩,rfl⟩

theorem InvVector.Fits.refuses {v : InvVector} (h : v.Fits) : Refuses IsP2pError InvVector.read v.bytes := by
  have hhash : Raises IsP2pError (readExactly 32 "short InvVector.hash") [] := raises_exactly (by decide) _
  have htype : Refuses IsP2pError InvVector.read (LittleEndian.encode 4 v.invType) :=
    (exhausts_int (LittleEndian.encode_length 4 v.invType)).first fun _ => hhash.first
  exact htype.append (reads_int h.invType) (refuses_exactly h.hash _).first

theorem VersionMessage.Fits.refuses_front {m : VersionMessage} (h : m.Fits) {n : Bytes}
    (hn : encodeVarint m.userAgent.length = .ok n) : Refuses IsP2pError VersionMessage.read (m.front n) := by
  -- at the end of the stream the first of the later readers to raise is that of an address or of the user agent
  have hversion : Refuses IsP2pError VersionMessage.read (LittleEndian.encode 4 (m.version % 256^4).toNat) := by
    refine (exhausts_signed (LittleEndian.encode_length 4 _)).first fun _ => ?_
    exact Raises.after (a := 0) (q := []) rfl (Raises.after (a := 0) (q := []) rfl NetAddr.raises_nil.first)
  refine hversion.append (reads_signed h.version) (Refuses.append ?_ (reads_int h.services)
    (Refuses.append ?_ (reads_signed h.timestamp) (Refuses.append ?_ h.addrRecv.reads
    (Refuses.append ?_ h.addrFrom.reads (Refuses.append ?_ (reads_int h.nonce) ?_)))))
  · refine (exhausts_int (LittleEndian.encode_length 8 m.services)).first fun _ => ?_
    exact Raises.after (a := 0) (q := []) rfl NetAddr.raises_nil.first
  · refine (exhausts_signed (LittleEndian.encode_length 8 _)).first fun _ => ?_
    exact NetAddr.raises_nil.first
  · exact h.addrRecv.exhausts.first fun _ => NetAddr.raises_nil.first
  · refine h.addrFrom.exhausts.first fun _ => ?_
    exact Raises.after (a := 0) (q := []) rfl (raises_varBytes_nil maxMessageSize).first
  · refine (exhausts_int (LittleEndian.encode_length 8 m.nonce)).first fun _ => ?_
    exact (raises_varBytes_nil maxMessageSize).first
  · exact (refuses_varBytes hn h.userAgent).first

/-- The start height and the relay flag are made up from whatever is left. -/
theorem VersionMessage.readRear_returns (m : VersionMessage) (buf : Bytes) : ∃ r, m.readRear buf = .ok r :=
  ⟨_,rfl⟩

theorem refuses_inv {vectors : List InvVector} (h : ∀ v ∈ vectors, v.Fits) {count : Bytes}
    (hcount : encodeVarint vectors.length = .ok count) :
    Refuses IsP2pError readInv (count ++ vectors.flatMap InvVector.bytes) :=
  (refuses_varint hcount).first.append (reads_varint hcount)
    (Refuses.many (fun v hv => (h v hv).reads) fun v hv => (h v hv).refuses)

theorem HeadersMessage.Fits.refuses {m : HeadersMessage} (h : m.Fits) {count : Bytes}
    (hcount : encodeVarint m.rawHeaders.length = .ok count) :
    Refuses IsP2pError HeadersMessage.read (count ++ m.rawHeaders.flatMap fun b => b ++ [0]) := by
  have hzero : encodeVarint 0 = .ok [0] := rfl
  have hheader : ∀ b ∈ m.rawHeaders, Refuses IsP2pError HeadersMessage.readHeader (b ++ [0]) := fun b hb =>
    (refuses_exactly (h.headers b hb) _).first.append (reads_exactly (h.headers b hb) _)
      (refuses_varint hzero).first
  exact (refuses_varint hcount).first.append (reads_varint hcount)
    (Refuses.many (fun b hb => h.reads_header hb) hheader).first

/-- A locator cut short has a short hash, which the check after the loop finds. -/
theorem GetHeadersMessage.short_locator {l : List Bytes} {n : ℕ} {p rest : Bytes} (hlen : l.length = n)
    (hflat : l.flatten ++ rest = p) (hp : p.length < n * 32) : l.any (fun h => h.length ≠ 32) = true := by
  by_contra hno
  have hall : ∀ h ∈ l, h.length = 32 := by
    simpa using hno
  have hsum : l.flatten.length = n * 32 := by
    rw [List.length_flatten,List.map_congr_left hall,List.map_const',List.sum_replicate,hlen,smul_eq_mul]
  have hle : l.flatten.length ≤ p.length := by
    rw [← hflat,List.length_append]
    omega
  omega

theorem GetHeadersMessage.Fits.refuses {m : GetHeadersMessage} (h : m.Fits) {count : Bytes}
    (hcount : encodeVarint m.blockLocator.length = .ok count) :
    Refuses IsP2pError GetHeadersMessage.read
      (LittleEndian.encode 4 m.version ++ (count ++ (m.blockLocator.flatten ++ m.hashStop))) := by
  have hversion : Refuses IsP2pError GetHeadersMessage.read (LittleEndian.encode 4 m.version) :=
    (exhausts_int (LittleEndian.encode_length 4 m.version)).first fun _ => raises_varint_nil.first
  refine hversion.append (reads_int h.version) ((refuses_varint hcount).first.append (reads_varint hcount)
    (Refuses.append ?_ h.reads_locator ?_))
  · intro p hp hne
    have hlt := ByteStream.length_lt_of_stops hp hne
    have hsize : m.blockLocator.flatten.length = m.blockLocator.length * 32 := by
      rw [List.length_flatten,List.map_congr_left h.locator,List.map_const',List.sum_replicate,smul_eq_mul]
    obtain ⟨l,rest,hread,hlen,hflat⟩ := ByteStream.many_take 32 m.blockLocator.length p
    refine Raises.after hread ?_
    rw [short_locator hlen hflat (by omega),if_pos rfl]
    exact ⟨_,rfl,rfl⟩
  · rw [h.locator_whole,if_neg Bool.false_ne_true]
    exact (refuses_exactly h.hashStop _).first

theorem PingMessage.raises_of_lt {p : Bytes} (h : p.length < 8) :
    PingMessage.parse p = .error ⟨.p2pError,"short ping payload"⟩ := if_pos h

/-- The messages whose payloads are parsed. -/
inductive WireMessage
  | version (m : VersionMessage)
  | inv (vectors : List InvVector)
  | getHeaders (m : GetHeadersMessage)
  | headers (m : HeadersMessage)
  | ping (m : PingMessage)

namespace WireMessage

def serialise : WireMessage → Except Fault Bytes
  | version m => m.serialise
  | inv vectors => encodeInv vectors
  | getHeaders m => m.serialise
  | headers m => m.serialise
  | ping m => m.serialise

/-- The parser of messages of this kind. -/
def parse : WireMessage → Bytes → Except Fault WireMessage
  | version _,payload => (VersionMessage.parse payload).map version
  | inv _,payload => (parseInv payload).map inv
  | getHeaders _,payload => (GetHeadersMessage.parse payload).map getHeaders
  | headers _,payload => (HeadersMessage.parse payload).map headers
  | ping _,payload => (PingMessage.parse payload).map ping

/-- A message in range: every field fits the width it is written in. -/
def Fits : WireMessage → Prop
  | version m => m.Fits
  | inv vectors => (∀ v ∈ vectors, v.Fits) ∧ vectors.length < 2^64
  | getHeaders m => m.Fits
  | headers m => m.Fits
  | ping m => m.nonce < 256^8

/-- The bytes at the end of a message that are read with no check that they are there: the start height
and the relay flag. -/
def unchecked : WireMessage → ℕ
  | version _ => 5
  | _ => 0

/-- The parser of this kind of message raises the error of the wire protocol. -/
def Rejects (m : WireMessage) (payload : Bytes) : Prop := ∃ e, m.parse payload = .error e ∧ IsP2pError e

theorem rejects_of_raises {α : Type} {read : Reader Fault α} {p : Bytes} (h : Raises IsP2pError read p)
    (f : α → WireMessage) : ∃ e, (parsePayload read p).map f = .error e ∧ IsP2pError e := by
  obtain ⟨e,he,hE⟩ := h
  refine ⟨e,?_,hE⟩
  rw [parsePayload,he]
  rfl

/-- Where every byte is checked, every cut is refused. -/
theorem rejects_iff_of_refuses {m : WireMessage} {raw p : Bytes} (hm : m.unchecked = 0) (hp : p <+: raw)
    (hne : p ≠ raw) (h : m.Rejects p) : m.Rejects p ↔ p.length + m.unchecked < raw.length := by
  have hlt := ByteStream.length_lt_of_stops hp hne
  rw [hm,Nat.add_zero]
  exact iff_of_true h hlt

theorem version_rejects_iff {m : VersionMessage} (h : m.Fits) {raw p : Bytes} (hraw : m.serialise = .ok raw)
    (hp : p <+: raw) (hne : p ≠ raw) : (version m).Rejects p ↔ p.length + 5 < raw.length := by
  obtain ⟨n,hn,hser⟩ := h.serialise_eq
  obtain rfl : m.front n ++ m.rear = raw := Except.ok.inj (hser.symm.trans hraw)
  have hrear : m.rear.length = 5 := by
    rw [VersionMessage.rear,List.length_append,LittleEndian.encode_length,List.length_singleton]
  rw [List.length_append,hrear]
  cases ByteStream.stops_in_append hp hne with
  | inl hfront =>
    have hlt := ByteStream.length_lt_of_stops hfront.1 hfront.2
    have hrej : (version m).Rejects p := rejects_of_raises (h.refuses_front hn p hfront.1 hfront.2) version
    exact iff_of_true hrej (by omega)
  | inr hrest =>
    obtain ⟨q,rfl,hq,hqne⟩ := hrest
    obtain ⟨r,hr⟩ := m.readRear_returns q
    have hread : VersionMessage.read (m.front n ++ q) = .ok r := (h.continues hn q).trans hr
    refine iff_of_false ?_ (by rw [List.length_append]; omega)
    rintro ⟨e,he,-⟩
    rw [parse,VersionMessage.parse,parsePayload,hread] at he
    cases he

end WireMessage

open WireMessage in
/-- A message cut short is rejected, unless it is a version message cut inside its last five bytes. -/
theorem truncated_rejected_iff {m : WireMessage} (h : m.Fits) {raw p : Bytes} (hraw : m.serialise = .ok raw)
    (hp : p <+: raw) (hne : p ≠ raw) : m.Rejects p ↔ p.length + m.unchecked < raw.length := by
  cases m with
  | version m => exact version_rejects_iff h hraw hp hne
  | inv vectors =>
    obtain ⟨count,hcount⟩ := encodeVarint_of_lt h.2
    obtain rfl := Except.ok.inj ((encodeInv_eq h.1 hcount).symm.trans hraw)
    exact rejects_iff_of_refuses rfl hp hne (rejects_of_raises (refuses_inv h.1 hcount p hp hne) inv)
  | getHeaders m =>
    have hfits : m.Fits := h
    obtain ⟨count,hcount⟩ := encodeVarint_of_lt hfits.count
    obtain rfl := Except.ok.inj ((hfits.serialise_eq hcount).symm.trans hraw)
    exact rejects_iff_of_refuses rfl hp hne (rejects_of_raises (hfits.refuses hcount p hp hne) getHeaders)
  | headers m =>
    have hfits : m.Fits := h
    obtain ⟨count,hcount⟩ := encodeVarint_of_lt hfits.count
    obtain rfl := Except.ok.inj ((hfits.serialise_eq hcount).symm.trans hraw)
    have hread : Raises IsP2pError HeadersMessage.read p := hfits.refuses hcount p hp hne
    exact rejects_iff_of_refuses rfl hp hne (rejects_of_raises hread headers)
  | ping m =>
    obtain rfl := Except.ok.inj ((toBytes_of_lt h).symm.trans hraw)
    have hlt := ByteStream.length_lt_of_stops hp hne
    rw [LittleEndian.encode_length] at hlt
    refine rejects_iff_of_refuses rfl hp hne ⟨⟨.p2pError,"short ping payload"⟩,?_,rfl⟩
    rw [parse,PingMessage.raises_of_lt hlt]
    rfl

namespace Reference

/-- A version message of a relaying node at height 300. -/
def relayingVersion : VersionMessage := {sampleVersion with startHeight := 300, relay := true}

theorem fits_relayingVersion : relayingVersion.Fits :=
  ⟨fits_sampleVersion.version,fits_sampleVersion.services,fits_sampleVersion.timestamp,
    fits_sampleVersion.addrRecv,fits_sampleVersion.addrFrom,fits_sampleVersion.nonce,
    fits_sampleVersion.userAgent,by decide⟩

/-- The payload of the message. -/
def relayingPayload : Bytes := (relayingVersion.serialise.toOption).getD []

end Reference

open Reference in
theorem truncated_rejected_sample : (WireMessage.version relayingVersion).Rejects (relayingPayload.take 40) ↔
    (relayingPayload.take 40).length + 5 < relayingPayload.length := by
  have hraw : (WireMessage.version relayingVersion).serialise = .ok relayingPayload := by decide +kernel
  have hp : relayingPayload.take 40 <+: relayingPayload := List.take_prefix 40 relayingPayload
  have hne : relayingPayload.take 40 ≠ relayingPayload := by decide +kernel
  exact truncated_rejected_iff (m := .version relayingVersion) fits_relayingVersion hraw hp hne

open Reference in
/-- Cut by four bytes, the message is read as one from height 44 that does not relay. -/
theorem truncated_version_accepted : relayingVersion.Fits ∧ relayingVersion.serialise = .ok relayingPayload ∧
    relayingPayload.take 84 <+: relayingPayload ∧ relayingPayload.take 84 ≠ relayingPayload ∧
    VersionMessage.parse (relayingPayload.take 84) =
      .ok {relayingVersion with startHeight := 44, relay := false} :=
  ⟨fits_relayingVersion,by decide +kernel,List.take_prefix 84 relayingPayload,by decide +kernel,by decide +kernel⟩

end SubsatChannel
