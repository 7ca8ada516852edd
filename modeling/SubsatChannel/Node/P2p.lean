import SubsatChannel.Errors
import SubsatChannel.Bitcoinx
import SubsatChannel.Lib.LittleEndian

/-! Variable-length integers of the wire protocol. -/
namespace SubsatChannel

def encodeVarint (n : ℕ) : Except Fault Bytes :=
  if n < 0xFD then .ok [UInt8.ofNat n]
  else if n ≤ 0xFFFF then .ok (0xFD :: LittleEndian.encode 2 n)
  else if n ≤ 0xFFFFFFFF then .ok (0xFE :: LittleEndian.encode 4 n)
  else if n < 2^64 then .ok (0xFF :: LittleEndian.encode 8 n)
  else .error ⟨.overflowError,"int too big to convert"⟩

/-- The fixed-width tail of a varint. -/
def readFixed (width : ℕ) (text : String) (buf : Bytes) : Except Fault (ℕ × Bytes) :=
  if (buf.take width).length ≠ width then .error ⟨.p2pError,text⟩
  else .ok (LittleEndian.decode (buf.take width),buf.drop width)

/-- Read a varint from a stream; the rest of the stream is returned with it. -/
def readVarint : Bytes → Except Fault (ℕ × Bytes)
  | [] => .error ⟨.p2pError,"EOF reading varint prefix"⟩
  | b :: buf =>
    let v := b.toNat
    if v < 0xFD then .ok (v,buf)
    else if v = 0xFD then readFixed 2 "short varint(2)" buf
    else if v = 0xFE then readFixed 4 "short varint(4)" buf
    else readFixed 8 "short varint(8)" buf

theorem readFixed_encode (width n : ℕ) (text : String) (rest : Bytes) (h : n < 256^width) :
    readFixed width text (LittleEndian.encode width n ++ rest) = .ok (n,rest) := by
  have ht : (LittleEndian.encode width n ++ rest).take width = LittleEndian.encode width n :=
    List.take_left' (LittleEndian.encode_length width n)
  have hd : (LittleEndian.encode width n ++ rest).drop width = rest :=
    List.drop_left' (LittleEndian.encode_length width n)
  simp [readFixed,ht,hd,LittleEndian.decode_encode_of_lt h]

/-- Reading back an encoded length gives the length and leaves the rest of the stream. -/
theorem readVarint_encodeVarint {n : ℕ} {bs : Bytes} (h : encodeVarint n = .ok bs) (rest : Bytes) :
    readVarint (bs ++ rest) = .ok (n,rest) := by
  unfold encodeVarint at h
  split_ifs at h with h1 h2 h4 h8
  · cases h
    have hb : (UInt8.ofNat n).toNat = n := by
      simp only [UInt8.toNat_ofNat']
      omega
    simp [readVarint,hb,h1]
  · cases h
    simp [readVarint,readFixed_encode 2 n _ rest (by omega)]
  · cases h
    simp [readVarint,readFixed_encode 4 n _ rest (by omega)]
  · cases h
    simp [readVarint,readFixed_encode 8 n _ rest (by omega)]

theorem encodeVarint_of_lt {n : ℕ} (h : n < 2^64) : ∃ bs, encodeVarint n = .ok bs := by
  unfold encodeVarint
  split_ifs
  exacts [⟨_,rfl⟩,⟨_,rfl⟩,⟨_,rfl⟩,⟨_,rfl⟩]

end SubsatChannel
