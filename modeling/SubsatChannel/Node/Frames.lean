import SubsatChannel.Node.Headers
import SubsatChannel.Reference

/-! The frames of the wire protocol and the parser that takes one frame off a stream. -/
namespace SubsatChannel

def maxMessageSize : ℕ := 32 * 1024 * 1024

/-- `HEADER_SIZE` of the wire protocol: magic, command, length and checksum. -/
def frameHeaderSize : ℕ := 24

/-- `encode("ascii")`. The exception carries a text of the interpreter, which nothing reads. -/
def encodeAscii (s : String) : Except Fault Bytes :=
  if ∀ c ∈ s.toList, c.toNat < 128 then .ok (s.toList.map fun c => UInt8.ofNat c.toNat)
  else .error ⟨.valueError,""⟩

/-- `decode("ascii", errors="replace")` -/
def decodeAscii (bs : Bytes) : String :=
  String.ofList (bs.map fun b => if b.toNat < 128 then Char.ofNat b.toNat else '\uFFFD')

structure Frame where
  magic : Bytes
  command : String
  payload : Bytes
  deriving DecidableEq, Repr

/-- The first four bytes of the digest of a payload. -/
def frameChecksum (B : Bitcoinx) (payload : Bytes) : Bytes := (B.doubleSha256 payload).take 4

def Frame.serialise (B : Bitcoinx) (f : Frame) : Except Fault Bytes := do
  let cmd ← encodeAscii f.command
  if 12 < cmd.length then .error ⟨.p2pError,s!"command '{f.command}' > 12 bytes"⟩
  else if 2^32 ≤ f.payload.length then .error ⟨.overflowError,"int too big to convert"⟩
  else .ok (f.magic ++ (cmd ++ List.replicate (12 - cmd.length) 0) ++
    LittleEndian.encode 4 f.payload.length ++ frameChecksum B f.payload ++ f.payload)

/-- Parse one frame; the number of bytes it takes is returned with it. -/
def parseFrame (B : Bitcoinx) (data : Bytes) (expectMagic : Option Bytes) :
    Except Fault (Frame × ℕ) :=
  if data.length < frameHeaderSize then .error ⟨.p2pError,"incomplete frame: header"⟩
  else
    let magic := slice data 0 4
    let want := expectMagic.getD magic
    if magic ≠ want then
      .error ⟨.p2pError,s!"magic mismatch: got {hex magic}, expected {hex want}"⟩
    else
      let command := decodeAscii ((slice data 4 16).rdropWhile (· = 0))
      let length := LittleEndian.decode (slice data 16 20)
      if maxMessageSize < length then
        .error ⟨.p2pError,s!"message length {length} > MAX_MESSAGE_SIZE"⟩
      else if data.length < frameHeaderSize + length then
        .error ⟨.p2pError,"incomplete frame: payload"⟩
      else
        let payload := slice data frameHeaderSize (frameHeaderSize + length)
        if frameChecksum B payload ≠ slice data 20 24 then
          .error ⟨.p2pError,"frame checksum mismatch"⟩
        else .ok (⟨magic,command,payload⟩,frameHeaderSize + length)

/-- Parse a number of frames one after the other, dropping what each of them takes. -/
def parseFrames (B : Bitcoinx) (expectMagic : Option Bytes) : ℕ → Bytes →
    Except Fault (List Frame × Bytes)
  | 0, data => .ok ([],data)
  | n+1, data => do
    let (f,consumed) ← parseFrame B data expectMagic
    let (fs,rest) ← parseFrames B expectMagic n (data.drop consumed)
    .ok (f :: fs,rest)

/-- A frame that fits the layout: a magic of four bytes, a command of at most twelve ASCII characters
that does not end in NUL, a payload within the cap. -/
structure Frame.Fits (magic : Bytes) (f : Frame) : Prop where
  magic_eq : f.magic = magic
  magic_length : magic.length = 4
  ascii : ∀ c ∈ f.command.toList, c.toNat < 128
  command_length : f.command.toList.length ≤ 12
  command_last : f.command.toList.getLast? ≠ some (Char.ofNat 0)
  payload_length : f.payload.length ≤ maxMessageSize

/-- The parser asks for more bytes. -/
def IncompleteFrame (e : Fault) : Prop := ∃ part, e = ⟨.p2pError,"incomplete frame" ++ part⟩

section Ascii
variable {s : String}

theorem decodeAscii_encode (h : ∀ c ∈ s.toList, c.toNat < 128) :
    decodeAscii (s.toList.map fun c => UInt8.ofNat c.toNat) = s := by
  have hid : ∀ c ∈ s.toList, (if (UInt8.ofNat c.toNat).toNat < 128 then
      Char.ofNat (UInt8.ofNat c.toNat).toNat else '\uFFFD') = c := by
    intro c hc
    have hlt := h c hc
    have hbyte : (UInt8.ofNat c.toNat).toNat = c.toNat := by
      simp only [UInt8.toNat_ofNat']
      omega
    rw [hbyte,if_pos hlt,Char.ofNat_toNat]
  rw [decodeAscii,List.map_map]
  have hmap : s.toList.map ((fun b : UInt8 => if b.toNat < 128 then Char.ofNat b.toNat else '\uFFFD') ∘
      fun c => UInt8.ofNat c.toNat) = s.toList := by
    conv_rhs => rw [← List.map_id s.toList]
    exact List.map_congr_left hid
  rw [hmap,String.ofList_toList]

/-- Stripping the padding gives back the command. -/
theorem rdropWhile_padded {bs : Bytes} (h : bs.getLast? ≠ some 0) (k : ℕ) :
    (bs ++ List.replicate k 0).rdropWhile (· = 0) = bs := by
  induction k with
  | zero =>
    rw [List.replicate_zero,List.append_nil,List.rdropWhile_eq_self_iff]
    intro hne
    rw [List.getLast?_eq_some_getLast hne] at h
    simpa using h
  | succ k ih =>
    rw [List.replicate_succ',← List.append_assoc,List.rdropWhile_concat_pos _ _ _ (by simp)]
    exact ih

theorem getLast?_encode (h : ∀ c ∈ s.toList, c.toNat < 128)
    (hl : s.toList.getLast? ≠ some (Char.ofNat 0)) :
    (s.toList.map fun c => UInt8.ofNat c.toNat).getLast? ≠ some 0 := by
  rw [List.getLast?_map]
  intro he
  obtain ⟨c,hc,hz⟩ := Option.map_eq_some_iff.mp he
  have hlt := h c (List.mem_of_getLast? hc)
  have hzero : c.toNat = 0 := by
    have hbyte := congrArg UInt8.toNat hz
    simp only [UInt8.toNat_ofNat',UInt8.toNat_zero] at hbyte
    omega
  refine hl ?_
  rw [hc,← hzero,Char.ofNat_toNat]

end Ascii

section Layout
variable {B : Bitcoinx} {m : Bytes} {f : Frame}

/-- The command field of a frame. -/
def Frame.commandField (f : Frame) : Bytes :=
  (f.command.toList.map fun c => UInt8.ofNat c.toNat) ++ List.replicate (12 - f.command.toList.length) 0

/-- The bytes of a frame in front of its payload. -/
def Frame.header (B : Bitcoinx) (f : Frame) : Bytes :=
  f.magic ++ (f.commandField ++ (LittleEndian.encode 4 f.payload.length ++ frameChecksum B f.payload))

theorem Frame.Fits.serialise_eq (h : f.Fits m) : f.serialise B = .ok (f.header B ++ f.payload) := by
  have hcap := h.payload_length
  have hlen : ¬ 2^32 ≤ f.payload.length := by unfold maxMessageSize at hcap; omega
  have hcmd : ¬ 12 < f.command.toList.length := not_lt.mpr h.command_length
  have hascii : encodeAscii f.command = .ok (f.command.toList.map fun c => UInt8.ofNat c.toNat) :=
    if_pos h.ascii
  rw [Frame.serialise,hascii]
  dsimp only [bind,Except.bind]
  rw [List.length_map,if_neg hcmd,if_neg hlen,Frame.header,Frame.commandField]
  simp only [List.append_assoc]

theorem Frame.Fits.length_commandField (h : f.Fits m) : f.commandField.length = 12 := by
  have hc := h.command_length
  simp only [Frame.commandField,List.length_append,List.length_map,List.length_replicate]
  omega

theorem length_frameChecksum (hB : ∀ data, (B.doubleSha256 data).length = 32) (payload : Bytes) :
    (frameChecksum B payload).length = 4 := by
  rw [frameChecksum,List.length_take,hB]
  rfl

theorem Frame.Fits.length_header (hB : ∀ data, (B.doubleSha256 data).length = 32) (h : f.Fits m) :
    (f.header B).length = frameHeaderSize := by
  simp only [Frame.header,List.length_append,h.magic_eq,h.magic_length,h.length_commandField,
    LittleEndian.encode_length,length_frameChecksum hB,frameHeaderSize]

/-- A field of a buffer that starts with the fields in front of it. -/
theorem slice_append {i j : ℕ} {before field rest : Bytes} (hi : before.length = i)
    (hj : i + field.length = j) : slice (before ++ (field ++ rest)) i j = field := by
  rw [slice,List.drop_left' hi]
  exact List.take_left' (by omega)

/-- The fields that the parser reads off the header of a frame. -/
structure Frame.Fields (B : Bitcoinx) (f : Frame) (data : Bytes) : Prop where
  magic : slice data 0 4 = f.magic
  command : slice data 4 16 = f.commandField
  length : slice data 16 20 = LittleEndian.encode 4 f.payload.length
  checksum : slice data 20 24 = frameChecksum B f.payload

theorem Frame.Fits.fields (hB : ∀ data, (B.doubleSha256 data).length = 32) (h : f.Fits m)
    (rest : Bytes) : f.Fields B (f.header B ++ rest) := by
  have hm : f.magic.length = 4 := by rw [h.magic_eq,h.magic_length]
  have hc := h.length_commandField
  have hk := length_frameChecksum hB f.payload
  have hall : f.header B ++ rest = f.magic ++ (f.commandField ++
      (LittleEndian.encode 4 f.payload.length ++ (frameChecksum B f.payload ++ rest))) := by
    simp only [Frame.header,List.append_assoc]
  refine ⟨?_,?_,?_,?_⟩
  · rw [hall]
    have hempty : ([] : Bytes).length = 0 := rfl
    exact slice_append hempty (by rw [hm])
  · rw [hall]
    exact slice_append hm (by rw [hc])
  · rw [hall,← List.append_assoc]
    exact slice_append (by rw [List.length_append,hm,hc]) (by rw [LittleEndian.encode_length])
  · rw [hall,← List.append_assoc,← List.append_assoc]
    exact slice_append (by rw [List.length_append,List.length_append,hm,hc,LittleEndian.encode_length])
      (by rw [hk])

/-- On a buffer that starts with the header of a frame, the parser only looks at how much of the
payload is there. -/
theorem Frame.Fits.parse_header (hB : ∀ data, (B.doubleSha256 data).length = 32) (h : f.Fits m)
    {expect : Option Bytes} (he : expect = none ∨ expect = some m) (rest : Bytes) :
    parseFrame B (f.header B ++ rest) expect =
      if rest.length < f.payload.length then .error ⟨.p2pError,"incomplete frame: payload"⟩
      else if frameChecksum B (rest.take f.payload.length) ≠ frameChecksum B f.payload then
        .error ⟨.p2pError,"frame checksum mismatch"⟩
      else .ok (⟨m,f.command,rest.take f.payload.length⟩,frameHeaderSize + f.payload.length) := by
  have hf := h.fields hB rest
  have hlen := h.length_header hB
  have hcap := h.payload_length
  have hshort : ¬ (f.header B ++ rest).length < frameHeaderSize := by
    rw [List.length_append,hlen]
    omega
  have hmagic : ¬ m ≠ expect.getD m := by
    rcases he with rfl | rfl <;> simp
  have hsize : LittleEndian.decode (LittleEndian.encode 4 f.payload.length) = f.payload.length :=
    LittleEndian.decode_encode_of_lt (by unfold maxMessageSize at hcap; omega)
  have hcommand : decodeAscii (f.commandField.rdropWhile (· = 0)) = f.command := by
    rw [Frame.commandField,rdropWhile_padded (getLast?_encode h.ascii h.command_last)]
    exact decodeAscii_encode h.ascii
  have hpayload : slice (f.header B ++ rest) frameHeaderSize (frameHeaderSize + f.payload.length) =
      rest.take f.payload.length := by
    rw [slice,List.drop_left' hlen,Nat.add_sub_cancel_left]
  have hthere : (f.header B ++ rest).length < frameHeaderSize + f.payload.length ↔
      rest.length < f.payload.length := by
    rw [List.length_append,hlen]
    omega
  simp only [parseFrame,hf.magic,hf.command,hf.length,hf.checksum,hsize,hcommand,hpayload,hthere,h.magic_eq]
  rw [if_neg hshort,if_neg hmagic,if_neg (not_lt.mpr hcap)]

/-- Reading back a serialised frame from the front of a stream. -/
theorem Frame.Fits.parse (hB : ∀ data, (B.doubleSha256 data).length = 32) (h : f.Fits m)
    {expect : Option Bytes} (he : expect = none ∨ expect = some m) (rest : Bytes) :
    parseFrame B (f.header B ++ f.payload ++ rest) expect =
      .ok (f,(f.header B ++ f.payload).length) := by
  have htake : (f.payload ++ rest).take f.payload.length = f.payload := List.take_left' rfl
  have hthere : ¬ (f.payload ++ rest).length < f.payload.length := by simp
  have hlen : (f.header B ++ f.payload).length = frameHeaderSize + f.payload.length := by
    rw [List.length_append,h.length_header hB]
  rw [List.append_assoc,h.parse_header hB he,if_neg hthere,htake,if_neg (not_not.mpr rfl),hlen,
    ← h.magic_eq]

/-- The parser finds every strict prefix of a frame incomplete. -/
theorem Frame.Fits.parse_prefix (hB : ∀ data, (B.doubleSha256 data).length = 32) (h : f.Fits m)
    {expect : Option Bytes} (he : expect = none ∨ expect = some m) {data more : Bytes}
    (hmore : more ≠ []) (hd : data ++ more = f.header B ++ f.payload) :
    ∃ e, parseFrame B data expect = .error e ∧ IncompleteFrame e := by
  have hlen := h.length_header hB
  by_cases hshort : data.length < frameHeaderSize
  · exact ⟨⟨.p2pError,"incomplete frame: header"⟩,by rw [parseFrame,if_pos hshort],": header",rfl⟩
  · -- the prefix ends inside the payload
    obtain ⟨part,rfl⟩ : ∃ part, data = f.header B ++ part := by
      have hpre : f.header B <+: data :=
        List.prefix_of_prefix_length_le ⟨f.payload,hd.symm⟩ ⟨more,rfl⟩ (by omega)
      obtain ⟨part,hpart⟩ := hpre
      exact ⟨part,hpart.symm⟩
    have hpart : part.length < f.payload.length := by
      have hpos := List.length_pos_iff.mpr hmore
      have htotal := congrArg List.length hd
      simp only [List.length_append] at htotal
      omega
    refine ⟨⟨.p2pError,"incomplete frame: payload"⟩,?_,": payload",rfl⟩
    rw [h.parse_header hB he,if_pos hpart]

end Layout

/-- A stream of frames: the parser gives back every frame in order and leaves what follows them, and
it finds every strict prefix of a frame incomplete. -/
theorem frame_stream_decodes {B : Bitcoinx} (hB : ∀ data, (B.doubleSha256 data).length = 32)
    (m : Bytes) :
    (∀ frames : List Frame, (∀ f ∈ frames, f.Fits m) → ∃ raws, frames.mapM (Frame.serialise B) = .ok raws ∧
      ∀ rest, parseFrames B (some m) frames.length (raws.flatten ++ rest) = .ok (frames,rest)) ∧
    ∀ f : Frame, f.Fits m → ∃ raw, f.serialise B = .ok raw ∧
      ∀ data more, more ≠ [] → data ++ more = raw → ∀ expect, expect = none ∨ expect = some m →
        ∃ e, parseFrame B data expect = .error e ∧ IncompleteFrame e := by
  constructor
  · intro frames hframes
    have hraws := mapM_eq_ok (f := Frame.serialise B) (g := fun f => f.header B ++ f.payload)
      fun f hf => (hframes f hf).serialise_eq
    refine ⟨_,hraws,fun rest => ?_⟩
    induction frames with
    | nil => rfl
    | cons f frames ih =>
      have hrest := ih (fun g hg => hframes g (by simp [hg]))
        (mapM_eq_ok fun g hg => (hframes g (by simp [hg])).serialise_eq)
      have hfirst := (hframes f (by simp)).parse hB (.inr rfl)
        ((frames.map fun f => f.header B ++ f.payload).flatten ++ rest)
      rw [List.map_cons,List.flatten_cons,List.append_assoc (f.header B ++ f.payload),List.length_cons,
        parseFrames,hfirst]
      simp only [bind,Except.bind,List.drop_left,hrest]
  · intro f hf
    exact ⟨_,hf.serialise_eq,fun data more hmore hd expect he => hf.parse_prefix hB he hmore hd⟩

namespace Reference

theorem length_doubleSha256 (made : Bytes → Bytes → Bool) (data : Bytes) :
    ((reference made).doubleSha256 data).length = 32 :=
  LittleEndian.encode_length 32 _

def samplePing : Frame := ⟨[0xDA,0xB5,0xBF,0xFA],"ping",[1,2,3,4,5,6,7,8]⟩

theorem fits_samplePing : samplePing.Fits [0xDA,0xB5,0xBF,0xFA] :=
  ⟨rfl,rfl,by simp [samplePing],by simp [samplePing],by simp [samplePing],by simp [samplePing,maxMessageSize]⟩

end Reference

open Reference in
theorem frame_stream_decodes_sample : ∃ raws,
    [samplePing,samplePing].mapM (Frame.serialise (reference anyone)) = .ok raws ∧
    parseFrames (reference anyone) (some [0xDA,0xB5,0xBF,0xFA]) 2 (raws.flatten ++ [9]) =
      .ok ([samplePing,samplePing],[9]) := by
  have hfit : ∀ f ∈ [samplePing,samplePing], f.Fits [0xDA,0xB5,0xBF,0xFA] := by
    intro f hf
    simp only [List.mem_cons,List.not_mem_nil,or_false,or_self] at hf
    rw [hf]
    exact fits_samplePing
  obtain ⟨raws,hraws,hparse⟩ := (frame_stream_decodes (length_doubleSha256 anyone)
    [0xDA,0xB5,0xBF,0xFA]).1 [samplePing,samplePing] hfit
  exact ⟨raws,hraws,hparse [9]⟩

end SubsatChannel
