import Mathlib
import SubsatChannel.Node.P2p

/-! Block headers and the header store with its choice of the chain with most work. -/
namespace SubsatChannel

def headerSize : ℕ := 80

/-- The hash of an 80-byte header. Raw headers enter the node through `HeaderStore.connect`,
which checks their length first. -/
def headerHash (B : Bitcoinx) (raw : Bytes) : Bytes := B.doubleSha256 raw

/-- Decode a compact target. -/
def bitsToTarget (bits : ℕ) : ℕ :=
  let exponent := bits >>> 24
  let mantissa := bits &&& 0x007FFFFF
  if exponent ≤ 3 then mantissa >>> (8*(3-exponent)) else mantissa <<< (8*(exponent-3))

def hashToInt (h : Bytes) : ℕ := LittleEndian.decode h

/-- Bytes `i` to `j` of a raw header. -/
def slice (raw : Bytes) (i j : ℕ) : Bytes := (raw.drop i).take (j-i)

structure Header where
  raw : Bytes
  height : ℕ
  cumulativeWork : ℕ
  deriving DecidableEq, Repr

def rawPrevHash (raw : Bytes) : Bytes := slice raw 4 36
def rawBits (raw : Bytes) : ℕ := LittleEndian.decode (slice raw 72 76)

def Header.hash (B : Bitcoinx) (hd : Header) : Bytes := headerHash B hd.raw
def Header.prevHash (hd : Header) : Bytes := rawPrevHash hd.raw

def buildRawHeader (version : ℤ) (prevHash merkleRoot : Bytes) (timestamp bits nonce : ℕ) :
    Except Fault Bytes :=
  if prevHash.length ≠ 32 then
    .error ⟨.headerError,s!"prev_hash must be 32 bytes (got {prevHash.length})"⟩
  else if merkleRoot.length ≠ 32 then
    .error ⟨.headerError,s!"merkle_root must be 32 bytes (got {merkleRoot.length})"⟩
  else if version < -2^31 ∨ 2^31 ≤ version then
    .error ⟨.overflowError,"int too big to convert"⟩
  else .ok (LittleEndian.encode 4 (version % 2^32).toNat ++ prevHash ++ merkleRoot ++
    LittleEndian.encode 4 timestamp ++ LittleEndian.encode 4 bits ++ LittleEndian.encode 4 nonce)

/-- The expected number of hashes behind a header with these bits. -/
def workForBits (bits : ℕ) : ℕ :=
  let target := bitsToTarget bits
  if target ≤ 0 then 0 else 2^256 / (target+1)

/-- A header that passes the checks that do not depend on a store. -/
structure ValidHeader (B : Bitcoinx) (raw : Bytes) : Prop where
  length : raw.length = headerSize
  target : 0 < bitsToTarget (rawBits raw)
  pow : hashToInt (headerHash B raw) ≤ bitsToTarget (rawBits raw)

structure HeaderStore where
  byHash : Finmap fun _ : Bytes => Header
  tipHash : Bytes

namespace HeaderStore

def withGenesis (B : Bitcoinx) (raw : Bytes) : HeaderStore where
  byHash := (∅ : Finmap fun _ : Bytes => Header).insert (headerHash B raw)
    ⟨raw,0,workForBits (rawBits raw)⟩
  tipHash := headerHash B raw

def lookup (hs : HeaderStore) (h : Bytes) : Option Header := hs.byHash.lookup h

def tip (hs : HeaderStore) : Option Header := hs.lookup hs.tipHash

/-- The height of the tip. The tip is always stored, so the default is never read. -/
def height (hs : HeaderStore) : ℕ := (hs.tip.map Header.height).getD 0

/-- Validate a raw header and connect it below its parent. -/
def connect (B : Bitcoinx) (hs : HeaderStore) (raw : Bytes) : HeaderStore × Except Fault Header :=
  if raw.length ≠ headerSize then (hs,.error ⟨.headerError,"connect: header must be 80 bytes"⟩)
  else
    let h := headerHash B raw
    match hs.lookup h with
    | some known => (hs,.ok known)
    | none =>
      match hs.lookup (rawPrevHash raw) with
      | none => (hs,.error
          ⟨.headerError,s!"connect: parent {hex (rawPrevHash raw).reverse} not found"⟩)
      | some parent =>
        let target := bitsToTarget (rawBits raw)
        if target ≤ 0 then
          (hs,.error ⟨.headerError,s!"connect: target <= 0 from bits {hexNat (rawBits raw)}"⟩)
        else if target < hashToInt h then (hs,.error ⟨.headerError,
          s!"connect: PoW failed (hash {hex h.reverse} > target {hexNat target})"⟩)
        else
          let new : Header := ⟨raw,parent.height+1,
            parent.cumulativeWork + workForBits (rawBits raw)⟩
          let grown := { hs with byHash := hs.byHash.insert h new }
          match grown.tip with
          | none => (grown,.error ⟨.keyError,""⟩)
          | some tip =>
            if tip.cumulativeWork < new.cumulativeWork then ({ grown with tipHash := h },.ok new)
            else (grown,.ok new)

/-- The loop of `chain_from_tip`. There is no answer when the fuel runs out. -/
def chainLoop (hs : HeaderStore) (n : Option ℕ) : ℕ → Option Header → List Header → Option (List Header)
  | 0, _, _ => none
  | _+1, none, out => some out
  | fuel+1, some hd, out =>
    if hd.height = 0 ∨ n.any (fun n => decide (n ≤ out.length+1)) then some (out ++ [hd])
    else chainLoop hs n fuel (hs.lookup hd.prevHash) (out ++ [hd])

/-- The headers from the tip back to genesis, or the first `n` of them. -/
def chainFromTip (hs : HeaderStore) (n : Option ℕ) (fuel : ℕ) : Option (List Header) :=
  chainLoop hs n fuel hs.tip []

/-- The loop of `header_at_height`. -/
def heightLoop (hs : HeaderStore) (height : ℤ) : ℕ → Option Header → Option (Option Header)
  | 0, _ => none
  | _+1, none => some none
  | fuel+1, some hd =>
    if hd.height = height then some (some hd) else heightLoop hs height fuel (hs.lookup hd.prevHash)

def headerAtHeight (hs : HeaderStore) (height : ℤ) (fuel : ℕ) : Option (Option Header) :=
  if height < 0 ∨ hs.height < height then some none else heightLoop hs height fuel hs.tip

end HeaderStore
end SubsatChannel
