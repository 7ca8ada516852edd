import SubsatChannel.Node.Headers

/-! Merkle roots and the wire format of blocks. -/
namespace SubsatChannel

/-- Hash the elements of one level in pairs. -/
def merklePairs (B : Bitcoinx) : List Bytes → List Bytes
  | a :: b :: rest => B.doubleSha256 (a ++ b) :: merklePairs B rest
  | _ => []

/-- One pass of the level loop: a level of odd length repeats its last element. -/
def merkleLevel (B : Bitcoinx) (level : List Bytes) : List Bytes :=
  merklePairs B (if level.length % 2 = 1 then level ++ level.getLast?.toList else level)

def merkleLoop (B : Bitcoinx) : ℕ → List Bytes → List Bytes
  | 0, level => level
  | fuel+1, level => if level.length ≤ 1 then level else merkleLoop B fuel (merkleLevel B level)

/-- The merkle root of a list of txids. Every pass shortens a level of two or more elements,
so the length of the list bounds the number of passes. -/
def merkleRoot (B : Bitcoinx) (txids : List Bytes) : Bytes :=
  if txids = [] then List.replicate 32 0
  else ((merkleLoop B txids.length txids).head?).getD []

def serialiseBlock (B : Bitcoinx) (header : Bytes) (txs : List Tx) : Except Fault Bytes :=
  if header.length ≠ headerSize then
    .error ⟨.valueError,s!"header must be 80 bytes (got {header.length})"⟩
  else do
    let count ← encodeVarint txs.length
    if txs.all B.packs then .ok (header ++ count ++ txs.flatMap B.txToBytes)
    else .error ⟨.structError,""⟩

/-- Read a number of transactions from a stream. -/
def readTxs (B : Bitcoinx) : ℕ → Bytes → Except Fault (List Tx)
  | 0, _ => .ok []
  | n+1, buf =>
    match B.txRead buf with
    | none => .error ⟨.streamError,""⟩
    | some (tx,rest) =>
      match readTxs B n rest with
      | .error e => .error e
      | .ok txs => .ok (tx :: txs)

def parseBlock (B : Bitcoinx) (raw : Bytes) : Except Fault (Bytes × List Tx) :=
  if raw.length < headerSize then .error ⟨.valueError,"block too short"⟩
  else
    match readVarint (raw.drop headerSize) with
    | .error e => .error e
    | .ok (n,buf) =>
      match readTxs B n buf with
      | .error e => .error e
      | .ok txs => .ok (raw.take headerSize,txs)

/-- `Tx.read` is the inverse of `Tx.to_bytes` on these transactions: each is written, and read back from the
front of any stream. -/
def ReadsBack (B : Bitcoinx) (txs : List Tx) : Prop :=
  ∀ tx ∈ txs, B.packs tx = true ∧ ∀ rest, B.txRead (B.txToBytes tx ++ rest) = some (tx,rest)

theorem readTxs_flatMap {B : Bitcoinx} {txs : List Tx} (h : ReadsBack B txs) :
    readTxs B txs.length (txs.flatMap B.txToBytes) = .ok txs := by
  induction txs with
  | nil => rfl
  | cons tx txs ih =>
    have ht := (h tx (by simp)).2 (txs.flatMap B.txToBytes)
    have hr := ih (fun t ht => h t (by simp [ht]))
    simp [readTxs,ht,hr]

/-- A block that was serialised parses back to its header and its transactions. -/
theorem parseBlock_serialiseBlock {B : Bitcoinx} {header raw : Bytes} {txs : List Tx}
    (hr : ReadsBack B txs) (h : serialiseBlock B header txs = .ok raw) :
    parseBlock B raw = .ok (header,txs) := by
  unfold serialiseBlock at h
  split_ifs at h with hl hpacks
  · obtain ⟨count,hc,h⟩ := bind_eq_ok.mp h
    have hl' : header.length = headerSize := not_not.mp hl
    cases h
    have hd : (header ++ count ++ txs.flatMap B.txToBytes).drop headerSize =
        count ++ txs.flatMap B.txToBytes := by
      rw [List.append_assoc]
      exact List.drop_left' hl'
    have ht : (header ++ count ++ txs.flatMap B.txToBytes).take headerSize = header := by
      rw [List.append_assoc]
      exact List.take_left' hl'
    have hlen : ¬ (header ++ count ++ txs.flatMap B.txToBytes).length < headerSize := by
      simp only [List.length_append]
      omega
    simp only [parseBlock,hlen,if_false,hd,ht,readVarint_encodeVarint hc,readTxs_flatMap hr]
  · obtain ⟨_,_,h⟩ := bind_eq_ok.mp h
    cases h

theorem serialiseBlock_of_lt (B : Bitcoinx) {header : Bytes} {txs : List Tx}
    (hl : header.length = headerSize) (h : txs.length < 2^64) (hpacks : ∀ tx ∈ txs, B.packs tx = true) :
    ∃ raw, serialiseBlock B header txs = .ok raw := by
  obtain ⟨count,hc⟩ := encodeVarint_of_lt h
  have hall : txs.all B.packs = true := List.all_eq_true.mpr hpacks
  exact ⟨header ++ count ++ txs.flatMap B.txToBytes,by
    simp [serialiseBlock,hl,hc,hall,bind,Except.bind]⟩

end SubsatChannel
