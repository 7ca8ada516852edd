import SubsatChannel.Node.Block
import SubsatChannel.Watchtower.Tower

/-! The embedded node: mining, accepting blocks from outside, and reorganisation of the set of
unspent outputs onto a heavier chain. -/
namespace SubsatChannel

def regtestBits : ℕ := 0x207FFFFF
def regtestVersion : ℤ := 1
def regtestGenesisPrev : Bytes := List.replicate 32 0

def makeRegtestGenesis (timestamp : ℕ) : Except Fault Bytes :=
  buildRawHeader regtestVersion regtestGenesisPrev (List.replicate 32 0) timestamp regtestBits 0

/-- A block height as a script number: a byte with its top bit set is followed by a zero. -/
def heightBytes (height : ℕ) : Bytes :=
  if height = 0 then []
  else
    let buf := LittleEndian.minimal height
    if (buf.getLast?.getD 0) &&& 0x80 ≠ 0 then buf ++ [0] else buf

def makeCoinbase (payoutValue : ℤ) (payoutScript : Script) (height : ℕ) (extra : Bytes) : Tx :=
  let scriptSig := if extra = [] then [ScriptItem.push (heightBytes height)]
    else [ScriptItem.push (heightBytes height),ScriptItem.push extra]
  ⟨1,[⟨List.replicate 32 0,0xFFFFFFFF,scriptSig,0xFFFFFFFF⟩],[⟨payoutValue,payoutScript⟩],0⟩

/-- Try nonces in turn until the header meets the regtest target. -/
def mineFrom (B : Bitcoinx) (prevHash root : Bytes) (timestamp : ℕ) : ℕ → ℕ → Except Fault Bytes
  | 0, _ => .error ⟨.runtimeError,"regtest mine: nonce exhausted (shouldn't happen)"⟩
  | tries+1, nonce =>
    match buildRawHeader regtestVersion prevHash root timestamp regtestBits nonce with
    | .error e => .error e
    | .ok raw =>
      if hashToInt (headerHash B raw) ≤ bitsToTarget regtestBits then .ok raw
      else mineFrom B prevHash root timestamp tries (nonce+1)

/-- The nonces from 0 to 1 000 000 are tried. -/
def mineHeader (B : Bitcoinx) (prevHash root : Bytes) (timestamp : ℕ) : Except Fault Bytes :=
  mineFrom B prevHash root timestamp 1000001 0

structure EmbeddedNode where
  blockstore : BlockStore
  headers : HeaderStore
  mempool : Mempool Tower
  genesis : Bytes
  coinbaseReward : ℤ
  /-- The outputs each connected block consumed. -/
  undoLog : Finmap fun _ : Bytes => List (Outpoint × UtxoEntry)
  /-- The outpoints each connected block created. -/
  createdLog : Finmap fun _ : Bytes => List Outpoint

namespace EmbeddedNode

/-- A node as the constructor leaves it, with towers attached to its mempool. -/
def init (B : Bitcoinx) (coinbaseReward : ℤ) (towers : List Tower) : EmbeddedNode :=
  let genesis := (makeRegtestGenesis 1700000000).toOption.getD []
  { blockstore := BlockStore.storeBlock ⟨∅,∅⟩ (headerHash B genesis) 0 genesis
    headers := HeaderStore.withGenesis B genesis
    mempool := Mempool.fresh towers
    genesis := genesis
    coinbaseReward := coinbaseReward
    undoLog := ∅
    createdLog := ∅ }

def utxos (n : EmbeddedNode) : UtxoSet := n.blockstore.utxos
def height (n : EmbeddedNode) : ℕ := n.headers.height
def genesisHash (B : Bitcoinx) (n : EmbeddedNode) : Bytes := headerHash B n.genesis

def submitTx (B : Bitcoinx) (depth : ℕ) (n : EmbeddedNode) (tx : Tx) :
    Option (EmbeddedNode × Except Fault ValidationResult) :=
  (n.mempool.admitTx B (Tower.observe B) n.utxos depth tx).map fun r =>
    ({ n with mempool := r.1 },r.2)

/-- Evict transactions by id, one after the other. -/
def evictAll (B : Bitcoinx) (depth : ℕ) : List Bytes → EmbeddedNode → Option EmbeddedNode
  | [], n => some n
  | txid :: txids, n =>
    match n.mempool.evict B (Tower.observe B) n.utxos depth txid with
    | none => none
    | some (m,_) => evictAll B depth txids { n with mempool := m }

/-- What connecting a block to a set of unspent outputs consumes from it. -/
def undoOf (B : Bitcoinx) (U : UtxoSet) (txs : List Tx) : List (Outpoint × UtxoEntry) :=
  txs.flatMap fun tx => (UtxoSet.spentBy B tx).filterMap fun o => (U.lookup o).map fun e => (o,e)

/-- What a block creates. -/
def createdOf (B : Bitcoinx) (txs : List Tx) : List Outpoint := txs.flatMap (UtxoSet.createdBy B)

/-- The node with a block applied to its unspent outputs, and with the record of how to undo it. -/
def connected (B : Bitcoinx) (n : EmbeddedNode) (hash : Bytes) (height : ℕ) (txs : List Tx) : EmbeddedNode :=
  { n with
    blockstore := n.blockstore.connectBlockUtxos B height txs
    undoLog := n.undoLog.insert hash (undoOf B n.utxos txs)
    createdLog := n.createdLog.insert hash (createdOf B txs) }

/-- Apply a block to the unspent outputs and record how to undo it. The transactions are looked at before
anything changes, and the first that `hash()` or `is_coinbase()` raises on ends it. -/
def connectBlockWithUndo (B : Bitcoinx) (n : EmbeddedNode) (hash : Bytes) (height : ℕ)
    (txs : List Tx) : Except Fault EmbeddedNode :=
  match txs.findSome? (Tx.fault B) with
  | some e => .error e
  | none => .ok (n.connected B hash height txs)

theorem connectBlockWithUndo_of_regular {B : Bitcoinx} {n : EmbeddedNode} {hash : Bytes} {height : ℕ}
    {txs : List Tx} (h : ∀ tx ∈ txs, tx.Regular B) :
    n.connectBlockWithUndo B hash height txs = .ok (n.connected B hash height txs) := by
  rw [connectBlockWithUndo,findSome?_fault_eq_none.mpr h]

/-- Connecting a block returns exactly when all its transactions are regular. -/
theorem connectBlockWithUndo_eq_ok {B : Bitcoinx} {n n' : EmbeddedNode} {hash : Bytes} {height : ℕ}
    {txs : List Tx} : n.connectBlockWithUndo B hash height txs = .ok n' ↔
      (∀ tx ∈ txs, tx.Regular B) ∧ n' = n.connected B hash height txs := by
  constructor
  · intro h
    rw [connectBlockWithUndo] at h
    split at h
    · cases h
    · rename_i hnone
      cases h
      exact ⟨findSome?_fault_eq_none.mp hnone,rfl⟩
  · rintro ⟨h,rfl⟩
    exact connectBlockWithUndo_of_regular h

/-- Remove what the block created, re-add what it consumed, forget the undo data. -/
def disconnectBlock (n : EmbeddedNode) (hash : Bytes) : EmbeddedNode :=
  let removed := ((n.createdLog.lookup hash).getD []).foldl
    (fun (s : BlockStore) o => if (s.getUtxo o).isSome then (s.spendUtxo o).1 else s) n.blockstore
  { n with
    blockstore := ((n.undoLog.lookup hash).getD []).foldl (fun s r => s.addUtxo r.1 r.2) removed
    undoLog := n.undoLog.erase hash
    createdLog := n.createdLog.erase hash }

/-- Walk back to the genesis header, which is left out. -/
def walkBack (B : Bitcoinx) (hs : HeaderStore) : ℕ → Option Header → List Bytes
  | fuel+1, some cur =>
    if 0 < cur.height then cur.hash B :: walkBack B hs fuel (hs.lookup cur.prevHash) else []
  | _, _ => []

/-- The hashes from a header back to genesis. Every step back lowers the height by one, so the
height of the header bounds the walk. -/
def pathTo (B : Bitcoinx) (n : EmbeddedNode) (h : Bytes) : List Bytes :=
  walkBack B n.headers (((n.headers.lookup h).map Header.height).getD 0) (n.headers.lookup h) ++
    (n.headers.lookup (n.genesisHash B)).toList.map (Header.hash B)

/-- Connect stored blocks in the given order. -/
def connectStored (B : Bitcoinx) (depth : ℕ) :
    List Bytes → EmbeddedNode → Option (EmbeddedNode × Except Fault Unit)
  | [], n => some (n,.ok ())
  | h :: hs, n =>
    match n.blockstore.getBlock h with
    | none => some (n,.error ⟨.runtimeError,s!"reorg: block {hex h.reverse} not in blockstore"⟩)
    | some raw =>
      match parseBlock B raw with
      | .error e => some (n,.error e)
      | .ok (_,txs) =>
        let height := ((n.headers.lookup h).map Header.height).getD 0
        match n.connectBlockWithUndo B h height txs with
        | .error e => some (n,.error e)
        | .ok connected =>
          match evictAll B depth (txs.map B.txHash) connected with
          | none => none
          | some n' => connectStored B depth hs n'

/-- Disconnect back to the common ancestor, then connect the new chain. -/
def reorgUtxos (B : Bitcoinx) (depth : ℕ) (n : EmbeddedNode) (fromTip toTip : Bytes) :
    Option (EmbeddedNode × Except Fault Unit) :=
  let oldPath := n.pathTo B fromTip
  let newPath := n.pathTo B toTip
  match newPath.find? (fun h => h ∈ oldPath) with
  | none => some (n,.error ⟨.runtimeError,"reorg: no common ancestor (corrupt header chain)"⟩)
  | some ancestor =>
    connectStored B depth (newPath.takeWhile (fun h => h ≠ ancestor)).reverse
      ((oldPath.takeWhile fun h => h ≠ ancestor).foldl disconnectBlock n)

/-- The part of `generate_block` that changes nothing: the block's transactions, which are validated and
hashed, and its mined header. -/
def assembleBlock (B : Bitcoinx) (n : EmbeddedNode) (payoutScript : Script)
    (includeMempool : Bool) (extraCoinbase : Bytes) (timestamp : ℕ) :
    Except Fault (Bytes × List Tx) :=
  match n.headers.tip with
  | none => .error ⟨.keyError,hex n.headers.tipHash⟩
  | some tip =>
    let included := if includeMempool then n.mempool.allTxs else []
    if included.any fun tx => tx.inputs.isEmpty then .error ⟨.indexError,"list index out of range"⟩
    else
      let fees := (included.map fun tx =>
        if (validateTx B tx n.utxos).ok then (validateTx B tx n.utxos).fee else 0).sum
      let coinbase := makeCoinbase (n.coinbaseReward + fees) payoutScript (tip.height+1) extraCoinbase
      let txs := coinbase :: included
      if txs.all B.packs then
        match mineHeader B (tip.hash B) (merkleRoot B (txs.map B.txHash)) timestamp with
        | .error e => .error e
        | .ok raw => .ok (raw,txs)
      else .error ⟨.structError,""⟩

/-- Mine a block and apply it. The wall clock is an argument. -/
def generateBlock (B : Bitcoinx) (depth : ℕ) (n : EmbeddedNode) (payoutScript : Script)
    (includeMempool : Bool) (extraCoinbase : Bytes) (timestamp : ℕ) :
    Option (EmbeddedNode × Except Fault (Bytes × List Tx)) :=
  match n.assembleBlock B payoutScript includeMempool extraCoinbase timestamp with
  | .error e => some (n,.error e)
  | .ok (raw,txs) =>
    match n.headers.connect B raw with
    | (hs,.error e) => some ({ n with headers := hs },.error e)
    | (hs,.ok _) =>
      let h := headerHash B raw
      match serialiseBlock B raw txs with
      | .error e => some ({ n with headers := hs },.error e)
      | .ok rawBlock =>
        let stored := { n with
          headers := hs
          blockstore := n.blockstore.storeBlock h (n.height+1) rawBlock }
        match stored.connectBlockWithUndo B h (n.height+1) txs with
        | .error e => some (stored,.error e)
        | .ok connected =>
          match evictAll B depth (txs.tail.map B.txHash) connected with
          | none => none
          | some n' => some (n',.ok (h,txs))

/-- Accept a block from outside; reorganise if it makes a fork the heaviest chain. -/
def acceptBlock (B : Bitcoinx) (depth : ℕ) (n : EmbeddedNode) (raw : Bytes) (txs : List Tx) :
    Option (EmbeddedNode × Except Fault Unit) :=
  let prevTip := n.headers.tipHash
  match n.headers.connect B raw with
  | (hs,.error e) => some ({ n with headers := hs },.error e)
  | (hs,.ok _) =>
    let h := headerHash B raw
    match hs.lookup h with
    | none => some ({ n with headers := hs },.error ⟨.attributeError,""⟩)
    | some hd =>
      match serialiseBlock B raw txs with
      | .error e => some ({ n with headers := hs },.error e)
      | .ok rawBlock =>
        let stored := { n with
          headers := hs
          blockstore := n.blockstore.storeBlock h hd.height rawBlock }
        if hs.tipHash = h ∧ prevTip ≠ hd.prevHash then stored.reorgUtxos B depth prevTip hs.tipHash
        else if hs.tipHash = h then
          match stored.connectBlockWithUndo B h hd.height txs with
          | .error e => some (stored,.error e)
          | .ok connected => (evictAll B depth (txs.map B.txHash) connected).map fun n' => (n',.ok ())
        else some (stored,.ok ())

end EmbeddedNode

/-- A call on the node's interface. -/
inductive NodeCall
  | submitTx (tx : Tx)
  | generateBlock (payoutScript : Script) (includeMempool : Bool) (extraCoinbase : Bytes)
      (timestamp : ℕ)
  | acceptBlock (rawHeader : Bytes) (txs : List Tx)
  deriving DecidableEq, Repr

/-- What a call returns or raises. -/
inductive NodeAnswer
  | admission (r : Except Fault ValidationResult)
  | mined (r : Except Fault (Bytes × List Tx))
  | accepted (r : Except Fault Unit)
  | tooDeep
  deriving DecidableEq

namespace EmbeddedNode

/-- One call on the node, with nested admissions at most `depth` deep. -/
def call (B : Bitcoinx) (depth : ℕ) (n : EmbeddedNode) : NodeCall → EmbeddedNode × NodeAnswer
  | .submitTx tx =>
    match n.submitTx B depth tx with
    | none => (n,.tooDeep)
    | some (n',r) => (n',.admission r)
  | .generateBlock script incl extra timestamp =>
    match n.generateBlock B depth script incl extra timestamp with
    | none => (n,.tooDeep)
    | some (n',r) => (n',.mined r)
  | .acceptBlock raw txs =>
    match n.acceptBlock B depth raw txs with
    | none => (n,.tooDeep)
    | some (n',r) => (n',.accepted r)

end EmbeddedNode
end SubsatChannel
