import SubsatChannel.Lib.Dict
import SubsatChannel.Node.Validation

/-! The mempool: admission, replacement by higher sequence numbers, and its observers. An
observer may call `admit` again from inside the notification it is sent. -/
namespace SubsatChannel

inductive MempoolEvent
  | admitted
  | evict
  | replace
  deriving DecidableEq, Repr

structure MempoolEntry where
  tx : Tx
  fee : ℤ
  sequenceByInput : List ℕ
  deriving DecidableEq, Repr

structure Mempool (ω : Type) where
  entries : Dict Bytes MempoolEntry
  spentBy : Finmap fun _ : Outpoint => Bytes
  observers : List ω

/-- A call of `admit`: the mempool it leaves with its result. There is no answer when nested
calls go deeper than the depth they are given. -/
abbrev Admission (ω : Type) := Mempool ω → Tx → Option (Mempool ω × Except Fault ValidationResult)

/-- The reaction of the observer at an index to an event. It may submit transactions; an
exception it raises ends its reaction and is swallowed by the notification loop. -/
abbrev Handler (ω : Type) :=
  Admission ω → ℕ → Mempool ω → MempoolEvent → Tx → Option (Mempool ω)

/-- The sequence numbers of a transaction by outpoint; the last input listed for it counts. -/
def seqsByOutpoint (tx : Tx) : Finmap fun _ : Outpoint => ℕ :=
  tx.inputs.foldl (fun d tin => d.insert tin.outpoint tin.sequence) ∅

/-- The first input that does not raise the sequence number of the transaction it replaces. -/
def seqViolation (seqs : Finmap fun _ : Outpoint => ℕ) (tx : Tx) : Option (TxInput × ℕ) :=
  tx.inputs.findSome? fun tin => (seqs.lookup tin.outpoint).bind fun old =>
    if tin.sequence ≤ old then some (tin,old) else none

namespace Mempool
variable {ω : Type}

def fresh (observers : List ω) : Mempool ω := ⟨∅,∅,observers⟩

def allTxs (m : Mempool ω) : List Tx := m.entries.values.map MempoolEntry.tx

/-- The mempool transactions that spend an outpoint of `tx`. -/
def conflictingTxids (B : Bitcoinx) (m : Mempool ω) (tx : Tx) : List Bytes :=
  (tx.outpoints.filterMap fun o =>
    (m.spentBy.lookup o).filter fun owner => owner ≠ B.txHash tx).dedup

/-- Record a transaction and its outpoints. -/
def insert (B : Bitcoinx) (m : Mempool ω) (tx : Tx) (result : ValidationResult) : Mempool ω :=
  { m with
    entries := m.entries.set (B.txHash tx) ⟨tx,result.fee,tx.inputs.map TxInput.sequence⟩
    spentBy := tx.outpoints.foldl (fun d o => d.insert o (B.txHash tx)) m.spentBy }

/-- Forget an entry and the outpoints it holds. -/
def remove (m : Mempool ω) (txid : Bytes) (entry : MempoolEntry) : Mempool ω :=
  { m with
    entries := m.entries.erase txid
    spentBy := entry.tx.outpoints.foldl
      (fun d o => if d.lookup o = some txid then d.erase o else d) m.spentBy }

/-- Send an event to the observers from index `i` on, in their order. -/
def notifyFrom (handle : Handler ω) (submit : Admission ω) (event : MempoolEvent) (tx : Tx) :
    ℕ → ℕ → Mempool ω → Option (Mempool ω)
  | 0, _, m => some m
  | count+1, i, m =>
    match handle submit i m event tx with
    | none => none
    | some m' => notifyFrom handle submit event tx count (i+1) m'

def notify (handle : Handler ω) (submit : Admission ω) (m : Mempool ω) (event : MempoolEvent)
    (tx : Tx) : Option (Mempool ω) :=
  notifyFrom handle submit event tx m.observers.length 0 m

/-- Remove an entry, if it is there, and tell the observers. -/
def evictInternal (handle : Handler ω) (submit : Admission ω) (m : Mempool ω) (txid : Bytes) :
    Option (Mempool ω × Option Tx) :=
  match m.entries.get? txid with
  | none => some (m,none)
  | some entry =>
    match notify handle submit (m.remove txid entry) .evict entry.tx with
    | none => none
    | some m' => some (m',some entry.tx)

/-- Insert an accepted transaction and tell the observers. -/
def insertAndNotify (B : Bitcoinx) (handle : Handler ω) (submit : Admission ω) (m : Mempool ω)
    (event : MempoolEvent) (tx : Tx) (result : ValidationResult) :
    Option (Mempool ω × Except Fault ValidationResult) :=
  match notify handle submit (m.insert B tx result) event tx with
  | none => none
  | some m' => some (m',.ok result)

/-- The body of `admit`; `submit` answers the calls the observers make from inside it. A transaction whose fields
do not pack is not submitted here: its `hash()` raises before anything is changed. -/
def admitWith (B : Bitcoinx) (handle : Handler ω) (submit : Admission ω) (U : UtxoSet) :
    Admission ω := fun m tx =>
  let txid := B.txHash tx
  if (m.entries.get? txid).isSome then some (m,.ok (.accept "already in mempool"))
  else
    match m.conflictingTxids B tx with
    | [] =>
      if tx.inputs = [] then some (m,.error ⟨.indexError,"list index out of range"⟩)
      else
        let result := validateTx B tx U
        if result.ok then insertAndNotify B handle submit m .admitted tx result
        else some (m,.ok result)
    | [oldTxid] =>
      match m.entries.get? oldTxid with
      | none => some (m,.error ⟨.keyError,hex oldTxid⟩)
      | some old =>
        match seqViolation (seqsByOutpoint old.tx) tx with
        | some (tin,q) => some (m,.ok (.reject
            s!"replacement rejected: input {hex tin.prevHash.reverse}:{tin.prevIdx} seq {tin.sequence} <= existing seq {q}"))
        | none =>
          let result := validateTx B tx U
          if result.ok then
            match evictInternal handle submit m oldTxid with
            | none => none
            | some (m',_) => insertAndNotify B handle submit m' .replace tx result
          else some (m,.ok result)
    | _ => some (m,.ok (.reject "multi-conflict replacement not accepted"))

/-- `admit` with nested calls at most `depth` deep. -/
def admitTx (B : Bitcoinx) (handle : Handler ω) (U : UtxoSet) : ℕ → Admission ω
  | 0 => fun _ _ => none
  | depth+1 => admitWith B handle (admitTx B handle U depth) U

def evict (B : Bitcoinx) (handle : Handler ω) (U : UtxoSet) (depth : ℕ) (m : Mempool ω)
    (txid : Bytes) : Option (Mempool ω × Option Tx) :=
  evictInternal handle (admitTx B handle U depth) m txid

end Mempool
end SubsatChannel
