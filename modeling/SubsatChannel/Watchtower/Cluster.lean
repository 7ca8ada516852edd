import SubsatChannel.Channel.Lifecycle
import SubsatChannel.Node.Network

/-! A cluster of watchers on one node: they are registered together, detached from the mempool and
attached again. -/
namespace SubsatChannel

/-- Register a record with the tower that observes the mempool at an index. -/
def EmbeddedNode.register (n : EmbeddedNode) (i : ℕ) (record : WatchRecord) : EmbeddedNode :=
  { n with mempool := { n.mempool with
      observers := n.mempool.observers.modify i fun t => t.register record } }

structure WatcherSpec where
  pubkey : PublicKey
  feePerIntervention : ℤ

/-- Where a watcher is: at an index among the observers of the mempool, or detached. -/
inductive Watcher
  | online (place : ℕ)
  | offline (tower : Tower)

/-- A watcher after the observer at `place` has been removed. -/
def Watcher.close (place : ℕ) : Watcher → Watcher
  | online k => online (if place < k then k - 1 else k)
  | offline t => offline t

structure WatchCluster where
  node : EmbeddedNode
  watchers : List Watcher

namespace WatchCluster

/-- One tower for each spec, each with a registry of its own; a new tower observes the mempool. -/
def ofSize (node : EmbeddedNode) (specs : List WatcherSpec) : Except Fault WatchCluster :=
  if specs = [] then .error ⟨.clusterError,"cluster must have at least one watcher"⟩
  else .ok
    { node := { node with mempool := { node.mempool with
        observers := node.mempool.observers ++
          specs.map fun spec => { Tower.new .new with towerPubkey := some spec.pubkey } } }
      watchers := (List.range specs.length).map fun i => .online (node.mempool.observers.length + i) }

def size (cl : WatchCluster) : ℕ := cl.watchers.length

/-- Change the tower of a watcher. -/
def modifyTower (cl : WatchCluster) (i : ℕ) (f : Tower → Tower) : WatchCluster :=
  match cl.watchers[i]? with
  | none => cl
  | some (.online k) => { cl with node := { cl.node with mempool := { cl.node.mempool with
      observers := cl.node.mempool.observers.modify k f } } }
  | some (.offline t) => { cl with watchers := cl.watchers.set i (.offline (f t)) }

/-- The pre-signed forfeitures for a watcher, by offender. -/
def forfeitHexByOwner (B : Bitcoinx) (ch : Channel) (spec : WatcherSpec) :
    List ℤ → Dict ℕ String → Except Fault (Dict ℕ String)
  | [], d => .ok d
  | offender :: offenders, d => do
    let (tx,_) ← ch.forfeitBondTx B offender (some spec.pubkey) spec.feePerIntervention
    forfeitHexByOwner B ch spec offenders (d.set offender.toNat (hex (B.txToBytes tx)))

/-- The record of a channel for one watcher. -/
def watchRecord (B : Bitcoinx) (ch : Channel) (currentTx : Tx) (spec : WatcherSpec)
    (offenders : List ℤ) : Except Fault WatchRecord := do
  let forfeits ← forfeitHexByOwner B ch spec offenders ∅
  .ok ⟨ch.fundingTxid B,hex (B.txToBytes currentTx),forfeits,ch.cfg.L0⟩

/-- Register the channel with the watchers from index `i` on. -/
def registerFrom (B : Bitcoinx) (ch : Channel) (currentTx : Tx) (offenders : List ℤ) :
    ℕ → List WatcherSpec → WatchCluster → WatchCluster × Except Fault Unit
  | _, [], cl => (cl,.ok ())
  | i, spec :: specs, cl =>
    match watchRecord B ch currentTx spec offenders with
    | .error e => (cl,.error e)
    | .ok record => registerFrom B ch currentTx offenders (i+1) specs
        (cl.modifyTower i fun t => t.register record)

/-- Register the channel's current state with every watcher. -/
def registerChannel (B : Bitcoinx) (cl : WatchCluster) (ch : Channel) (specs : List WatcherSpec)
    (offenders : List ℤ) : WatchCluster × Except Fault Unit :=
  if specs.length ≠ cl.watchers.length then (cl,.error ⟨.clusterError,
    s!"specs length {specs.length} != cluster size {cl.watchers.length}"⟩)
  else
    match ch.signStateTx B ch.state with
    | .error e => (cl,.error e)
    | .ok (currentTx,_) => registerFrom B ch currentTx offenders 0 specs cl

/-- Remove a watcher's observer from the mempool, if it is there. -/
def detach (cl : WatchCluster) (i : ℕ) : WatchCluster :=
  match cl.watchers[i]? with
  | some (.online k) =>
    match cl.node.mempool.observers[k]? with
    | none => cl
    | some t =>
      { node := { cl.node with mempool := { cl.node.mempool with
          observers := cl.node.mempool.observers.eraseIdx k } }
        watchers := (cl.watchers.map (Watcher.close k)).set i (.offline t) }
  | _ => cl

/-- Append a watcher's observer to those of the mempool, if it is not there. -/
def attach (cl : WatchCluster) (i : ℕ) : WatchCluster :=
  match cl.watchers[i]? with
  | some (.offline t) =>
    { node := { cl.node with mempool := { cl.node.mempool with
        observers := cl.node.mempool.observers ++ [t] } }
      watchers := cl.watchers.set i (.online cl.node.mempool.observers.length) }
  | _ => cl

def disable (cl : WatchCluster) : List ℤ → WatchCluster × Except Fault Unit
  | [] => (cl,.ok ())
  | i :: is =>
    if ¬ (0 ≤ i ∧ i < cl.watchers.length) then
      (cl,.error ⟨.clusterError,s!"watcher index {i} out of range"⟩)
    else disable (cl.detach i.toNat) is

/-- `xs[i]`: a negative index counts from the end of the list. -/
def watcherIndex (cl : WatchCluster) (i : ℤ) : Option ℕ :=
  if 0 ≤ i ∧ i < cl.watchers.length then some i.toNat
  else if i < 0 ∧ 0 ≤ cl.watchers.length + i then some (cl.watchers.length + i).toNat
  else none

def enable (cl : WatchCluster) : List ℤ → WatchCluster × Except Fault Unit
  | [] => (cl,.ok ())
  | i :: is =>
    match cl.watcherIndex i with
    | none => (cl,.error ⟨.indexError,"list index out of range"⟩)
    | some k => enable (cl.attach k) is

end WatchCluster
end SubsatChannel
