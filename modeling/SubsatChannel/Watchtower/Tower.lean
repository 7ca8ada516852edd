import SubsatChannel.Node.Mempool
import SubsatChannel.Watchtower.Registry

/-! The watchtower: it answers a stale state in the mempool with the current one. -/
namespace SubsatChannel

/-- A watchtower bound to a node. Its optional `on_intervention` callback is not modelled. -/
structure Tower where
  registry : Registry
  towerPubkey : Option PublicKey
  interventions : ℕ
  forfeits : ℕ

namespace Tower

def new (registry : Registry) : Tower := ⟨registry,none,0,0⟩

def register (t : Tower) (record : WatchRecord) : Tower :=
  { t with registry := t.registry.register record }

/-- The record a tower holds for the channel whose funding output an input spends. -/
def recordFor (t : Tower) (tin : TxInput) : Option WatchRecord :=
  if tin.prevIdx = 0 then t.registry.get tin.prevHash else none

/-- Count an intervention of the tower at an index. -/
def countIntervention (m : Mempool Tower) (i : ℕ) : Mempool Tower :=
  { m with observers := m.observers.modify i fun t => { t with interventions := t.interventions+1 } }

/-- Go through the inputs of a transaction the mempool has just taken in, and submit the
current state for every stale spend. A record that does not parse, or a nested call that
raises, ends the reaction. -/
def observeInputs (B : Bitcoinx) (submit : Admission Tower) (i : ℕ) :
    List TxInput → Mempool Tower → Option (Mempool Tower)
  | [], m => some m
  | tin :: ins, m =>
    match (m.observers[i]?).bind fun t => t.recordFor tin with
    | none => observeInputs B submit i ins m
    | some record =>
      match record.currentStateTx B with
      | none => some m
      | some current =>
        match current.inputs with
        | [] => some m
        | first :: _ =>
          if first.sequence ≤ tin.sequence then observeInputs B submit i ins m
          else
            match submit m current with
            | none => none
            | some (m',.error _) => some m'
            | some (m',.ok res) =>
              observeInputs B submit i ins (if res.ok then countIntervention m' i else m')

/-- `_observe`: evictions are ignored. -/
def observe (B : Bitcoinx) : Handler Tower := fun submit i m event tx =>
  match event with
  | .evict => some m
  | _ => observeInputs B submit i tx.inputs m

end Tower
end SubsatChannel
