import SubsatChannel.Channel.Keymgmt
import SubsatChannel.Channel.Scripts
import SubsatChannel.Channel.Accounting

/-! Bond outputs and the signatures that return or forfeit them. -/
namespace SubsatChannel

structure BondOutput where
  ownerIndex : ℕ
  value : ℕ
  fundingTxid : Bytes
  vout : ℕ
  lockingScript : Script
  deriving DecidableEq, Repr

def BondOutput.utxo (bond : BondOutput) : TxOutput := ⟨bond.value,bond.lockingScript⟩

def makeBondScriptFor (owner : PublicKey) (counterparties : List PublicKey) : Except Fault Script :=
  if counterparties = [] then .error ⟨.scriptBuildError,"bond requires at least one counterparty"⟩
  else bondScript owner counterparties

/-- The `script_sig` of the branch that returns the bond to its owner. -/
def signBondReturn (B : Bitcoinx) (tx : Tx) (inputIndex : ℕ) (bond : BondOutput)
    (ownerPriv : PrivateKey) : Except Fault Script := do
  let _ ← ensureWholeSatoshi bond.value
  .ok (bondReturnUnlock (signInput B tx inputIndex bond.value bond.lockingScript ownerPriv))

/-- The `script_sig` of the branch in which all counterparties forfeit the bond. -/
def signBondForfeit (B : Bitcoinx) (tx : Tx) (inputIndex : ℕ) (bond : BondOutput)
    (counterpartyPrivs : List PrivateKey) : Except Fault Script :=
  if counterpartyPrivs = [] then .error
    ⟨.scriptBuildError,"bond_forfeit needs >=1 counterparty signatures"⟩
  else bondForfeitUnlock (counterpartyPrivs.map
    (signInput B tx inputIndex bond.value bond.lockingScript))

theorem makeBondScriptFor_ok {owner : PublicKey} {cps : List PublicKey} {lock : Script}
    (h : makeBondScriptFor owner cps = .ok lock) : bondScript owner cps = .ok lock := by
  unfold makeBondScriptFor at h
  split_ifs at h
  exact h

theorem makeBondScriptFor_of_ne {owner : PublicKey} {cps : List PublicKey} (h : cps ≠ []) :
    ∃ lock, makeBondScriptFor owner cps = .ok lock := by
  have hl : ¬ cps.length < 1 := by
    have := List.length_pos_iff.mpr h
    omega
  exact ⟨_,by simp [makeBondScriptFor,bondScript,h,hl]; rfl⟩

end SubsatChannel
