import SubsatChannel.Bitcoinx

/-! The single point of contact with the script interpreter. -/
namespace SubsatChannel

/-- `Tx.hex_hash()` -/
def hexHash (B : Bitcoinx) (tx : Tx) : String := hex (B.txHash tx).reverse

/-- Why an input was not accepted: the interpreter rejected it, or raised. -/
inductive SpendFailure
  | rejected (text : String)
  | interpreter (text : String)
  deriving DecidableEq, Repr

def verifySpend (B : Bitcoinx) (tx : Tx) (idx : ℕ) (utxo : TxOutput) : Except SpendFailure Unit :=
  match B.verifyInput tx idx utxo with
  | .ok true => .ok ()
  | .ok false => .error (.rejected s!"interpreter rejected input {idx} of tx {hexHash B tx}")
  | .error text => .error (.interpreter text)

def spendVerifies (B : Bitcoinx) (tx : Tx) (idx : ℕ) (utxo : TxOutput) : Bool :=
  (verifySpend B tx idx utxo).toBool

/-- Verify the inputs from `idx` on against the outputs they spend. -/
def verifyInputsFrom (B : Bitcoinx) (tx : Tx) : ℕ → List TxOutput → Except Fault Unit
  | _, [] => .ok ()
  | idx, utxo :: utxos =>
    match verifySpend B tx idx utxo with
    | .ok () => verifyInputsFrom B tx (idx+1) utxos
    | .error (.rejected text) => .error ⟨.verificationError,text⟩
    | .error (.interpreter text) => .error ⟨.interpreterError,text⟩

def verifyAllInputs (B : Bitcoinx) (tx : Tx) (utxos : List TxOutput) : Except Fault Unit :=
  if utxos.length ≠ tx.inputs.length then .error ⟨.verificationError,
    s!"utxos length {utxos.length} != tx.inputs length {tx.inputs.length}"⟩
  else verifyInputsFrom B tx 0 utxos

end SubsatChannel
