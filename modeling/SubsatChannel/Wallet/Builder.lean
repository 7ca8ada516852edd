import SubsatChannel.Channel.Lifecycle
import SubsatChannel.Node.BlockStore

/-! The transactions a wallet builds: coin selection, payments and the funding of a channel. -/
namespace SubsatChannel

/-- A row of the `utxos` table with its key. -/
structure WalletUtxo extends UtxoEntry where
  txid : Bytes
  vout : ℕ
  deriving DecidableEq, Repr

def WalletUtxo.outpoint (u : WalletUtxo) : Outpoint := (u.txid,u.vout)

def defaultFeePerByte : ℤ := 1
def defaultDustThreshold : ℤ := 1

structure FundingOutput where
  scriptPubkey : Script
  value : ℤ
  deriving DecidableEq, Repr

def FundingOutput.txOutput (o : FundingOutput) : TxOutput := ⟨o.value,o.scriptPubkey⟩

/-- The loop of `select_utxos`: what it has selected and what that is worth. -/
def selectLoop (targetValue : ℤ) : List WalletUtxo → List WalletUtxo → ℤ → Except Fault (List WalletUtxo)
  | [], _, acc => .error ⟨.walletBuildError,s!"insufficient funds: have {acc}, need {targetValue}"⟩
  | u :: us, selected, acc =>
    if targetValue ≤ acc + u.value then .ok (selected ++ [u])
    else selectLoop targetValue us (selected ++ [u]) (acc + u.value)

/-- The order of `sorted(utxos, key=lambda u: -u.value)`. -/
def LargerFirst (u v : WalletUtxo) : Prop := v.value ≤ u.value

instance decidableLargerFirst : DecidableRel LargerFirst := fun u v => Int.decLe v.value u.value

/-- The sort is stable, as Python's is. -/
def sortedUtxos (utxos : List WalletUtxo) : List WalletUtxo := utxos.insertionSort LargerFirst

/-- Greedy largest-first selection that covers at least `targetValue`. -/
def selectUtxos (utxos : List WalletUtxo) (targetValue : ℤ) : Except Fault (List WalletUtxo) :=
  if targetValue < 0 then
    .error ⟨.walletBuildError,s!"target_value must be >= 0 (got {targetValue})"⟩
  else selectLoop targetValue (sortedUtxos utxos) [] 0

/-- `Tx.size()` -/
def Tx.size (B : Bitcoinx) (tx : Tx) : ℕ := (B.txToBytes tx).length

section Build
variable (B : Bitcoinx)

def unsignedInputs (funder : List (WalletUtxo × PrivateKey)) : List TxInput :=
  funder.map fun p => ⟨p.1.txid,p.1.vout,[],finalSequence⟩

def totalIn (funder : List (WalletUtxo × PrivateKey)) : ℤ := (funder.map fun p => p.1.value).sum

/-- The transaction whose size is estimated: its change output is worth nothing yet. -/
def provisionalTx (funder : List (WalletUtxo × PrivateKey)) (outs : List TxOutput)
    (changePubkey : PublicKey) : Tx :=
  ⟨1,unsignedInputs funder,outs ++ [⟨0,p2pkhScript B changePubkey⟩],0⟩

/-- The size of the transaction with a change output, and 108 bytes for each signed input. -/
def roughSize (funder : List (WalletUtxo × PrivateKey)) (outs : List TxOutput) (changePubkey : PublicKey) :
    ℕ :=
  Tx.size B (provisionalTx B funder outs changePubkey) + 108 * funder.length

/-- Sign the inputs from index `i` on as spends of the funder's outputs. What is signed contains the numbers of
the transaction and the value that is spent, and `signature_hash` raises when one of them does not fit. -/
def signFunderInputs : ℕ → List (WalletUtxo × PrivateKey) → Tx → Except Fault Tx
  | _, [], tx => .ok tx
  | i, (u,priv) :: funder, tx =>
    if B.packs tx && fitsInt64 u.value then
      let sig := signInput B tx i u.value u.scriptPubkey priv
      signFunderInputs (i+1) funder { tx with
        inputs := tx.inputs.set i ⟨u.txid,u.vout,p2pkhUnlock sig (B.publicKey priv),finalSequence⟩ }
    else .error ⟨.structError,""⟩

/-- What the two builders share: the fee, the change and the signatures. They differ in the outputs and
in what the error calls them. The size of a transaction that cannot be serialised raises. -/
def buildSpend (funder : List (WalletUtxo × PrivateKey)) (outs : List TxOutput) (changePubkey : PublicKey)
    (feePerByte dustThreshold : ℤ) (what : String) : Except Fault Tx :=
  if B.packs (provisionalTx B funder outs changePubkey) then
    let fee : ℤ := roughSize B funder outs changePubkey * feePerByte
    let out := (outs.map TxOutput.value).sum
    let change := totalIn funder - out - fee
    if change < 0 then .error ⟨.walletBuildError,s!"funds {totalIn funder} < {what} {out} + fee {fee}"⟩
    else
      let outputs := if change < dustThreshold then outs
        else outs ++ [⟨change,p2pkhScript B changePubkey⟩]
      signFunderInputs B 0 funder ⟨1,unsignedInputs funder,outputs,0⟩
  else .error ⟨.structError,""⟩

def buildAndSignPayment (funder : List (WalletUtxo × PrivateKey)) (outputs : List FundingOutput)
    (changePubkey : PublicKey) (feePerByte dustThreshold : ℤ) : Except Fault Tx :=
  if funder = [] then .error ⟨.walletBuildError,"no funding inputs supplied"⟩
  else do
    ensureAllWhole (funder.map fun p => p.1.value)
    ensureAllWhole (outputs.map FundingOutput.value)
    buildSpend B funder (outputs.map FundingOutput.txOutput) changePubkey feePerByte dustThreshold
      "specified"

def buildChannelFundingTx (funder : List (WalletUtxo × PrivateKey)) (cfg : ChannelConfig) (keybook : KeyBook)
    (changePubkey : PublicKey) (feePerByte : ℤ) : Except Fault Tx :=
  if funder = [] then .error ⟨.walletBuildError,"no funding inputs supplied"⟩
  else do
    ensureAllWhole (funder.map fun p => p.1.value)
    let channelOutputs ← buildChannelOutputs B cfg keybook
    buildSpend B funder channelOutputs changePubkey feePerByte defaultDustThreshold "channel funding"

end Build
end SubsatChannel
