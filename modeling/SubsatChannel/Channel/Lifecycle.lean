import SubsatChannel.Verify
import SubsatChannel.Channel.Bond

/-! The life of a channel: opening, transfers, state transactions, the cooperative close and the
forfeiture of a bond. -/
namespace SubsatChannel

def sequenceForVersion (version : ℤ) : Except Fault ℕ :=
  if version < 0 then .error ⟨.stateError,s!"version must be >= 0 (got {version})"⟩
  else if (finalSequence : ℤ) ≤ startSequence + version then .error ⟨.stateError,
    s!"state version {version} exhausts non-final sequence space; refresh the channel"⟩
  else .ok (startSequence + version).toNat

/-- `[j for j in range(n) if j != i]` -/
def others (n i : ℕ) : List ℕ := (List.range n).filter fun j => j ≠ i

/-- The public keys of the other parties. -/
def counterparties (pubs : List PublicKey) (i : ℕ) : List PublicKey :=
  (others pubs.length i).filterMap fun j => pubs[j]?

/-- The locking script of party `i`'s bond. -/
def bondLock (pubs : List PublicKey) (i : ℕ) : Except Fault Script :=
  match pubs[i]? with
  | none => .error ⟨.indexError,"list index out of range"⟩
  | some owner => makeBondScriptFor owner (counterparties pubs i)

/-- The value of party `i`'s bond. -/
def bondValue (cfg : ChannelConfig) (i : ℕ) : Except Fault ℕ :=
  match cfg.bonds[i]? with
  | none => .error ⟨.indexError,"tuple index out of range"⟩
  | some b => .ok b

/-- The outputs of a funding transaction: the channel output and one bond for each party. -/
def buildChannelOutputs (B : Bitcoinx) (cfg : ChannelConfig) (keybook : KeyBook) :
    Except Fault (List TxOutput) :=
  if keybook.n ≠ cfg.n then
    .error ⟨.stateError,s!"keybook size {keybook.n} != cfg.n {cfg.n}"⟩
  else do
    let pubs := keybook.publicKeys B
    let channelLock ← channelFundingScript pubs
    let bonds ← (List.range cfg.n).mapM fun i => do
      let b ← bondValue cfg i
      let lock ← bondLock pubs i
      .ok (⟨b,lock⟩ : TxOutput)
    .ok (⟨cfg.S,channelLock⟩ :: bonds)

structure Channel where
  cfg : ChannelConfig
  keybook : KeyBook
  fundingTx : Tx
  fundingUtxos : List TxOutput
  fundingConfirmed : Bool
  state : State
  bonds : List BondOutput
  deriving DecidableEq

namespace Channel

/-- `_wrap_funding` -/
def wrapFunding (B : Bitcoinx) (cfg : ChannelConfig) (keybook : KeyBook) (fundingTx : Tx)
    (fundingUtxos : List TxOutput) : Except Fault Channel :=
  if keybook.n ≠ cfg.n then
    .error ⟨.stateError,s!"keybook size {keybook.n} != cfg.n {cfg.n}"⟩
  else do
    let pubs := keybook.publicKeys B
    let bonds ← (List.range cfg.n).mapM fun i => do
      let lock ← bondLock pubs i
      let b ← bondValue cfg i
      .ok (⟨i,b,B.txHash fundingTx,1+i,lock⟩ : BondOutput)
    let state ← initialState cfg 0
    .ok ⟨cfg,keybook,fundingTx,fundingUtxos,false,state,bonds⟩

/-- `open`: fund a channel from a placeholder output that anyone can spend. -/
def openChannel (B : Bitcoinx) (cfg : ChannelConfig) (keybook : KeyBook) (parentOutpoint : Outpoint)
    (parentValue : Option ℤ) : Except Fault Channel := do
  let total ← ensureWholeSatoshi cfg.locked
  let outputs ← buildChannelOutputs B cfg keybook
  let txIn : TxInput := ⟨parentOutpoint.1,parentOutpoint.2,[],finalSequence⟩
  wrapFunding B cfg keybook ⟨1,[txIn],outputs,0⟩ [⟨parentValue.getD total,[.op .opTrue]⟩]

/-- The first output that is not the expected one, with the error for it. -/
def outputMismatch (actual want : List TxOutput) (i : ℕ) : Option Fault :=
  match actual[i]?,want[i]? with
  | some a,some w =>
    if a.value ≠ w.value then some ⟨.stateError,
      s!"funding_tx.outputs[{i}].value = {a.value} != expected {w.value}"⟩
    else if a.scriptPubkey ≠ w.scriptPubkey then some ⟨.stateError,
      s!"funding_tx.outputs[{i}].script_pubkey mismatch"⟩
    else none
  | _,_ => some ⟨.indexError,"list index out of range"⟩

/-- Wrap a funding transaction that was built elsewhere. -/
def fromFundingTx (B : Bitcoinx) (cfg : ChannelConfig) (keybook : KeyBook) (fundingTx : Tx)
    (parentUtxos : List TxOutput) : Except Fault Channel := do
  let expected ← buildChannelOutputs B cfg keybook
  if fundingTx.outputs.length < 1 + cfg.n then .error ⟨.stateError,
    s!"funding_tx has {fundingTx.outputs.length} outputs; need >= {1 + cfg.n}"⟩
  else
    match (List.range (1 + cfg.n)).findSome? (outputMismatch fundingTx.outputs expected) with
    | some e => .error e
    | none => wrapFunding B cfg keybook fundingTx parentUtxos

def markConfirmed (ch : Channel) : Channel := { ch with fundingConfirmed := true }

/-- `_require_confirmed` -/
def requireConfirmed (ch : Channel) : Except Fault Unit :=
  if ch.fundingConfirmed then .ok ()
  else .error ⟨.unconfirmedFundingError,"funding tx not yet confirmed; refuse to sign children"⟩

/-- The channel output of the funding transaction. Every way to make a channel gives one. -/
def channelOutput (ch : Channel) : Except Fault TxOutput :=
  match ch.fundingTx.outputs with
  | [] => .error ⟨.indexError,"list index out of range"⟩
  | out :: _ => .ok out

def fundingTxid (B : Bitcoinx) (ch : Channel) : Bytes := B.txHash ch.fundingTx

def applyTransfer (ch : Channel) (sender recipient delta : ℤ) : Except Fault Channel :=
  (transfer ch.state sender recipient delta ch.cfg).map fun s => { ch with state := s }

def applySequence (ch : Channel) (ops : List (ℤ × ℤ × ℤ)) : Except Fault Channel :=
  (assertConservationOverSequence ch.state ops ch.cfg).map fun s => { ch with state := s }

/-- One output for every party that is paid something, in the order of the list. -/
def payParties (B : Bitcoinx) (keybook : KeyBook) : List (ℕ × ℤ) → Except Fault (List TxOutput)
  | [] => .ok []
  | (i,v) :: payments => do
    let _ ← ensureWholeSatoshi v
    if 0 < v then do
      let pk ← keybook.publicKey B i
      let outputs ← payParties B keybook payments
      .ok (⟨v,p2pkhScript B pk⟩ :: outputs)
    else payParties B keybook payments

/-- Pair every value of a list with its index. -/
def enumerate (q : List ℕ) : List (ℕ × ℤ) := q.zipIdx.map fun p => (p.2,(p.1 : ℤ))

/-- The unsigned state transaction and the outputs it spends. -/
def buildStateTx (B : Bitcoinx) (ch : Channel) (state : State) :
    Except Fault (Tx × List TxOutput) := do
  let q ← quantise state ch.cfg
  let seq ← sequenceForVersion state.version
  let txIn : TxInput := ⟨ch.fundingTxid B,0,[],seq⟩
  let outputs ← payParties B ch.keybook (enumerate q)
  let outputs := if outputs = [] then [⟨0,[.op .opReturn]⟩] else outputs
  let utxo ← ch.channelOutput
  .ok (⟨1,[txIn],outputs,0⟩,[utxo])

/-- The signatures of all parties on the input that spends the channel output. -/
def channelSigs (B : Bitcoinx) (ch : Channel) (tx : Tx) (utxo : TxOutput) :
    Except Fault (List Bytes) :=
  (List.range ch.cfg.n).mapM fun i => do
    let priv ← ch.keybook.privateKey i
    .ok (signInput B tx 0 utxo.value utxo.scriptPubkey priv)

/-- Put all parties' signatures on input 0. -/
def signChannelInput (B : Bitcoinx) (ch : Channel) (tx : Tx) (utxos : List TxOutput) :
    Except Fault Tx :=
  match utxos with
  | [] => .error ⟨.indexError,"list index out of range"⟩
  | utxo :: _ => do
    let sigs ← ch.channelSigs B tx utxo
    let scriptSig ← channelFundingUnlock sigs
    .ok (tx.setScriptSig 0 scriptSig)

def signStateTx (B : Bitcoinx) (ch : Channel) (state : State) :
    Except Fault (Tx × List TxOutput) := do
  ch.requireConfirmed
  let (tx,utxos) ← ch.buildStateTx B state
  let signed ← ch.signChannelInput B tx utxos
  .ok (signed,utxos)

/-- The input of the close that spends party `i`'s bond, with the output it spends. -/
def bondInput (B : Bitcoinx) (ch : Channel) (i : ℕ) : Except Fault (TxInput × TxOutput) :=
  match ch.bonds[i]? with
  | none => .error ⟨.indexError,"list index out of range"⟩
  | some bond => .ok (⟨ch.fundingTxid B,1+i,[],finalSequence⟩,bond.utxo)

/-- What the close pays party `i`: its share and its bond. -/
def closePayout (ch : Channel) (q : List ℕ) (i : ℕ) : Except Fault (ℕ × ℤ) :=
  match q[i]? with
  | none => .error ⟨.indexError,"tuple index out of range"⟩
  | some qi => (bondValue ch.cfg i).map fun b => (i,(qi : ℤ) + b)

/-- The unsigned cooperative close and the outputs it spends. -/
def buildCloseTx (B : Bitcoinx) (ch : Channel) (state : State) :
    Except Fault (Tx × List TxOutput) := do
  let q ← quantise state ch.cfg
  let utxo ← ch.channelOutput
  let bonds ← (List.range ch.cfg.n).mapM (ch.bondInput B)
  let payouts ← (List.range ch.cfg.n).mapM (ch.closePayout q)
  let outputs ← payParties B ch.keybook payouts
  .ok (⟨1,⟨ch.fundingTxid B,0,[],finalSequence⟩ :: bonds.map Prod.fst,outputs,coopLocktime⟩,
    utxo :: bonds.map Prod.snd)

/-- Sign the bond inputs of a close from party `i` on. -/
def signBondInputs (B : Bitcoinx) (ch : Channel) : List ℕ → Tx → Except Fault Tx
  | [], tx => .ok tx
  | i :: is, tx =>
    match ch.bonds[i]? with
    | none => .error ⟨.indexError,"list index out of range"⟩
    | some bond => do
      let priv ← ch.keybook.privateKey i
      let scriptSig ← signBondReturn B tx (1+i) bond priv
      signBondInputs B ch is (tx.setScriptSig (1+i) scriptSig)

def cooperativeClose (B : Bitcoinx) (ch : Channel) (state : Option State) :
    Except Fault (Tx × List TxOutput) := do
  ch.requireConfirmed
  let (tx,utxos) ← ch.buildCloseTx B (state.getD ch.state)
  let tx ← ch.signChannelInput B tx utxos
  let tx ← ch.signBondInputs B (List.range ch.cfg.n) tx
  verifyAllInputs B tx utxos
  .ok (tx,utxos)

/-- `superseded_state_tx_for`: the state it swaps in and restores is read by nothing it calls. -/
def supersededStateTxFor (B : Bitcoinx) (ch : Channel) (version : ℤ) (allocation : List ℤ) :
    Except Fault (Tx × List TxOutput) := do
  ch.requireConfirmed
  let s ← State.make allocation version
  s.conservationCheck ch.cfg
  { ch with state := s }.signStateTx B s

/-- The tower's output, first when there is one. -/
def towerOutput (B : Bitcoinx) (towerPubkey : Option PublicKey) (towerFee : ℤ) : List TxOutput :=
  match towerPubkey with
  | none => []
  | some pk => if 0 < towerFee then [⟨towerFee,p2pkhScript B pk⟩] else []

/-- Split a value among parties; the last one takes the remainder of the division. -/
def forfeitShares (remaining : ℤ) (honest : List ℕ) : List (ℕ × ℤ) :=
  let m := honest.length
  let share := remaining / m
  honest.zipIdx.map fun p => (p.1,share + if p.2 + 1 = m then remaining - share * m else 0)

/-- The forfeiture of a bond before it is signed. -/
def buildForfeitTx (B : Bitcoinx) (ch : Channel) (offender : ℕ) (bond : BondOutput)
    (towerPubkey : Option PublicKey) (towerFee : ℤ) : Except Fault Tx := do
  let txIn : TxInput := ⟨ch.fundingTxid B,1+offender,[],finalSequence⟩
  let remaining := bond.value - if towerPubkey.isSome then towerFee else 0
  let outputs ← payParties B ch.keybook (forfeitShares remaining (others ch.cfg.n offender))
  .ok ⟨1,[txIn],towerOutput B towerPubkey towerFee ++ outputs,0⟩

def forfeitBondTx (B : Bitcoinx) (ch : Channel) (offender : ℤ) (towerPubkey : Option PublicKey)
    (towerFee : ℤ) : Except Fault (Tx × List TxOutput) := do
  ch.requireConfirmed
  if ¬ (0 ≤ offender ∧ offender < ch.cfg.n) then
    .error ⟨.stateError,s!"offender {offender} out of [0, {ch.cfg.n})"⟩
  else if towerFee < 0 then
    .error ⟨.stateError,s!"tower_fee must be >= 0 (got {towerFee})"⟩
  else
    match ch.bonds[offender.toNat]? with
    | none => .error ⟨.indexError,"list index out of range"⟩
    | some bond =>
      if bond.value < towerFee then
        .error ⟨.stateError,s!"tower_fee {towerFee} exceeds bond value {bond.value}"⟩
      else do
        let tx ← ch.buildForfeitTx B offender.toNat bond towerPubkey towerFee
        let privs ← (others ch.cfg.n offender.toNat).mapM ch.keybook.privateKey
        let scriptSig ← signBondForfeit B tx 0 bond privs
        let signed := tx.setScriptSig 0 scriptSig
        verifyAllInputs B signed [bond.utxo]
        .ok (signed,[bond.utxo])

end Channel

/-- Roll a channel forward into a successor with a later horizon. -/
def refreshChannel (B : Bitcoinx) (ch : Channel) (newL : ℤ) : Except Fault Channel :=
  if newL ≤ ch.cfg.L0 then
    .error ⟨.stateError,s!"new_L {newL} must exceed cfg.L0 {ch.cfg.L0}"⟩
  else do
    let newCfg ← ChannelConfig.make ch.cfg.n ch.cfg.k ch.cfg.S (ch.cfg.bonds.map Int.ofNat) newL
      ch.cfg.delta
    let successor ← Channel.openChannel B newCfg ch.keybook (List.replicate 32 0,0) none
    .ok { successor.markConfirmed with state := ⟨ch.state.balances,0⟩ }

end SubsatChannel
