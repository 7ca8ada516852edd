import SubsatChannel.Channel.Batch
import SubsatChannel.Channel.OnChain
import SubsatChannel.Store.Persistence
import SubsatChannel.Wallet.Builder

/-! The channel commands of the command line: each loads a channel from its file, works on it and
saves it again. -/
namespace SubsatChannel

/-- The exceptions that descend from `ChannelError`. -/
def ErrorKind.isChannelError : ErrorKind → Bool
  | .keyError | .indexError | .valueError | .runtimeError | .overflowError | .attributeError
  | .interpreterError | .streamError => false
  | _ => true

/-- What a file holds: a channel, a JSON array of arrays of integers, or no JSON. -/
inductive FileText
  | channel (d : ChannelDoc)
  | script (ops : List (List ℤ))
  | noJson (why : String)
  deriving DecidableEq

abbrev Files := String → Option FileText

/-- What a command can raise, besides the exceptions of the channel. -/
inductive CliError
  | fault (f : Fault)
  | channelError (message : String)
  | fileNotFound (path : String)
  | jsonDecode (why : String)
  deriving DecidableEq

namespace CliError

/-- Is it a `ChannelError`? -/
def handled : CliError → Bool
  | .fault f => f.kind.isChannelError
  | .channelError _ => true
  | .fileNotFound _ | .jsonDecode _ => false

/-- Its `str`. -/
def text : CliError → String
  | .fault f => f.message
  | .channelError message => message
  | .fileNotFound path => s!"[Errno 2] No such file or directory: '{path}'"
  | .jsonDecode why => why

end CliError

/-- A call of the channel inside a command. -/
def called {α : Type} (r : Except Fault α) : Except CliError α := r.mapError .fault

@[simp] theorem called_ok {α : Type} (a : α) : called (.ok a) = .ok a := rfl
@[simp] theorem called_error {α : Type} (e : Fault) : called (.error e : Except Fault α) =
    .error (.fault e) := rfl

theorem called_eq_ok {α : Type} {r : Except Fault α} {a : α} : called r = .ok a ↔ r = .ok a := by
  cases r <;> simp

def loadChannel (B : Bitcoinx) (readKey : String → Option PrivateKey) (files : Files) (path : String) :
    Except CliError Channel :=
  match files path with
  | none => .error (.fault ⟨.persistenceError,s!"channel file not found: {path}"⟩)
  | some (.noJson why) => .error (.fault ⟨.persistenceError,s!"invalid channel file {path}: {why}"⟩)
  | some (.script _) => .error (.fault ⟨.attributeError,"'list' object has no attribute 'get'"⟩)
  | some (.channel d) => called (dictToChannel B readKey d)

/-- The file is written when the document is made. -/
def saveChannel (B : Bitcoinx) (files : Files) (ch : Channel) (path : String) : Except CliError Files := do
  let d ← called (channelToDict B ch)
  .ok (Function.update files path (some (.channel d)))

/-- The keys of a book are drawn one after the other. -/
def KeyBook.random (draw : ℕ → PrivateKey) (n : ℤ) : KeyBook := ⟨(List.range n.toNat).map draw⟩

def cmdOpen (B : Bitcoinx) (files : Files) (parties k funded bond : ℤ) (out : String)
    (draw : ℕ → PrivateKey) : Except CliError (Files × List String) := do
  let cfg ← called (ChannelConfig.uniformBond parties k funded bond defaultL0 defaultDelta)
  let book := KeyBook.random draw parties
  let ch ← called (Channel.openChannel B cfg book (List.replicate 32 0,0) none)
  let files ← saveChannel B files ch.markConfirmed out
  .ok (files,[s!"opened channel; saved to {out}"])

/-- The `!r` format of a tuple of integers. -/
def reprTuple : List ℤ → String
  | [v] => s!"({v},)"
  | vs => "(" ++ ", ".intercalate (vs.map toString) ++ ")"

/-- An entry of a transfer script. -/
def asTransfer : List ℤ → Except CliError (ℤ × ℤ × ℤ)
  | [sender,recipient,delta] => .ok (sender,recipient,delta)
  | op => .error (.channelError s!"bad transfer entry {reprTuple op}")

def cmdTransfer (B : Bitcoinx) (readKey : String → Option PrivateKey) (files : Files)
    (script state : String) : Except CliError (Files × List String) := do
  let ch ← loadChannel B readKey files state
  match files script with
  | none => .error (.fileNotFound script)
  | some (.noJson why) => .error (.jsonDecode why)
  | some (.channel _) => .error (.channelError "transfer script must be a JSON array")
  | some (.script ops) => do
    let seq ← ops.mapM asTransfer
    let ch ← called (ch.applySequence seq)
    let files ← saveChannel B files ch state
    .ok (files,[s!"applied {seq.length} transfers; new version={ch.state.version}"])

/-- What a close prints; the payouts and the bonds have an entry for every party. -/
def closeLines (cfg : ChannelConfig) (q : List ℕ) (total : ℤ) (size : ℕ) : List String :=
  "cooperative close payouts (q_i + b_i, satoshis):" ::
    ((List.range cfg.n).map fun i =>
      s!"  party {i}: q={q.getD i 0}  bond={bondOf cfg i}  total={q.getD i 0 + bondOf cfg i}") ++
    [s!"total settled: {total} satoshis",s!"tx size: {size} bytes"]

/-- What a settlement signs contains its numbers and the values it spends, and `signature_hash` raises when one
of them does not fit its field. -/
def signed (B : Bitcoinx) (settlement : Except Fault (Tx × List TxOutput)) :
    Except CliError (Tx × List TxOutput) := do
  let (tx,utxos) ← called settlement
  if B.packs tx && utxos.all fun utxo => fitsInt64 utxo.value then .ok (tx,utxos)
  else .error (.fault ⟨.structError,""⟩)

theorem signed_ok {B : Bitcoinx} {tx : Tx} {utxos : List TxOutput} (hpacks : B.packs tx = true)
    (hvalues : ∀ utxo ∈ utxos, fitsInt64 utxo.value = true) :
    signed B (.ok (tx,utxos)) = .ok (tx,utxos) := by
  have hall : (utxos.all fun utxo => fitsInt64 utxo.value) = true := List.all_eq_true.mpr hvalues
  simp only [signed,called_ok,bind,Except.bind,hpacks,hall,Bool.and_self,if_true]

theorem signed_error {B : Bitcoinx} (e : Fault) : signed B (.error e) = .error (.fault e) := rfl

def cmdClose (B : Bitcoinx) (readKey : String → Option PrivateKey) (files : Files) (state : String) :
    Except CliError (List String) := do
  let ch ← loadChannel B readKey files state
  let (tx,utxos) ← signed B (ch.cooperativeClose B none)
  called (verifyAllInputs B tx utxos)
  let q ← called (quantise ch.state ch.cfg)
  .ok (closeLines ch.cfg q tx.totalOutputValue (tx.size B))

/-- What a contested close prints. -/
def contestedLines (cfg : ChannelConfig) (offender : ℤ) (forfeited : ℤ) : List String :=
  [s!"contested close: offender={offender}",
    s!"  bond forfeited: {bondOf cfg offender.toNat} satoshis",
    s!"  distributed to {cfg.n-1} honest counterparties; total out={forfeited}"]

def cmdContested (B : Bitcoinx) (readKey : String → Option PrivateKey) (files : Files) (offender : ℤ)
    (state : String) : Except CliError (List String) := do
  let ch ← loadChannel B readKey files state
  let (forfeitTx,forfeitUtxos) ← signed B (ch.forfeitBondTx B offender none 0)
  match forfeitUtxos with
  | [] => .error (.fault ⟨.indexError,"list index out of range"⟩)
  | utxo :: _ =>
    match verifySpend B forfeitTx 0 utxo with
    | .error (.rejected text) => .error (.fault ⟨.verificationError,text⟩)
    | .error (.interpreter text) => .error (.fault ⟨.interpreterError,text⟩)
    | .ok () => .ok (contestedLines ch.cfg offender forfeitTx.totalOutputValue)

/-- A channel command with its arguments, and for `open` the keys that will be drawn. -/
inductive Command
  | openChannel (parties k funded bond : ℤ) (out : String) (draw : ℕ → PrivateKey)
  | transfer (script state : String)
  | close (state : String)
  | contested (offender : ℤ) (state : String)

/-- `args.func(args)` -/
def Command.func (B : Bitcoinx) (readKey : String → Option PrivateKey) (files : Files) :
    Command → Except CliError (Files × List String)
  | .openChannel parties k funded bond out draw => cmdOpen B files parties k funded bond out draw
  | .transfer script state => cmdTransfer B readKey files script state
  | .close state => (cmdClose B readKey files state).map fun lines => (files,lines)
  | .contested offender state => (cmdContested B readKey files offender state).map fun lines => (files,lines)

/-- How a process ends: with an exit code and what it printed, or with a traceback. -/
inductive Outcome
  | exit (code : ℕ) (stdout stderr : List String)
  | raised (e : CliError)
  deriving DecidableEq

/-- The command line of a process. -/
structure Invocation where
  mainnet : Bool
  confirmed : Bool
  command : Command

/-- `main`: what it does with the files and how it ends. -/
def Invocation.main (B : Bitcoinx) (readKey : String → Option PrivateKey) (files : Files)
    (args : Invocation) : Files × Outcome :=
  if args.mainnet && !args.confirmed then
    (files,.exit 2 [] ["error: --mainnet requires --i-understand-this-is-research-code"])
  else
    match args.command.func B readKey files with
    | .ok (files',lines) => (files',.exit 0 lines [])
    | .error e => if e.handled then (files,.exit 2 [] [s!"error: {e.text}"]) else (files,.raised e)

/-- What happens on the machine: a command is run, or somebody writes or removes a file. -/
inductive Event
  | invoke (args : Invocation)
  | edit (path : String) (text : Option FileText)

/-- An edit answers nothing. -/
def Event.happen (B : Bitcoinx) (readKey : String → Option PrivateKey) (files : Files) :
    Event → Files × Option Outcome
  | .invoke args => ((args.main B readKey files).1,some (args.main B readKey files).2)
  | .edit path text => (Function.update files path text,none)

section Main
variable {B : Bitcoinx} {readKey : String → Option PrivateKey} {files : Files} {args : Invocation}

/-- A process exits with 0 exactly when it is let run its command and the command returns; in all other
cases the files are as before. -/
theorem main_cases (B : Bitcoinx) (readKey : String → Option PrivateKey) (files : Files)
    (args : Invocation) :
    (∃ files' lines, (args.mainnet && !args.confirmed) = false ∧
      args.command.func B readKey files = .ok (files',lines) ∧
      args.main B readKey files = (files',.exit 0 lines [])) ∨
    ∃ o, args.main B readKey files = (files,o) ∧ ∀ out err, o ≠ .exit 0 out err := by
  unfold Invocation.main
  split_ifs with hflags
  · exact .inr ⟨_,rfl,by simp⟩
  · cases hf : args.command.func B readKey files with
    | ok r => exact .inl ⟨r.1,r.2,by simpa using hflags,rfl,rfl⟩
    | error e =>
      refine .inr ?_
      dsimp only
      split_ifs
      · exact ⟨_,rfl,by simp⟩
      · exact ⟨_,rfl,by simp⟩

theorem loadChannel_doc {path : String} {d : ChannelDoc} (h : files path = some (.channel d)) :
    loadChannel B readKey files path = called (dictToChannel B readKey d) := by
  simp only [loadChannel,h]

end Main

end SubsatChannel
