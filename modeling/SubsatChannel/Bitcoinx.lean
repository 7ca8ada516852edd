import SubsatChannel.Errors

/-! Scripts, keys and transactions as the code handles them, and the functions of `bitcoinx`
(and of `hashlib`) it calls. The functions are a parameter of everything that follows. -/
namespace SubsatChannel

abbrev Bytes := List UInt8

/-- Named, so that definitions that test membership in a list of byte strings all refer to it. -/
instance lawfulBEqBytes : LawfulBEq Bytes := inferInstance

/-- `bytes.hex()` -/
def hex (bs : Bytes) : String :=
  String.join (bs.map fun b => String.ofList [Nat.digitChar (b.toNat / 16),Nat.digitChar (b.toNat % 16)])

/-- The `#x` format of an integer. -/
def hexNat (n : ℕ) : String := "0x" ++ String.ofList (Nat.toDigits 16 n)

/-- The opcodes that appear in the package's scripts. -/
inductive Ops
  | opN (n : ℕ)
  | opDup
  | opHash160
  | opEqualVerify
  | opCheckSig
  | opCheckMultiSig
  | opIf
  | opElse
  | opEndIf
  | opReturn
  deriving DecidableEq, Repr

inductive ScriptItem
  | op (o : Ops)
  | push (data : Bytes)
  deriving DecidableEq, Repr

abbrev Script := List ScriptItem

/-- `OP_TRUE` is `OP_1`. -/
def Ops.opTrue : Ops := .opN 1

structure PrivateKey where
  toBytes : Bytes
  deriving DecidableEq, Repr

structure PublicKey where
  toBytes : Bytes
  deriving DecidableEq, Repr

/-- A previous output: transaction id and output index. -/
abbrev Outpoint := Bytes × ℕ

structure TxInput where
  prevHash : Bytes
  prevIdx : ℕ
  scriptSig : Script
  sequence : ℕ
  deriving DecidableEq, Repr

structure TxOutput where
  value : ℤ
  scriptPubkey : Script
  deriving DecidableEq, Repr

structure Tx where
  version : ℕ
  inputs : List TxInput
  outputs : List TxOutput
  locktime : ℕ
  deriving DecidableEq, Repr

def TxInput.outpoint (tin : TxInput) : Outpoint := (tin.prevHash,tin.prevIdx)

/-- The outpoints a transaction lists, in order and with repetitions. -/
def Tx.outpoints (tx : Tx) : List Outpoint := tx.inputs.map TxInput.outpoint

def Tx.totalOutputValue (tx : Tx) : ℤ := (tx.outputs.map TxOutput.value).sum

/-- Does `struct` pack the number into eight signed bytes? -/
def fitsInt64 (v : ℤ) : Bool := decide (-2^63 ≤ v ∧ v < 2^63)

theorem fitsInt64_iff_of_nonneg {v : ℤ} (h : 0 ≤ v) : fitsInt64 v = true ↔ v < 2^63 := by
  rw [fitsInt64,decide_eq_true_eq]
  exact and_iff_right (by omega)

/-- The numbers of a transaction fit the fields of its serialisation. -/
structure Tx.InRange (tx : Tx) : Prop where
  inputs : ∀ tin ∈ tx.inputs, tin.prevIdx < 2^32 ∧ tin.sequence < 2^32
  outputs : ∀ tout ∈ tx.outputs, fitsInt64 tout.value = true
  locktime : tx.locktime < 2^32

/-- What the package takes from its dependencies. -/
structure Bitcoinx where
  /-- `Tx.hash()` -/
  txHash : Tx → Bytes
  /-- Does `Tx.to_bytes()` return? It raises `struct.error` when a number does not fit its field, and so do
  `size()` and `hash()`. -/
  packs : Tx → Bool
  /-- `Tx.is_coinbase()`, which reads the first input and raises `IndexError` when there is none. -/
  isCoinbase : Tx → Bool
  /-- `TxInputContext(tx, idx, utxo).verify_input(..)`: its result, or the exception it raises. -/
  verifyInput : Tx → ℕ → TxOutput → Except String Bool
  /-- Does the interpreter get through an unlocking and a locking script within the limits that it is given? -/
  withinLimits : Script → Script → Bool
  /-- `Tx.to_bytes()` -/
  txToBytes : Tx → Bytes
  /-- `Tx.read` on a stream: the transaction and the rest of the stream. -/
  txRead : Bytes → Option (Tx × Bytes)
  /-- `Tx.from_hex` -/
  txFromHex : String → Option Tx
  /-- `sha256(sha256(data))` -/
  doubleSha256 : Bytes → Bytes
  hash160 : Bytes → Bytes
  /-- `PrivateKey.public_key` -/
  publicKey : PrivateKey → PublicKey
  /-- `PublicKey.P2PKH_script()` -/
  p2pkhScript : PublicKey → Script
  /-- `Tx.signature_hash(idx, value, script_code, sighash)` -/
  signatureHash : Tx → ℕ → ℤ → Script → UInt8 → Bytes
  /-- `PrivateKey.sign(digest, hasher=None)` -/
  sign : PrivateKey → Bytes → Bytes
  /-- The interpreter's check of a signature (without its sighash byte) under a key for a digest. -/
  checkSig : Bytes → Bytes → Bytes → Bool

/-- The fields that `to_bytes()` packs the numbers of a transaction into. -/
def PacksFields (B : Bitcoinx) : Prop := ∀ tx : Tx, tx.version = 1 → (B.packs tx = true ↔ tx.InRange)

/-- A transaction on which `hash()` and `is_coinbase()` return: it can be serialised and has an input. -/
structure Tx.Regular (B : Bitcoinx) (tx : Tx) : Prop where
  packs : B.packs tx = true
  inputs : tx.inputs ≠ []

instance (B : Bitcoinx) (tx : Tx) : Decidable (tx.Regular B) :=
  decidable_of_iff (B.packs tx = true ∧ tx.inputs ≠ []) ⟨fun h => ⟨h.1,h.2⟩,fun h => ⟨h.packs,h.inputs⟩⟩

/-- What `hash()` or else `is_coinbase()` raises on a transaction. -/
def Tx.fault (B : Bitcoinx) (tx : Tx) : Option Fault :=
  if B.packs tx = false then some ⟨.structError,""⟩
  else if tx.inputs = [] then some ⟨.indexError,"list index out of range"⟩
  else none

theorem Tx.fault_eq_none {B : Bitcoinx} {tx : Tx} : tx.fault B = none ↔ tx.Regular B := by
  unfold Tx.fault
  split_ifs with hpacks hin
  · exact iff_of_false (by simp) fun h => by rw [h.packs] at hpacks; cases hpacks
  · exact iff_of_false (by simp) fun h => h.inputs hin
  · exact iff_of_true rfl ⟨by simpa using hpacks,hin⟩

/-- All transactions of a list are regular, or the first that is not raises. -/
theorem findSome?_fault_eq_none {B : Bitcoinx} {txs : List Tx} :
    txs.findSome? (Tx.fault B) = none ↔ ∀ tx ∈ txs, tx.Regular B := by
  simp only [List.findSome?_eq_none_iff,Tx.fault_eq_none]

end SubsatChannel
