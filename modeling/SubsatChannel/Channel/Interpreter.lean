import Mathlib
import SubsatChannel.Channel.Scripts

/-! The standard meaning of the opcodes in the package's scripts. It is what the results about
scripts assume of the interpreter of `bitcoinx`. -/
namespace SubsatChannel

/-- An element counts as true unless all its bytes are zero, up to a sign bit. -/
def castToBool : Bytes → Bool
  | [] => false
  | [b] => b ≠ 0 ∧ b ≠ 0x80
  | b :: bs => b ≠ 0 ∨ castToBool bs

def decodeScriptNum (bs : Bytes) : ℤ :=
  match bs.getLast? with
  | none => 0
  | some b =>
    let magnitude : ℤ := LittleEndian.decode (bs.dropLast ++ [b &&& 0x7F])
    if b &&& 0x80 ≠ 0 then -magnitude else magnitude

def boolElement (b : Bool) : Bytes := if b then [1] else []

/-- What the machine takes from its surroundings: hashing, and whether a signature is valid under
a key for the input that is being spent. -/
structure ScriptContext where
  hash160 : Bytes → Bytes
  validSig : Bytes → Bytes → Bool

/-- The stack with its top first, the branches taken by the enclosing conditionals, and whether
`OP_RETURN` has ended the execution. -/
structure Machine where
  stack : List Bytes
  conds : List Bool
  halted : Bool
  deriving DecidableEq, Repr

namespace Machine

def start (stack : List Bytes) : Machine := ⟨stack,[],false⟩

def executing (m : Machine) : Bool := !m.halted && m.conds.all id

def push (m : Machine) (data : Bytes) : Machine := { m with stack := data :: m.stack }

end Machine

/-- The first `n` elements of a stack and the rest. -/
def popN (n : ℕ) (stack : List Bytes) : Option (List Bytes × List Bytes) :=
  if stack.length < n then none else some (stack.take n,stack.drop n)

/-- A count on the stack and the elements it counts. -/
def popCounted : List Bytes → Option (List Bytes × List Bytes)
  | [] => none
  | count :: stack => if decodeScriptNum count < 0 then none
    else popN (decodeScriptNum count).toNat stack

/-- Every signature is valid under a key of its own, in the same order. -/
def matchSigs (validSig : Bytes → Bytes → Bool) : List Bytes → List Bytes → Bool
  | [], _ => true
  | _ :: _, [] => false
  | sig :: sigs, key :: keys =>
    if validSig sig key then matchSigs validSig sigs keys
    else matchSigs validSig (sig :: sigs) keys

/-- `OP_CHECKMULTISIG`, which drops one element below the signatures. -/
def checkMultiSig (validSig : Bytes → Bytes → Bool) (stack : List Bytes) : Option (List Bytes) :=
  match popCounted stack with
  | none => none
  | some (keys,below) =>
    match popCounted below with
    | none => none
    | some (sigs,below) =>
      if keys.length < sigs.length then none
      else
        match below with
        | [] => none
        | _ :: rest => some (boolElement (matchSigs validSig sigs keys) :: rest)

/-- An opcode other than the conditionals and `OP_RETURN`, on the stack. -/
def execOp (ctx : ScriptContext) : Ops → List Bytes → Option (List Bytes)
  | .opN n, stack => some ((if n = 0 then [] else [UInt8.ofNat n]) :: stack)
  | .opDup, a :: stack => some (a :: a :: stack)
  | .opHash160, a :: stack => some (ctx.hash160 a :: stack)
  | .opEqualVerify, a :: b :: stack => if a = b then some stack else none
  | .opCheckSig, key :: sig :: stack => some (boolElement (ctx.validSig sig key) :: stack)
  | .opCheckMultiSig, stack => checkMultiSig ctx.validSig stack
  | _, _ => none

/-- One element of a script. In a branch that is not taken only the conditionals count. -/
def stepItem (ctx : ScriptContext) (m : Machine) : ScriptItem → Option Machine
  | .push data => some (if m.executing then m.push data else m)
  | .op .opIf =>
    if m.executing then
      match m.stack with
      | [] => none
      | a :: stack => some { m with stack := stack, conds := castToBool a :: m.conds }
    else some { m with conds := false :: m.conds }
  | .op .opElse =>
    match m.conds with
    | [] => none
    | c :: conds => some { m with conds := (!c) :: conds }
  | .op .opEndIf =>
    match m.conds with
    | [] => none
    | _ :: conds => some { m with conds := conds }
  | .op .opReturn => some (if m.executing then { m with halted := true } else m)
  | .op o =>
    if m.executing then (execOp ctx o m.stack).map fun stack => { m with stack := stack }
    else some m

/-- Run a script. `OP_RETURN` outside of any conditional ends it at once; at the end every
conditional must be closed. -/
def runScript (ctx : ScriptContext) : Machine → Script → Option (List Bytes)
  | m, [] => if m.conds = [] then some m.stack else none
  | m, item :: script =>
    if item = .op .opReturn ∧ m.executing ∧ m.conds = [] then some m.stack
    else
      match stepItem ctx m item with
      | none => none
      | some m' => runScript ctx m' script

/-- Is a signature with its sighash byte valid under a key for an input that spends `utxo`, while
the given script runs? -/
def validSigFor (B : Bitcoinx) (tx : Tx) (idx : ℕ) (utxo : TxOutput) (code : Script)
    (sig key : Bytes) : Bool :=
  match sig.getLast? with
  | none => false
  | some sighash =>
    B.checkSig sig.dropLast key (B.signatureHash tx idx utxo.value code sighash)

def scriptContext (B : Bitcoinx) (tx : Tx) (idx : ℕ) (utxo : TxOutput) (code : Script) :
    ScriptContext :=
  ⟨B.hash160,validSigFor B tx idx utxo code⟩

/-- The unlocking script runs first, the locking script on the stack it leaves. The input is
accepted when a true element is on top at the end. -/
def interpreterAccepts (B : Bitcoinx) (tx : Tx) (idx : ℕ) (utxo : TxOutput) : Bool :=
  match tx.inputs[idx]? with
  | none => false
  | some tin =>
    match runScript (scriptContext B tx idx utxo tin.scriptSig) (.start []) tin.scriptSig with
    | none => false
    | some stack =>
      match runScript (scriptContext B tx idx utxo utxo.scriptPubkey) (.start stack)
          utxo.scriptPubkey with
      | some (top :: _) => castToBool top
      | _ => false

/-- What is assumed of the interpreter of `bitcoinx`: it accepts nothing that the standard meaning
of the opcodes does not accept. -/
def StandardOpcodes (B : Bitcoinx) : Prop :=
  ∀ tx idx utxo, B.verifyInput tx idx utxo = .ok true → interpreterAccepts B tx idx utxo = true

section Count

theorem signBit_of_not {b : UInt8} (h : ¬ (b &&& 0x80 ≠ 0)) : b &&& 0x7F = b := by
  have key : ∀ i : Fin 256, ¬ ((UInt8.ofFin i &&& 0x80) ≠ 0) → UInt8.ofFin i &&& 0x7F = UInt8.ofFin i := by
    decide +kernel
  exact key b.toFin h

theorem signBit_set (b : UInt8) : (b ||| 0x80) &&& 0x80 ≠ 0 ∧ (b ||| 0x80) &&& 0x7F = b &&& 0x7F := by
  have key : ∀ i : Fin 256, (UInt8.ofFin i ||| 0x80) &&& 0x80 ≠ 0 ∧
    (UInt8.ofFin i ||| 0x80) &&& 0x7F = UInt8.ofFin i &&& 0x7F := by
    decide +kernel
  exact key b.toFin

/-- Reading a script number: the magnitude without its sign bit. -/
theorem decodeScriptNum_concat (front : Bytes) (b : UInt8) : decodeScriptNum (front ++ [b]) =
    if b &&& 0x80 ≠ 0 then -(LittleEndian.decode (front ++ [b &&& 0x7F]) : ℤ)
    else LittleEndian.decode (front ++ [b &&& 0x7F]) := by
  simp [decodeScriptNum]

/-- Decoding a script number gives back the number. -/
theorem decodeScriptNum_encodeScriptNum (n : ℤ) : decodeScriptNum (encodeScriptNum n) = n := by
  by_cases hn : n = 0
  · subst hn; rfl
  have hd := LittleEndian.decode_minimal n.natAbs
  rcases List.eq_nil_or_concat (LittleEndian.minimal n.natAbs) with hout | ⟨front,last,hout⟩
  · rw [hout] at hd
    exact absurd (Int.natAbs_eq_zero.mp hd.symm) hn
  rw [List.concat_eq_append] at hout
  rw [hout] at hd
  have hlast : (front ++ [last]).getLast?.getD 0 = last := by simp
  have hsign : n < 0 ∧ -(n.natAbs : ℤ) = n ∨ ¬ n < 0 ∧ (n.natAbs : ℤ) = n := by omega
  simp only [encodeScriptNum,hn,if_false,hout,hlast]
  by_cases htop : last &&& 0x80 ≠ 0
  · have hz : LittleEndian.decode (front ++ [last] ++ [0]) = n.natAbs := by
      rw [LittleEndian.decode_append,hd]
      rfl
    rw [if_pos htop]
    rcases hsign with ⟨hneg,hval⟩ | ⟨hneg,hval⟩
    · rw [if_pos hneg,decodeScriptNum_concat,if_pos (by decide)]
      exact (congrArg (fun v : ℕ => -(v : ℤ)) hz).trans hval
    · rw [if_neg hneg,decodeScriptNum_concat,if_neg (by decide)]
      exact (congrArg (fun v : ℕ => (v : ℤ)) hz).trans hval
  · have hz : LittleEndian.decode (front ++ [last &&& 0x7F]) = n.natAbs := by
      rw [signBit_of_not htop,hd]
    rw [if_neg htop]
    rcases hsign with ⟨hneg,hval⟩ | ⟨hneg,hval⟩
    · obtain ⟨h1,h2⟩ := signBit_set last
      rw [if_pos hneg,List.dropLast_concat,decodeScriptNum_concat,if_pos h1,h2,hz,hval]
    · rw [if_neg hneg,decodeScriptNum_concat,if_neg htop,hz,hval]

/-- The element that a count leaves on the stack. -/
def countElement (n : ℤ) : Bytes :=
  if 0 ≤ n ∧ n ≤ 16 then (if n.toNat = 0 then [] else [UInt8.ofNat n.toNat]) else encodeScriptNum n

/-- Whether it was pushed by an opcode or as data, the element of a count decodes to the count. -/
theorem decodeScriptNum_countElement (n : ℤ) : decodeScriptNum (countElement n) = n := by
  unfold countElement
  by_cases h : 0 ≤ n ∧ n ≤ 16
  · rw [if_pos h]
    obtain ⟨m,rfl⟩ := Int.eq_ofNat_of_zero_le h.1
    have hm : m ≤ 16 := by omega
    rw [Int.toNat_natCast]
    interval_cases m <;> rfl
  · rw [if_neg h]
    exact decodeScriptNum_encodeScriptNum n

end Count

end SubsatChannel
