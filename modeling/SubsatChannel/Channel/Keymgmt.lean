import SubsatChannel.Bitcoinx
import SubsatChannel.Channel.Config

/-! The key book of a channel and the signing of transaction inputs. -/
namespace SubsatChannel

structure KeyBook where
  keys : List PrivateKey
  deriving DecidableEq, Repr

namespace KeyBook

def n (kb : KeyBook) : ℕ := kb.keys.length

def publicKeys (B : Bitcoinx) (kb : KeyBook) : List PublicKey := kb.keys.map B.publicKey

def privateKey (kb : KeyBook) (index : ℕ) : Except Fault PrivateKey :=
  match kb.keys[index]? with
  | none => .error ⟨.keyReplacementError,s!"index {index} out of [0, {kb.n})"⟩
  | some key => .ok key

def publicKey (B : Bitcoinx) (kb : KeyBook) (index : ℕ) : Except Fault PublicKey :=
  (kb.privateKey index).map B.publicKey

/-- Hand a party's position to another key. -/
def replace (kb : KeyBook) (index : ℕ) (newPriv : PrivateKey) : Except Fault KeyBook :=
  if ¬ index < kb.n then .error ⟨.keyReplacementError,s!"index {index} out of [0, {kb.n})"⟩
  else .ok ⟨kb.keys.set index newPriv⟩

variable {kb : KeyBook} {i : ℕ}

/-- The key of party `i`; empty when there is no such party. -/
def keyOf (kb : KeyBook) (i : ℕ) : PrivateKey := kb.keys.getD i ⟨[]⟩

theorem privateKey_of_lt (h : i < kb.n) : kb.privateKey i = .ok (kb.keyOf i) := by
  have hi : i < kb.keys.length := h
  simp [privateKey,keyOf,hi]

theorem publicKey_of_lt (B : Bitcoinx) (h : i < kb.n) :
    kb.publicKey B i = .ok (B.publicKey (kb.keyOf i)) := by
  rw [publicKey,privateKey_of_lt h]
  rfl

end KeyBook

/-- Sign an input: the signature over the digest, with the sighash byte at its end. -/
def signInput (B : Bitcoinx) (tx : Tx) (inputIndex : ℕ) (utxoValue : ℤ) (scriptCode : Script)
    (priv : PrivateKey) : Bytes :=
  B.sign priv (B.signatureHash tx inputIndex utxoValue scriptCode sighashAllForkid) ++
    [sighashAllForkid]

/-- Replace the unlocking script of an input. -/
def Tx.setScriptSig (tx : Tx) (idx : ℕ) (scriptSig : Script) : Tx :=
  { tx with inputs := tx.inputs.modify idx fun tin => { tin with scriptSig := scriptSig } }

@[simp] theorem Tx.setScriptSig_outputs (tx : Tx) (idx : ℕ) (s : Script) :
    (tx.setScriptSig idx s).outputs = tx.outputs := rfl
@[simp] theorem Tx.setScriptSig_locktime (tx : Tx) (idx : ℕ) (s : Script) :
    (tx.setScriptSig idx s).locktime = tx.locktime := rfl

@[simp] theorem Tx.setScriptSig_outpoints (tx : Tx) (idx : ℕ) (s : Script) :
    (tx.setScriptSig idx s).outpoints = tx.outpoints := by
  refine List.ext_getElem (by simp [Tx.outpoints,Tx.setScriptSig]) fun i h₁ h₂ => ?_
  simp only [Tx.outpoints,Tx.setScriptSig,List.getElem_map,List.getElem_modify]
  split_ifs <;> rfl

/-- A transaction without its unlocking scripts. -/
def Tx.stripped (tx : Tx) : Tx :=
  { tx with inputs := tx.inputs.map fun tin => { tin with scriptSig := [] } }

@[simp] theorem Tx.stripped_setScriptSig (tx : Tx) (idx : ℕ) (s : Script) :
    (tx.setScriptSig idx s).stripped = tx.stripped := by
  simp only [Tx.stripped,Tx.setScriptSig,Tx.mk.injEq,and_true,true_and]
  refine List.ext_getElem (by simp) fun i h₁ h₂ => ?_
  simp only [List.getElem_map,List.getElem_modify]
  split_ifs <;> rfl

section Stripped
variable {t u : Tx}

theorem Tx.outputs_congr (h : t.stripped = u.stripped) : t.outputs = u.outputs := by
  have hs : ∀ t : Tx, t.stripped.outputs = t.outputs := fun _ => rfl
  rw [← hs t,h,hs]

theorem Tx.outpoints_congr (h : t.stripped = u.stripped) : t.outpoints = u.outpoints := by
  have hs : ∀ t : Tx, t.stripped.outpoints = t.outpoints := fun t => by
    simp [Tx.stripped,Tx.outpoints,TxInput.outpoint]
  rw [← hs t,h,hs]

theorem Tx.sequences_congr (h : t.stripped = u.stripped) :
    t.inputs.map TxInput.sequence = u.inputs.map TxInput.sequence := by
  have hs : ∀ t : Tx, t.stripped.inputs.map TxInput.sequence = t.inputs.map TxInput.sequence :=
    fun t => by simp [Tx.stripped]
  rw [← hs t,h,hs]

end Stripped
end SubsatChannel
