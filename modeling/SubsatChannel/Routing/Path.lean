import SubsatChannel.Verify
import SubsatChannel.Channel.Keymgmt
import SubsatChannel.Channel.Scripts

/-! Multi-hop paths with staggered lock times, and the claim and the return of a hop. -/
namespace SubsatChannel

structure Hop where
  payerPriv : PrivateKey
  payeePriv : PrivateKey
  value : ℤ
  imageH160 : Bytes
  locktime : ℕ
  fundingOutpoint : Outpoint
  deriving DecidableEq, Repr

structure Path where
  hops : List Hop
  L0 : ℕ
  delta : ℕ
  imageH160 : Bytes
  preimage : Option Bytes
  deriving DecidableEq, Repr

namespace Hop

def lockingScript (B : Bitcoinx) (hop : Hop) : Except Fault Script :=
  hopScript hop.imageH160 (B.publicKey hop.payeePriv) (B.publicKey hop.payerPriv)

def utxo (B : Bitcoinx) (hop : Hop) : Except Fault TxOutput :=
  (hop.lockingScript B).map fun lock => ⟨hop.value,lock⟩

end Hop

/-- `bytes([j + 1] * 32)` -/
def syntheticTxid (j : ℕ) : Except Fault Bytes :=
  if 256 ≤ j+1 then .error ⟨.valueError,"bytes must be in range(0, 256)"⟩
  else .ok (List.replicate 32 (UInt8.ofNat (j+1)))

/-- The outpoints that fund the hops: synthetic ones when none are given. -/
def hopOutpoints (l : ℕ) : Option (List Outpoint) → Except Fault (List Outpoint)
  | none => (List.range l).mapM fun j => (syntheticTxid j).map fun txid => (txid,0)
  | some os => .ok os

/-- The hops of a path: hop `j` goes from the holder of key `j` to that of key `j+1`. -/
def buildHops (value : ℤ) (image : Bytes) (L0 delta : ℕ) :
    ℕ → List PrivateKey → List Outpoint → List Hop
  | j, payer :: payee :: keys, o :: os =>
    ⟨payer,payee,value,image,L0 - j*delta,o⟩ :: buildHops value image L0 delta (j+1) (payee :: keys) os
  | _, _, _ => []

def buildPath (B : Bitcoinx) (keysOnPath : List PrivateKey) (value : ℤ) (L0 delta : ℤ)
    (preimage : Bytes) (fundingOutpoints : Option (List Outpoint)) : Except Fault Path :=
  if keysOnPath.length < 2 then .error ⟨.routingError,"path must have at least one hop"⟩
  else
    let l := keysOnPath.length - 1
    if L0 ≤ 0 then .error ⟨.routingError,s!"L0 must be a positive int (got {L0})"⟩
    else if delta ≤ 0 then .error ⟨.routingError,s!"delta must be a positive int (got {delta})"⟩
    else if L0 ≤ l * delta then .error ⟨.routingError,
      s!"path length {l} infeasible: l*delta={l * delta} >= L0={L0}"⟩
    else do
      let image := B.hash160 preimage
      let outpoints ← hopOutpoints l fundingOutpoints
      if outpoints.length ≠ l then .error ⟨.routingError,
        s!"funding_outpoints has length {outpoints.length} != l={l}"⟩
      else .ok ⟨buildHops value image L0.toNat delta.toNat 0 keysOnPath outpoints,L0.toNat,
        delta.toNat,image,some preimage⟩

namespace Hop

/-- The spend that claims a hop with the preimage. -/
def buildClaimTx (B : Bitcoinx) (hop : Hop) (preimage : Bytes) (sinkPayoutPk : Option PublicKey) :
    Except Fault (Tx × TxOutput) :=
  if B.hash160 preimage ≠ hop.imageH160 then
    .error ⟨.routingError,"preimage does not match hop image"⟩
  else do
    let txIn : TxInput := ⟨hop.fundingOutpoint.1,hop.fundingOutpoint.2,[],finalSequence⟩
    let pk := sinkPayoutPk.getD (B.publicKey hop.payeePriv)
    let tx : Tx := ⟨1,[txIn],[⟨hop.value,p2pkhScript B pk⟩],0⟩
    let lock ← hop.lockingScript B
    let sig := signInput B tx 0 hop.value lock hop.payeePriv
    let utxo ← hop.utxo B
    .ok (tx.setScriptSig 0 (hopClaimUnlock sig preimage),utxo)

/-- The spend that returns a hop to its payer. It carries the hop's lock time and an input that is
not final. -/
def buildReturnTx (B : Bitcoinx) (hop : Hop) : Except Fault (Tx × TxOutput) := do
  let txIn : TxInput := ⟨hop.fundingOutpoint.1,hop.fundingOutpoint.2,[],0⟩
  let tx : Tx := ⟨1,[txIn],[⟨hop.value,p2pkhScript B (B.publicKey hop.payerPriv)⟩],hop.locktime⟩
  let lock ← hop.lockingScript B
  let sig := signInput B tx 0 hop.value lock hop.payerPriv
  let utxo ← hop.utxo B
  .ok (tx.setScriptSig 0 (hopReturnUnlock sig),utxo)

variable {B : Bitcoinx} {hop : Hop}

/-- A return transaction waits for its hop's lock time: its only input is not final. -/
theorem buildReturnTx_ok {tx : Tx} {utxo : TxOutput} (h : hop.buildReturnTx B = .ok (tx,utxo)) :
    tx.locktime = hop.locktime ∧ ∃ tin ∈ tx.inputs, tin.sequence = 0 := by
  obtain ⟨lock,_,h⟩ := bind_eq_ok.mp h
  obtain ⟨out,_,h⟩ := bind_eq_ok.mp h
  cases h
  exact ⟨rfl,_,List.mem_singleton_self _,rfl⟩

end Hop

/-- Every hop of a path carries the path's image. -/
theorem buildHops_image {value : ℤ} {image : Bytes} {L0 delta j : ℕ} {keys : List PrivateKey}
    {os : List Outpoint} : ∀ hop ∈ buildHops value image L0 delta j keys os, hop.imageH160 = image := by
  fun_induction buildHops value image L0 delta j keys os with
  | case1 j payer payee keys o os ih =>
    intro hop hh
    cases List.mem_cons.mp hh with
    | inl he => rw [he]
    | inr hrest => exact ih hop hrest
  | case2 => simp

theorem buildPath_ok {B : Bitcoinx} {keys : List PrivateKey} {value L0 delta : ℤ} {preimage : Bytes}
    {os : Option (List Outpoint)} {path : Path}
    (h : buildPath B keys value L0 delta preimage os = .ok path) :
    path.imageH160 = B.hash160 preimage ∧ ∀ hop ∈ path.hops, hop.imageH160 = path.imageH160 := by
  unfold buildPath at h
  dsimp only at h
  split_ifs at h
  obtain ⟨outpoints,_,h⟩ := bind_eq_ok.mp h
  split_ifs at h
  cases h
  exact ⟨rfl,buildHops_image⟩

end SubsatChannel
