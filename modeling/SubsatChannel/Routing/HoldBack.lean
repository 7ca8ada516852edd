import SubsatChannel.Channel.BondSpends
import SubsatChannel.Node.Finality
import SubsatChannel.Routing.Path

/-! What holds a hop's value back: the preimage on the claim, and only the lock time of the
transaction on the return. -/
namespace SubsatChannel

/-- The input carries a preimage of the image: it is on the stack that its unlocking script leaves. -/
def CarriesPreimage (B : Bitcoinx) (tx : Tx) (idx : ℕ) (utxo : TxOutput) (image : Bytes) : Prop :=
  ∃ tin stack x, tx.inputs[idx]? = some tin ∧
    runScript (scriptContext B tx idx utxo tin.scriptSig) (.start []) tin.scriptSig = some stack ∧
    x ∈ stack ∧ B.hash160 x = image

section Hops
variable {B : Bitcoinx} {hop : Hop} {tx : Tx} {idx : ℕ} {utxo : TxOutput}

/-- A claim that is accepted shows the preimage and a signature of the payee. -/
theorem claim_valid {ctx : ScriptContext} {image key : Bytes} {stack below : List Bytes} {top : Bytes}
    (h : execItems ctx [.op .opHash160,.push image,.op .opEqualVerify,.push key,.op .opCheckSig] stack =
      some (top :: below)) (ht : castToBool top = true) :
    (∃ x ∈ stack, ctx.hash160 x = image) ∧ ∃ sig, ctx.validSig sig key = true := by
  rw [execItems_claim] at h
  split at h
  · rename_i preimage sig rest
    split_ifs at h with himage
    simp only [Option.some.injEq,List.cons.injEq] at h
    obtain ⟨rfl,_⟩ := h
    rw [castToBool_boolElement] at ht
    exact ⟨⟨preimage,by simp,himage.symm⟩,sig,ht⟩
  · cases h

/-- The return transaction is not final below the hop's lock time. -/
theorem Hop.return_not_final (hr : hop.buildReturnTx B = .ok (tx,utxo)) {h : ℕ}
    (hlow : h < hop.locktime) : ¬ FinalAt tx h := by
  obtain ⟨hlock,tin,htin,hseq⟩ := Hop.buildReturnTx_ok hr
  intro hfinal
  have hle := hfinal.locktime_le htin (by rw [hseq]; decide)
  omega

/-- An accepted spend of a hop: a claim with preimage and payee signature, or signed by the payer. -/
theorem Hop.spend_signed {signed : Bytes → Bytes → Prop} (hstd : StandardOpcodes B)
    (hforge : Unforgeable B signed) (hu : hop.utxo B = .ok utxo)
    (hv : spendVerifies B tx idx utxo = true) :
    CarriesPreimage B tx idx utxo hop.imageH160 ∧
      SignedBy B signed (B.publicKey hop.payeePriv) tx idx utxo ∨
    SignedBy B signed (B.publicKey hop.payerPriv) tx idx utxo := by
  obtain ⟨tin,stack,top,below,hin,hunlock,hrun,htop⟩ :=
    interpreterAccepts_cases (hstd tx idx utxo (verifyInput_of_spendVerifies hv))
  obtain ⟨lock,hl,rfl⟩ := map_eq_ok.mp hu
  rw [runScript_hop hl] at hrun
  cases stack with
  | nil => cases hrun
  | cons choice rest =>
    dsimp only at hrun
    cases hc : castToBool choice with
    | true =>
      rw [hc,if_pos rfl] at hrun
      obtain ⟨⟨x,hx,himage⟩,sig,hsig⟩ := claim_valid hrun htop
      exact .inl ⟨⟨tin,_,x,hin,hunlock,List.mem_cons_of_mem _ hx,himage⟩,hforge.signedBy hsig⟩
    | false =>
      rw [hc,if_neg Bool.false_ne_true] at hrun
      obtain ⟨sig,_,hsig⟩ := checkSig_valid hrun htop
      exact .inr (hforge.signedBy hsig)

end Hops

/-- Whatever transaction spends a hop of a path, is accepted and can be confirmed below the hop's
lock time: it carries a preimage of the path's image and a signature of the payee, or it is signed
by the payer and is not the hop's return transaction. -/
theorem hop_held_back {B : Bitcoinx} {signed : Bytes → Bytes → Prop} (hstd : StandardOpcodes B)
    (hforge : Unforgeable B signed) {keys : List PrivateKey} {value L0 delta : ℤ} {preimage : Bytes}
    {os : Option (List Outpoint)} {path : Path}
    (hp : buildPath B keys value L0 delta preimage os = .ok path) {hop : Hop} (hh : hop ∈ path.hops)
    {utxo : TxOutput} (hu : hop.utxo B = .ok utxo) {tx : Tx} {idx h : ℕ}
    (hv : spendVerifies B tx idx utxo = true) (hfinal : FinalAt tx h) (hlow : h < hop.locktime) :
    CarriesPreimage B tx idx utxo path.imageH160 ∧
      SignedBy B signed (B.publicKey hop.payeePriv) tx idx utxo ∨
    SignedBy B signed (B.publicKey hop.payerPriv) tx idx utxo ∧
      ∀ out, hop.buildReturnTx B ≠ .ok (tx,out) := by
  rw [← (buildPath_ok hp).2 hop hh]
  rcases hop.spend_signed hstd hforge hu hv with hclaim | hpayer
  · exact .inl hclaim
  · exact .inr ⟨hpayer,fun out hr => Hop.return_not_final hr hlow hfinal⟩

namespace Reference

/-- Only the payer of the sample path signs anything. -/
def payerSigns (key _digest : Bytes) : Bool := key == (publicKey (sampleKey 1)).toBytes

def samplePreimage : Bytes := List.replicate 32 7

/-- The only hop of the sample path. -/
def sampleHop : Hop :=
  ⟨sampleKey 1,sampleKey 2,5,hash20 samplePreimage,300,(List.replicate 32 1,0)⟩

def samplePath : Path := ⟨[sampleHop],300,144,hash20 samplePreimage,some samplePreimage⟩

theorem buildPath_sample : buildPath (reference payerSigns) [sampleKey 1,sampleKey 2] 5 300 144
    samplePreimage none = .ok samplePath := by
  decide +kernel

def sampleHopOutput : TxOutput := ⟨5,((sampleHop.lockingScript (reference payerSigns)).toOption.getD [])⟩

theorem sampleHop_utxo : sampleHop.utxo (reference payerSigns) = .ok sampleHopOutput := rfl

/-- The payer takes the hop's value back at once: no lock time, a final input. -/
def payerSpend : Tx :=
  let tx : Tx := ⟨1,[⟨List.replicate 32 1,0,[],finalSequence⟩],
    [⟨5,p2pkhScript (reference payerSigns) (publicKey (sampleKey 1))⟩],0⟩
  tx.setScriptSig 0 (hopReturnUnlock (signInput (reference payerSigns) tx 0 5
    sampleHopOutput.scriptPubkey (sampleKey 1)))

theorem payerSpend_verifies :
    spendVerifies (reference payerSigns) payerSpend 0 sampleHopOutput = true := by
  decide +kernel

theorem payerSpend_final : FinalAt payerSpend 0 := by decide +kernel

end Reference

open Reference in
theorem hop_held_back_sample :
    CarriesPreimage (reference payerSigns) payerSpend 0 sampleHopOutput samplePath.imageH160 ∧
      SignedBy (reference payerSigns) (fun key d => payerSigns key d = true)
        (publicKey (sampleKey 2)) payerSpend 0 sampleHopOutput ∨
    SignedBy (reference payerSigns) (fun key d => payerSigns key d = true)
      (publicKey (sampleKey 1)) payerSpend 0 sampleHopOutput ∧
        ∀ out, sampleHop.buildReturnTx (reference payerSigns) ≠ .ok (payerSpend,out) :=
  hop_held_back (standardOpcodes payerSigns) (unforgeable payerSigns) buildPath_sample
    (List.mem_singleton_self _) sampleHop_utxo payerSpend_verifies payerSpend_final (by decide)

open Reference in
/-- The payer alone spends a hop of a path below its lock time, without preimage or payee. -/
theorem payer_takes_hop_back :
    StandardOpcodes (reference payerSigns) ∧
    Unforgeable (reference payerSigns) (fun key d => payerSigns key d = true) ∧
    buildPath (reference payerSigns) [sampleKey 1,sampleKey 2] 5 300 144 samplePreimage none =
      .ok samplePath ∧
    sampleHop ∈ samplePath.hops ∧ sampleHop.utxo (reference payerSigns) = .ok sampleHopOutput ∧
    spendVerifies (reference payerSigns) payerSpend 0 sampleHopOutput = true ∧
    FinalAt payerSpend 0 ∧ 0 < sampleHop.locktime ∧
    ¬ SignedBy (reference payerSigns) (fun key d => payerSigns key d = true)
      (publicKey (sampleKey 2)) payerSpend 0 sampleHopOutput :=
  ⟨standardOpcodes payerSigns,unforgeable payerSigns,buildPath_sample,List.mem_singleton_self _,
    sampleHop_utxo,payerSpend_verifies,payerSpend_final,by decide,
    by unfold SignedBy payerSigns; decide +kernel⟩

end SubsatChannel
