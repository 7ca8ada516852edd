import SubsatChannel.Node.Landing
import SubsatChannel.Routing.Settlement

/-! The race of an intermediary: who takes its outgoing hop without its signature shows it the
preimage, and its claim on the incoming hop gets past the return that may be waiting. -/
namespace SubsatChannel
open Transition

/-- The input carries a signature that checks under the key. -/
def CarriesSignature (B : Bitcoinx) (pk : PublicKey) (tx : Tx) (idx : ℕ) (utxo : TxOutput) : Prop :=
  ∃ stack, Unlocks B tx idx utxo stack ∧ ∃ sig ∈ stack,
    validSigFor B tx idx utxo utxo.scriptPubkey sig pk.toBytes = true

namespace Hop
variable {B : Bitcoinx} {hop : Hop} {U : UtxoSet}

/-- An accepted spend of a hop carries a preimage of its image or a signature of its payer. -/
theorem preimage_or_signature (hstd : StandardOpcodes B) (h20 : hop.imageH160.length = 20) {tx : Tx}
    {idx : ℕ} (hv : B.verifyInput tx idx (hop.output B) = .ok true) :
    CarriesPreimage B tx idx (hop.output B) hop.imageH160 ∨
      CarriesSignature B (B.publicKey hop.payerPriv) tx idx (hop.output B) := by
  obtain ⟨tin,stack,top,below,hin,hunlock,hrun,htop⟩ := interpreterAccepts_cases (hstd tx idx _ hv)
  rw [show (hop.output B).scriptPubkey = hop.lock B from rfl,runScript_hop (lockingScript_eq h20)] at hrun
  cases stack with
  | nil => cases hrun
  | cons choice rest =>
    dsimp only at hrun
    cases hc : castToBool choice with
    | true =>
      rw [hc,if_pos rfl] at hrun
      obtain ⟨⟨x,hx,himage⟩,_⟩ := claim_valid hrun htop
      exact .inl ⟨tin,_,x,hin,hunlock,List.mem_cons_of_mem _ hx,himage⟩
    | false =>
      rw [hc,if_neg Bool.false_ne_true] at hrun
      obtain ⟨sig,hmem,hsig⟩ := checkSig_valid hrun htop
      exact .inr ⟨_,⟨tin,hin,hunlock⟩,sig,List.mem_cons_of_mem _ hmem,hsig⟩

/-- The hop's output is unspent, where the hop says it is. -/
def FundedIn (B : Bitcoinx) (hop : Hop) (U : UtxoSet) : Prop :=
  ∃ e, U.lookup hop.fundingOutpoint = some e ∧ e.asTxOutput = hop.output B

/-- An accepted transaction that spends a hop carries the preimage or the payer's signature. -/
theorem FundedIn.shows (h : hop.FundedIn B U) (hstd : StandardOpcodes B)
    (h20 : hop.imageH160.length = 20) {tx : Tx} (hok : (validateTx B tx U).ok = true)
    (ho : hop.fundingOutpoint ∈ tx.outpoints) : ∃ idx,
      CarriesPreimage B tx idx (hop.output B) hop.imageH160 ∨
        CarriesSignature B (B.publicKey hop.payerPriv) tx idx (hop.output B) := by
  obtain ⟨e,he,hout⟩ := h
  obtain ⟨tin,hmem,heq⟩ := List.mem_map.mp ho
  obtain ⟨idx,hi⟩ := List.getElem?_of_mem hmem
  obtain ⟨e',he',hv⟩ := verifyInput_of_validateTx hok hi
  rw [heq,he] at he'
  cases he'
  rw [hout] at hv
  exact ⟨idx,preimage_or_signature hstd h20 hv⟩

/-- The claim of a funded hop is a valid transaction. -/
theorem FundedIn.claim_valid (h : hop.FundedIn B U) (hB : Idealised B) (hnull : NullCoinbase B)
    (h20 : hop.imageH160.length = 20) (hpos : 0 ≤ hop.value) (hidx : hop.fundingOutpoint.2 < 0xFFFFFFFF)
    {x : Bytes} (hlim : hop.ClaimWithin B x) (himage : B.hash160 x = hop.imageH160) :
    (validateTx B (hop.signedClaim B x) U).ok = true := by
  obtain ⟨e,he,hout⟩ := h
  have hops : (hop.signedClaim B x).outpoints = [hop.fundingOutpoint] := rfl
  have hval : e.value = hop.value := congrArg TxOutput.value hout
  refine validateTx_of_verifyInput (List.cons_ne_nil _ _) hnull ?_ ?_ ?_ ?_
  · rw [hops]
    simpa using hidx
  · simpa [signedClaim,claimOf] using hpos
  · intro i tin hi
    cases i with
    | zero =>
      cases hi
      exact ⟨e,he,by rw [hout]; exact claim_accepted hB hlim h20 himage⟩
    | succ i => cases hi
  · rw [hops]
    simp [signedClaim,claimOf,Tx.totalOutputValue,UtxoSet.valueAt,Finmap.weightAt_of_lookup _ _ he,hval]

theorem allFinal_claim (x : Bytes) : (hop.signedClaim B x).AllFinal := by
  intro tin ht
  rw [List.mem_singleton.mp ht]

/-- What a claim may find in its way: transactions on the hop with lower sequence numbers. -/
theorem unopposed_claim {n : EmbeddedNode} (hc : n.mempool.Consistent B) {x : Bytes}
    (hlow : ∀ s ∈ n.mempool.allTxs, hop.fundingOutpoint ∈ s.outpoints → s ≠ hop.signedClaim B x →
      ∀ tin ∈ s.inputs, tin.sequence < finalSequence) : Unopposed n (hop.signedClaim B x) where
  sole s hs hmeet s' hs' hmeet' := by
    obtain ⟨o,ho,hso⟩ := hmeet
    obtain ⟨p,hp,hsp⟩ := hmeet'
    obtain rfl : o = hop.fundingOutpoint := List.mem_singleton.mp ho
    obtain rfl : p = hop.fundingOutpoint := List.mem_singleton.mp hp
    obtain ⟨a,e,he,rfl⟩ := Mempool.mem_allTxs.mp hs
    obtain ⟨b,f,hf,rfl⟩ := Mempool.mem_allTxs.mp hs'
    rw [(hc.spender_unique he hf hso hsp).2]
  low s hs hmeet hne := by
    obtain ⟨o,ho,hso⟩ := hmeet
    obtain rfl : o = hop.fundingOutpoint := List.mem_singleton.mp ho
    exact hlow s hs hso hne

end Hop

/-- The safety of an intermediary on a path that `build_path` makes. An accepted transaction that
takes its outgoing hop and does not carry its signature carries a preimage. From any preimage the
claim on the incoming hop can be built; it pays the intermediary the same value. In any run, if it stays
within the limits of the interpreter and is submitted while the incoming hop is funded and only
transactions with lower sequence numbers wait to spend that hop, as its return is, the claim is accepted
and a later block that takes the mempool in has mined it. -/
theorem intermediary_safe {B : Bitcoinx} (hstd : StandardOpcodes B) (hB : Idealised B)
    (hnull : NullCoinbase B) (h20 : ∀ x, (B.hash160 x).length = 20) {keys : List PrivateKey}
    {value L0 delta : ℤ} {preimage : Bytes} {os : Option (List Outpoint)} {path : Path}
    (hp : buildPath B keys value L0 delta preimage os = .ok path) {j : ℕ} {incoming outgoing : Hop}
    (hin : path.hops[j]? = some incoming) (hout : path.hops[j+1]? = some outgoing) (hpos : 0 ≤ value)
    (hidx : incoming.fundingOutpoint.2 < 0xFFFFFFFF) {U : UtxoSet} {spend : Tx}
    (hfunded : outgoing.FundedIn B U) (hspend : (validateTx B spend U).ok = true)
    (ho : outgoing.fundingOutpoint ∈ spend.outpoints)
    (hunsigned : ∀ idx, ¬ CarriesSignature B (B.publicKey outgoing.payerPriv) spend idx
      (outgoing.output B)) {T : Set Tx} {R : Set Bytes} {reward : ℤ} {towers : List Tower} {depth : ℕ}
    (hinj : Set.InjOn B.txHash T) (hhash : Set.InjOn (headerHash B) R)
    (hcb : ∀ value script height extra, B.isCoinbase (makeCoinbase value script height extra) = true)
    (hR : (EmbeddedNode.init B reward towers).genesis ∈ R) (hseq : ∀ s ∈ T, s.Sequenced) :
    (∃ idx, CarriesPreimage B spend idx (outgoing.output B) incoming.imageH160) ∧
    ∀ x, B.hash160 x = incoming.imageH160 → ∃ claim,
      incoming.buildClaimTx B x none = .ok (claim,incoming.output B) ∧
      claim.outputs = [⟨outgoing.value,p2pkhScript B (B.publicKey outgoing.payerPriv)⟩] ∧
      (incoming.ClaimWithin B x → ∀ (before middle after : List RaceCall) (script : Script) (extra : Bytes) (timestamp : ℕ),
        Along (EmbeddedNode.raceCall B (depth+1)) (RaceAllowed B T R) (EmbeddedNode.init B reward towers)
          (before ++ .node (.submitTx claim) ::
            (middle ++ .node (.generateBlock script true extra timestamp) :: after)) →
        incoming.FundedIn B (run (EmbeddedNode.raceCall B (depth+1)) (EmbeddedNode.init B reward towers)
          before).utxos →
        (∀ s ∈ (run (EmbeddedNode.raceCall B (depth+1)) (EmbeddedNode.init B reward towers)
          before).mempool.allTxs, incoming.fundingOutpoint ∈ s.outpoints → s ≠ claim →
          ∀ tin ∈ s.inputs, tin.sequence < finalSequence) →
        ((run (EmbeddedNode.raceCall B (depth+1)) (EmbeddedNode.init B reward towers)
          (before ++ .node (.submitTx claim) :: middle)).raceCall B (depth+1)
            (.node (.generateBlock script true extra timestamp))).2.hasBlock = true →
        ((run (EmbeddedNode.raceCall B (depth+1)) (EmbeddedNode.init B reward towers) before).raceCall B
          (depth+1) (.node (.submitTx claim))).2.taken = true ∧
        claim ∈ minedIn (trace (EmbeddedNode.raceCall B (depth+1)) (EmbeddedNode.init B reward towers)
          (before ++ .node (.submitTx claim) ::
            (middle ++ .node (.generateBlock script true extra timestamp) :: after)))) := by
  have hs := scheduled_of_buildPath hp
  obtain ⟨_,hpayee,hvalue,himage,_⟩ := hs.hop j incoming hin
  obtain ⟨hpayer,_,hvalue',himage',_⟩ := hs.hop (j+1) outgoing hout
  have hlen := (hop_image_length h20 hp (List.mem_of_getElem? hin)).2
  have hlen' := (hop_image_length h20 hp (List.mem_of_getElem? hout)).2
  have hkey : incoming.payeePriv = outgoing.payerPriv := Option.some.inj (hpayee.symm.trans hpayer)
  refine ⟨?_,fun x hx => ⟨incoming.signedClaim B x,Hop.buildClaimTx_eq hlen hx,?_,?_⟩⟩
  · obtain ⟨idx,hcarries⟩ := hfunded.shows hstd hlen' hspend ho
    rw [himage'.trans himage.symm] at hcarries
    exact ⟨idx,hcarries.resolve_right (hunsigned idx)⟩
  · simp [Hop.signedClaim,Hop.claimOf,hkey,hvalue,hvalue']
  · intro hlim before middle after script extra timestamp hc hfund hlow hblock
    have hM := (reflects_run hinj hhash hcb hR ((along_append _ _ _ _ _).mp hc).1).1
    exact lands hinj hhash hcb hR hseq hc (Hop.allFinal_claim x)
      (hfund.claim_valid hB hnull hlen (by rw [hvalue]; exact hpos) hidx hlim hx)
      (Hop.unopposed_claim hM.consistent hlow) hblock

namespace Reference

def relayKeys : List PrivateKey := [sampleKey 1,sampleKey 2,sampleKey 3]

/-- A path of two hops through the holder of the second key, before its hops are funded. -/
def relayDraft : Path :=
  (buildPath (reference anyone) relayKeys 500 1000 144 samplePreimage none).toOption.getD
    ⟨[],0,0,[],none⟩

/-- The transaction that funds both hops from the first coinbase. -/
def relayFunding : Tx :=
  ⟨1,[⟨(reference anyone).txHash firstCoinbase,0,[],finalSequence⟩],
    relayDraft.hops.map fun hop => hop.output (reference anyone),0⟩

def relayOutpoints : List Outpoint :=
  [((reference anyone).txHash relayFunding,0),((reference anyone).txHash relayFunding,1)]

def relayPath : Path :=
  (buildPath (reference anyone) relayKeys 500 1000 144 samplePreimage
    (some relayOutpoints)).toOption.getD ⟨[],0,0,[],none⟩

def relayHop (j : ℕ) : Hop := relayPath.hops.getD j sampleHop

/-- The last key claims its hop, and the intermediary submits the return of its own before it sees
the preimage. -/
def relayTake : Tx := (relayHop 1).signedClaim (reference anyone) samplePreimage
def relayClaim : Tx := (relayHop 0).signedClaim (reference anyone) samplePreimage
def relayReturn : Tx := (relayHop 0).signedReturn (reference anyone)

def relayBefore : List RaceCall :=
  [.node (.generateBlock trueScript true [] 1),.node (.submitTx relayFunding),
    .node (.generateBlock trueScript true [] 2),.node (.submitTx relayReturn)]

def relayCalls : List RaceCall :=
  relayBefore ++ .node (.submitTx relayClaim) :: ([] ++ .node (.generateBlock trueScript true [] 3) :: [])

def relayTxs : List Tx :=
  [firstCoinbase,relayFunding,makeCoinbase 9000 trueScript 2 [],relayReturn,relayClaim,
    makeCoinbase 5000 trueScript 3 []]

def relayHeaders : List Bytes := activeHeaders anyone (raceRun relayCalls)

/-- One evaluation of the run gives all that is needed of it. -/
theorem relay_facts : SampleRun relayTxs relayHeaders relayCalls ∧
    (validateTx (reference anyone) relayTake (raceRun relayBefore).utxos).ok = true ∧
    (raceRun relayBefore).mempool.allTxs = [relayReturn] ∧
    ((raceRun (relayBefore ++ .node (.submitTx relayClaim) :: [])).raceCall (reference anyone) 1
      (.node (.generateBlock trueScript true [] 3))).2.hasBlock = true ∧
    (∀ tin ∈ relayReturn.inputs, tin.sequence < finalSequence) ∧
    (relayHop 0).buildClaimTx (reference anyone) samplePreimage none =
      .ok (relayClaim,(relayHop 0).output (reference anyone)) ∧
    ∀ j < 2, ((raceRun relayBefore).utxos.lookup (relayHop j).fundingOutpoint).map
      UtxoEntry.asTxOutput = some ((relayHop j).output (reference anyone)) := by
  decide +kernel

theorem buildPath_relay : buildPath (reference anyone) relayKeys 500 1000 144 samplePreimage
    (some relayOutpoints) = .ok relayPath := by
  decide +kernel

/-- The claim of the last key does not carry the signature of the intermediary. -/
theorem relayTake_unsigned (idx : ℕ) : ¬ CarriesSignature (reference anyone)
    (publicKey (relayHop 1).payerPriv) relayTake idx ((relayHop 1).output (reference anyone)) := by
  rintro ⟨stack,⟨tin,hin,hrun⟩,sig,hmem,hvalid⟩
  cases idx with
  | zero =>
    have hstack : stack = [[1],samplePreimage,signInput (reference anyone)
        ((relayHop 1).claimOf (reference anyone)) 0 (relayHop 1).value
          ((relayHop 1).lock (reference anyone)) (relayHop 1).payeePriv] := by
      cases hin
      cases hrun
      rfl
    subst hstack
    have hall : ∀ sig ∈ [[1],samplePreimage,signInput (reference anyone)
        ((relayHop 1).claimOf (reference anyone)) 0 (relayHop 1).value
          ((relayHop 1).lock (reference anyone)) (relayHop 1).payeePriv],
        validSigFor (reference anyone) relayTake 0 ((relayHop 1).output (reference anyone))
          ((relayHop 1).output (reference anyone)).scriptPubkey sig
            (publicKey (relayHop 1).payerPriv).toBytes = false := by decide +kernel
    have hfalse := hall sig hmem
    have htrue : validSigFor (reference anyone) relayTake 0 ((relayHop 1).output (reference anyone))
      ((relayHop 1).output (reference anyone)).scriptPubkey sig
        (publicKey (relayHop 1).payerPriv).toBytes = true := hvalid
    rw [htrue] at hfalse
    cases hfalse
  | succ idx => cases hin

end Reference

open Reference in
/-- The intermediary of the sample path gets its claim past the waiting return. -/
theorem intermediary_safe_sample :
    (∃ idx, CarriesPreimage (reference anyone) relayTake idx ((relayHop 1).output (reference anyone))
      (relayHop 0).imageH160) ∧
    relayReturn ∈ (raceRun relayBefore).mempool.allTxs ∧
    ∃ claim, (relayHop 0).buildClaimTx (reference anyone) samplePreimage none =
        .ok (claim,(relayHop 0).output (reference anyone)) ∧
      claim ∈ minedIn (trace (EmbeddedNode.raceCall (reference anyone) 1) (sampleNode anyone [])
        relayCalls) := by
  obtain ⟨hrun,hspend,hwait,hblock,hlow,hclaim,houtputs⟩ := relay_facts
  have hfunded : ∀ j < 2, (relayHop j).FundedIn (reference anyone) (raceRun relayBefore).utxos :=
    fun j hj => Option.map_eq_some_iff.mp (houtputs j hj)
  have hin : relayPath.hops[0]? = some (relayHop 0) := rfl
  have hout : relayPath.hops[0+1]? = some (relayHop 1) := rfl
  obtain ⟨hshown,hclaims⟩ := intermediary_safe (standardOpcodes anyone) idealised (nullCoinbase anyone)
    (fun x => LittleEndian.encode_length 20 _) buildPath_relay hin hout (by decide) (by decide +kernel)
    (hfunded 1 (by decide)) hspend (by decide +kernel) relayTake_unsigned hrun.txids hrun.headers
    (isCoinbase_makeCoinbase _) hrun.start hrun.sequenced
  obtain ⟨claim,hbuilt,_,hrace⟩ := hclaims samplePreimage (by decide +kernel)
  obtain rfl : relayClaim = claim := by
    rw [hclaim] at hbuilt
    cases hbuilt
    rfl
  refine ⟨hshown,by rw [hwait]; exact List.mem_singleton_self _,relayClaim,hclaim,?_⟩
  refine (hrace rfl relayBefore [] [] trueScript [] 3 hrun.allowed (hfunded 0 (by decide))
    (fun s hs _ _ => ?_) hblock).2
  rw [hwait,List.mem_singleton] at hs
  rw [hs]
  exact hlow

end SubsatChannel
