import SubsatChannel.Routing.HoldBack
import SubsatChannel.Routing.Staggering

/-! Settling a whole path: with the secret every hop is claimed, without it every hop returns, and
wherever the claims stop on their way back, only the first payer has paid. -/
namespace SubsatChannel

/-- The exception that `verify_spend` raises. -/
def SpendFailure.raised : SpendFailure → Fault
  | .rejected text => ⟨.verificationError,text⟩
  | .interpreter text => ⟨.interpreterError,text⟩

/-- A spend of one input is handed out after `verify_spend` has passed it. Its numbers and the value it
spends are in what is signed, and `signature_hash` raises when one of them does not fit. -/
def verifiedSpend (B : Bitcoinx) (built : Except Fault (Tx × TxOutput)) : Except Fault Tx := do
  let (tx,utxo) ← built
  if B.packs tx && fitsInt64 utxo.value then
    match verifySpend B tx 0 utxo with
    | .error failure => .error failure.raised
    | .ok () => .ok tx
  else .error ⟨.structError,""⟩

namespace Path

def settleSecretRevealed (B : Bitcoinx) (path : Path) : Except Fault (List Tx) :=
  match path.preimage with
  | none => .error ⟨.routingError,"settle_secret_revealed requires path.preimage"⟩
  | some preimage => path.hops.mapM fun hop => verifiedSpend B (hop.buildClaimTx B preimage none)

def settleSecretNotRevealed (B : Bitcoinx) (path : Path) : Except Fault (List Tx) :=
  path.hops.mapM fun hop => verifiedSpend B (hop.buildReturnTx B)

end Path

namespace Hop
variable {B : Bitcoinx} {hop : Hop} {preimage : Bytes}

/-- The locking script of a hop with an image of twenty bytes. -/
def lock (B : Bitcoinx) (hop : Hop) : Script :=
  [.op .opIf,
    .op .opHash160,.push hop.imageH160,.op .opEqualVerify,.push (B.publicKey hop.payeePriv).toBytes,
      .op .opCheckSig,
  .op .opElse,
    .push (B.publicKey hop.payerPriv).toBytes,.op .opCheckSig,
  .op .opEndIf]

/-- The output that funds a hop. -/
def output (B : Bitcoinx) (hop : Hop) : TxOutput := ⟨hop.value,hop.lock B⟩

/-- The claim before it is signed. -/
def claimOf (B : Bitcoinx) (hop : Hop) : Tx :=
  ⟨1,[⟨hop.fundingOutpoint.1,hop.fundingOutpoint.2,[],finalSequence⟩],
    [⟨hop.value,p2pkhScript B (B.publicKey hop.payeePriv)⟩],0⟩

/-- The return before it is signed. -/
def returnOf (B : Bitcoinx) (hop : Hop) : Tx :=
  ⟨1,[⟨hop.fundingOutpoint.1,hop.fundingOutpoint.2,[],0⟩],
    [⟨hop.value,p2pkhScript B (B.publicKey hop.payerPriv)⟩],hop.locktime⟩

def signedClaim (B : Bitcoinx) (hop : Hop) (preimage : Bytes) : Tx :=
  (hop.claimOf B).setScriptSig 0
    (hopClaimUnlock (signInput B (hop.claimOf B) 0 hop.value (hop.lock B) hop.payeePriv) preimage)

def signedReturn (B : Bitcoinx) (hop : Hop) : Tx :=
  (hop.returnOf B).setScriptSig 0
    (hopReturnUnlock (signInput B (hop.returnOf B) 0 hop.value (hop.lock B) hop.payerPriv))

/-- The claim with a preimage stays within the limits of the interpreter. -/
def ClaimWithin (B : Bitcoinx) (hop : Hop) (preimage : Bytes) : Prop :=
  B.withinLimits (hopClaimUnlock (signInput B (hop.claimOf B) 0 hop.value (hop.lock B) hop.payeePriv) preimage)
    (hop.lock B) = true

/-- The return stays within the limits of the interpreter. -/
def ReturnWithin (B : Bitcoinx) (hop : Hop) : Prop :=
  B.withinLimits (hopReturnUnlock (signInput B (hop.returnOf B) 0 hop.value (hop.lock B) hop.payerPriv))
    (hop.lock B) = true

theorem lockingScript_eq (h : hop.imageH160.length = 20) : hop.lockingScript B = .ok (hop.lock B) :=
  if_neg (not_not.mpr h)

theorem utxo_eq (h : hop.imageH160.length = 20) : hop.utxo B = .ok (hop.output B) := by
  rw [utxo,lockingScript_eq h]
  rfl

/-- A claim is built from a preimage of the image, and from nothing else. -/
theorem buildClaimTx_eq (h : hop.imageH160.length = 20) (himage : B.hash160 preimage = hop.imageH160) :
    hop.buildClaimTx B preimage none = .ok (hop.signedClaim B preimage,hop.output B) := by
  simp only [buildClaimTx,himage,ne_eq,not_true,if_false,lockingScript_eq h,utxo_eq h,bind,Except.bind]
  rfl

theorem buildReturnTx_eq (h : hop.imageH160.length = 20) :
    hop.buildReturnTx B = .ok (hop.signedReturn B,hop.output B) := by
  simp only [buildReturnTx,lockingScript_eq h,utxo_eq h,bind,Except.bind]
  rfl

/-- The signature of the payee and the preimage unlock a hop. -/
theorem claim_accepted (hB : Idealised B) (hlim : hop.ClaimWithin B preimage) (h : hop.imageH160.length = 20)
    (himage : B.hash160 preimage = hop.imageH160) :
    B.verifyInput (hop.signedClaim B preimage) 0 (hop.output B) = .ok true := by
  have hsig : validSigFor B (hop.signedClaim B preimage) 0 (hop.output B) (hop.output B).scriptPubkey
      (signInput B (hop.claimOf B) 0 hop.value (hop.lock B) hop.payeePriv)
      (B.publicKey hop.payeePriv).toBytes = true :=
    hB.validSigFor_signInput (hB.sameDigests _ _ _) 0 (hop.output B) hop.payeePriv
  refine hB.accepts _ _ _ _ rfl hlim (interpreterAccepts_of_runs
    [[1],preimage,signInput B (hop.claimOf B) 0 hop.value (hop.lock B) hop.payeePriv] [] rfl
    (fun ctx => rfl) ?_)
  have htrue : castToBool [1] = true := rfl
  rw [show (hop.output B).scriptPubkey = hop.lock B from rfl,runScript_hop (lockingScript_eq h)]
  simp only [htrue,if_true]
  rw [execItems_claim]
  refine (if_pos himage.symm).trans ?_
  exact congrArg (fun b => some [boolElement b]) hsig

/-- The signature of the payer unlocks a hop. -/
theorem return_accepted (hB : Idealised B) (hlim : hop.ReturnWithin B) (h : hop.imageH160.length = 20) :
    B.verifyInput (hop.signedReturn B) 0 (hop.output B) = .ok true := by
  have hsig : validSigFor B (hop.signedReturn B) 0 (hop.output B) (hop.output B).scriptPubkey
      (signInput B (hop.returnOf B) 0 hop.value (hop.lock B) hop.payerPriv)
      (B.publicKey hop.payerPriv).toBytes = true :=
    hB.validSigFor_signInput (hB.sameDigests _ _ _) 0 (hop.output B) hop.payerPriv
  refine hB.accepts _ _ _ _ rfl hlim (interpreterAccepts_of_runs
    [[],signInput B (hop.returnOf B) 0 hop.value (hop.lock B) hop.payerPriv] [] rfl
    (fun ctx => rfl) ?_)
  have hfalse : castToBool [] = false := rfl
  rw [show (hop.output B).scriptPubkey = hop.lock B from rfl,runScript_hop (lockingScript_eq h)]
  simp only [hfalse,Bool.false_eq_true,if_false]
  rw [execItems_checkSig]
  exact congrArg (fun b => some [boolElement b]) hsig

theorem verifiedSpend_eq {tx : Tx} {utxo : TxOutput} (hpacks : B.packs tx = true)
    (hvalue : fitsInt64 utxo.value = true) (h : B.verifyInput tx 0 utxo = .ok true) :
    verifiedSpend B (.ok (tx,utxo)) = .ok tx := by
  simp only [verifiedSpend,bind,Except.bind,hpacks,hvalue,Bool.and_self,if_true,verifySpend,h]

/-- The value, the lock time and the outpoint of a hop fit their fields. -/
structure Fits (hop : Hop) : Prop where
  value : fitsInt64 hop.value = true
  locktime : hop.locktime < 2^32
  outpoint : hop.fundingOutpoint.2 < 2^32

/-- A spend of a hop that pays out its value can be serialised. -/
theorem Fits.packs (hB : PacksFields B) (h : hop.Fits) {unlock lock : Script} {sequence locktime : ℕ}
    (hseq : sequence < 2^32) (hlock : locktime < 2^32) :
    B.packs ⟨1,[⟨hop.fundingOutpoint.1,hop.fundingOutpoint.2,unlock,sequence⟩],[⟨hop.value,lock⟩],locktime⟩ = true := by
  refine (hB _ rfl).mpr ⟨fun tin ht => ?_,fun out ho => ?_,hlock⟩
  · rw [List.mem_singleton.mp ht]
    exact ⟨h.outpoint,hseq⟩
  · rw [List.mem_singleton.mp ho]
    exact h.value

theorem packs_signedClaim (hB : PacksFields B) (h : hop.Fits) : B.packs (hop.signedClaim B preimage) = true :=
  h.packs hB finalSequence_lt (Nat.two_pow_pos 32)

theorem packs_signedReturn (hB : PacksFields B) (h : hop.Fits) : B.packs (hop.signedReturn B) = true :=
  h.packs hB (Nat.two_pow_pos 32) h.locktime

end Hop

section Flow
variable {B : Bitcoinx} {value : ℤ} {image preimage : Bytes} {L0 delta : ℕ} {script : Script}

/-- What the outputs of some transactions pay to a script. -/
def paidTo (script : Script) (txs : List Tx) : ℤ :=
  ((txs.flatMap Tx.outputs).map fun out => if out.scriptPubkey = script then out.value else 0).sum

theorem paidTo_cons (t : Tx) (txs : List Tx) :
    paidTo script (t :: txs) = paidTo script [t] + paidTo script txs := by
  simp [paidTo]

/-- What the holder of a payout script has put into some hops. -/
def fundedBy (B : Bitcoinx) (script : Script) (hops : List Hop) : ℤ :=
  (hops.map fun hop =>
    if p2pkhScript B (B.publicKey hop.payerPriv) = script then hop.value else 0).sum

/-- The payout script of a place on the path; a path ends at its last key. -/
def payoutAt (B : Bitcoinx) (keys : List PrivateKey) (i : ℕ) : Script :=
  p2pkhScript B (B.publicKey (keys.getD i ⟨[]⟩))

/-- When the first `m` hops are claimed and the others return, the value moves from the first place
of the path to place `m`: what one claim pays is what the payer of the next hop had put in. -/
theorem flow_buildHops {j : ℕ} {keys : List PrivateKey} {os : List Outpoint} {m : ℕ}
    (hm : m ≤ (buildHops value image L0 delta j keys os).length) :
    paidTo script (((buildHops value image L0 delta j keys os).map fun hop =>
        hop.signedClaim B preimage).take m ++
      ((buildHops value image L0 delta j keys os).map (Hop.signedReturn B)).drop m) -
        fundedBy B script (buildHops value image L0 delta j keys os) =
      (if payoutAt B keys m = script then value else 0) -
        if payoutAt B keys 0 = script then value else 0 := by
  fun_induction buildHops value image L0 delta j keys os generalizing m with
  | case1 j payer payee keys o os ih =>
    cases m with
    | zero =>
      have hrest := @ih 0 (Nat.zero_le _)
      simp only [List.take_zero,List.drop_zero,List.nil_append,sub_self] at hrest
      simp only [List.map_cons,List.take_zero,List.drop_zero,List.nil_append,sub_self]
      rw [paidTo_cons]
      simp only [fundedBy,List.map_cons,List.sum_cons] at hrest ⊢
      simp only [paidTo,Hop.signedReturn,Hop.returnOf,Tx.setScriptSig_outputs,List.flatMap_cons,
        List.flatMap_nil,List.append_nil,List.map_cons,List.map_nil,List.sum_cons,List.sum_nil,
        add_zero] at hrest ⊢
      linarith
    | succ m =>
      have hrest := @ih m (by simpa using hm)
      simp only [List.map_cons,List.take_succ_cons,List.drop_succ_cons,List.cons_append]
      rw [paidTo_cons]
      simp only [fundedBy,List.map_cons,List.sum_cons] at hrest ⊢
      have hhead : paidTo script [Hop.signedClaim B ⟨payer,payee,value,image,L0 - j*delta,o⟩ preimage] =
          if payoutAt B (payee :: keys) 0 = script then value else 0 := by
        simp [paidTo,Hop.signedClaim,Hop.claimOf,Tx.setScriptSig_outputs,payoutAt]
      have hnext : payoutAt B (payer :: payee :: keys) (m+1) = payoutAt B (payee :: keys) m := by
        simp [payoutAt]
      have hfirst : payoutAt B (payer :: payee :: keys) 0 = p2pkhScript B (B.publicKey payer) := rfl
      rw [hhead,hnext,hfirst]
      linarith
  | case2 =>
    obtain rfl : m = 0 := by simpa using hm
    simp [paidTo,fundedBy]

end Flow

section Settle
variable {B : Bitcoinx} {keys : List PrivateKey} {value L0 delta : ℤ} {preimage : Bytes}
  {os : Option (List Outpoint)} {path : Path}

/-- The hops that `build_path` has chained. -/
theorem buildPath_hops (h : buildPath B keys value L0 delta preimage os = .ok path) :
    path.preimage = some preimage ∧ ∃ outpoints,
      path.hops = buildHops value (B.hash160 preimage) L0.toNat delta.toNat 0 keys outpoints := by
  unfold buildPath at h
  dsimp only at h
  split_ifs at h
  obtain ⟨outpoints,_,h⟩ := bind_eq_ok.mp h
  split_ifs at h
  cases h
  exact ⟨rfl,outpoints,rfl⟩

theorem hop_image_length (h20 : ∀ x, (B.hash160 x).length = 20)
    (h : buildPath B keys value L0 delta preimage os = .ok path) {hop : Hop} (hh : hop ∈ path.hops) :
    B.hash160 preimage = hop.imageH160 ∧ hop.imageH160.length = 20 := by
  obtain ⟨himage,hall⟩ := buildPath_ok h
  have he := himage.symm.trans (hall hop hh).symm
  exact ⟨he,by rw [← he]; exact h20 preimage⟩

/-- The hops of a path fit when its value, its horizon and the outpoints do. -/
theorem fits_of_buildPath (h : buildPath B keys value L0 delta preimage os = .ok path)
    (hvalue : fitsInt64 value = true) (hL0 : L0 < 2^32)
    (hidx : ∀ hop ∈ path.hops, hop.fundingOutpoint.2 < 2^32) : ∀ hop ∈ path.hops, hop.Fits := by
  intro hop hh
  obtain ⟨j,hj⟩ := List.getElem?_of_mem hh
  have hs := scheduled_of_buildPath h
  obtain ⟨_,_,hv,_⟩ := hs.hop j hop hj
  have hlock := hs.locktime hj
  have hle : 0 ≤ j * delta := by
    rw [← hs.bound]
    exact mul_nonneg (Int.natCast_nonneg j) (Int.natCast_nonneg _)
  exact ⟨by rw [hv]; exact hvalue,by omega,hidx hop hh⟩

theorem settle_revealed_eq (hB : Idealised B) (hP : PacksFields B) (h20 : ∀ x, (B.hash160 x).length = 20)
    (h : buildPath B keys value L0 delta preimage os = .ok path) (hfits : ∀ hop ∈ path.hops, hop.Fits)
    (hlim : ∀ hop ∈ path.hops, hop.ClaimWithin B preimage) :
    path.settleSecretRevealed B = .ok (path.hops.map fun hop => hop.signedClaim B preimage) := by
  unfold Path.settleSecretRevealed
  rw [(buildPath_hops h).1]
  refine mapM_eq_ok fun hop hh => ?_
  obtain ⟨he,hlen⟩ := hop_image_length h20 h hh
  rw [Hop.buildClaimTx_eq hlen he]
  exact Hop.verifiedSpend_eq (Hop.packs_signedClaim hP (hfits hop hh)) (hfits hop hh).value
    (Hop.claim_accepted hB (hlim hop hh) hlen he)

theorem settle_notRevealed_eq (hB : Idealised B) (hP : PacksFields B) (h20 : ∀ x, (B.hash160 x).length = 20)
    (h : buildPath B keys value L0 delta preimage os = .ok path) (hfits : ∀ hop ∈ path.hops, hop.Fits)
    (hlim : ∀ hop ∈ path.hops, hop.ReturnWithin B) :
    path.settleSecretNotRevealed B = .ok (path.hops.map (Hop.signedReturn B)) := by
  refine mapM_eq_ok fun hop hh => ?_
  have hlen := (hop_image_length h20 h hh).2
  rw [Hop.buildReturnTx_eq hlen]
  exact Hop.verifiedSpend_eq (Hop.packs_signedReturn hP (hfits hop hh)) (hfits hop hh).value
    (Hop.return_accepted hB (hlim hop hh) hlen)

end Settle

/-- Both settlements of a path that `build_path` makes go through when its numbers fit the fields of a
transaction and its scripts stay within the limits. Each claim spends its hop to the
payee and is final at once, each return spends it to the payer and is final from the hop's lock time
on. When the first `m` hops are claimed and the others return, the value has moved from the first place
of the path to place `m`, and no other payout script has gained or lost anything. -/
theorem path_settles {B : Bitcoinx} (hB : Idealised B) (hP : PacksFields B)
    (h20 : ∀ x, (B.hash160 x).length = 20) {keys : List PrivateKey} {value L0 delta : ℤ} {preimage : Bytes}
    {os : Option (List Outpoint)} {path : Path} (h : buildPath B keys value L0 delta preimage os = .ok path)
    (hvalue : fitsInt64 value = true) (hL0 : L0 < 2^32)
    (hidx : ∀ hop ∈ path.hops, hop.fundingOutpoint.2 < 2^32)
    (hlim : ∀ hop ∈ path.hops, hop.ClaimWithin B preimage ∧ hop.ReturnWithin B) :
    ∃ claims returns, path.settleSecretRevealed B = .ok claims ∧
      path.settleSecretNotRevealed B = .ok returns ∧
      (∀ (j : ℕ) (hop : Hop), path.hops[j]? = some hop → ∃ claim ret : Tx,
        claims[j]? = some claim ∧ returns[j]? = some ret ∧
        (claim.outpoints = [hop.fundingOutpoint] ∧ claim.outputs = [⟨value,payoutAt B keys (j+1)⟩] ∧
          spendVerifies B claim 0 (hop.output B) = true ∧ ∀ height, FinalAt claim height) ∧
        (ret.outpoints = [hop.fundingOutpoint] ∧ ret.outputs = [⟨value,payoutAt B keys j⟩] ∧
          spendVerifies B ret 0 (hop.output B) = true ∧
          ∀ height, FinalAt ret height ↔ L0 - j*delta ≤ height)) ∧
      ∀ m ≤ path.hops.length, ∀ script,
        paidTo script (claims.take m ++ returns.drop m) - fundedBy B script path.hops =
          (if payoutAt B keys m = script then value else 0) -
            if payoutAt B keys 0 = script then value else 0 := by
  have hfits := fits_of_buildPath h hvalue hL0 hidx
  refine ⟨_,_,settle_revealed_eq hB hP h20 h hfits fun hop hh => (hlim hop hh).1,
    settle_notRevealed_eq hB hP h20 h hfits fun hop hh => (hlim hop hh).2,fun j hop hj => ?_,?_⟩
  · have hs := scheduled_of_buildPath h
    obtain ⟨hpayer,hpayee,hvalue,_,_⟩ := hs.hop j hop hj
    obtain ⟨he,hlen⟩ := hop_image_length h20 h (List.mem_of_getElem? hj)
    obtain ⟨hclaim,hreturn⟩ := hlim hop (List.mem_of_getElem? hj)
    refine ⟨hop.signedClaim B preimage,hop.signedReturn B,by rw [List.getElem?_map,hj]; rfl,
      by rw [List.getElem?_map,hj]; rfl,⟨rfl,?_,
      spendVerifies_of_verifyInput (Hop.claim_accepted hB hclaim hlen he),fun height => .inl ?_⟩,⟨rfl,?_,
      spendVerifies_of_verifyInput (Hop.return_accepted hB hreturn hlen),fun height => ?_⟩⟩
    · simp [Hop.signedClaim,Hop.claimOf,payoutAt,hpayee,hvalue]
    · intro tin ht
      rw [List.mem_singleton.mp ht]
      rfl
    · simp [Hop.signedReturn,Hop.returnOf,payoutAt,hpayer,hvalue]
    · have hlock := hs.locktime hj
      constructor
      · intro hfinal
        have hle := hfinal.locktime_le (List.mem_singleton_self _) (show 0 ≠ 0xFFFFFFFF by decide)
        change hop.locktime ≤ height at hle
        omega
      · intro hle
        refine .inr ?_
        change hop.locktime ≤ height
        omega
  · obtain ⟨_,outpoints,hhops⟩ := buildPath_hops h
    intro m hm script
    rw [hhops] at hm ⊢
    exact flow_buildHops hm

open Reference in
/-- The claim of a path of three hops stops at the second one: the value is with the second payee. -/
theorem path_settles_sample : ∃ claims returns, staggeredPath.settleSecretRevealed (reference anyone) =
      .ok claims ∧ staggeredPath.settleSecretNotRevealed (reference anyone) = .ok returns ∧
    paidTo (payoutAt (reference anyone) [⟨[1]⟩,⟨[2]⟩,⟨[3]⟩,⟨[4]⟩] 2) (claims.take 2 ++ returns.drop 2) -
      fundedBy (reference anyone) (payoutAt (reference anyone) [⟨[1]⟩,⟨[2]⟩,⟨[3]⟩,⟨[4]⟩] 2)
        staggeredPath.hops = 500 := by
  have h : buildPath (reference anyone) [⟨[1]⟩,⟨[2]⟩,⟨[3]⟩,⟨[4]⟩] 500 1000 144 [7] none =
      .ok staggeredPath := by decide +kernel
  obtain ⟨claims,returns,hc,hr,_,hflow⟩ :=
    path_settles idealised (packsFields anyone) (fun x => LittleEndian.encode_length 20 _) h (by decide)
      (by decide) (by decide +kernel) fun _ _ => ⟨rfl,rfl⟩
  refine ⟨claims,returns,hc,hr,?_⟩
  rw [hflow 2 (by decide +kernel)]
  decide +kernel

end SubsatChannel
