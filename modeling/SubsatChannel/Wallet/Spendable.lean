import SubsatChannel.Channel.Verifies
import SubsatChannel.Node.Landing
import SubsatChannel.Wallet.Solvency

/-! What a wallet builds from its own outputs is valid: its signatures unlock the outputs, and it
never pays more than they hold. -/
namespace SubsatChannel

/-- `P2PKH_script` is the standard one: it compares the hash of the key and checks the signature. -/
def StandardP2pkh (B : Bitcoinx) : Prop :=
  ∀ pk, B.p2pkhScript pk = [.op .opDup,.op .opHash160,.push (B.hash160 pk.toBytes),.op .opEqualVerify,
    .op .opCheckSig]

/-- An unspent output with the key that its script names. -/
structure Owned (B : Bitcoinx) (U : UtxoSet) (p : WalletUtxo × PrivateKey) : Prop where
  unspent : U.lookup p.1.outpoint = some p.1.toUtxoEntry
  lock : p.1.scriptPubkey = p2pkhScript B (B.publicKey p.2)
  index : p.1.vout < 0xFFFFFFFF

section Unlock
variable {B : Bitcoinx} {tx tx₀ : Tx} {idx : ℕ} {tin : TxInput} {utxo : TxOutput} {sig : Bytes}
  {pk : PublicKey}

/-- A signature and the key behind it unlock an output that pays to the key's hash. -/
theorem accepts_p2pkh (hstd : StandardP2pkh B) (hin : tx.inputs[idx]? = some tin)
    (hsig : tin.scriptSig = p2pkhUnlock sig pk) (hlock : utxo.scriptPubkey = p2pkhScript B pk)
    (h : validSigFor B tx idx utxo utxo.scriptPubkey sig pk.toBytes = true) :
    interpreterAccepts B tx idx utxo = true := by
  refine interpreterAccepts_of_runs [pk.toBytes,sig] [] hin (fun ctx => by rw [hsig]; rfl) ?_
  have hplain : ∀ item ∈ utxo.scriptPubkey, item.Plain := by
    rw [hlock,p2pkhScript,hstd]
    simp [ScriptItem.Plain,Ops.Plain]
  have hrun : ∀ ctx : ScriptContext, ctx.hash160 = B.hash160 →
      execItems ctx utxo.scriptPubkey [pk.toBytes,sig] = some [boolElement (ctx.validSig sig pk.toBytes)] := by
    intro ctx hctx
    rw [hlock,p2pkhScript,hstd]
    simp only [execItems,execOp,Option.bind_some,hctx,if_true]
  rw [runScript_items hplain,hrun _ rfl]
  exact congrArg (fun b => some [boolElement b]) h

/-- Spends of the wallet's outputs stay within the limits of the interpreter, whatever is signed. -/
def SpendsWithin (B : Bitcoinx) : Prop := ∀ tx k value code priv,
  B.withinLimits (p2pkhUnlock (signInput B tx k value code priv) (B.publicKey priv))
    (p2pkhScript B (B.publicKey priv)) = true

/-- A signed input in the place of the unsigned one. -/
theorem set_input_eq {u : WalletUtxo} {script : Script}
    (h : tx.inputs[idx]? = some ⟨u.txid,u.vout,[],finalSequence⟩) :
    ({ tx with inputs := tx.inputs.set idx ⟨u.txid,u.vout,script,finalSequence⟩ } : Tx) =
      tx.setScriptSig idx script := by
  rw [Tx.setScriptSig,List.modify_eq_set_getElem?,h]
  rfl

end Unlock

section Sign
variable {B : Bitcoinx} {tx tx₀ signed : Tx} {funder : List (WalletUtxo × PrivateKey)}

/-- The input that spends an output of the wallet in the place `k` of a transaction. -/
def signedInput (B : Bitcoinx) (tx : Tx) (k : ℕ) (p : WalletUtxo × PrivateKey) : TxInput :=
  ⟨p.1.txid,p.1.vout,p2pkhUnlock (signInput B tx k p.1.value p.1.scriptPubkey p.2) (B.publicKey p.2),
    finalSequence⟩

/-- Signing gives every input its signature and leaves the digests alone. -/
theorem signFunderInputs_spec (hB : Idealised B) {i : ℕ} (hd : SameDigests B tx tx₀)
    (hins : ∀ (k : ℕ) (p : WalletUtxo × PrivateKey), funder[k]? = some p →
      tx.inputs[i+k]? = some ⟨p.1.txid,p.1.vout,[],finalSequence⟩)
    (h : signFunderInputs B i funder tx = .ok signed) :
    SameDigests B signed tx₀ ∧ (∀ j < i, signed.inputs[j]? = tx.inputs[j]?) ∧
    ∀ (k : ℕ) (p : WalletUtxo × PrivateKey), funder[k]? = some p →
      signed.inputs[i+k]? = some (signedInput B tx₀ (i+k) p) := by
  induction funder generalizing i tx with
  | nil =>
    cases h
    exact ⟨hd,fun _ _ => rfl,fun k p hk => by cases hk⟩
  | cons q funder ih =>
    obtain ⟨u,priv⟩ := q
    have hhead : tx.inputs[i]? = some ⟨u.txid,u.vout,[],finalSequence⟩ := hins 0 (u,priv) rfl
    have hset := @set_input_eq tx i u (p2pkhUnlock (signInput B tx i u.value u.scriptPubkey priv)
      (B.publicKey priv)) hhead
    have hd' : SameDigests B (tx.setScriptSig i (p2pkhUnlock (signInput B tx i u.value u.scriptPubkey
        priv) (B.publicKey priv))) tx₀ := fun idx value code sighash => by rw [hB.digest,hd]
    have hrest : ∀ (k : ℕ) (p : WalletUtxo × PrivateKey), funder[k]? = some p →
        (tx.setScriptSig i (p2pkhUnlock (signInput B tx i u.value u.scriptPubkey priv)
          (B.publicKey priv))).inputs[i+1+k]? = some ⟨p.1.txid,p.1.vout,[],finalSequence⟩ := by
      intro k p hk
      rw [Tx.setScriptSig_input,show i+1+k = i+(k+1) by omega,hins (k+1) p hk,Option.map_some,
        if_neg (by omega)]
    have hnext := signFunderInputs_cons h
    rw [hset] at hnext
    obtain ⟨hdigest,hbelow,hsigned⟩ := ih hd' hrest hnext
    refine ⟨hdigest,fun j hj => ?_,fun k p hk => ?_⟩
    · have hne : i ≠ j := by omega
      rw [hbelow j (by omega),Tx.setScriptSig_input]
      simp only [hne,if_false,Option.map_id']
    · cases k with
      | zero =>
        cases hk
        refine (hbelow i (by omega)).trans ?_
        rw [Tx.setScriptSig_input,hhead,Option.map_some,if_pos rfl,hd.signInput_eq]
        rfl
      | succ k =>
        rw [show i+(k+1) = i+1+k by omega]
        exact hsigned k p hk

end Sign

section Valid
variable {B : Bitcoinx} {U : UtxoSet} {funder : List (WalletUtxo × PrivateKey)} {outs : List TxOutput}
  {changePubkey : PublicKey} {feePerByte dustThreshold : ℤ} {what : String} {tx : Tx}

theorem buildSpend_ok (h : buildSpend B funder outs changePubkey feePerByte dustThreshold what = .ok tx) :
    ∃ outputs, signFunderInputs B 0 funder ⟨1,unsignedInputs funder,outputs,0⟩ = .ok tx := by
  rcases @buildSpend_cases B funder outs changePubkey feePerByte dustThreshold what with
    ⟨_,he⟩ | ⟨_,_,_,he⟩ | ⟨_,_,he⟩
  · rw [h] at he; cases he
  · rw [h] at he; cases he
  · exact ⟨_,he.symm.trans h⟩

/-- The inputs of what is built: in the place `k` a signed spend of the funder's output `k`. -/
theorem buildSpend_inputs (hB : Idealised B)
    (h : buildSpend B funder outs changePubkey feePerByte dustThreshold what = .ok tx) : ∃ tx₀,
      SameDigests B tx tx₀ ∧ ∀ (k : ℕ) (tin : TxInput), tx.inputs[k]? = some tin →
        ∃ p, funder[k]? = some p ∧ tin = signedInput B tx₀ k p := by
  have hlen : tx.inputs.length = funder.length := by
    have hspends := congrArg List.length (buildSpend_accounted h).2.spends
    simpa [Tx.outpoints] using hspends
  obtain ⟨outputs,hsign⟩ := buildSpend_ok h
  have hunsigned : ∀ (k : ℕ) (p : WalletUtxo × PrivateKey), funder[k]? = some p →
      (unsignedInputs funder)[0+k]? = some ⟨p.1.txid,p.1.vout,[],finalSequence⟩ := by
    intro k p hk
    rw [Nat.zero_add,unsignedInputs,List.getElem?_map,hk]
    rfl
  obtain ⟨hdigest,_,hsigned⟩ := signFunderInputs_spec hB (fun _ _ _ _ => rfl) hunsigned hsign
  refine ⟨_,hdigest,fun k tin hk => ?_⟩
  have hlt : k < funder.length := by
    rw [← hlen]
    exact (List.getElem?_eq_some_iff.mp hk).1
  refine ⟨_,List.getElem?_eq_getElem hlt,?_⟩
  have hin := hsigned k _ (List.getElem?_eq_getElem hlt)
  rw [Nat.zero_add,hk] at hin
  exact Option.some.inj hin

theorem signedInput_accepted (hB : Idealised B) (hlim : SpendsWithin B) (hstd : StandardP2pkh B) {tx₀ : Tx}
    (hd : SameDigests B tx tx₀) {k : ℕ} {p : WalletUtxo × PrivateKey} (hown : Owned B U p)
    (hin : tx.inputs[k]? = some (signedInput B tx₀ k p)) :
    B.verifyInput tx k p.1.asTxOutput = .ok true := by
  have hlock : p.1.asTxOutput.scriptPubkey = p2pkhScript B (B.publicKey p.2) := hown.lock
  refine hB.accepts _ _ _ _ hin (by rw [hlock]; exact hlim _ _ _ _ _) ?_
  exact accepts_p2pkh hstd hin rfl hlock (hB.validSigFor_signInput hd k p.1.asTxOutput p.2)

theorem valueAt_funder (hown : ∀ p ∈ funder, Owned B U p) :
    ((funder.map fun p => p.1.outpoint).map U.valueAt).sum = totalIn funder := by
  rw [totalIn,List.map_map]
  refine congrArg List.sum (List.map_congr_left fun p hp => ?_)
  exact Finmap.weightAt_of_lookup _ _ (hown p hp).unspent

/-- Whatever is built from outputs that the wallet owns is valid, and the node sees the same fee. -/
theorem buildSpend_valid (hB : Idealised B) (hlim : SpendsWithin B) (hstd : StandardP2pkh B)
    (hnull : NullCoinbase B) (hne : funder ≠ []) (hown : ∀ p ∈ funder, Owned B U p)
    (houts : ∀ o ∈ outs, 0 ≤ o.value) (hfee : 0 ≤ feePerByte)
    (h : buildSpend B funder outs changePubkey feePerByte dustThreshold what = .ok tx) :
    (validateTx B tx U).ok = true ∧ tx.AllFinal ∧
      (validateTx B tx U).fee = totalIn funder - tx.totalOutputValue := by
  obtain ⟨hcovered,hspends,rest,dropped,houtputs,htotal,hrest⟩ := buildSpend_accounted h
  obtain ⟨tx₀,hd,hins⟩ := buildSpend_inputs hB h
  have hest : 0 ≤ estimatedFee B funder outs changePubkey feePerByte :=
    mul_nonneg (Int.natCast_nonneg _) hfee
  have hin : (tx.outpoints.map U.valueAt).sum = totalIn funder := by
    rw [hspends,valueAt_funder hown]
  have hsum := totalOutputValue_append tx rest houtputs
  have hpos : ∀ out ∈ tx.outputs, 0 ≤ out.value := by
    intro out hout
    rw [houtputs,List.mem_append] at hout
    rcases hout with hout | hout
    · exact houts out hout
    · rcases hrest with ⟨⟨v,_,rfl⟩,rfl⟩ | ⟨rfl,_⟩
      · -- the change is what is left after the requested outputs and the fee
        rw [List.mem_singleton.mp hout]
        rw [List.map_singleton,List.sum_singleton] at hsum
        unfold Covered at hcovered
        dsimp only at hsum ⊢
        omega
      · cases hout
  have hdropped : 0 ≤ dropped := by
    rcases hrest with ⟨_,rfl⟩ | ⟨_,hle,_⟩
    · exact le_rfl
    · exact hle
  have hok : (validateTx B tx U).ok = true := by
    have hinputs : tx.inputs ≠ [] := fun hnil => hne (List.map_eq_nil_iff.mp (by
      rw [← hspends,Tx.outpoints,hnil,List.map_nil]))
    refine validateTx_of_verifyInput hinputs hnull ?_ hpos (fun k tin hk => ?_) ?_
    · rw [hspends]
      intro o ho
      obtain ⟨p,hp,rfl⟩ := List.mem_map.mp ho
      exact (hown p hp).index
    · obtain ⟨p,hp,rfl⟩ := hins k tin hk
      have hmem := List.mem_of_getElem? hp
      exact ⟨_,(hown p hmem).unspent,signedInput_accepted hB hlim hstd hd (hown p hmem) hk⟩
    · rw [hin]
      omega
  refine ⟨hok,fun tin ht => ?_,by rw [validateTx_fee hok,hin]⟩
  obtain ⟨k,hk⟩ := List.getElem?_of_mem ht
  obtain ⟨p,_,rfl⟩ := hins k tin hk
  rfl

end Valid

end SubsatChannel
