import SubsatChannel.Channel.Settlement
import SubsatChannel.Channel.SpendConditions

/-! Every signed settlement verifies: what the signing functions put into the inputs is accepted by
the scripts of the outputs that the inputs spend. -/
namespace SubsatChannel

/-- An interpreter with the standard opcodes as long as its limits are not exceeded, signatures over
`ALL | FORKID` digests that check under the key that made them, and digests that do not depend on unlocking
scripts. -/
structure Idealised (B : Bitcoinx) : Prop where
  accepts : ∀ tx idx utxo tin, tx.inputs[idx]? = some tin →
    B.withinLimits tin.scriptSig utxo.scriptPubkey = true → interpreterAccepts B tx idx utxo = true →
    B.verifyInput tx idx utxo = .ok true
  valid : ∀ priv tx idx value code, B.checkSig
    (B.sign priv (B.signatureHash tx idx value code sighashAllForkid)) (B.publicKey priv).toBytes
      (B.signatureHash tx idx value code sighashAllForkid) = true
  digest : ∀ (tx : Tx) k scriptSig idx value code sighash,
    B.signatureHash (tx.setScriptSig k scriptSig) idx value code sighash =
      B.signatureHash tx idx value code sighash

section Unlock
variable {ctx : ScriptContext} {B : Bitcoinx} {tx : Tx} {idx : ℕ} {tin : TxInput} {utxo : TxOutput}
  {sigs : List Bytes} {pks : List PublicKey}

/-- A script without control flow. -/
theorem runScript_items {items : Script} (hp : ∀ item ∈ items, item.Plain) (stack : List Bytes) :
    runScript ctx (.start stack) items = execItems ctx items stack := by
  have h := @runScript_plain ctx stack [] [] items hp rfl
  rw [List.append_nil] at h
  rw [Machine.start,h]
  cases execItems ctx items stack <;> rfl

/-- `OP_0` and a list of signatures leave the last signature on top. -/
theorem execItems_unlock (sigs : List Bytes) :
    execItems ctx (.op (.opN 0) :: sigs.map .push) [] = some (sigs.reverse ++ [[]]) := by
  have h : execItems ctx (.op (.opN 0) :: sigs.map .push) [] =
    execItems ctx (sigs.map .push) [[]] := rfl
  rw [h,execItems_pushes]

theorem unlock_plain (sigs : List Bytes) :
    ∀ item ∈ (.op (.opN 0) :: sigs.map .push : Script), item.Plain := by
  intro item hi
  rcases List.mem_cons.mp hi with rfl | hi
  · trivial
  · obtain ⟨sig,_,rfl⟩ := List.mem_map.mp hi
    trivial

/-- A multisignature is satisfied by a valid signature for each key, in the order of the keys. -/
theorem execItems_multisig_of_valid (dummy : Bytes) (rest : List Bytes)
    (h : List.Forall₂ (fun sig (pk : PublicKey) => ctx.validSig sig pk.toBytes = true) sigs pks) :
    execItems ctx (pushMultisig [] pks) (sigs.reverse ++ dummy :: rest) =
      some (boolElement true :: rest) := by
  have hlen : sigs.reverse.length = pks.length := by
    rw [List.length_reverse]
    exact h.length_eq
  have hkeys : sigs.reverse.length = (pks.map PublicKey.toBytes).reverse.length := by
    rw [hlen,List.length_reverse,List.length_map]
  have hall : List.Forall₂ (fun sig key => ctx.validSig sig key = true) sigs.reverse
      (pks.map PublicKey.toBytes).reverse :=
    List.forall₂_reverse_iff.mpr (List.forall₂_map_right_iff.mpr h)
  have hshort : ¬ (sigs.reverse ++ dummy :: rest).length < pks.length + 1 := by
    rw [List.length_append,hlen,List.length_cons]
    omega
  have hdrop : (sigs.reverse ++ dummy :: rest).drop (pks.length + 1) = rest := by
    rw [← hlen,List.drop_append]
    simp
  rw [execItems_multisig,if_neg hshort,List.take_left' hlen,hdrop,(matchSigs_iff hkeys).mpr hall]

theorem interpreterAccepts_of_runs (stack below : List Bytes) (hin : tx.inputs[idx]? = some tin)
    (hunlock : ∀ ctx, runScript ctx (.start []) tin.scriptSig = some stack)
    (hlock : runScript (scriptContext B tx idx utxo utxo.scriptPubkey) (.start stack)
      utxo.scriptPubkey = some (boolElement true :: below)) :
    interpreterAccepts B tx idx utxo = true := by
  simp only [interpreterAccepts,hin,hunlock,hlock,castToBool_boolElement]

/-- The signatures of all keys unlock a multisignature output. -/
theorem accepts_multisig (hin : tx.inputs[idx]? = some tin)
    (hsig : tin.scriptSig = .op (.opN 0) :: sigs.map .push)
    (hlock : utxo.scriptPubkey = pushMultisig [] pks)
    (h : List.Forall₂ (fun sig (pk : PublicKey) =>
      validSigFor B tx idx utxo utxo.scriptPubkey sig pk.toBytes = true) sigs pks) :
    interpreterAccepts B tx idx utxo = true := by
  refine interpreterAccepts_of_runs (sigs.reverse ++ [[]]) [] hin (fun ctx => ?_) ?_
  · rw [hsig,runScript_items (unlock_plain sigs),execItems_unlock]
  · rw [hlock] at h ⊢
    rw [runScript_items (pushMultisig_plain pks)]
    exact execItems_multisig_of_valid [] [] h

/-- The signature of its owner unlocks a bond. -/
theorem accepts_return {owner : PublicKey} {cps : List PublicKey} {sig : Bytes}
    (hin : tx.inputs[idx]? = some tin) (hsig : tin.scriptSig = bondReturnUnlock sig)
    (hlock : bondScript owner cps = .ok utxo.scriptPubkey)
    (h : validSigFor B tx idx utxo utxo.scriptPubkey sig owner.toBytes = true) :
    interpreterAccepts B tx idx utxo = true := by
  refine interpreterAccepts_of_runs [[1],sig] [] hin (fun ctx => ?_) ?_
  · rw [hsig]
    rfl
  · rw [runScript_bond hlock]
    have htrue : castToBool [1] = true := rfl
    simp only [htrue,if_true,execItems_checkSig,scriptContext,h]

/-- The signatures of all counterparties unlock a bond. -/
theorem accepts_forfeit {owner : PublicKey} {cps : List PublicKey} (hin : tx.inputs[idx]? = some tin)
    (hsig : tin.scriptSig = .op (.opN 0) :: sigs.map .push ++ [.op (.opN 0)])
    (hlock : bondScript owner cps = .ok utxo.scriptPubkey)
    (h : List.Forall₂ (fun sig (pk : PublicKey) =>
      validSigFor B tx idx utxo utxo.scriptPubkey sig pk.toBytes = true) sigs cps) :
    interpreterAccepts B tx idx utxo = true := by
  refine interpreterAccepts_of_runs ([] :: (sigs.reverse ++ [[]])) [] hin (fun ctx => ?_) ?_
  · have hplain : ∀ item ∈ (.op (.opN 0) :: sigs.map .push ++ [.op (.opN 0)] : Script),
        item.Plain := by
      intro item hi
      rcases List.mem_append.mp hi with hi | hi
      · exact unlock_plain sigs item hi
      · rw [List.mem_singleton.mp hi]
        trivial
    rw [hsig,runScript_items hplain,execItems_append,execItems_unlock]
    rfl
  · rw [runScript_bond hlock]
    have hfalse : castToBool [] = false := rfl
    simp only [hfalse,Bool.false_eq_true,if_false]
    exact execItems_multisig_of_valid [] [] h

end Unlock

section Verify
variable {B : Bitcoinx} {tx tx' : Tx} {utxos : List TxOutput}

theorem verifyInputsFrom_of_accepted {idx : ℕ}
    (h : ∀ i utxo, utxos[i]? = some utxo → B.verifyInput tx (idx + i) utxo = .ok true) :
    verifyInputsFrom B tx idx utxos = .ok () := by
  induction utxos generalizing idx with
  | nil => rfl
  | cons utxo utxos ih =>
    have hhead : B.verifyInput tx idx utxo = .ok true := h 0 utxo rfl
    have hrest : ∀ i u, utxos[i]? = some u → B.verifyInput tx (idx + 1 + i) u = .ok true := by
      intro i u hu
      have hi := h (i+1) u hu
      rwa [show idx + (i+1) = idx + 1 + i by omega] at hi
    have hspend : verifySpend B tx idx utxo = .ok () := by
      rw [verifySpend,hhead]
    rw [verifyInputsFrom,hspend]
    exact ih hrest

/-- When every input is accepted against the output at its index, none of them raises. -/
theorem verifyAllInputs_of_accepted (hlen : utxos.length = tx.inputs.length)
    (h : ∀ i utxo, utxos[i]? = some utxo → B.verifyInput tx i utxo = .ok true) :
    verifyAllInputs B tx utxos = .ok () := by
  rw [verifyAllInputs,if_neg (not_not.mpr hlen)]
  refine verifyInputsFrom_of_accepted fun i utxo hu => ?_
  rw [Nat.zero_add]
  exact h i utxo hu

theorem spendVerifies_of_verifyInputsFrom {idx : ℕ} (h : verifyInputsFrom B tx idx utxos = .ok ()) {i : ℕ}
    {utxo : TxOutput} (hu : utxos[i]? = some utxo) : spendVerifies B tx (idx+i) utxo = true := by
  induction utxos generalizing idx i with
  | nil => cases hu
  | cons u us ih =>
    rw [verifyInputsFrom] at h
    split at h
    · rename_i hok
      cases i with
      | zero =>
        cases hu
        rw [spendVerifies,Nat.add_zero,hok]
        rfl
      | succ i =>
        rw [show idx + (i+1) = idx + 1 + i by omega]
        exact ih h hu
    · cases h
    · cases h

/-- What `verify_all_inputs` has passed is accepted input by input. -/
theorem spendVerifies_of_verifyAllInputs (h : verifyAllInputs B tx utxos = .ok ()) {i : ℕ} {utxo : TxOutput}
    (hu : utxos[i]? = some utxo) : spendVerifies B tx i utxo = true := by
  rw [verifyAllInputs] at h
  split_ifs at h
  have hi := spendVerifies_of_verifyInputsFrom h hu
  rwa [Nat.zero_add] at hi

theorem spendVerifies_of_verifyInput {idx : ℕ} {utxo : TxOutput}
    (h : B.verifyInput tx idx utxo = .ok true) : spendVerifies B tx idx utxo = true := by
  rw [spendVerifies,verifySpend,h]
  rfl

/-- The same digests for every input, output, script and flag. -/
def SameDigests (B : Bitcoinx) (tx tx' : Tx) : Prop :=
  ∀ idx value code sighash,
    B.signatureHash tx idx value code sighash = B.signatureHash tx' idx value code sighash

theorem Idealised.sameDigests (h : Idealised B) (tx : Tx) (k : ℕ) (scriptSig : Script) :
    SameDigests B (tx.setScriptSig k scriptSig) tx := h.digest tx k scriptSig

theorem SameDigests.signInput_eq (h : SameDigests B tx tx') (idx : ℕ) (value : ℤ) (code : Script)
    (priv : PrivateKey) : signInput B tx idx value code priv = signInput B tx' idx value code priv := by
  rw [signInput,signInput,h]

/-- A signature is valid for every transaction with the same digests. -/
theorem Idealised.validSigFor_signInput (h : Idealised B) (hd : SameDigests B tx tx') (idx : ℕ)
    (utxo : TxOutput) (priv : PrivateKey) : validSigFor B tx idx utxo utxo.scriptPubkey
      (signInput B tx' idx utxo.value utxo.scriptPubkey priv) (B.publicKey priv).toBytes = true := by
  rw [signInput,← hd idx]
  simp [validSigFor,h.valid]

theorem Tx.setScriptSig_input (tx : Tx) (k j : ℕ) (scriptSig : Script) :
    (tx.setScriptSig k scriptSig).inputs[j]? = tx.inputs[j]?.map fun tin =>
      if k = j then { tin with scriptSig := scriptSig } else tin := by
  rw [Tx.setScriptSig]
  exact List.getElem?_modify _ _ _ _

end Verify

section Keys
variable {B : Bitcoinx} {kb : KeyBook}

theorem publicKeys_eq (B : Bitcoinx) (kb : KeyBook) :
    kb.publicKeys B = (List.range kb.n).map fun i => B.publicKey (kb.keyOf i) := by
  refine List.ext_getElem (by simp [KeyBook.publicKeys,KeyBook.n]) fun i h₁ h₂ => ?_
  have hi : i < kb.keys.length := by simpa [KeyBook.publicKeys] using h₁
  simp [KeyBook.publicKeys,KeyBook.keyOf,hi]

theorem counterparties_eq (B : Bitcoinx) (kb : KeyBook) (i : ℕ) :
    counterparties (kb.publicKeys B) i =
      (others kb.n i).map fun j => B.publicKey (kb.keyOf j) := by
  rw [counterparties,length_publicKeys,← List.filterMap_eq_map]
  refine List.filterMap_congr fun j hj => ?_
  have hlt := (mem_others.mp hj).1
  simp [publicKeys_eq,hlt]

/-- The locking script of a bond is that of its owner and the other parties. -/
theorem bondScript_of_lt {cfg : ChannelConfig} (hn : kb.n = cfg.n) {i : ℕ} (hi : i < cfg.n) :
    bondScript (B.publicKey (kb.keyOf i)) ((others cfg.n i).map fun j => B.publicKey (kb.keyOf j)) =
      .ok (bondLockOf B kb i) := by
  have h := bondLock_of_lt (B := B) hn hi
  have hkey : (kb.publicKeys B)[i]? = some (B.publicKey (kb.keyOf i)) := by
    rw [← hn] at hi
    simp [publicKeys_eq,hi]
  simp only [bondLock,hkey,counterparties_eq,hn] at h
  exact makeBondScriptFor_ok h

end Keys

namespace Channel
variable {B : Bitcoinx} {ch : Channel} {s : State} {tx tx₀ : Tx} {tin : TxInput}

/-- The output that the state transactions and the close spend. -/
def channelUtxo (B : Bitcoinx) (ch : Channel) : TxOutput := ⟨ch.cfg.S,channelLockOf B ch.keybook⟩

/-- The signatures of all parties on the channel input of a transaction. -/
def channelUnlock (B : Bitcoinx) (ch : Channel) (tx : Tx) : Script :=
  .op (.opN 0) :: ((List.range ch.cfg.n).map fun i => signInput B tx 0 (channelUtxo B ch).value
    (channelUtxo B ch).scriptPubkey (ch.keybook.keyOf i)).map .push

/-- The signature of party `i` on the input of a close that spends its bond. -/
def returnUnlock (B : Bitcoinx) (ch : Channel) (tx : Tx) (i : ℕ) : Script :=
  bondReturnUnlock (signInput B tx (1+i) (bondUtxo B ch i).value (bondUtxo B ch i).scriptPubkey
    (ch.keybook.keyOf i))

section Sign

theorem Canonical.signChannelInput_eq (h : ch.Canonical B) (tx : Tx) (rest : List TxOutput) :
    ch.signChannelInput B tx (channelUtxo B ch :: rest) =
      .ok (tx.setScriptSig 0 (channelUnlock B ch tx)) := by
  have hsigs : ch.channelSigs B tx (channelUtxo B ch) = .ok ((List.range ch.cfg.n).map fun i =>
      signInput B tx 0 (channelUtxo B ch).value (channelUtxo B ch).scriptPubkey
        (ch.keybook.keyOf i)) := by
    refine mapM_eq_ok fun i hi => ?_
    rw [KeyBook.privateKey_of_lt (by rw [h.keys]; exact List.mem_range.mp hi)]
    rfl
  have htwo := ch.cfg.two_le_n
  have hne : (List.range ch.cfg.n) ≠ [] := List.ne_nil_of_length_pos (by rw [List.length_range]; omega)
  simp only [signChannelInput,hsigs,bind,Except.bind,channelFundingUnlock,List.map_eq_nil_iff,hne,
    if_false]
  rfl

/-- Signing the bond inputs gives each of them its owner's signature and leaves the digests alone. -/
theorem Canonical.signBondInputs_spec (hB : Idealised B) (h : ch.Canonical B) {is : List ℕ}
    (his : ∀ i ∈ is, i < ch.cfg.n) (hd : SameDigests B tx tx₀) :
    ∃ tx', ch.signBondInputs B is tx = .ok tx' ∧ SameDigests B tx' tx₀ ∧
      ∀ j, tx'.inputs[j]? = tx.inputs[j]?.map fun tin =>
        if 0 < j ∧ j - 1 ∈ is then { tin with scriptSig := returnUnlock B ch tx₀ (j-1) } else tin := by
  induction is generalizing tx with
  | nil =>
    refine ⟨tx,rfl,hd,fun j => ?_⟩
    simp
  | cons i is ih =>
    have hi := his i (by simp)
    have hsig : signBondReturn B tx (1+i) (bondOutputOf B ch.cfg ch.keybook ch.fundingTx i)
        (ch.keybook.keyOf i) = .ok (returnUnlock B ch tx₀ i) := by
      rw [signBondReturn,ensureWholeSatoshi_natCast,returnUnlock,← hd.signInput_eq]
      rfl
    have hd' : SameDigests B (tx.setScriptSig (1+i) (returnUnlock B ch tx₀ i)) tx₀ := by
      intro idx value code sighash
      rw [hB.digest,hd]
    obtain ⟨tx',hs,hdigest,hins⟩ := ih (fun j hj => his j (by simp [hj])) hd'
    refine ⟨tx',?_,hdigest,fun j => ?_⟩
    · rw [signBondInputs,h.bond hi]
      have hpriv : ch.keybook.privateKey i = .ok (ch.keybook.keyOf i) :=
        KeyBook.privateKey_of_lt (by rw [h.keys]; exact hi)
      simp only [hpriv,bind,Except.bind,hsig]
      exact hs
    · rw [hins,Tx.setScriptSig_input,Option.map_map]
      refine congrArg (Option.map · tx.inputs[j]?) (funext fun tin => ?_)
      simp only [Function.comp_apply,List.mem_cons]
      by_cases hj : 1 + i = j
      · subst hj
        simp
      · have hne : 0 < j → j - 1 ≠ i := by omega
        rw [if_neg hj]
        by_cases hpos : 0 < j
        · simp [hne hpos]
        · simp [hpos]

end Sign

/-- What unlocks the outputs of the channel stays within the limits of the interpreter, whatever is signed. -/
structure WithinLimits (B : Bitcoinx) (ch : Channel) : Prop where
  channel : ∀ tx, B.withinLimits (channelUnlock B ch tx) (channelLockOf B ch.keybook) = true
  bondReturn : ∀ tx, ∀ i < ch.cfg.n, B.withinLimits (returnUnlock B ch tx i) (bondLockOf B ch.keybook i) = true
  bondForfeit : ∀ tower fee, ∀ i < ch.cfg.n,
    B.withinLimits (forfeitUnlock B ch i tower fee) (bondLockOf B ch.keybook i) = true

section Accept
variable (hB : Idealised B) (hlim : ch.WithinLimits B)

include hB hlim

theorem Canonical.accepts_channel (h : ch.Canonical B) (hd : SameDigests B tx tx₀)
    (hin : tx.inputs[0]? = some tin) (hsig : tin.scriptSig = channelUnlock B ch tx₀) :
    B.verifyInput tx 0 (channelUtxo B ch) = .ok true := by
  have hlock : (channelUtxo B ch).scriptPubkey = pushMultisig [] (ch.keybook.publicKeys B) := rfl
  refine hB.accepts _ _ _ _ hin (by rw [hsig]; exact hlim.channel tx₀) (accepts_multisig hin hsig hlock ?_)
  rw [publicKeys_eq,h.keys,List.forall₂_map_left_iff,List.forall₂_map_right_iff,List.forall₂_same]
  exact fun i _ => hB.validSigFor_signInput hd 0 (channelUtxo B ch) _

theorem Canonical.accepts_return (h : ch.Canonical B) (hd : SameDigests B tx tx₀) {i : ℕ} (hi : i < ch.cfg.n)
    (hin : tx.inputs[1+i]? = some tin) (hsig : tin.scriptSig = returnUnlock B ch tx₀ i) :
    B.verifyInput tx (1+i) (bondUtxo B ch i) = .ok true :=
  hB.accepts _ _ _ _ hin (by rw [hsig]; exact hlim.bondReturn tx₀ i hi) (SubsatChannel.accepts_return hin hsig (bondScript_of_lt h.keys hi)
    (hB.validSigFor_signInput hd (1+i) (bondUtxo B ch i) _))

theorem Canonical.accepts_forfeit (h : ch.Canonical B) {i : ℕ} (hi : i < ch.cfg.n)
    {tower : Option PublicKey} {fee : ℤ} (hd : SameDigests B tx (forfeitTxOf B ch i tower fee))
    (hin : tx.inputs[0]? = some tin) (hsig : tin.scriptSig = forfeitUnlock B ch i tower fee) :
    B.verifyInput tx 0 (bondUtxo B ch i) = .ok true := by
  refine hB.accepts _ _ _ _ hin (by rw [hsig]; exact hlim.bondForfeit tower fee i hi)
    (SubsatChannel.accepts_forfeit hin hsig (bondScript_of_lt h.keys hi) ?_)
  rw [List.forall₂_map_left_iff,List.forall₂_map_right_iff,List.forall₂_same]
  exact fun j _ => hB.validSigFor_signInput hd 0 (bondUtxo B ch i) _

end Accept

/-- Every input spends an output of the channel's funding transaction and is accepted against it. -/
structure Verified (B : Bitcoinx) (ch : Channel) (tx : Tx) (utxos : List TxOutput) : Prop where
  spends : ∀ i tin, tx.inputs[i]? = some tin → tin.prevHash = ch.fundingTxid B ∧
    ∃ utxo, ch.fundingTx.outputs[tin.prevIdx]? = some utxo ∧ utxos[i]? = some utxo ∧
      spendVerifies B tx i utxo = true
  verifies : verifyAllInputs B tx utxos = .ok ()

theorem Canonical.output_zero (h : ch.Canonical B) :
    ch.fundingTx.outputs[0]? = some (channelUtxo B ch) := by
  rw [h.output (by omega)]
  rfl

theorem Canonical.output_bond (h : ch.Canonical B) {i : ℕ} (hi : i < ch.cfg.n) :
    ch.fundingTx.outputs[1+i]? = some (bondUtxo B ch i) := by
  rw [h.output (by omega),channelOutputsOf_bond hi]
  rfl

/-- A transaction with one input that is accepted. -/
theorem verified_single {utxo : TxOutput} {k : ℕ} (hin : tx.inputs = [tin])
    (hprev : tin.prevHash = ch.fundingTxid B) (hidx : tin.prevIdx = k)
    (hout : ch.fundingTx.outputs[k]? = some utxo) (hv : verifyAllInputs B tx [utxo] = .ok ()) :
    Verified B ch tx [utxo] where
  spends i t ht := by
    rw [hin] at ht
    obtain rfl : i = 0 := by
      have hlt := (List.getElem?_eq_some_iff.mp ht).1
      simpa using hlt
    cases ht
    exact ⟨hprev,utxo,by rw [hidx]; exact hout,rfl,spendVerifies_of_verifyAllInputs hv rfl⟩
  verifies := hv

theorem verifyAllInputs_single {utxo : TxOutput} (hin : tx.inputs = [tin])
    (hv : B.verifyInput tx 0 utxo = .ok true) : verifyAllInputs B tx [utxo] = .ok () := by
  refine verifyAllInputs_of_accepted (by rw [hin]; rfl) fun i u hu => ?_
  obtain rfl : i = 0 := by
    have hlt := (List.getElem?_eq_some_iff.mp hu).1
    simpa using hlt
  cases hu
  exact hv

section Settle
variable {tower : Option PublicKey} {fee : ℤ}

theorem Canonical.signStateTx_eq (h : ch.Canonical B) (hconf : ch.fundingConfirmed = true)
    (hs : s.Conserving ch.cfg) (hv : s.version < finalSequence) : ch.signStateTx B s =
      .ok ((stateTxOf B ch s).setScriptSig 0 (channelUnlock B ch (stateTxOf B ch s)),
        [channelUtxo B ch]) := by
  have hb : ch.buildStateTx B s = .ok (stateTxOf B ch s,[channelUtxo B ch]) :=
    h.buildStateTx_eq hs hv
  rw [signStateTx,requireConfirmed,if_pos hconf]
  simp only [bind,Except.bind,hb,h.signChannelInput_eq]

theorem Canonical.signStateTx_verified (hB : Idealised B) (hlim : ch.WithinLimits B) (h : ch.Canonical B)
    (hconf : ch.fundingConfirmed = true) (hs : s.Conserving ch.cfg)
    (hv : s.version < finalSequence) :
    ∃ tx utxos, ch.signStateTx B s = .ok (tx,utxos) ∧ Verified B ch tx utxos :=
  ⟨_,_,h.signStateTx_eq hconf hs hv,verified_single rfl rfl rfl h.output_zero
    (verifyAllInputs_single rfl (h.accepts_channel hB hlim (hB.sameDigests _ 0 _) rfl rfl))⟩

theorem Canonical.forfeitBondTx_verified (hB : Idealised B) (hlim : ch.WithinLimits B) (h : ch.Canonical B)
    (hconf : ch.fundingConfirmed = true) {i : ℕ} (hi : i < ch.cfg.n) (hfee : 0 ≤ fee)
    (hmax : fee ≤ bondOf ch.cfg i) :
    ∃ tx utxos, ch.forfeitBondTx B i tower fee = .ok (tx,utxos) ∧ Verified B ch tx utxos := by
  have hver : Verified B ch ((forfeitTxOf B ch i tower fee).setScriptSig 0
      (forfeitUnlock B ch i tower fee)) [bondUtxo B ch i] :=
    verified_single rfl rfl rfl (h.output_bond hi)
      (verifyAllInputs_single rfl (h.accepts_forfeit hB hlim hi (hB.sameDigests _ 0 _) rfl rfl))
  refine ⟨_,_,?_,hver⟩
  rw [h.forfeitBondTx_eq tower hconf hi hfee hmax,hver.verifies]
  rfl

/-- What a close puts into its inputs. -/
def closeUnlock (B : Bitcoinx) (ch : Channel) (tx : Tx) (j : ℕ) : Script :=
  if j = 0 then channelUnlock B ch tx else returnUnlock B ch tx (j-1)

/-- The signed close: every input is accepted, so the check at its end does not raise. -/
theorem Canonical.cooperativeClose_verified (hB : Idealised B) (hlim : ch.WithinLimits B) (h : ch.Canonical B)
    (hconf : ch.fundingConfirmed = true) {o : Option State}
    (hs : (o.getD ch.state).Conserving ch.cfg) :
    ∃ tx utxos, ch.cooperativeClose B o = .ok (tx,utxos) ∧ Verified B ch tx utxos := by
  set unsigned := closeTxOf B ch (o.getD ch.state) with hunsigned
  have hb : ch.buildCloseTx B (o.getD ch.state) = .ok (unsigned,channelOutputsOf B ch.cfg ch.keybook) :=
    h.buildCloseTx_eq hs
  have hfirst := h.signChannelInput_eq unsigned
    ((List.range ch.cfg.n).map fun i => ⟨bondOf ch.cfg i,bondLockOf B ch.keybook i⟩)
  have hrange : ∀ i ∈ List.range ch.cfg.n, i < ch.cfg.n := fun i hi => List.mem_range.mp hi
  obtain ⟨tx,hsigned,hd,hins⟩ := h.signBondInputs_spec hB hrange
    (hB.sameDigests unsigned 0 (channelUnlock B ch unsigned))
  have hinput : ∀ j, j < 1 + ch.cfg.n → tx.inputs[j]? =
      some ⟨ch.fundingTxid B,j,closeUnlock B ch unsigned j,finalSequence⟩ := by
    intro j hj
    have hold : unsigned.inputs[j]? = some ⟨ch.fundingTxid B,j,[],finalSequence⟩ := by
      simp [hunsigned,closeTxOf,hj]
    rw [hins,Tx.setScriptSig_input,hold]
    by_cases hz : j = 0
    · subst hz
      simp [closeUnlock]
    · have hmem : 0 < j ∧ j - 1 < ch.cfg.n := by omega
      simp [closeUnlock,hz,hmem,Ne.symm hz]
  have hlen : tx.inputs.length = 1 + ch.cfg.n := by
    have hout := congrArg List.length (Tx.outpoints_congr (signBondInputs_ok hsigned))
    rw [Tx.setScriptSig_outpoints,hunsigned,outpoints_closeTxOf] at hout
    simpa [Tx.outpoints] using hout
  have haccept : ∀ j utxo, (channelOutputsOf B ch.cfg ch.keybook)[j]? = some utxo →
      B.verifyInput tx j utxo = .ok true := by
    intro j utxo hu
    have hj : j < 1 + ch.cfg.n := by
      have hlt := (List.getElem?_eq_some_iff.mp hu).1
      rwa [length_channelOutputsOf] at hlt
    rcases Nat.eq_zero_or_pos j with rfl | hpos
    · cases hu
      exact h.accepts_channel hB hlim hd (hinput 0 hj) rfl
    · obtain ⟨i,rfl⟩ : ∃ i, j = 1 + i := ⟨j-1,by omega⟩
      have hi : i < ch.cfg.n := by omega
      rw [channelOutputsOf_bond hi] at hu
      cases hu
      refine h.accepts_return hB hlim hd hi (hinput _ hj) ?_
      simp [closeUnlock]
  have hver : verifyAllInputs B tx (channelOutputsOf B ch.cfg ch.keybook) = .ok () :=
    verifyAllInputs_of_accepted (length_channelOutputsOf.trans hlen.symm) haccept
  refine ⟨tx,channelOutputsOf B ch.cfg ch.keybook,?_,?_,hver⟩
  · rw [cooperativeClose,requireConfirmed,if_pos hconf]
    simp only [bind,Except.bind,hb]
    have hfirst' : ch.signChannelInput B unsigned (channelOutputsOf B ch.cfg ch.keybook) =
      .ok (unsigned.setScriptSig 0 (channelUnlock B ch unsigned)) := hfirst
    simp only [hfirst',hsigned,hver]
  · intro j tin ht
    have hj : j < 1 + ch.cfg.n := by
      have hlt := (List.getElem?_eq_some_iff.mp ht).1
      rwa [hlen] at hlt
    rw [hinput j hj] at ht
    cases ht
    have hlt : j < (channelOutputsOf B ch.cfg ch.keybook).length := by
      rwa [length_channelOutputsOf]
    have hutxo := List.getElem?_eq_getElem hlt
    exact ⟨rfl,_,(h.output hj).trans hutxo,hutxo,spendVerifies_of_verifyInput (haccept j _ hutxo)⟩

end Settle
end Channel

/-- Every signed settlement of a confirmed channel verifies unless its scripts exceed the limits: the signing
functions return for every conserving state with an encodable version, for every offender and for every fee
that does not exceed the bond, and every input of what they return is accepted against the output that it
spends. -/
theorem signed_settlements_verify {B : Bitcoinx} (hB : Idealised B) {ch : Channel}
    (hch : ch.Obtained B) (hlim : ch.WithinLimits B) (hconf : ch.fundingConfirmed = true) :
    (∀ s : State, s.Conserving ch.cfg → s.version < finalSequence →
      (∃ tx utxos, ch.signStateTx B s = .ok (tx,utxos) ∧ ch.Verified B tx utxos) ∧
      ∃ tx utxos, ch.supersededStateTxFor B s.version (s.balances.map Int.ofNat) = .ok (tx,utxos) ∧
        ch.Verified B tx utxos) ∧
    (∀ o : Option State, (o.getD ch.state).Conserving ch.cfg →
      ∃ tx utxos, ch.cooperativeClose B o = .ok (tx,utxos) ∧ ch.Verified B tx utxos) ∧
    ∀ i, i < ch.cfg.n → ∀ (tower : Option PublicKey) (fee : ℤ), 0 ≤ fee → fee ≤ bondOf ch.cfg i →
      ∃ tx utxos, ch.forfeitBondTx B i tower fee = .ok (tx,utxos) ∧ ch.Verified B tx utxos := by
  have hcanon := hch.canonical
  refine ⟨fun s hs hv => ?_,fun o ho => hcanon.cooperativeClose_verified hB hlim hconf ho,
    fun i hi tower fee hfee hmax => hcanon.forfeitBondTx_verified hB hlim hconf hi hfee hmax⟩
  obtain ⟨tx,utxos,hsigned,hver⟩ := hcanon.signStateTx_verified hB hlim hconf hs hv
  refine ⟨⟨tx,utxos,hsigned,hver⟩,tx,utxos,?_,hver⟩
  rw [Channel.supersededStateTxFor,Channel.requireConfirmed,if_pos hconf]
  have hmake : State.make (s.balances.map Int.ofNat) s.version = .ok s := s.make_self
  have hsame : ({ ch with state := s } : Channel).signStateTx B s = ch.signStateTx B s := rfl
  simp only [bind,Except.bind,hmake,hs.check,hsame,hsigned]

namespace Reference

theorem idealised : Idealised (reference anyone) where
  accepts tx idx utxo tin _ _ h := congrArg Except.ok h
  valid priv tx idx value code := by
    simp [reference,base,anyone,sighashAllForkid]
  digest tx k scriptSig idx value code sighash := by
    have hseq : (tx.setScriptSig k scriptSig).inputs.map TxInput.sequence =
        tx.inputs.map TxInput.sequence := by
      refine List.ext_getElem (by simp [Tx.setScriptSig]) fun i h₁ h₂ => ?_
      simp only [Tx.setScriptSig,List.getElem_map,List.getElem_modify]
      split_ifs <;> rfl
    have hpre : preimageOf (tx.setScriptSig k scriptSig) idx value code =
        preimageOf tx idx value code := by
      simp only [preimageOf,Tx.setScriptSig_outpoints,hseq,Tx.setScriptSig_outputs,
        Tx.setScriptSig_locktime]
      rfl
    exact congrArg (fun p => preimage.write p ++ [sighash]) hpre

theorem withinLimits_channel (ch : Channel) : ch.WithinLimits (reference anyone) :=
  ⟨fun _ => rfl,fun _ _ _ => rfl,fun _ _ _ _ => rfl⟩

end Reference

open Reference in
theorem signed_settlements_verify_sample : ∃ tx utxos,
    (sampleChannel anyone).cooperativeClose (reference anyone) none = .ok (tx,utxos) ∧
    (sampleChannel anyone).Verified (reference anyone) tx utxos := by
  have hch := obtained_sampleChannel anyone
  exact (signed_settlements_verify idealised hch (withinLimits_channel _) rfl).2.1 none hch.canonical.conserving

end SubsatChannel
