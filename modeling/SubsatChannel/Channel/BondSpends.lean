import SubsatChannel.Channel.Verifies

/-! Who has to have signed a transaction that spends a bond. -/
namespace SubsatChannel

/-- Signatures are unforgeable and are made over `ALL | FORKID` digests: what the interpreter takes
for a valid signature under a key was made by its holder over this input's digest. -/
def Unforgeable (B : Bitcoinx) (signed : Bytes → Bytes → Prop) : Prop :=
  ∀ tx idx utxo code sig key, validSigFor B tx idx utxo code sig key = true →
    signed key (B.signatureHash tx idx utxo.value code sighashAllForkid)

/-- The holder of a key has signed the digest of an input that spends `utxo`. -/
def SignedBy (B : Bitcoinx) (signed : Bytes → Bytes → Prop) (pk : PublicKey) (tx : Tx) (idx : ℕ)
    (utxo : TxOutput) : Prop :=
  signed pk.toBytes (B.signatureHash tx idx utxo.value utxo.scriptPubkey sighashAllForkid)

section Accepted
variable {B : Bitcoinx} {tx : Tx} {idx : ℕ} {utxo : TxOutput}

theorem verifyInput_of_spendVerifies (h : spendVerifies B tx idx utxo = true) :
    B.verifyInput tx idx utxo = .ok true := by
  unfold spendVerifies verifySpend at h
  split at h
  · assumption
  · simp [Except.toBool] at h
  · simp [Except.toBool] at h

/-- An accepted input: its unlocking script leaves a stack on which the locking script ends with a
true element on top. -/
theorem interpreterAccepts_cases (h : interpreterAccepts B tx idx utxo = true) :
    ∃ tin stack top below, tx.inputs[idx]? = some tin ∧
      runScript (scriptContext B tx idx utxo tin.scriptSig) (.start []) tin.scriptSig = some stack ∧
      runScript (scriptContext B tx idx utxo utxo.scriptPubkey) (.start stack) utxo.scriptPubkey =
        some (top :: below) ∧ castToBool top = true := by
  unfold interpreterAccepts at h
  split at h
  · cases h
  · rename_i tin hin
    split at h
    · cases h
    · rename_i stack hrun
      split at h
      · rename_i top below hlock
        exact ⟨tin,stack,top,below,hin,hrun,hlock,h⟩
      · cases h

variable {signed : Bytes → Bytes → Prop}

theorem Unforgeable.signedBy (h : Unforgeable B signed) {sig : Bytes} {pk : PublicKey}
    (hv : (scriptContext B tx idx utxo utxo.scriptPubkey).validSig sig pk.toBytes = true) :
    SignedBy B signed pk tx idx utxo :=
  h tx idx utxo utxo.scriptPubkey sig pk.toBytes hv

/-- A multisignature that leaves a true element finds a valid signature for every key on the stack. -/
theorem multisig_valid {ctx : ScriptContext} {pks : List PublicKey} {stack below : List Bytes}
    {top : Bytes} (h : execItems ctx (pushMultisig [] pks) stack = some (top :: below))
    (ht : castToBool top = true) : ∀ pk ∈ pks, ∃ sig ∈ stack, ctx.validSig sig pk.toBytes = true := by
  rw [execItems_multisig] at h
  split_ifs at h with hlen
  simp only [Option.some.injEq,List.cons.injEq] at h
  obtain ⟨rfl,_⟩ := h
  rw [castToBool_boolElement] at ht
  have hall := (matchSigs_iff (by simp; omega)).mp ht
  intro pk hpk
  have hmem : pk.toBytes ∈ (pks.map PublicKey.toBytes).reverse := by
    rw [List.mem_reverse]
    exact List.mem_map_of_mem hpk
  obtain ⟨i,hi,hget⟩ := List.getElem_of_mem hmem
  have hi' : i < (stack.take pks.length).length := by rwa [hall.length_eq]
  have hvalid := List.Forall₂.get hall hi' hi
  simp only [List.get_eq_getElem,hget] at hvalid
  exact ⟨_,List.mem_of_mem_take (List.getElem_mem hi'),hvalid⟩

theorem checkSig_valid {ctx : ScriptContext} {key : Bytes} {stack below : List Bytes} {top : Bytes}
    (h : execItems ctx [.push key,.op .opCheckSig] stack = some (top :: below))
    (ht : castToBool top = true) : ∃ sig ∈ stack, ctx.validSig sig key = true := by
  rw [execItems_checkSig] at h
  cases stack with
  | nil => cases h
  | cons sig rest =>
    simp only [Option.some.injEq,List.cons.injEq] at h
    obtain ⟨rfl,_⟩ := h
    rw [castToBool_boolElement] at ht
    exact ⟨sig,List.mem_cons_self,ht⟩

/-- The stack that an input's unlocking script leaves. -/
def Unlocks (B : Bitcoinx) (tx : Tx) (idx : ℕ) (utxo : TxOutput) (stack : List Bytes) : Prop :=
  ∃ tin, tx.inputs[idx]? = some tin ∧
    runScript (scriptContext B tx idx utxo tin.scriptSig) (.start []) tin.scriptSig = some stack

end Accepted

section Outputs
variable {B : Bitcoinx} {cfg : ChannelConfig} {kb : KeyBook} {outs : List TxOutput} {tx : Tx}
  {idx : ℕ} {utxo : TxOutput}

/-- An accepted spend of the channel output: a valid signature of every party is on the stack. -/
theorem channel_signatures (hstd : StandardOpcodes B) (hb : buildChannelOutputs B cfg kb = .ok outs)
    (hu : outs[0]? = some utxo) (hv : spendVerifies B tx idx utxo = true) :
    ∃ stack, Unlocks B tx idx utxo stack ∧ ∀ pk ∈ kb.publicKeys B, ∃ sig ∈ stack,
      validSigFor B tx idx utxo utxo.scriptPubkey sig pk.toBytes = true := by
  obtain ⟨_,rfl⟩ := buildChannelOutputs_ok hb
  have hlock : utxo.scriptPubkey = pushMultisig [] (kb.publicKeys B) := by cases hu; rfl
  obtain ⟨tin,stack,top,below,hin,hunlock,hrun,htop⟩ :=
    interpreterAccepts_cases (hstd tx idx utxo (verifyInput_of_spendVerifies hv))
  refine ⟨stack,⟨tin,hin,hunlock⟩,?_⟩
  rw [hlock,runScript_items (pushMultisig_plain _)] at hrun
  have hsigs := multisig_valid hrun htop
  rwa [← hlock] at hsigs

/-- An accepted spend of the bond of party `i`: valid signatures of all counterparties are on the
stack, or one of the owner. -/
theorem bond_signatures (hstd : StandardOpcodes B) (hb : buildChannelOutputs B cfg kb = .ok outs)
    {i : ℕ} (hi : i < cfg.n) (hu : outs[1+i]? = some utxo) (hv : spendVerifies B tx idx utxo = true) :
    ∃ stack, Unlocks B tx idx utxo stack ∧
      ((∀ j < cfg.n, j ≠ i → ∃ sig ∈ stack, validSigFor B tx idx utxo utxo.scriptPubkey sig
        (B.publicKey (kb.keyOf j)).toBytes = true) ∨
      ∃ sig ∈ stack, validSigFor B tx idx utxo utxo.scriptPubkey sig
        (B.publicKey (kb.keyOf i)).toBytes = true) := by
  obtain ⟨hn,rfl⟩ := buildChannelOutputs_ok hb
  rw [channelOutputsOf_bond hi] at hu
  have hlock : utxo.scriptPubkey = bondLockOf B kb i := by cases hu; rfl
  obtain ⟨tin,stack,top,below,hin,hunlock,hrun,htop⟩ :=
    interpreterAccepts_cases (hstd tx idx utxo (verifyInput_of_spendVerifies hv))
  refine ⟨stack,⟨tin,hin,hunlock⟩,?_⟩
  rw [hlock,runScript_bond (bondScript_of_lt hn hi),← hlock] at hrun
  cases stack with
  | nil => cases hrun
  | cons choice rest =>
    dsimp only at hrun
    cases hc : castToBool choice with
    | true =>
      rw [hc,if_pos rfl] at hrun
      obtain ⟨sig,hmem,hsig⟩ := checkSig_valid hrun htop
      exact .inr ⟨sig,List.mem_cons_of_mem _ hmem,hsig⟩
    | false =>
      rw [hc,if_neg Bool.false_ne_true] at hrun
      refine .inl fun j hj hne => ?_
      obtain ⟨sig,hmem,hsig⟩ :=
        multisig_valid hrun htop _ (List.mem_map_of_mem (mem_others.mpr ⟨hj,hne⟩))
      exact ⟨sig,List.mem_cons_of_mem _ hmem,hsig⟩

end Outputs

/-- Whatever transaction and unlocking script spend the bond of party `i` and are accepted: all
counterparties have signed the transaction, or the owner has. -/
theorem bond_spend_signed {B : Bitcoinx} {signed : Bytes → Bytes → Prop} (hstd : StandardOpcodes B)
    (hforge : Unforgeable B signed) {cfg : ChannelConfig} {kb : KeyBook} {outs : List TxOutput}
    (hb : buildChannelOutputs B cfg kb = .ok outs) {i : ℕ} (hi : i < cfg.n) {utxo : TxOutput}
    (hu : outs[1+i]? = some utxo) {tx : Tx} {idx : ℕ} (hv : spendVerifies B tx idx utxo = true) :
    (∀ j < cfg.n, j ≠ i → SignedBy B signed (B.publicKey (kb.keyOf j)) tx idx utxo) ∨
    SignedBy B signed (B.publicKey (kb.keyOf i)) tx idx utxo := by
  obtain ⟨stack,_,hall | ⟨sig,_,hsig⟩⟩ := bond_signatures hstd hb hi hu hv
  · refine .inl fun j hj hne => ?_
    obtain ⟨sig,_,hsig⟩ := hall j hj hne
    exact hforge.signedBy hsig
  · exact .inr (hforge.signedBy hsig)

namespace Reference

/-- Under the stand-in exactly the digests that were signed have valid signatures. -/
theorem unforgeable (made : Bytes → Bytes → Bool) :
    Unforgeable (reference made) fun key digest => made key digest = true := by
  intro tx idx utxo code sig key h
  unfold validSigFor at h
  split at h
  · cases h
  · rename_i sighash _
    simp only [reference,base,Bool.and_eq_true,beq_iff_eq,List.getLast?_append,List.getLast?_singleton,
      Option.some_or,Option.some.injEq] at h
    obtain ⟨⟨hmade,rfl⟩,_⟩ := h
    exact hmade

/-- Only party 0 of the sample channel signs anything. -/
def ownerSigns (key _digest : Bytes) : Bool := key == (publicKey (sampleKey 1)).toBytes

/-- The first bond of the sample channel. -/
def ownerBond : TxOutput := ⟨2,bondLockOf (reference ownerSigns) sampleKeys 0⟩

/-- Party 0 takes its bond back with its signature alone, and spends nothing else. -/
def ownerSpend : Tx :=
  let tx : Tx := ⟨1,[⟨(sampleChannel ownerSigns).fundingTxid (reference ownerSigns),1,[],
    finalSequence⟩],[⟨2,p2pkhScript (reference ownerSigns) (publicKey (sampleKey 1))⟩],0⟩
  tx.setScriptSig 0 (bondReturnUnlock (signInput (reference ownerSigns) tx 0 ownerBond.value
    ownerBond.scriptPubkey (sampleKey 1)))

theorem ownerSpend_verifies : spendVerifies (reference ownerSigns) ownerSpend 0 ownerBond = true := by
  decide +kernel

theorem ownerBond_eq : (channelOutputsOf (reference ownerSigns) sampleConfig sampleKeys)[1+0]? =
    some ownerBond :=
  channelOutputsOf_bond (by decide)

theorem sampleOutputs : buildChannelOutputs (reference ownerSigns) sampleConfig sampleKeys =
    .ok (channelOutputsOf (reference ownerSigns) sampleConfig sampleKeys) :=
  buildChannelOutputs_eq rfl

end Reference

open Reference in
theorem bond_spend_signed_sample :
    (∀ j < 2, j ≠ 0 → SignedBy (reference ownerSigns) (fun key d => ownerSigns key d = true)
      (publicKey (sampleKeys.keyOf j)) ownerSpend 0 ownerBond) ∨
    SignedBy (reference ownerSigns) (fun key d => ownerSigns key d = true)
      (publicKey (sampleKeys.keyOf 0)) ownerSpend 0 ownerBond :=
  bond_spend_signed (standardOpcodes ownerSigns) (unforgeable ownerSigns) sampleOutputs
    (by decide) ownerBond_eq ownerSpend_verifies

open Reference in
/-- The branch of the owner needs no other signature and no other input. -/
theorem owner_spends_bond_alone :
    StandardOpcodes (reference ownerSigns) ∧
    Unforgeable (reference ownerSigns) (fun key d => ownerSigns key d = true) ∧
    buildChannelOutputs (reference ownerSigns) sampleConfig sampleKeys =
      .ok (channelOutputsOf (reference ownerSigns) sampleConfig sampleKeys) ∧
    (channelOutputsOf (reference ownerSigns) sampleConfig sampleKeys)[1]? = some ownerBond ∧
    spendVerifies (reference ownerSigns) ownerSpend 0 ownerBond = true ∧
    ¬ SignedBy (reference ownerSigns) (fun key d => ownerSigns key d = true)
      (publicKey (sampleKeys.keyOf 1)) ownerSpend 0 ownerBond ∧
    ((sampleChannel ownerSigns).fundingTxid (reference ownerSigns),0) ∉ ownerSpend.outpoints :=
  ⟨standardOpcodes ownerSigns,unforgeable ownerSigns,sampleOutputs,
    ownerBond_eq,ownerSpend_verifies,
    by unfold SignedBy ownerSigns; decide +kernel,by decide +kernel⟩

end SubsatChannel
