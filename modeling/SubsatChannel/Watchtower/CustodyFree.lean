import SubsatChannel.Channel.BondSpends
import SubsatChannel.Store.Recover
import SubsatChannel.Watchtower.Cluster

/-! What a tower can publish with the signatures in its records and no key of a party: the recorded
transactions, and nothing else that spends a channel or bond output. -/
namespace SubsatChannel

/-- A symbolic signature scheme. A signature checks under a party's key for no other digest than the
one it was made for, and a digest over `ALL | FORKID` determines everything it covers. -/
structure SymbolicSignatures (B : Bitcoinx) : Prop where
  binds : ∀ priv holder d d',
    B.checkSig (B.sign priv d) (B.publicKey holder).toBytes d' = true → d' = d
  commits : ∀ (t u : Tx) i j v w c k sighash,
    B.signatureHash t i v c sighash = B.signatureHash u j w k sighashAllForkid →
      t.stripped = u.stripped ∧ t.outpoints[i]? = u.outpoints[j]? ∧ v = w ∧ c = k ∧
        sighash = sighashAllForkid

/-- A transaction as `sign_state_tx` or `forfeit_bond_tx` of some channel returns it. -/
inductive Presigned (B : Bitcoinx) : Tx → Prop
  | state {ch : Channel} {s : State} {tx : Tx} {utxos : List TxOutput}
      (h : ch.signStateTx B s = .ok (tx,utxos)) : Presigned B tx
  | forfeit {ch : Channel} {offender fee : ℤ} {tower : Option PublicKey} {tx : Tx}
      {utxos : List TxOutput} (h : ch.forfeitBondTx B offender tower fee = .ok (tx,utxos)) :
      Presigned B tx

namespace WatchRecord

/-- The texts of a record. -/
def texts (r : WatchRecord) : List String := r.currentStateTxHex :: r.forfeitTxHexByOwner.values

/-- Every text of the record is the hex of a transaction that some channel has signed. -/
def Built (B : Bitcoinx) (r : WatchRecord) : Prop :=
  ∀ text ∈ r.texts, ∃ tx, Presigned B tx ∧ text = hex (B.txToBytes tx)

/-- The record contains this transaction. -/
def Holds (B : Bitcoinx) (r : WatchRecord) (tx : Tx) : Prop :=
  ∃ text ∈ r.texts, B.txFromHex text = some tx

end WatchRecord

/-- Some transaction in the records carries this signature; the sighash byte behind it can be another. -/
def Contained (B : Bitcoinx) (records : List WatchRecord) (signature : Bytes) : Prop :=
  ∃ r ∈ records, ∃ tx, r.Holds B tx ∧ ∃ tin ∈ tx.inputs, ∃ sig, .push sig ∈ tin.scriptSig ∧
    sig.dropLast = signature

/-- An input is assembled without the private keys of these parties: what its unlocking script puts on
the stack is in the records wherever it is a signature of one of the parties, for any digest. -/
def AssembledFrom (B : Bitcoinx) (records : List WatchRecord) (keys : List PublicKey) (tx : Tx)
    (idx : ℕ) (utxo : TxOutput) : Prop :=
  ∀ stack, Unlocks B tx idx utxo stack → ∀ sig ∈ stack,
    (∃ pk ∈ keys, ∃ digest, B.checkSig sig.dropLast pk.toBytes digest = true) →
      Contained B records sig.dropLast

/-- Whatever the unlocking scripts push is a signature of the transaction itself. -/
def SignedWhole (B : Bitcoinx) (tx : Tx) : Prop :=
  ∀ tin ∈ tx.inputs, ∀ sig, .push sig ∈ tin.scriptSig → ∃ unsigned idx value code priv,
    sig = signInput B unsigned idx value code priv ∧ unsigned.stripped = tx.stripped

section Signed
variable {B : Bitcoinx} {ch : Channel} {s : State} {tx unsigned : Tx} {utxos : List TxOutput}

/-- Signatures over an unsigned transaction, put into its first input. -/
theorem signedWhole_setScriptSig {script : Script} (hnone : ∀ tin ∈ unsigned.inputs, tin.scriptSig = [])
    (hpush : ∀ sig, .push sig ∈ script → ∃ value code priv,
      sig = signInput B unsigned 0 value code priv) : SignedWhole B (unsigned.setScriptSig 0 script) := by
  intro tin ht sig hsig
  obtain ⟨j,hj⟩ := List.mem_iff_getElem?.mp ht
  rw [Tx.setScriptSig_input] at hj
  obtain ⟨old,hold,rfl⟩ := Option.map_eq_some_iff.mp hj
  by_cases h : 0 = j
  · rw [if_pos h] at hsig
    obtain ⟨value,code,priv,heq⟩ := hpush sig hsig
    exact ⟨unsigned,0,value,code,priv,heq,(Tx.stripped_setScriptSig _ _ _).symm⟩
  · rw [if_neg h,hnone old (List.mem_of_getElem? hold)] at hsig
    cases hsig

theorem signChannelInput_pushes {utxo : TxOutput} {sigs : List Bytes}
    (h : ch.channelSigs B unsigned utxo = .ok sigs) :
    ∀ sig ∈ sigs, ∃ value code priv, sig = signInput B unsigned 0 value code priv := by
  intro sig hs
  obtain ⟨i,_,hi⟩ := mem_of_mapM_eq_ok h sig hs
  obtain ⟨priv,_,hi⟩ := bind_eq_ok.mp hi
  exact ⟨_,_,priv,(Except.ok.inj hi).symm⟩

theorem signStateTx_signedWhole (h : ch.signStateTx B s = .ok (tx,utxos)) : SignedWhole B tx := by
  obtain ⟨_,_,h⟩ := bind_eq_ok.mp h
  obtain ⟨⟨unsigned,us⟩,hbuild,h⟩ := bind_eq_ok.mp h
  obtain ⟨signed,hsign,h⟩ := bind_eq_ok.mp h
  cases h
  have hnone : ∀ tin ∈ unsigned.inputs, tin.scriptSig = [] := by
    obtain ⟨q,_,hbuild⟩ := bind_eq_ok.mp hbuild
    obtain ⟨seq,_,hbuild⟩ := bind_eq_ok.mp hbuild
    obtain ⟨outputs,_,hbuild⟩ := bind_eq_ok.mp hbuild
    obtain ⟨utxo,_,hbuild⟩ := bind_eq_ok.mp hbuild
    cases hbuild
    simp
  unfold Channel.signChannelInput at hsign
  cases utxos with
  | nil => cases hsign
  | cons utxo utxos =>
    obtain ⟨sigs,hsigs,hsign⟩ := bind_eq_ok.mp hsign
    obtain ⟨script,hscript,hsign⟩ := bind_eq_ok.mp hsign
    cases hsign
    refine signedWhole_setScriptSig hnone fun sig hsig => ?_
    unfold channelFundingUnlock at hscript
    split_ifs at hscript
    cases hscript
    exact signChannelInput_pushes hsigs sig (by simpa using hsig)

theorem forfeitBondTx_signedWhole {offender fee : ℤ} {tower : Option PublicKey}
    (h : ch.forfeitBondTx B offender tower fee = .ok (tx,utxos)) : SignedWhole B tx := by
  obtain ⟨_,_,h⟩ := bind_eq_ok.mp h
  split_ifs at h
  cases hbond : ch.bonds[offender.toNat]? with
  | none => simp [hbond] at h
  | some bond =>
    simp only [hbond] at h
    split_ifs at h
    obtain ⟨unsigned,hbuild,h⟩ := bind_eq_ok.mp h
    obtain ⟨privs,_,h⟩ := bind_eq_ok.mp h
    obtain ⟨script,hscript,h⟩ := bind_eq_ok.mp h
    obtain ⟨_,_,h⟩ := bind_eq_ok.mp h
    cases h
    have hnone : ∀ tin ∈ unsigned.inputs, tin.scriptSig = [] := by
      obtain ⟨outputs,_,hbuild⟩ := bind_eq_ok.mp hbuild
      cases hbuild
      simp
    refine signedWhole_setScriptSig hnone fun sig hsig => ?_
    unfold signBondForfeit bondForfeitUnlock at hscript
    split_ifs at hscript
    cases hscript
    simp only [List.mem_append,List.mem_cons,List.mem_map,reduceCtorEq,false_or,List.not_mem_nil,
      or_false,ScriptItem.push.injEq,exists_eq_right] at hsig
    obtain ⟨priv,_,rfl⟩ := hsig
    exact ⟨_,_,priv,rfl⟩

theorem Presigned.signedWhole (h : Presigned B tx) : SignedWhole B tx := by
  cases h with
  | state h => exact signStateTx_signedWhole h
  | forfeit h => exact forfeitBondTx_signedWhole h

end Signed

section Registered
variable {B : Bitcoinx} {ch : Channel} {s : State} {tx : Tx} {utxos : List TxOutput}
  {spec : WatcherSpec} {offenders : List ℤ} {r : WatchRecord}

theorem forfeitHexByOwner_texts {d d' : Dict ℕ String}
    (h : WatchCluster.forfeitHexByOwner B ch spec offenders d = .ok d')
    (hd : ∀ text ∈ d.values, ∃ tx, Presigned B tx ∧ text = hex (B.txToBytes tx)) :
    ∀ text ∈ d'.values, ∃ tx, Presigned B tx ∧ text = hex (B.txToBytes tx) := by
  induction offenders generalizing d with
  | nil =>
    cases h
    exact hd
  | cons offender offenders ih =>
    obtain ⟨⟨forfeit,us⟩,hforfeit,h⟩ := bind_eq_ok.mp h
    refine ih h fun text ht => ?_
    obtain ⟨k,hk⟩ := Dict.mem_values_iff.mp ht
    rw [Dict.get?_set] at hk
    split_ifs at hk
    · cases hk
      exact ⟨forfeit,.forfeit hforfeit,rfl⟩
    · exact hd text (Dict.mem_values_iff.mpr ⟨k,hk⟩)

/-- The record that a cluster makes for a watcher. -/
theorem watchRecord_built (hs : ch.signStateTx B s = .ok (tx,utxos))
    (h : WatchCluster.watchRecord B ch tx spec offenders = .ok r) :
    r.Built B ∧ r.currentStateTxHex = hex (B.txToBytes tx) := by
  obtain ⟨forfeits,hf,h⟩ := bind_eq_ok.mp h
  cases h
  refine ⟨fun text ht => ?_,rfl⟩
  rcases List.mem_cons.mp ht with rfl | ht
  · exact ⟨tx,.state hs,rfl⟩
  · exact forfeitHexByOwner_texts hf (by simp) text ht

/-- Every record the tower holds is built from signed transactions. -/
def Tower.HoldsBuilt (B : Bitcoinx) (t : Tower) : Prop :=
  ∀ c r, t.registry.get c = some r → r.Built B

theorem Tower.HoldsBuilt.register {t : Tower} (h : t.HoldsBuilt B) (hr : r.Built B) :
    (t.register r).HoldsBuilt B := by
  intro c r' hget
  rw [Registry.get,Tower.register,Registry.register,Dict.get?_set] at hget
  split_ifs at hget
  · cases hget
    exact hr
  · exact h c r' hget

/-- Every tower of the cluster holds built records only, be it attached or not. -/
structure WatchCluster.HoldsBuilt (B : Bitcoinx) (cl : WatchCluster) : Prop where
  observers : ∀ t ∈ cl.node.mempool.observers, t.HoldsBuilt B
  detached : ∀ t, .offline t ∈ cl.watchers → t.HoldsBuilt B

theorem WatchCluster.HoldsBuilt.modifyTower {cl : WatchCluster} (h : cl.HoldsBuilt B) (i : ℕ)
    {f : Tower → Tower} (hf : ∀ t, t.HoldsBuilt B → (f t).HoldsBuilt B) :
    (cl.modifyTower i f).HoldsBuilt B := by
  unfold WatchCluster.modifyTower
  split
  · exact h
  · rename_i k _
    refine ⟨fun t ht => ?_,h.detached⟩
    obtain ⟨j,hj⟩ := List.mem_iff_getElem?.mp ht
    rw [List.getElem?_modify] at hj
    obtain ⟨old,hold,rfl⟩ := Option.map_eq_some_iff.mp hj
    have hbuilt := h.observers old (List.mem_of_getElem? hold)
    by_cases hk : k = j
    · rw [if_pos hk]
      exact hf old hbuilt
    · rw [if_neg hk]
      exact hbuilt
  · rename_i t hget
    refine ⟨h.observers,fun t' ht' => ?_⟩
    rcases List.mem_or_eq_of_mem_set ht' with hmem | heq
    · exact h.detached t' hmem
    · cases heq
      exact hf t (h.detached t (List.mem_of_getElem? hget))

theorem registerFrom_holdsBuilt {cl : WatchCluster} {specs : List WatcherSpec} (i : ℕ)
    (hs : ch.signStateTx B s = .ok (tx,utxos)) (h : cl.HoldsBuilt B) :
    (WatchCluster.registerFrom B ch tx offenders i specs cl).1.HoldsBuilt B := by
  induction specs generalizing i cl with
  | nil => exact h
  | cons spec specs ih =>
    unfold WatchCluster.registerFrom
    split
    · exact h
    · rename_i record hrecord
      exact ih (i+1) (h.modifyTower i fun t ht => ht.register (watchRecord_built hs hrecord).1)

/-- Whichever channels are registered with a cluster, its towers hold built records only. -/
theorem registerChannel_holdsBuilt {cl : WatchCluster} {specs : List WatcherSpec}
    (h : cl.HoldsBuilt B) : (cl.registerChannel B ch specs offenders).1.HoldsBuilt B := by
  unfold WatchCluster.registerChannel
  split
  · exact h
  · split
    · exact h
    · rename_i hs
      exact registerFrom_holdsBuilt 0 hs h

end Registered

section Custody
variable {B : Bitcoinx} {cfg : ChannelConfig} {kb : KeyBook} {outs : List TxOutput} {tx : Tx}
  {idx : ℕ} {utxo : TxOutput} {records : List WatchRecord} {sig : Bytes}

/-- The transactions a built record holds are those that were signed for it. -/
theorem WatchRecord.Built.presigned (hread : ReadsHex B) {r : WatchRecord} (h : r.Built B)
    (hold : r.Holds B tx) : Presigned B tx := by
  obtain ⟨text,hmem,htx⟩ := hold
  obtain ⟨tx',hpre,rfl⟩ := h text hmem
  rw [hread] at htx
  cases htx
  exact hpre

/-- An accepted spend of an output of the channel leaves some party's valid signature on the stack. -/
theorem party_signature (hstd : StandardOpcodes B) (hb : buildChannelOutputs B cfg kb = .ok outs)
    (hu : utxo ∈ outs) (hv : spendVerifies B tx idx utxo = true) :
    ∃ stack, Unlocks B tx idx utxo stack ∧ ∃ sig ∈ stack, ∃ holder,
      B.publicKey holder ∈ kb.publicKeys B ∧
        validSigFor B tx idx utxo utxo.scriptPubkey sig (B.publicKey holder).toBytes = true := by
  have hn := (buildChannelOutputs_ok hb).1
  have htwo := cfg.two_le_n
  have hparty : ∀ i < cfg.n, B.publicKey (kb.keyOf i) ∈ kb.publicKeys B := by
    intro i hi
    rw [publicKeys_eq]
    exact List.mem_map.mpr ⟨i,List.mem_range.mpr (by omega),rfl⟩
  obtain ⟨k,hk⟩ := List.mem_iff_getElem?.mp hu
  cases k with
  | zero =>
    obtain ⟨stack,hunlock,hall⟩ := channel_signatures hstd hb hk hv
    obtain ⟨sig,hsig,hvalid⟩ := hall _ (hparty 0 (by omega))
    exact ⟨stack,hunlock,sig,hsig,kb.keyOf 0,hparty 0 (by omega),hvalid⟩
  | succ i =>
    have hi : i < cfg.n := by
      have hlt := (List.getElem?_eq_some_iff.mp hk).1
      rw [(buildChannelOutputs_ok hb).2,length_channelOutputsOf] at hlt
      omega
    rw [Nat.add_comm] at hk
    obtain ⟨stack,hunlock,hall | ⟨sig,hsig,hvalid⟩⟩ := bond_signatures hstd hb hi hk hv
    · obtain ⟨j,hlt,hne⟩ : ∃ j < cfg.n, j ≠ i := by
        by_cases h : i = 0
        · exact ⟨1,by omega,by omega⟩
        · exact ⟨0,by omega,Ne.symm h⟩
      obtain ⟨sig,hsig,hvalid⟩ := hall j hlt hne
      exact ⟨stack,hunlock,sig,hsig,kb.keyOf j,hparty j hlt,hvalid⟩
    · exact ⟨stack,hunlock,sig,hsig,kb.keyOf i,hparty i hi,hvalid⟩

/-- A contained signature is valid only for the transaction in the records that carries it. -/
theorem Contained.recorded (hsym : SymbolicSignatures B) (hread : ReadsHex B)
    (hbuilt : ∀ r ∈ records, r.Built B) {holder : PrivateKey} {code : Script}
    (h : Contained B records sig.dropLast)
    (hv : validSigFor B tx idx utxo code sig (B.publicKey holder).toBytes = true) :
    ∃ r ∈ records, ∃ recorded, r.Holds B recorded ∧ tx.stripped = recorded.stripped := by
  obtain ⟨r,hr,recorded,hold,tin,ht,sig',hpush,hsig⟩ := h
  obtain ⟨unsigned,j,value,code',priv,rfl,hstripped⟩ :=
    ((hbuilt r hr).presigned hread hold).signedWhole tin ht sig' hpush
  rw [signInput,List.dropLast_concat] at hsig
  unfold validSigFor at hv
  split at hv
  · cases hv
  · rw [← hsig] at hv
    have hdigest := hsym.binds _ _ _ _ hv
    exact ⟨r,hr,recorded,hold,(hsym.commits _ _ _ _ _ _ _ _ _ hdigest).1.trans hstripped⟩

end Custody

/-- Custody-free: with the records of any channels, a transaction that is put together without the
parties' keys and spends a channel or bond output is one of the recorded transactions. -/
theorem tower_custody_free {B : Bitcoinx} (hstd : StandardOpcodes B) (hsym : SymbolicSignatures B)
    (hread : ReadsHex B) {records : List WatchRecord} (hbuilt : ∀ r ∈ records, r.Built B)
    {cfg : ChannelConfig} {kb : KeyBook} {outs : List TxOutput}
    (hb : buildChannelOutputs B cfg kb = .ok outs) {utxo : TxOutput} (hu : utxo ∈ outs) {tx : Tx}
    {idx : ℕ} (hasm : AssembledFrom B records (kb.publicKeys B) tx idx utxo)
    (hv : spendVerifies B tx idx utxo = true) :
    ∃ r ∈ records, ∃ recorded, r.Holds B recorded ∧ tx.stripped = recorded.stripped := by
  obtain ⟨stack,hunlock,sig,hsig,holder,hkey,hvalid⟩ := party_signature hstd hb hu hv
  have hcheck : ∃ digest, B.checkSig sig.dropLast (B.publicKey holder).toBytes digest = true := by
    unfold validSigFor at hvalid
    split at hvalid
    · cases hvalid
    · exact ⟨_,hvalid⟩
  exact (hasm stack hunlock sig hsig ⟨_,hkey,hcheck⟩).recorded hsym hread hbuilt hvalid

namespace Reference

theorem stripped_of_covered {t u : Tx} (hver : t.version = u.version) (hout : t.outpoints = u.outpoints)
    (hseq : t.inputs.map TxInput.sequence = u.inputs.map TxInput.sequence)
    (houts : t.outputs = u.outputs) (hlock : t.locktime = u.locktime) : t.stripped = u.stripped := by
  have hinputs : ∀ t : Tx, t.inputs.map (fun tin => { tin with scriptSig := [] }) =
      List.zipWith (fun o n => (⟨o.1,o.2,[],n⟩ : TxInput)) t.outpoints
        (t.inputs.map TxInput.sequence) := by
    intro t
    simp [Tx.outpoints,TxInput.outpoint,List.zipWith_map]
  rw [Tx.stripped,Tx.stripped,hinputs,hinputs,hver,hout,hseq,houts,hlock]

theorem symbolicSignatures (made : Bytes → Bytes → Bool) : SymbolicSignatures (reference made) where
  binds priv holder d d' h := by
    simp only [reference,base,Bool.and_eq_true,beq_iff_eq] at h
    have hpair := (bytes.pair bytes).write_injective h.2
    exact (Prod.mk.inj hpair).2.symm
  commits t u i j v w c k sighash h := by
    obtain ⟨hpre,hbyte⟩ := preimage.prefix_free h
    simp only [preimageOf,Prod.mk.injEq] at hpre
    obtain ⟨hver,hout,hseq,houts,hlock,hin,hcode,hval⟩ := hpre
    have houtpoint : t.outpoints[i]? = u.outpoints[j]? := by
      simpa using congrArg List.head? hin
    exact ⟨stripped_of_covered hver hout hseq houts hlock,houtpoint,hval,hcode,
      List.singleton_inj.mp hbyte⟩

/-- The signed state 0 of the sample channel. -/
def heldState : Tx :=
  let unsigned := Channel.stateTxOf (reference anyone) (sampleChannel anyone) ⟨[30,0],0⟩
  unsigned.setScriptSig 0 ((sampleChannel anyone).channelUnlock (reference anyone) unsigned)

theorem signStateTx_heldState : (sampleChannel anyone).signStateTx (reference anyone) ⟨[30,0],0⟩ =
    .ok (heldState,[(sampleChannel anyone).channelUtxo (reference anyone)]) :=
  (obtained_sampleChannel anyone).canonical.signStateTx_eq rfl ⟨rfl,rfl⟩ (by decide)

end Reference

open Reference in
theorem tower_custody_free_sample : ∃ r,
    WatchCluster.watchRecord (reference anyone) (sampleChannel anyone) heldState
      ⟨publicKey (sampleKey 9),1⟩ [0,1] = .ok r ∧
    ∃ r' ∈ [r], ∃ recorded, r'.Holds (reference anyone) recorded ∧
      heldState.stripped = recorded.stripped := by
  have hret : (WatchCluster.watchRecord (reference anyone) (sampleChannel anyone) heldState
      ⟨publicKey (sampleKey 9),1⟩ [0,1]).toBool = true := by decide +kernel
  cases hr : WatchCluster.watchRecord (reference anyone) (sampleChannel anyone) heldState
      ⟨publicKey (sampleKey 9),1⟩ [0,1] with
  | error e =>
    rw [hr] at hret
    cases hret
  | ok r =>
    obtain ⟨hbuilt,htext⟩ := watchRecord_built signStateTx_heldState hr
    have hold : r.Holds (reference anyone) heldState :=
      ⟨_,List.mem_cons_self,by rw [htext]; exact txFromHex_hex anyone heldState⟩
    have hasm : AssembledFrom (reference anyone) [r] (sampleKeys.publicKeys (reference anyone))
        heldState 0 ((sampleChannel anyone).channelUtxo (reference anyone)) := by
      rintro stack ⟨tin,hin,hrun⟩ sig hsig ⟨pk,_,digest,hcheck⟩
      obtain ⟨sigs,hscript⟩ : ∃ sigs : List Bytes, tin.scriptSig = .op (.opN 0) :: sigs.map .push := by
        cases hin
        exact ⟨_,rfl⟩
      rw [hscript,runScript_items (unlock_plain _),execItems_unlock] at hrun
      cases hrun
      rcases List.mem_append.mp hsig with hsig | hsig
      · refine ⟨r,by simp,heldState,hold,tin,List.mem_of_getElem? hin,sig,?_,rfl⟩
        rw [hscript]
        exact List.mem_cons_of_mem _ (List.mem_map_of_mem (List.mem_reverse.mp hsig))
      · cases List.mem_singleton.mp hsig
        simp [reference,base,signature,Codec.pair,bytes,Codec.list,Codec.nat] at hcheck
    exact ⟨r,rfl,tower_custody_free (standardOpcodes anyone) (symbolicSignatures anyone)
      (txFromHex_hex anyone) (by simpa using hbuilt)
      (buildChannelOutputs_eq (show sampleKeys.n = sampleConfig.n from rfl))
      List.mem_cons_self hasm (by decide +kernel)⟩

end SubsatChannel
