import SubsatChannel.Channel.Lifecycle

/-! The channels that the code can make, and what all of them have in common: the canonical outputs
of the funding transaction, a bond descriptor for every party and a conserving allocation. -/
namespace SubsatChannel

section Others

theorem mem_others {n i j : ℕ} : j ∈ others n i ↔ j < n ∧ j ≠ i := by simp [others]

theorem others_nodup (n i : ℕ) : (others n i).Nodup := List.nodup_range.filter _

theorem length_others {n i : ℕ} (h : i < n) : (others n i).length = n-1 := by
  have hperm : (i :: others n i).Perm (List.range n) := by
    rw [List.perm_ext_iff_of_nodup _ List.nodup_range]
    · intro j
      rw [List.mem_cons,mem_others,List.mem_range]
      constructor
      · rintro (rfl | hj)
        exacts [h,hj.1]
      · intro hj
        exact (eq_or_ne j i).imp_right fun hne => ⟨hj,hne⟩
    · exact List.nodup_cons.mpr ⟨fun hi => (mem_others.mp hi).2 rfl,others_nodup n i⟩
  have hlen := hperm.length_eq
  rw [List.length_cons,List.length_range] at hlen
  omega

/-- The counterparties of a party are all parties but itself. -/
theorem mem_counterparties {pubs : List PublicKey} {i : ℕ} {pk : PublicKey} :
    pk ∈ counterparties pubs i ↔ ∃ j, j ≠ i ∧ pubs[j]? = some pk := by
  simp only [counterparties,List.mem_filterMap,mem_others]
  constructor
  · rintro ⟨j,⟨_,hj⟩,hpk⟩
    exact ⟨j,hj,hpk⟩
  · rintro ⟨j,hj,hpk⟩
    exact ⟨j,⟨(List.getElem?_eq_some_iff.mp hpk).1,hj⟩,hpk⟩

theorem counterparties_ne_nil {pubs : List PublicKey} (h : 2 ≤ pubs.length) (i : ℕ) :
    counterparties pubs i ≠ [] := by
  obtain ⟨j,hj,hne⟩ : ∃ j, j < pubs.length ∧ j ≠ i := by
    by_cases hi : i = 0
    · exact ⟨1,by omega,by omega⟩
    · exact ⟨0,by omega,Ne.symm hi⟩
  exact List.ne_nil_of_mem
    (mem_counterparties.mpr ⟨j,hne,List.getElem?_eq_getElem hj⟩)

end Others

section Outputs
variable {B : Bitcoinx} {cfg : ChannelConfig} {kb : KeyBook}

/-- The locking script of the channel output. -/
def channelLockOf (B : Bitcoinx) (kb : KeyBook) : Script := pushMultisig [] (kb.publicKeys B)

/-- The locking script of party `i`'s bond; empty when there is no such party. -/
def bondLockOf (B : Bitcoinx) (kb : KeyBook) (i : ℕ) : Script :=
  (bondLock (kb.publicKeys B) i).toOption.getD []

/-- The satoshis of party `i`'s bond; none when there is no such party. -/
def bondOf (cfg : ChannelConfig) (i : ℕ) : ℕ := cfg.bonds.getD i 0

theorem length_publicKeys (B : Bitcoinx) (kb : KeyBook) : (kb.publicKeys B).length = kb.n := by
  simp [KeyBook.publicKeys,KeyBook.n]

theorem bondValue_of_lt {i : ℕ} (h : i < cfg.n) : bondValue cfg i = .ok (bondOf cfg i) := by
  have hi : i < cfg.bonds.length := by rwa [cfg.bonds_length]
  simp [bondValue,bondOf,hi]

theorem bondOf_pos {i : ℕ} (h : i < cfg.n) : 0 < bondOf cfg i := by
  have hi : i < cfg.bonds.length := by rwa [cfg.bonds_length]
  have hb := cfg.bonds_pos _ (List.getElem_mem hi)
  simpa [bondOf,hi] using hb

theorem sum_bondOf : ((List.range cfg.n).map (bondOf cfg)).sum = cfg.bonds.sum :=
  congrArg List.sum (map_getD_range cfg.bonds_length)

theorem bondLock_of_lt (hn : kb.n = cfg.n) {i : ℕ} (h : i < cfg.n) :
    bondLock (kb.publicKeys B) i = .ok (bondLockOf B kb i) := by
  have hlen : (kb.publicKeys B).length = cfg.n := (length_publicKeys B kb).trans hn
  have hi : i < (kb.publicKeys B).length := by rwa [hlen]
  have htwo : 2 ≤ (kb.publicKeys B).length := by
    rw [hlen]
    exact cfg.two_le_n
  have hb : ∃ lock, bondLock (kb.publicKeys B) i = .ok lock := by
    rw [bondLock,List.getElem?_eq_getElem hi]
    exact makeBondScriptFor_of_ne (counterparties_ne_nil htwo i)
  obtain ⟨lock,hb⟩ := hb
  rw [bondLockOf,hb]
  rfl

theorem channelFundingScript_eq (hn : kb.n = cfg.n) :
    channelFundingScript (kb.publicKeys B) = .ok (channelLockOf B kb) := by
  have hlen : (kb.publicKeys B).length = cfg.n := (length_publicKeys B kb).trans hn
  have htwo := cfg.two_le_n
  rw [channelFundingScript,if_neg (by omega)]
  rfl

/-- The canonical outputs: the channel output and the bonds in party order. -/
def channelOutputsOf (B : Bitcoinx) (cfg : ChannelConfig) (kb : KeyBook) : List TxOutput :=
  ⟨cfg.S,channelLockOf B kb⟩ :: (List.range cfg.n).map fun i => ⟨bondOf cfg i,bondLockOf B kb i⟩

theorem buildChannelOutputs_eq (hn : kb.n = cfg.n) :
    buildChannelOutputs B cfg kb = .ok (channelOutputsOf B cfg kb) := by
  have hbonds := mapM_eq_ok (l := List.range cfg.n)
    (f := fun i => do
      let b ← bondValue cfg i
      let lock ← bondLock (kb.publicKeys B) i
      .ok (⟨b,lock⟩ : TxOutput))
    (g := fun i => ⟨bondOf cfg i,bondLockOf B kb i⟩) (by
      intro i hi
      have hlt := List.mem_range.mp hi
      rw [bondValue_of_lt hlt,bondLock_of_lt hn hlt]
      rfl)
  rw [buildChannelOutputs,if_neg (not_not.mpr hn)]
  simp only [channelFundingScript_eq hn]
  exact (congrArg (fun r => r.bind fun bonds => .ok (⟨cfg.S,channelLockOf B kb⟩ :: bonds)) hbonds)

theorem buildChannelOutputs_ok {outs : List TxOutput} (h : buildChannelOutputs B cfg kb = .ok outs) :
    kb.n = cfg.n ∧ outs = channelOutputsOf B cfg kb := by
  by_cases hn : kb.n = cfg.n
  · rw [buildChannelOutputs_eq hn] at h
    exact ⟨hn,(Except.ok.inj h).symm⟩
  · rw [buildChannelOutputs,if_pos hn] at h
    cases h

theorem length_channelOutputsOf : (channelOutputsOf B cfg kb).length = 1 + cfg.n := by
  simp [channelOutputsOf,Nat.add_comm]

theorem channelOutputsOf_bond {i : ℕ} (h : i < cfg.n) :
    (channelOutputsOf B cfg kb)[1+i]? = some ⟨bondOf cfg i,bondLockOf B kb i⟩ := by
  rw [Nat.add_comm,channelOutputsOf,List.getElem?_cons_succ]
  simp [h]

end Outputs

namespace Channel
variable {B : Bitcoinx} {cfg : ChannelConfig} {kb : KeyBook} {ch ch' : Channel}

/-- The descriptor of party `i`'s bond. -/
def bondOutputOf (B : Bitcoinx) (cfg : ChannelConfig) (kb : KeyBook) (fundingTx : Tx) (i : ℕ) :
    BondOutput :=
  ⟨i,bondOf cfg i,B.txHash fundingTx,1+i,bondLockOf B kb i⟩

theorem conserving_initial (cfg : ChannelConfig) :
    State.Conserving ⟨(List.replicate cfg.n 0).set 0 (cfg.k * cfg.S),0⟩ cfg where
  total := by
    obtain ⟨n,hn⟩ : ∃ n, cfg.n = n+1 := ⟨cfg.n-1,by have := cfg.two_le_n; omega⟩
    rw [hn,List.replicate_succ,List.set_cons_zero]
    simp
  length := by simp

theorem initialState_zero (cfg : ChannelConfig) : initialState cfg 0 =
    .ok ⟨(List.replicate cfg.n 0).set 0 (cfg.k * cfg.S),0⟩ := by
  have htwo := cfg.two_le_n
  have hc := (conserving_initial cfg).check
  rw [initialState,if_neg (by omega)]
  simp only [Int.toNat_zero,hc]
  rfl

/-- What wrapping a funding transaction gives. -/
theorem wrapFunding_eq (hn : kb.n = cfg.n) (tx : Tx) (utxos : List TxOutput) :
    wrapFunding B cfg kb tx utxos = .ok ⟨cfg,kb,tx,utxos,false,
      ⟨(List.replicate cfg.n 0).set 0 (cfg.k * cfg.S),0⟩,
      (List.range cfg.n).map (bondOutputOf B cfg kb tx)⟩ := by
  have hbonds := mapM_eq_ok (l := List.range cfg.n)
    (f := fun i => do
      let lock ← bondLock (kb.publicKeys B) i
      let b ← bondValue cfg i
      .ok (⟨i,b,B.txHash tx,1+i,lock⟩ : BondOutput))
    (g := bondOutputOf B cfg kb tx) (by
      intro i hi
      have hlt := List.mem_range.mp hi
      rw [bondValue_of_lt hlt,bondLock_of_lt hn hlt]
      rfl)
  rw [wrapFunding,if_neg (not_not.mpr hn)]
  simp only [initialState_zero]
  exact congrArg (fun r : Except Fault (List BondOutput) => r.bind fun bonds =>
    .ok (⟨cfg,kb,tx,utxos,false,⟨(List.replicate cfg.n 0).set 0 (cfg.k * cfg.S),0⟩,bonds⟩ :
      Channel)) hbonds

theorem wrapFunding_ok {tx : Tx} {utxos : List TxOutput}
    (h : wrapFunding B cfg kb tx utxos = .ok ch) : kb.n = cfg.n ∧
      ch = ⟨cfg,kb,tx,utxos,false,⟨(List.replicate cfg.n 0).set 0 (cfg.k * cfg.S),0⟩,
        (List.range cfg.n).map (bondOutputOf B cfg kb tx)⟩ := by
  by_cases hn : kb.n = cfg.n
  · rw [wrapFunding_eq hn] at h
    exact ⟨hn,(Except.ok.inj h).symm⟩
  · rw [wrapFunding,if_pos hn] at h
    cases h

/-- The canonical form of a channel. -/
structure Canonical (B : Bitcoinx) (ch : Channel) : Prop where
  keys : ch.keybook.n = ch.cfg.n
  outputs : ch.fundingTx.outputs.take (1 + ch.cfg.n) = channelOutputsOf B ch.cfg ch.keybook
  bonds : ch.bonds = (List.range ch.cfg.n).map (bondOutputOf B ch.cfg ch.keybook ch.fundingTx)
  conserving : ch.state.Conserving ch.cfg

/-- The channels the code can make: opened or wrapped, then confirmed, driven by transfers and
refreshed. -/
inductive Obtained (B : Bitcoinx) : Channel → Prop
  | opened {cfg : ChannelConfig} {kb : KeyBook} {outpoint : Outpoint} {value : Option ℤ}
      {ch : Channel} (h : openChannel B cfg kb outpoint value = .ok ch) : Obtained B ch
  | funded {cfg : ChannelConfig} {kb : KeyBook} {tx : Tx} {utxos : List TxOutput} {ch : Channel}
      (h : fromFundingTx B cfg kb tx utxos = .ok ch) : Obtained B ch
  | confirmed {ch : Channel} (h : Obtained B ch) : Obtained B ch.markConfirmed
  | transferred {ch ch' : Channel} {sender recipient delta : ℤ} (h : Obtained B ch)
      (ht : ch.applyTransfer sender recipient delta = .ok ch') : Obtained B ch'
  | sequenced {ch ch' : Channel} {ops : List (ℤ × ℤ × ℤ)} (h : Obtained B ch)
      (ht : ch.applySequence ops = .ok ch') : Obtained B ch'
  | refreshed {ch ch' : Channel} {newL : ℤ} (h : Obtained B ch)
      (hr : refreshChannel B ch newL = .ok ch') : Obtained B ch'

theorem openChannel_eq (outpoint : Outpoint) (value : Option ℤ) :
    openChannel B cfg kb outpoint value = (buildChannelOutputs B cfg kb).bind fun outputs =>
      wrapFunding B cfg kb ⟨1,[⟨outpoint.1,outpoint.2,[],finalSequence⟩],outputs,0⟩
        [⟨value.getD cfg.locked,[.op .opTrue]⟩] := by
  rw [openChannel,ensureWholeSatoshi_natCast]
  rfl

theorem openChannel_ok {outpoint : Outpoint} {value : Option ℤ}
    (h : openChannel B cfg kb outpoint value = .ok ch) :
    ch.Canonical B ∧ ch.cfg = cfg ∧ ch.keybook = kb := by
  rw [openChannel_eq] at h
  obtain ⟨outputs,ho,h⟩ := bind_eq_ok.mp h
  obtain ⟨hn,rfl⟩ := buildChannelOutputs_ok ho
  obtain ⟨_,rfl⟩ := wrapFunding_ok h
  refine ⟨⟨hn,?_,rfl,conserving_initial cfg⟩,rfl,rfl⟩
  exact List.take_of_length_le length_channelOutputsOf.le

theorem outputMismatch_none {actual want : List TxOutput} {i : ℕ}
    (h : outputMismatch actual want i = none) :
    ∃ out, actual[i]? = some out ∧ want[i]? = some out := by
  unfold outputMismatch at h
  cases ha : actual[i]? with
  | none => simp [ha] at h
  | some a =>
    cases hw : want[i]? with
    | none => simp [ha,hw] at h
    | some w =>
      simp only [ha,hw] at h
      split_ifs at h with hv hs
      obtain ⟨av,as⟩ := a
      obtain ⟨wv,ws⟩ := w
      simp only [not_not] at hv hs
      subst hv hs
      exact ⟨_,rfl,rfl⟩

/-- A transaction that carries the channel's outputs in front passes the checks. -/
theorem fromFundingTx_eq (hn : kb.n = cfg.n) {tx : Tx}
    (ho : tx.outputs.take (1 + cfg.n) = channelOutputsOf B cfg kb) (utxos : List TxOutput) :
    fromFundingTx B cfg kb tx utxos = wrapFunding B cfg kb tx utxos := by
  have hlen : ¬ tx.outputs.length < 1 + cfg.n := by
    have hl := congrArg List.length ho
    rw [List.length_take,length_channelOutputsOf] at hl
    omega
  have hmatch : (List.range (1 + cfg.n)).findSome?
      (outputMismatch tx.outputs (channelOutputsOf B cfg kb)) = none := by
    refine List.findSome?_eq_none_iff.mpr fun i hi => ?_
    have hlt := List.mem_range.mp hi
    have hsame : tx.outputs[i]? = (channelOutputsOf B cfg kb)[i]? := by
      rw [← ho,List.getElem?_take_of_lt hlt]
    have hin : i < tx.outputs.length := by omega
    rw [List.getElem?_eq_getElem hin] at hsame
    simp [outputMismatch,List.getElem?_eq_getElem hin,← hsame]
  rw [fromFundingTx,buildChannelOutputs_eq hn]
  simp only [bind,Except.bind,if_neg hlen,hmatch]

theorem fromFundingTx_ok {tx : Tx} {utxos : List TxOutput}
    (h : fromFundingTx B cfg kb tx utxos = .ok ch) :
    ch.Canonical B ∧ ch.cfg = cfg ∧ ch.keybook = kb ∧ ch.fundingTx = tx := by
  obtain ⟨expected,he,h⟩ := bind_eq_ok.mp h
  obtain ⟨hn,rfl⟩ := buildChannelOutputs_ok he
  split_ifs at h with hlen
  cases hf : (List.range (1 + cfg.n)).findSome?
      (outputMismatch tx.outputs (channelOutputsOf B cfg kb)) with
  | some e => simp [hf] at h
  | none =>
    simp only [hf] at h
    obtain ⟨_,rfl⟩ := wrapFunding_ok h
    refine ⟨⟨hn,List.ext_getElem? fun i => ?_,rfl,conserving_initial cfg⟩,rfl,rfl,rfl⟩
    rw [List.getElem?_take]
    split_ifs with hi
    · obtain ⟨out,ha,hw⟩ := outputMismatch_none
        (List.findSome?_eq_none_iff.mp hf i (List.mem_range.mpr hi))
      exact ha.trans hw.symm
    · exact (List.getElem?_eq_none (by rw [length_channelOutputsOf]; omega)).symm

end Channel

section Transfers
variable {s s' : State} {cfg : ChannelConfig}

/-- An accepted transfer keeps the allocation conserving and moves to the next version. -/
theorem transfer_ok {sender recipient delta : ℤ} (h : transfer s sender recipient delta cfg = .ok s') :
    s'.Conserving cfg ∧ s'.version = s.version + 1 := by
  unfold transfer at h
  split_ifs at h
  split at h
  · split_ifs at h
    obtain ⟨_,hc,h⟩ := bind_eq_ok.mp h
    cases h
    exact ⟨State.conservationCheck_ok_iff.mp hc,rfl⟩
  · split_ifs at h
  · cases h

theorem applyTransfers_ok {ops : List (ℤ × ℤ × ℤ)} (hs : s.Conserving cfg)
    (h : applyTransfers cfg s ops = .ok s') :
    s'.Conserving cfg ∧ s'.version = s.version + ops.length := by
  induction ops generalizing s with
  | nil =>
    cases h
    exact ⟨hs,rfl⟩
  | cons op ops ih =>
    obtain ⟨sender,recipient,delta⟩ := op
    obtain ⟨next,ht,h⟩ := bind_eq_ok.mp h
    obtain ⟨_,_,h⟩ := bind_eq_ok.mp h
    obtain ⟨hc,hv⟩ := transfer_ok ht
    obtain ⟨hc',hv'⟩ := ih hc h
    exact ⟨hc',by rw [hv',hv,List.length_cons]; omega⟩

end Transfers

namespace Channel
variable {B : Bitcoinx} {ch ch' : Channel}

theorem Canonical.withState (h : ch.Canonical B) {s : State} (hs : s.Conserving ch.cfg) :
    ({ ch with state := s }).Canonical B := ⟨h.keys,h.outputs,h.bonds,hs⟩

theorem refreshChannel_ok {newL : ℤ} (h : ch.Canonical B) (hr : refreshChannel B ch newL = .ok ch') :
    ch'.Canonical B := by
  unfold refreshChannel at hr
  split_ifs at hr
  obtain ⟨newCfg,hcfg,hr⟩ := bind_eq_ok.mp hr
  obtain ⟨successor,ho,hr⟩ := bind_eq_ok.mp hr
  cases hr
  obtain ⟨hcanon,rfl,_⟩ := openChannel_ok ho
  obtain ⟨hn,hk,hS,_⟩ := ChannelConfig.make_ok hcfg
  simp only [Int.toNat_natCast] at hn hk hS
  have hs : State.Conserving ⟨ch.state.balances,0⟩ successor.cfg :=
    ⟨by rw [hk,hS]; exact h.conserving.total,by rw [hn]; exact h.conserving.length⟩
  exact ⟨hcanon.keys,hcanon.outputs,hcanon.bonds,hs⟩

/-- Every channel the code can make has the canonical form. -/
theorem Obtained.canonical (h : ch.Obtained B) : ch.Canonical B := by
  induction h with
  | opened h => exact (openChannel_ok h).1
  | funded h => exact (fromFundingTx_ok h).1
  | confirmed _ ih => exact ⟨ih.keys,ih.outputs,ih.bonds,ih.conserving⟩
  | transferred _ ht ih =>
    obtain ⟨s,hs,rfl⟩ := map_eq_ok.mp ht
    exact ih.withState (transfer_ok hs).1
  | sequenced _ ht ih =>
    obtain ⟨s,hs,rfl⟩ := map_eq_ok.mp ht
    obtain ⟨_,_,hops⟩ := bind_eq_ok.mp hs
    exact ih.withState (applyTransfers_ok ih.conserving hops).1
  | refreshed _ hr ih => exact refreshChannel_ok ih hr

end Channel
end SubsatChannel
