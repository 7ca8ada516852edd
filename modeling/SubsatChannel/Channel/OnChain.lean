import SubsatChannel.Channel.Verifies
import SubsatChannel.Node.Landing

/-! A channel whose funding transaction is mined: its signed settlements pass the node's validation,
and a cooperative close pays every party on the chain. -/
namespace SubsatChannel
open Transition

namespace Channel
variable {B : Bitcoinx} {ch : Channel} {tx : Tx} {utxos : List TxOutput} {U : UtxoSet}

/-- The outputs of the funding transaction that a transaction spends are unspent. -/
def Spends (U : UtxoSet) (ch : Channel) (tx : Tx) : Prop :=
  ∀ o ∈ tx.outpoints, (U.lookup o).map UtxoEntry.asTxOutput = ch.fundingTx.outputs[o.2]?

theorem spendVerifies_iff {idx : ℕ} {utxo : TxOutput} :
    spendVerifies B tx idx utxo = true ↔ B.verifyInput tx idx utxo = .ok true := by
  rw [← verifySpend_ok_iff,spendVerifies]
  cases verifySpend B tx idx utxo with
  | error e => simp [Except.toBool]
  | ok u => simp [Except.toBool]

/-- A settlement whose inputs are accepted against the funding transaction is accepted by the node as
long as what it spends is unspent. It pays no fee. -/
theorem Verified.valid (hver : ch.Verified B tx utxos) (hpays : ch.PaysOut B tx) (hcanon : ch.Canonical B)
    (hnull : NullCoinbase B) (hcount : ch.fundingTx.outputs.length ≤ 0xFFFFFFFF)
    (hpos : ∀ out ∈ tx.outputs, 0 ≤ out.value) (hne : tx.inputs ≠ []) (hun : Spends U ch tx) :
    (validateTx B tx U).ok = true ∧ (validateTx B tx U).fee = 0 := by
  have hlen : 1 + ch.cfg.n ≤ ch.fundingTx.outputs.length := by
    have hl := congrArg List.length hcanon.outputs
    rw [List.length_take,length_channelOutputsOf] at hl
    omega
  have hentry : ∀ (i : ℕ) (tin : TxInput), tx.inputs[i]? = some tin → ∃ e,
      U.lookup tin.outpoint = some e ∧ B.verifyInput tx i e.asTxOutput = .ok true := by
    intro i tin hi
    obtain ⟨_,utxo,hout,_,haccept⟩ := hver.spends i tin hi
    have hl := (hun tin.outpoint (List.mem_map_of_mem (List.mem_of_getElem? hi))).trans hout
    obtain ⟨e,he,rfl⟩ := Option.map_eq_some_iff.mp hl
    exact ⟨e,he,spendVerifies_iff.mp haccept⟩
  have hsum : tx.totalOutputValue = (tx.outpoints.map U.valueAt).sum := by
    rw [hpays.total]
    refine congrArg List.sum (List.map_congr_left fun o ho => ?_)
    have hlt := (hpays.spends o ho).2
    have hl := (hun o ho).trans (hcanon.output hlt)
    rw [List.getElem?_eq_getElem (by rwa [length_channelOutputsOf])] at hl
    obtain ⟨e,he,hout⟩ := Option.map_eq_some_iff.mp hl
    rw [UtxoSet.valueAt,Finmap.weightAt_of_lookup _ _ he,
      List.getD_eq_getElem _ _ (by rwa [length_channelOutputsOf]),← hout]
    rfl
  have hok : (validateTx B tx U).ok = true := by
    refine validateTx_of_verifyInput hne hnull (fun o ho => ?_) hpos hentry hsum.le
    have hlt := (hpays.spends o ho).2
    omega
  exact ⟨hok,by rw [validateTx_fee hok,hsum,sub_self]⟩

/-- Once the funding transaction is mined, what no mined transaction has spent of it is unspent. -/
theorem Canonical.spends (hcanon : ch.Canonical B) (hpays : ch.PaysOut B tx) {T : Set Tx} {L : List Tx}
    (hr : Reflects B T L U) (hT : ch.fundingTx ∈ T) (hL : ch.fundingTx ∈ L)
    (hfree : ∀ o ∈ tx.outpoints, o ∉ UtxoSet.spentOf B L) : Spends U ch tx := by
  rintro ⟨txid,i⟩ ho
  obtain ⟨rfl,_⟩ := hpays.spends _ ho
  exact hr.paid hT hcanon.rich hL (hfree _ ho)

/-- The transactions that settle a channel for good: its closes and the forfeitures of its bonds. -/
inductive SettlesFinally (B : Bitcoinx) (ch : Channel) (tx : Tx) : Prop
  | close {o : Option State} {utxos : List TxOutput}
      (h : ch.cooperativeClose B o = .ok (tx,utxos)) : SettlesFinally B ch tx
  | forfeit {offender fee : ℤ} {tower : Option PublicKey} {utxos : List TxOutput}
      (h : ch.forfeitBondTx B offender tower fee = .ok (tx,utxos)) : SettlesFinally B ch tx

theorem confirmed_of_require {u : Unit} (h : ch.requireConfirmed = .ok u) : ch.fundingConfirmed = true := by
  by_contra hn
  simp [requireConfirmed,hn] at h

/-- The close of a state: it pays every party its share and its bond. -/
theorem Canonical.cooperativeClose_spec (h : ch.Canonical B) {o : Option State}
    (hclose : ch.cooperativeClose B o = .ok (tx,utxos)) : ch.fundingConfirmed = true ∧
      (o.getD ch.state).Conserving ch.cfg ∧ tx.stripped = (closeTxOf B ch (o.getD ch.state)).stripped := by
  obtain ⟨_,hconf,hrest⟩ := bind_eq_ok.mp hclose
  obtain ⟨⟨unsigned,us⟩,hb,hrest⟩ := bind_eq_ok.mp hrest
  obtain ⟨first,hf,hrest⟩ := bind_eq_ok.mp hrest
  obtain ⟨signed,hs,hrest⟩ := bind_eq_ok.mp hrest
  obtain ⟨_,_,hrest⟩ := bind_eq_ok.mp hrest
  cases hrest
  obtain ⟨hcons,rfl⟩ := h.buildCloseTx_ok hb
  obtain ⟨scriptSig,rfl⟩ := signChannelInput_ok hf
  exact ⟨confirmed_of_require hconf,hcons,(signBondInputs_ok hs).trans (Tx.stripped_setScriptSig _ _ _)⟩

/-- A close that is returned has passed the check at its end. -/
theorem Canonical.cooperativeClose_checked (h : ch.Canonical B) {o : Option State}
    (hclose : ch.cooperativeClose B o = .ok (tx,utxos)) :
    utxos = channelOutputsOf B ch.cfg ch.keybook ∧ verifyAllInputs B tx utxos = .ok () := by
  obtain ⟨_,hcons,_⟩ := h.cooperativeClose_spec hclose
  obtain ⟨_,_,hrest⟩ := bind_eq_ok.mp hclose
  obtain ⟨⟨unsigned,us⟩,hb,hrest⟩ := bind_eq_ok.mp hrest
  obtain ⟨_,_,hrest⟩ := bind_eq_ok.mp hrest
  obtain ⟨_,_,hrest⟩ := bind_eq_ok.mp hrest
  obtain ⟨_,hverify,hrest⟩ := bind_eq_ok.mp hrest
  cases hrest
  rw [h.buildCloseTx_eq hcons] at hb
  cases hb
  exact ⟨rfl,hverify⟩

theorem Canonical.verified_close (h : ch.Canonical B) {o : Option State}
    (hclose : ch.cooperativeClose B o = .ok (tx,utxos)) : ch.Verified B tx utxos := by
  obtain ⟨_,_,hstripped⟩ := h.cooperativeClose_spec hclose
  obtain ⟨rfl,hverify⟩ := h.cooperativeClose_checked hclose
  refine ⟨fun i tin hi => ?_,hverify⟩
  have houtpoint : tx.outpoints[i]? = some tin.outpoint := by
    rw [Tx.outpoints,List.getElem?_map,hi]
    rfl
  rw [Tx.outpoints_congr hstripped,outpoints_closeTxOf,List.getElem?_map] at houtpoint
  obtain ⟨j,hj,heq⟩ := Option.map_eq_some_iff.mp houtpoint
  obtain ⟨hlt,hget⟩ := List.getElem?_eq_some_iff.mp hj
  rw [List.length_range] at hlt
  rw [List.getElem_range] at hget
  subst hget
  obtain ⟨hhash,hidx⟩ := Prod.mk.inj heq
  have hmem : i < (channelOutputsOf B ch.cfg ch.keybook).length := by rwa [length_channelOutputsOf]
  have hutxo := List.getElem?_eq_getElem hmem
  rw [← hidx]
  exact ⟨hhash.symm,_,(h.output hlt).trans hutxo,hutxo,spendVerifies_of_verifyAllInputs hverify hutxo⟩

theorem SettlesFinally.spec (h : ch.Canonical B) (hs : ch.SettlesFinally B tx) :
    (∃ utxos, ch.Verified B tx utxos) ∧ ch.PaysOut B tx ∧ tx.AllFinal ∧
      (∀ out ∈ tx.outputs, 0 < out.value) ∧ tx.outputs ≠ [] ∧ tx.inputs ≠ [] := by
  cases hs with
  | @close o utxos hclose =>
    obtain ⟨_,hcons,hstripped⟩ := h.cooperativeClose_spec hclose
    have hne : tx.inputs ≠ [] := fun hnil => by
      have hmem := h.channel_mem_close hclose
      rw [Tx.outpoints,hnil] at hmem
      cases hmem
    refine ⟨⟨_,h.verified_close hclose⟩,(paysOut_closeTxOf hcons).congr hstripped,h.allFinal_close hclose,?_⟩
    rw [Tx.outputs_congr hstripped]
    refine ⟨fun out ho => ?_,?_,hne⟩
    · obtain ⟨i,hi,rfl⟩ := List.mem_map.mp ho
      have hb := bondOf_pos (List.mem_range.mp hi)
      dsimp only
      omega
    · have htwo := ch.cfg.two_le_n
      simp only [closeTxOf,ne_eq,List.map_eq_nil_iff,List.range_eq_nil]
      omega
  | @forfeit _ fee tower _ hf =>
    obtain ⟨i,hi,hfee,hmax,hverify,rfl,rfl⟩ := h.forfeitBondTx_checked hf
    refine ⟨⟨_,verified_single rfl rfl rfl (h.output_bond hi) hverify⟩,
      (paysOut_forfeitTxOf hi hfee hmax).congr (Tx.stripped_setScriptSig _ _ _),
      h.allFinal_forfeit hf,forfeitTxOf_pos,fun hnil => ?_,List.cons_ne_nil _ _⟩
    -- the outputs add up to the bond
    have hsum := @sum_forfeitTxOf B ch i tower fee hi hfee hmax
    have hnil' : (forfeitTxOf B ch i tower fee).outputs = [] := hnil
    have hb := bondOf_pos hi
    rw [Tx.totalOutputValue,hnil'] at hsum
    simp only [List.map_nil,List.sum_nil] at hsum
    omega

theorem bondOf_le_locked (cfg : ChannelConfig) (i : ℕ) : bondOf cfg i ≤ cfg.locked := by
  rw [bondOf,ChannelConfig.locked]
  cases hi : cfg.bonds[i]? with
  | none => simp [List.getD_eq_getElem?_getD,hi]
  | some b =>
    have hle := List.single_le_sum (fun x _ => Nat.zero_le x) b (List.mem_of_getElem? hi)
    simp only [List.getD_eq_getElem?_getD,hi,Option.getD_some]
    omega

/-- The values of the channel's outputs fit when all that is locked does. -/
theorem fits_channelOutputsOf {cfg : ChannelConfig} {kb : KeyBook} (hlocked : cfg.locked < 2^63) :
    ∀ out ∈ channelOutputsOf B cfg kb, fitsInt64 out.value = true := by
  have hfit : ∀ v : ℕ, v ≤ cfg.locked → fitsInt64 (v : ℤ) = true := fun v hv =>
    (fitsInt64_iff_of_nonneg (Int.natCast_nonneg v)).mpr (by omega)
  intro out ho
  rcases List.mem_cons.mp ho with rfl | ho
  · exact hfit _ (Nat.le_add_right _ _)
  · obtain ⟨i,_,rfl⟩ := List.mem_map.mp ho
    exact hfit _ (bondOf_le_locked cfg i)

/-- A settlement can be serialised when the indices of its inputs and all that is locked fit. -/
theorem SettlesFinally.packs (hP : PacksFields B) (h : ch.Canonical B) (hs : ch.SettlesFinally B tx)
    (hn : ch.cfg.n < 2^32) (hlocked : ch.cfg.locked < 2^63) : B.packs tx = true := by
  obtain ⟨_,hpays,hfinal,hpos,_,_⟩ := hs.spec h
  obtain ⟨hversion,hlocktime,htotal⟩ : tx.version = 1 ∧ tx.locktime = 0 ∧
      tx.totalOutputValue ≤ (ch.cfg.locked : ℕ) := by
    cases hs with
    | close hclose =>
      obtain ⟨_,hcons,hstripped⟩ := h.cooperativeClose_spec hclose
      refine ⟨congrArg Tx.version hstripped,congrArg Tx.locktime hstripped,?_⟩
      have hsum := @sum_closeTxOf B _ _ hcons
      rw [Tx.totalOutputValue] at hsum ⊢
      rw [Tx.outputs_congr hstripped,hsum,ChannelConfig.locked,Nat.cast_add]
    | @forfeit _ fee tower _ hf =>
      obtain ⟨i,hi,hfee,hmax,rfl⟩ := h.forfeitBondTx_ok hf
      have hsum := @sum_forfeitTxOf B ch i tower fee hi hfee hmax
      refine ⟨rfl,rfl,?_⟩
      exact hsum.trans_le (Int.ofNat_le.mpr (bondOf_le_locked ch.cfg i))
  refine (hP tx hversion).mpr ⟨fun tin ht => ⟨?_,?_⟩,fun out ho => ?_,by omega⟩
  · have hlt := (hpays.spends _ (List.mem_map_of_mem ht)).2
    change tin.prevIdx < 1 + ch.cfg.n at hlt
    omega
  · rw [hfinal tin ht]
    exact finalSequence_lt
  · have hle : out.value ≤ tx.totalOutputValue := List.single_le_sum (fun x hx => by
      obtain ⟨p,hp,rfl⟩ := List.mem_map.mp hx
      exact (hpos p hp).le) _ (List.mem_map_of_mem ho)
    exact (fitsInt64_iff_of_nonneg (hpos out ho).le).mpr (by omega)

end Channel

section Run
variable {B : Bitcoinx} {T : Set Tx} {R : Set Bytes} {reward : ℤ} {towers : List Tower} {depth : ℕ}

/-- The settlements of a channel on the chain. Once the funding transaction is mined, a cooperative
close or a forfeiture of which no mined transaction has spent an input, and against which at most one
waiting transaction with lower sequence numbers stands, is accepted without a fee; the next block with
the mempool in it mines it; and from then on the outputs it spent are gone. Every output of it is
there until a mined transaction spends it: after a close, output `i` holds the share and the bond
of party `i` under the key of that party. -/
theorem channel_settles (hnull : NullCoinbase B) (hinj : Set.InjOn B.txHash T)
    (hhash : Set.InjOn (headerHash B) R)
    (hcb : ∀ value script height extra, B.isCoinbase (makeCoinbase value script height extra) = true)
    (hR : (EmbeddedNode.init B reward towers).genesis ∈ R) (hseq : ∀ s ∈ T, s.Sequenced)
    {ch : Channel} (hch : ch.Obtained B) (hcount : ch.fundingTx.outputs.length ≤ 0xFFFFFFFF)
    {before middle after : List RaceCall} {script : Script} {extra : Bytes} {timestamp : ℕ} {tx : Tx}
    (hc : Along (EmbeddedNode.raceCall B (depth+1)) (RaceAllowed B T R)
      (EmbeddedNode.init B reward towers) (before ++ .node (.submitTx tx) ::
        (middle ++ .node (.generateBlock script true extra timestamp) :: after)))
    {n₁ n₂ : EmbeddedNode} {L₁ L₂ : List Tx}
    (hn₁ : run (EmbeddedNode.raceCall B (depth+1)) (EmbeddedNode.init B reward towers) before = n₁)
    (hL₁ : minedIn (trace (EmbeddedNode.raceCall B (depth+1)) (EmbeddedNode.init B reward towers)
      before) = L₁)
    (hn₂ : run (EmbeddedNode.raceCall B (depth+1)) (EmbeddedNode.init B reward towers)
      (before ++ .node (.submitTx tx) ::
        (middle ++ .node (.generateBlock script true extra timestamp) :: after)) = n₂)
    (hL₂ : minedIn (trace (EmbeddedNode.raceCall B (depth+1)) (EmbeddedNode.init B reward towers)
      (before ++ .node (.submitTx tx) ::
        (middle ++ .node (.generateBlock script true extra timestamp) :: after))) = L₂)
    (hfund : ch.fundingTx ∈ L₁) (hsettles : ch.SettlesFinally B tx)
    (hfree : ∀ o ∈ tx.outpoints, o ∉ UtxoSet.spentOf B L₁) (hopp : Unopposed n₁ tx)
    (hmined : ((run (EmbeddedNode.raceCall B (depth+1)) (EmbeddedNode.init B reward towers)
      (before ++ .node (.submitTx tx) :: middle)).raceCall B (depth+1)
        (.node (.generateBlock script true extra timestamp))).2.hasBlock = true) :
    (n₁.raceCall B (depth+1) (.node (.submitTx tx))).2.taken = true ∧
    (validateTx B tx n₁.utxos).fee = 0 ∧ tx ∈ L₂ ∧
    (∀ o ∈ tx.outpoints, n₂.utxos.lookup o = none) ∧
    (∀ i, (B.txHash tx,i) ∉ UtxoSet.spentOf B L₂ →
      (n₂.utxos.lookup (B.txHash tx,i)).map UtxoEntry.asTxOutput = tx.outputs[i]?) ∧
    ∀ o utxos, ch.cooperativeClose B o = .ok (tx,utxos) →
      ∃ q, quantise (o.getD ch.state) ch.cfg = .ok q ∧ ∀ i < ch.cfg.n, tx.outputs[i]? =
        some ⟨q.getD i 0 + bondOf ch.cfg i,partyScript B ch.keybook i⟩ := by
  have hcanon := hch.canonical
  obtain ⟨⟨utxos,hver⟩,hpays,hfinal,hpos,hne,hins⟩ := hsettles.spec hcanon
  have hbefore := ((along_append _ _ _ _ _).mp hc).1
  have hsub := ((along_append _ _ _ _ _).mp hc).2.1
  obtain ⟨hM₁,hr₁⟩ := reflects_run hinj hhash hcb hR hbefore
  rw [hn₁,hL₁] at hM₁ hr₁
  have hun := hcanon.spends hpays hr₁ (hM₁.known hfund) hfund hfree
  obtain ⟨hok,hfee⟩ := hver.valid hpays hcanon hnull hcount (fun out ho => (hpos out ho).le) hins hun
  obtain ⟨htaken,hin⟩ := lands hinj hhash hcb hR hseq hc hfinal (by rwa [hn₁]) (by rwa [hn₁]) hmined
  have hr₂ := (reflects_run hinj hhash hcb hR hc).2
  rw [hn₁] at htaken
  rw [hn₂,hL₂] at hr₂
  rw [hL₂] at hin
  have hT : tx ∈ T := hsub tx (.inl rfl)
  have hnot : B.isCoinbase tx = false := (validateTx_ok_iff.mp hok).1
  obtain ⟨out,hout⟩ := List.exists_mem_of_ne_nil _ hne
  refine ⟨htaken,hfee,hin,?_,fun i hi => hr₂.paid hT ⟨out,hout,(hpos out hout).ne'⟩ hin hi,?_⟩
  · rintro ⟨txid,i⟩ ho
    obtain ⟨rfl,_⟩ := hpays.spends _ ho
    exact hr₂.spent_gone (hM₁.known hfund) hcanon.rich hin hnot ho
  · intro o utxos hclose
    obtain ⟨_,hcons,hstripped⟩ := hcanon.cooperativeClose_spec hclose
    refine ⟨payouts (o.getD ch.state) ch.cfg,quantise_eq hcons,fun i hi => ?_⟩
    rw [Tx.outputs_congr hstripped]
    simp [Channel.closeTxOf,hi]

end Run

namespace Reference

/-- The close of the sample channel in its first state. -/
def sampleClose : Tx :=
  (((sampleChannel anyone).cooperativeClose (reference anyone) none).toOption.map Prod.fst).getD firstCoinbase

def closeCalls : List RaceCall :=
  raceStart.take 3 ++ .node (.submitTx sampleClose) :: ([] ++ .node (.generateBlock trueScript true [] 3) :: [])

def closeTxs : List Tx :=
  [firstCoinbase,(sampleChannel anyone).fundingTx,makeCoinbase 9991 trueScript 2 [],sampleClose,
    makeCoinbase 5000 trueScript 3 []]

abbrev closeHeaders : List Bytes := activeHeaders anyone (raceRun closeCalls)

/-- One evaluation of the run gives all that is needed of it. -/
theorem closeCalls_facts : SampleRun closeTxs closeHeaders closeCalls ∧
    (raceRun (raceStart.take 3)).mempool.allTxs = [] ∧
    ((raceRun (raceStart.take 3 ++ .node (.submitTx sampleClose) :: [])).raceCall (reference anyone) 1
      (.node (.generateBlock trueScript true [] 3))).2.hasBlock = true ∧
    (sampleChannel anyone).fundingTx ∈ minedIn (trace (EmbeddedNode.raceCall (reference anyone) 1)
      (sampleNode anyone []) (raceStart.take 3)) ∧
    (∀ o ∈ sampleClose.outpoints, o ∉ UtxoSet.spentOf (reference anyone) (minedIn (trace
      (EmbeddedNode.raceCall (reference anyone) 1) (sampleNode anyone []) (raceStart.take 3)))) ∧
    ((reference anyone).txHash sampleClose,0) ∉ UtxoSet.spentOf (reference anyone) (minedIn (trace
      (EmbeddedNode.raceCall (reference anyone) 1) (sampleNode anyone []) closeCalls)) ∧
    (sampleChannel anyone).cooperativeClose (reference anyone) none =
      .ok (sampleClose,(sampleChannel anyone).fundingTx.outputs) := by
  decide +kernel

end Reference

open Reference in
/-- After the close the first party has its three satoshis and its bond of two, and the channel output
is gone. -/
theorem channel_settles_sample :
    (raceRun closeCalls).utxos.lookup ((sampleChannel anyone).fundingTxid (reference anyone),0) = none ∧
    ((raceRun closeCalls).utxos.lookup ((reference anyone).txHash sampleClose,0)).map
      UtxoEntry.asTxOutput = some ⟨5,partyScript (reference anyone) sampleKeys 0⟩ := by
  obtain ⟨hrun,hempty,hmined,hfund,hfree,hkept,hclose⟩ := closeCalls_facts
  have hopp : Unopposed (raceRun (raceStart.take 3)) sampleClose :=
    ⟨by rw [hempty]; simp,by rw [hempty]; simp⟩
  obtain ⟨_,_,_,hgone,hpaid,hshares⟩ := channel_settles (nullCoinbase anyone) hrun.txids
    hrun.headers (isCoinbase_makeCoinbase _) hrun.start hrun.sequenced (obtained_sampleChannel anyone)
    (by decide +kernel) hrun.allowed rfl rfl rfl rfl hfund (.close hclose) hfree hopp hmined
  obtain ⟨q,hq,hout⟩ := hshares none _ hclose
  have hquant : quantise (sampleChannel anyone).state (sampleChannel anyone).cfg = .ok [3,0] := by
    decide +kernel
  obtain rfl : [3,0] = q := Except.ok.inj (hquant.symm.trans hq)
  exact ⟨hgone _ (by decide +kernel),(hpaid 0 hkept).trans (hout 0 (by decide))⟩

end SubsatChannel
