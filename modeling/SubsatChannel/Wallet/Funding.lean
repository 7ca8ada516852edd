import SubsatChannel.Channel.OnChain
import SubsatChannel.Wallet.Payment

/-! A channel funded out of the wallet: the funding transaction lands, and the channel that is made of
it has its outputs on the chain. -/
namespace SubsatChannel
open Transition

section Build
variable {B : Bitcoinx} {funder : List (WalletUtxo × PrivateKey)} {cfg : ChannelConfig} {kb : KeyBook}
  {changePubkey : PublicKey} {feePerByte : ℤ} {tx : Tx}

theorem buildChannelFundingTx_ok (h : buildChannelFundingTx B funder cfg kb changePubkey feePerByte = .ok tx) :
    funder ≠ [] ∧ kb.n = cfg.n ∧ buildSpend B funder (channelOutputsOf B cfg kb) changePubkey feePerByte
      defaultDustThreshold "channel funding" = .ok tx := by
  unfold buildChannelFundingTx at h
  split_ifs at h with hne
  obtain ⟨_,_,h⟩ := bind_eq_ok.mp h
  obtain ⟨outs,houts,h⟩ := bind_eq_ok.mp h
  obtain ⟨hkeys,rfl⟩ := buildChannelOutputs_ok houts
  exact ⟨hne,hkeys,h⟩

/-- The channel layer makes a channel of what the wallet builds. -/
theorem fromFundingTx_built (hkeys : kb.n = cfg.n)
    (h : buildSpend B funder (channelOutputsOf B cfg kb) changePubkey feePerByte defaultDustThreshold
      "channel funding" = .ok tx) (parentUtxos : List TxOutput) :
    ∃ ch, Channel.fromFundingTx B cfg kb tx parentUtxos = .ok ch ∧ ch.fundingTx = tx ∧ ch.cfg = cfg ∧
      ch.keybook = kb := by
  obtain ⟨rest,_,houtputs,_⟩ := (buildSpend_accounted h).2.pays
  have hfront : tx.outputs.take (1 + cfg.n) = channelOutputsOf B cfg kb := by
    rw [houtputs,← @length_channelOutputsOf B cfg kb,List.take_left]
  rw [Channel.fromFundingTx_eq hkeys hfront,Channel.wrapFunding_eq hkeys]
  exact ⟨_,rfl,rfl,rfl,rfl⟩

end Build

section Run
variable {B : Bitcoinx} {T : Set Tx} {R : Set Bytes} {reward : ℤ} {towers : List Tower} {depth : ℕ}

/-- A funding transaction that the wallet builds from its own outputs is accepted, unless a waiting
transaction other than one with lower sequence numbers stands against it, and the next block with
the mempool in it mines it. From then on the outputs of value it spent are gone, and the channel that is
made of it has all its outputs on the chain, each until a mined transaction spends it. -/
theorem funding_opens (hB : Idealised B) (hlim : SpendsWithin B) (hstd : StandardP2pkh B)
    (hnull : NullCoinbase B) (hinj : Set.InjOn B.txHash T) (hhash : Set.InjOn (headerHash B) R)
    (hcb : ∀ value script height extra, B.isCoinbase (makeCoinbase value script height extra) = true)
    (hR : (EmbeddedNode.init B reward towers).genesis ∈ R) (hseq : ∀ s ∈ T, s.Sequenced)
    (hcount : ∀ s ∈ T, s.outputs.length ≤ 0xFFFFFFFF) {ws : WalletScripts} (hws : WalletScripts.Registered B ws)
    {cfg : ChannelConfig} {kb : KeyBook} {changePubkey : PublicKey} {feePerByte : ℤ} (hfpb : 0 ≤ feePerByte)
    {before middle after : List RaceCall} {script : Script} {extra : Bytes} {timestamp : ℕ} {tx : Tx}
    (hc : Along (EmbeddedNode.raceCall B (depth+1)) (RaceAllowed B T R)
      (EmbeddedNode.init B reward towers) (before ++ .node (.submitTx tx) ::
        (middle ++ .node (.generateBlock script true extra timestamp) :: after)))
    {n₁ n₂ : EmbeddedNode} {L : List Tx}
    (hn₁ : run (EmbeddedNode.raceCall B (depth+1)) (EmbeddedNode.init B reward towers) before = n₁)
    (hn₂ : run (EmbeddedNode.raceCall B (depth+1)) (EmbeddedNode.init B reward towers)
      (before ++ .node (.submitTx tx) ::
        (middle ++ .node (.generateBlock script true extra timestamp) :: after)) = n₂)
    (hL : minedIn (trace (EmbeddedNode.raceCall B (depth+1)) (EmbeddedNode.init B reward towers)
      (before ++ .node (.submitTx tx) ::
        (middle ++ .node (.generateBlock script true extra timestamp) :: after))) = L)
    (r : ScriptRows n₁.utxos) {chosen : List WalletUtxo} (hchosen : ∀ u ∈ chosen, u ∈ ws.refresh r)
    (hbuilt : buildChannelFundingTx B (ws.keyed chosen) cfg kb changePubkey feePerByte = .ok tx)
    (hopp : Unopposed n₁ tx)
    (hmined : ((run (EmbeddedNode.raceCall B (depth+1)) (EmbeddedNode.init B reward towers)
      (before ++ .node (.submitTx tx) :: middle)).raceCall B (depth+1)
        (.node (.generateBlock script true extra timestamp))).2.hasBlock = true) :
    (n₁.raceCall B (depth+1) (.node (.submitTx tx))).2.taken = true ∧
    (∀ u ∈ chosen, u.value ≠ 0 → n₂.utxos.lookup u.outpoint = none) ∧
    ∀ parentUtxos, ∃ ch, Channel.fromFundingTx B cfg kb tx parentUtxos = .ok ch ∧ ch.fundingTx ∈ L ∧
      ∀ i < 1 + cfg.n, (ch.fundingTxid B,i) ∉ UtxoSet.spentOf B L →
        (n₂.utxos.lookup (ch.fundingTxid B,i)).map UtxoEntry.asTxOutput =
          (channelOutputsOf B cfg kb)[i]? := by
  obtain ⟨hbefore,hsub,_⟩ := (along_append _ _ _ _ _).mp hc
  have hM₁ := (reflects_run hinj hhash hcb hR hbefore).1
  rw [hn₁] at hM₁ hsub
  obtain ⟨hne,hkeys,hspend⟩ := buildChannelFundingTx_ok hbuilt
  have hun : ∀ u ∈ chosen, n₁.utxos.lookup u.outpoint = some u.toUtxoEntry := fun u hu =>
    (mem_refresh.mp (hchosen u hu)).1
  have hown : ∀ p ∈ ws.keyed chosen, Owned B n₁.utxos p := by
    intro p hp
    obtain ⟨u,hu,rfl⟩ := List.mem_map.mp hp
    exact hws.owns hM₁ hcount (hchosen u hu)
  obtain ⟨hok,hfinal,_⟩ := buildSpend_valid hB hlim hstd hnull hne hown channelOutputsOf_nonneg hfpb hspend
  obtain ⟨htaken,hin⟩ := lands hinj hhash hcb hR hseq hc hfinal (by rwa [hn₁]) (by rwa [hn₁]) hmined
  have hr₂ := (reflects_run hinj hhash hcb hR hc).2
  rw [hn₁] at htaken
  rw [hn₂,hL] at hr₂
  rw [hL] at hin
  refine ⟨htaken,fun u hu hv => ?_,fun parentUtxos => ?_⟩
  · -- the output was made by a mined transaction that pays something
    obtain ⟨s,hs,hid,hout⟩ := hM₁.origin _ _ (hun u hu)
    have hspent : u.outpoint ∈ tx.outpoints := by
      rw [(buildSpend_accounted hspend).2.spends]
      exact List.mem_map.mpr ⟨(u,ws.keyOf u),List.mem_map_of_mem hu,rfl⟩
    have hsource : u.outpoint = (B.txHash s,u.vout) := Prod.ext hid.symm rfl
    rw [hsource] at hspent ⊢
    exact hr₂.spent_gone (hM₁.known hs) ⟨_,List.mem_of_getElem? hout,hv⟩ hin (validateTx_ok_iff.mp hok).1
      hspent
  · obtain ⟨ch,hch,htx,hcfg,hkb⟩ := fromFundingTx_built hkeys hspend parentUtxos
    have hcanon : ch.Canonical B := (Channel.Obtained.funded hch).canonical
    refine ⟨ch,hch,by rw [htx]; exact hin,fun i hi hfree => ?_⟩
    have hT : ch.fundingTx ∈ T := by
      rw [htx]
      exact hsub tx (.inl rfl)
    rw [← hcfg] at hi
    rw [← hcfg,← hkb,← hcanon.output hi]
    exact hr₂.paid hT hcanon.rich (by rw [htx]; exact hin) hfree

end Run

namespace Reference

/-- The miner funds the sample channel. -/
def minerFunding : Tx :=
  (buildChannelFundingTx (reference anyone) (minerScripts.keyed [minerCoin]) sampleConfig sampleKeys
    (publicKey (sampleKey 1)) 1).toOption.getD ⟨1,[],[],0⟩

def fundingCalls : List RaceCall :=
  minerCalls ++ .node (.submitTx minerFunding) :: ([] ++ .node (.generateBlock trueScript true [] 2) :: [])

def fundingTxs : List Tx :=
  [makeCoinbase 5000 minerScript 1 [],minerFunding,
    makeCoinbase (5000 + (5000 - minerFunding.totalOutputValue)) trueScript 2 []]

def fundingHeaders : List Bytes := activeHeaders anyone (raceRun fundingCalls)

/-- One evaluation of the run gives all that is needed of it. -/
theorem funding_facts : SampleRun fundingTxs fundingHeaders fundingCalls ∧
    (∀ s ∈ fundingTxs, s.outputs.length ≤ 0xFFFFFFFF) ∧ minerNode.mempool.allTxs = [] ∧
    buildChannelFundingTx (reference anyone) (minerScripts.keyed [minerCoin]) sampleConfig sampleKeys
      (publicKey (sampleKey 1)) 1 = .ok minerFunding ∧
    ((raceRun (minerCalls ++ .node (.submitTx minerFunding) :: [])).raceCall (reference anyone) 1
      (.node (.generateBlock trueScript true [] 2))).2.hasBlock = true := by
  decide +kernel

end Reference

open Reference in
/-- The miner's coin is gone, and there is a channel of the funding transaction. -/
theorem funding_opens_sample :
    (raceRun fundingCalls).utxos.lookup minerCoin.outpoint = none ∧
    ∃ ch, Channel.fromFundingTx (reference anyone) sampleConfig sampleKeys minerFunding [] = .ok ch := by
  obtain ⟨hrun,hcount,hempty,hbuilt,hblock⟩ := funding_facts
  have hopp : Unopposed minerNode minerFunding := ⟨by rw [hempty]; simp,by rw [hempty]; simp⟩
  have hcount' : ∀ s ∈ {t | t ∈ fundingTxs}, s.outputs.length ≤ 0xFFFFFFFF := hcount
  have hchosen : ∀ u ∈ [minerCoin], u ∈ minerScripts.refresh (someRows minerNode.utxos) := by
    rw [refresh_miner]
    exact fun u hu => hu
  obtain ⟨_,hgone,hmade⟩ := funding_opens idealised spendsWithin (standardP2pkh anyone) (nullCoinbase anyone)
    hrun.txids hrun.headers (isCoinbase_makeCoinbase _) hrun.start hrun.sequenced hcount'
    (.add .empty 0 0 (sampleKey 1)) (by decide) hrun.allowed rfl rfl rfl (someRows minerNode.utxos)
    hchosen hbuilt hopp hblock
  obtain ⟨ch,hch,_⟩ := hmade []
  exact ⟨hgone minerCoin (List.mem_singleton_self _) (by decide),ch,hch⟩

end SubsatChannel
