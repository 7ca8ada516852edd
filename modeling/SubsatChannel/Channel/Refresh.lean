import SubsatChannel.Channel.Window

/-! Refreshing a channel: the successor is funded from the placeholder output, so its funding
transaction depends on the keys and the satoshis of the channel only. -/
namespace SubsatChannel
namespace Channel

/-- The funding transaction that `open` makes for the channel's keys and satoshis when it is given no
parent output. -/
def placeholderFunding (B : Bitcoinx) (ch : Channel) : Tx :=
  ⟨1,[⟨List.replicate 32 0,0,[],finalSequence⟩],channelOutputsOf B ch.cfg ch.keybook,0⟩

/-- A successor in the same allocation that the predecessor's state transactions cannot disturb: none
of them spends its channel output, and none takes a transaction that spends it out of a mempool,
unless that transaction spends the predecessor's own output as well. -/
structure Isolated (B : Bitcoinx) (ch : Channel) (newL : ℤ) (next : Channel) : Prop where
  balances : next.state.balances = ch.state.balances
  total : next.state.balances.sum = ch.cfg.k * ch.cfg.S
  version : next.state.version = 0
  horizon : (next.cfg.L0 : ℤ) = newL
  outpoint : (next.fundingTxid B,0) ≠ (ch.fundingTxid B,0)
  unspent : ∀ v tx, ch.CoSigned B v tx → (next.fundingTxid B,0) ∉ tx.outpoints
  kept : ∀ v tx, ch.CoSigned B v tx → ∀ {ω : Type} {m m' : Mempool ω} {U : UtxoSet},
    m.Consistent B → Mempool.Taken B U m tx m' → ∀ txid e, m.entries.get? txid = some e →
      (next.fundingTxid B,0) ∈ e.tx.outpoints → (ch.fundingTxid B,0) ∉ e.tx.outpoints →
        m'.entries.get? txid = some e

section Refresh
variable {B : Bitcoinx} {ch next : Channel} {newL : ℤ}

/-- What a refresh makes. -/
theorem refreshChannel_shape (hch : ch.Canonical B) (h : refreshChannel B ch newL = .ok next) :
    next.fundingTx = placeholderFunding B ch ∧ next.state = ⟨ch.state.balances,0⟩ ∧
      (next.cfg.L0 : ℤ) = newL := by
  unfold refreshChannel at h
  split_ifs at h with hL
  obtain ⟨cfg,hcfg,h⟩ := bind_eq_ok.mp h
  obtain ⟨successor,ho,h⟩ := bind_eq_ok.mp h
  cases h
  obtain ⟨hn,hk,hS,hb,hL0,_⟩ := ChannelConfig.make_ok hcfg
  simp only [Int.toNat_natCast,List.map_map] at hn hk hS hb hL0
  have hid : ch.cfg.bonds.map (Int.toNat ∘ Int.ofNat) = ch.cfg.bonds := List.map_id _
  rw [hid] at hb
  have hkeys : ch.keybook.n = cfg.n := hch.keys.trans hn.symm
  rw [openChannel_of_keys hkeys] at ho
  cases ho
  have houts : channelOutputsOf B cfg ch.keybook = channelOutputsOf B ch.cfg ch.keybook := by
    simp only [channelOutputsOf,bondOf,hn,hS,hb]
  refine ⟨?_,rfl,?_⟩
  · simp only [markConfirmed,opened,placeholderFunding,houts]
  · simp only [markConfirmed,opened,hL0]
    omega

/-- A refresh succeeds for every later horizon that is a block height. -/
theorem refreshChannel_of_lt (hch : ch.Canonical B) (hL : (ch.cfg.L0 : ℤ) < newL)
    (hlt : newL < locktimeThreshold) : ∃ next, refreshChannel B ch newL = .ok next := by
  have hpos := ch.cfg.L0_pos
  obtain ⟨cfg,hcfg⟩ := @ChannelConfig.make_of_config ch.cfg newL (by omega) hlt
  obtain ⟨hn,_⟩ := ChannelConfig.make_ok hcfg
  have hkeys : ch.keybook.n = cfg.n := by
    rw [hn,Int.toNat_natCast]
    exact hch.keys
  refine ⟨{ (opened B cfg ch.keybook (List.replicate 32 0,0) none).markConfirmed with
    state := ⟨ch.state.balances,0⟩ },?_⟩
  rw [refreshChannel,if_neg (by omega),hcfg]
  simp only [bind,Except.bind,openChannel_of_keys hkeys]

theorem lt_of_refreshChannel (h : refreshChannel B ch newL = .ok next) :
    newL < locktimeThreshold := by
  unfold refreshChannel at h
  split_ifs at h
  obtain ⟨cfg,hcfg,_⟩ := bind_eq_ok.mp h
  by_contra hge
  exact ChannelConfig.make_of_late (by omega) cfg hcfg

/-- A state transaction takes nothing out of a mempool but a spender of its own channel output. -/
theorem CoSigned.keeps {v : ℕ} {tx : Tx} (h : ch.CoSigned B v tx) {ω : Type} {m m' : Mempool ω}
    {U : UtxoSet} (hc : m.Consistent B) (ht : Mempool.Taken B U m tx m') {txid : Bytes}
    {e : MempoolEntry} (he : m.entries.get? txid = some e)
    (hapart : (ch.fundingTxid B,0) ∉ e.tx.outpoints) : m'.entries.get? txid = some e := by
  have hfresh : B.txHash tx ≠ txid := by
    rintro rfl
    rw [ht.new] at he
    cases he
  cases ht with
  | plain =>
    rw [Mempool.get?_insert,if_neg hfresh]
    exact he
  | replacing oldTxid old _ hold _ hconf _ _ _ =>
    have hne : oldTxid ≠ txid := by
      rintro rfl
      rw [he] at hold
      cases hold
      obtain ⟨o,ho,hspent⟩ := hconf
      obtain ⟨f,hf,hof⟩ := (hc.held o oldTxid).mp hspent
      rw [he] at hf
      cases hf
      rw [h.shape.1.outpoints,List.mem_singleton] at ho
      rw [ho] at hof
      exact hapart hof
    rw [Mempool.get?_insert,if_neg hfresh,Mempool.get?_remove,if_neg hne]
    exact he

end Refresh
end Channel

open Channel in
/-- A refresh gives a successor that the predecessor's state transactions cannot disturb exactly when
the predecessor was not itself funded from the placeholder output, and the new horizon is a block
height. -/
theorem refresh_isolates {B : Bitcoinx} {ch : Channel} (hch : ch.Obtained B) {newL : ℤ}
    (hL : (ch.cfg.L0 : ℤ) < newL)
    (hhash : B.txHash ch.fundingTx = B.txHash (placeholderFunding B ch) →
      ch.fundingTx = placeholderFunding B ch) :
    (∃ next, refreshChannel B ch newL = .ok next ∧ Isolated B ch newL next) ↔
    ch.fundingTx ≠ placeholderFunding B ch ∧ newL < locktimeThreshold := by
  constructor
  · rintro ⟨next,hr,hi⟩
    refine ⟨fun heq => hi.outpoint ?_,lt_of_refreshChannel hr⟩
    obtain ⟨hfund,_⟩ := refreshChannel_shape hch.canonical hr
    rw [fundingTxid,fundingTxid,hfund,heq]
  · rintro ⟨hne,hlt⟩
    obtain ⟨next,hr⟩ := refreshChannel_of_lt hch.canonical hL hlt
    obtain ⟨hfund,hstate,hhorizon⟩ := refreshChannel_shape hch.canonical hr
    have hout : (next.fundingTxid B,0) ≠ (ch.fundingTxid B,0) := by
      intro heq
      have htxid : next.fundingTxid B = ch.fundingTxid B := congrArg Prod.fst heq
      rw [fundingTxid,fundingTxid,hfund] at htxid
      exact hne (hhash htxid.symm)
    refine ⟨next,hr,?_⟩
    exact
      { balances := by rw [hstate]
        total := by
          rw [hstate]
          exact hch.canonical.conserving.total
        version := by rw [hstate]
        horizon := hhorizon
        outpoint := hout
        unspent := fun v tx hs => by
          rw [hs.shape.1.outpoints,List.mem_singleton]
          exact hout
        kept := fun v tx hs _ _ _ _ hc ht _ _ he _ hapart => hs.keeps hc ht he hapart }

namespace Reference

/-- The sample channel funded from the placeholder output, after a transfer of ten micro-units. -/
def placeholderChannel : Channel :=
  { (Channel.opened (reference anyone) sampleConfig sampleKeys (List.replicate 32 0,0)
      none).markConfirmed with state := ⟨[20,10],1⟩ }

theorem obtained_placeholderChannel : placeholderChannel.Obtained (reference anyone) := by
  have hopen : (Channel.opened (reference anyone) sampleConfig sampleKeys (List.replicate 32 0,0)
      none).markConfirmed.Obtained (reference anyone) :=
    .confirmed (Channel.obtained_opened rfl _ _)
  have ht : (Channel.opened (reference anyone) sampleConfig sampleKeys (List.replicate 32 0,0)
      none).markConfirmed.applyTransfer 0 1 10 = .ok placeholderChannel := rfl
  exact .transferred hopen ht

end Reference

open Reference in
theorem refresh_isolates_sample : ∃ next,
    refreshChannel (reference anyone) (sampleChannel anyone) 200000 = .ok next ∧
    Channel.Isolated (reference anyone) (sampleChannel anyone) 200000 next := by
  have hhash : (reference anyone).txHash (sampleChannel anyone).fundingTx ≠
      (reference anyone).txHash (Channel.placeholderFunding (reference anyone) (sampleChannel anyone)) := by
    decide +kernel
  have hfund : (sampleChannel anyone).fundingTx ≠
      Channel.placeholderFunding (reference anyone) (sampleChannel anyone) :=
    fun heq => hhash (by rw [← heq])
  exact (refresh_isolates (obtained_sampleChannel anyone) (by decide)
    fun heq => absurd heq hhash).mpr ⟨hfund,by decide⟩

open Reference in
/-- The successor of a channel that was opened without a parent output has the channel output of its
predecessor, so the predecessor's state transaction of version 1 spends it. -/
theorem successor_shares_outpoint : ∃ next tx,
    refreshChannel (reference anyone) placeholderChannel 200000 = .ok next ∧
    next.state.version = 0 ∧
    placeholderChannel.CoSigned (reference anyone) 1 tx ∧
    (next.fundingTxid (reference anyone),0) ∈ tx.outpoints := by
  have hch := obtained_placeholderChannel.canonical
  obtain ⟨next,hr⟩ := @Channel.refreshChannel_of_lt _ _ 200000 hch (by decide) (by decide)
  obtain ⟨hfund,hstate,_⟩ := Channel.refreshChannel_shape hch hr
  have hsigned : (placeholderChannel.signStateTx (reference anyone)
      placeholderChannel.state).toOption.isSome = true := by
    decide +kernel
  cases hs : placeholderChannel.signStateTx (reference anyone) placeholderChannel.state with
  | error e =>
    rw [hs] at hsigned
    cases hsigned
  | ok p =>
    have hco : placeholderChannel.CoSigned (reference anyone) 1 p.1 := .inl ⟨_,p.2,rfl,hs⟩
    refine ⟨next,p.1,hr,by rw [hstate],hco,?_⟩
    have htxid : next.fundingTxid (reference anyone) =
        placeholderChannel.fundingTxid (reference anyone) := by
      rw [Channel.fundingTxid,hfund]
      rfl
    rw [hco.shape.1.outpoints,htxid]
    exact List.mem_singleton_self _

end SubsatChannel
