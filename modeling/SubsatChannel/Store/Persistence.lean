import SubsatChannel.Channel.Opened
import SubsatChannel.Store.Recover

/-! The JSON document of a channel: what saving and loading keeps, and what a loader checks. -/
namespace SubsatChannel

def schemaVersion : ℤ := 1

/-- The document of a channel, with the values that its JSON text encodes. -/
structure ChannelDoc where
  schemaVersion : Option ℤ
  cfg : ConfigDoc
  keys : List String
  fundingTxHex : String
  fundingParentValue : ℤ
  fundingConfirmed : Bool
  state : StateDoc
  deriving DecidableEq, Repr

def channelToDict (B : Bitcoinx) (ch : Channel) : Except Fault ChannelDoc :=
  match ch.fundingUtxos with
  | [] => .error ⟨.indexError,"list index out of range"⟩
  | utxo :: _ => .ok ⟨some schemaVersion,Channel.configDoc ch.cfg,ch.keybook.keys.map fun k => hex k.toBytes,
      hex (B.txToBytes ch.fundingTx),utxo.value,ch.fundingConfirmed,Channel.stateDoc ch.state⟩

/-- The `!r` format of an optional integer. -/
def reprOption : Option ℤ → String
  | none => "None"
  | some v => s!"{v}"

/-- `dict_to_channel`; `readKey` is `PrivateKey(bytes.fromhex(h))`. -/
def dictToChannel (B : Bitcoinx) (readKey : String → Option PrivateKey) (d : ChannelDoc) :
    Except Fault Channel :=
  if d.schemaVersion ≠ some schemaVersion then .error
    ⟨.persistenceError,s!"unsupported schema_version {reprOption d.schemaVersion}"⟩
  else do
    let cfg ← d.cfg.decode
    match d.keys.mapM readKey with
    | none => .error ⟨.valueError,""⟩
    | some keys =>
      match B.txFromHex d.fundingTxHex with
      | none => .error ⟨.streamError,""⟩
      | some fundingTx => do
        let keybook : KeyBook := ⟨keys⟩
        let bonds ← (List.range cfg.n).mapM (recoverBond B cfg (keybook.publicKeys B) fundingTx)
        let state ← State.make d.state.balances d.state.version
        state.conservationCheck cfg
        .ok ⟨cfg,keybook,fundingTx,[⟨d.fundingParentValue,[.op .opTrue]⟩],d.fundingConfirmed,state,bonds⟩

/-- What `from_funding_tx` enforces, and a conserving allocation. -/
structure Channel.Revalidated (B : Bitcoinx) (ch : Channel) : Prop where
  keys : ch.keybook.n = ch.cfg.n
  outputs : ∃ outs, buildChannelOutputs B ch.cfg ch.keybook = .ok outs ∧
    ch.fundingTx.outputs.take (1 + ch.cfg.n) = outs
  conserving : ch.state.Conserving ch.cfg

/-- What no loader looks at: there are no more keys than parties, and the funding transaction carries
the channel output and the bonds made for them. -/
def Funds (B : Bitcoinx) (cfg : ChannelConfig) (keys : List PrivateKey) (fundingTx : Tx) : Prop :=
  keys.length ≤ cfg.n ∧
    ∀ i < 1 + cfg.n, fundingTx.outputs[i]? = (channelOutputsOf B cfg ⟨keys⟩)[i]?

/-- These are the channels whose parts `from_funding_tx` accepts. -/
theorem Channel.revalidated_iff {B : Bitcoinx} {ch : Channel} : ch.Revalidated B ↔
    (∃ made, fromFundingTx B ch.cfg ch.keybook ch.fundingTx ch.fundingUtxos = .ok made) ∧
      ch.state.Conserving ch.cfg := by
  constructor
  · rintro ⟨hn,⟨outs,ho,ht⟩,hs⟩
    obtain ⟨_,rfl⟩ := buildChannelOutputs_ok ho
    exact ⟨⟨_,(fromFundingTx_eq hn ht _).trans (wrapFunding_eq hn _ _)⟩,hs⟩
  · rintro ⟨⟨made,hm⟩,hs⟩
    obtain ⟨hcanon,hcfg,hbook,htx⟩ := fromFundingTx_ok hm
    obtain ⟨hn,ho⟩ := And.intro hcanon.keys hcanon.outputs
    rw [hcfg,hbook] at hn
    rw [hcfg,hbook,htx] at ho
    exact ⟨hn,⟨_,buildChannelOutputs_eq hn,ho⟩,hs⟩

section Loaders
variable {B : Bitcoinx} {readKey : String → Option PrivateKey} {ch : Channel} {cfg : ChannelConfig}
  {keys : List PrivateKey} {tx : Tx}

/-- The bonds can be rebuilt only when there is a key for every party. -/
theorem keys_of_recoverBonds {bonds : List BondOutput}
    (h : (List.range cfg.n).mapM (recoverBond B cfg (KeyBook.publicKeys B ⟨keys⟩) tx) = .ok bonds) :
    cfg.n ≤ keys.length := by
  have htwo := cfg.two_le_n
  obtain ⟨bond,hbond⟩ := exists_of_mapM_eq_ok h (cfg.n-1) (List.mem_range.mpr (by omega))
  obtain ⟨cp,_,hbond⟩ := bind_eq_ok.mp hbond
  cases hpk : (KeyBook.publicKeys B ⟨keys⟩)[cfg.n-1]? with
  | none => simp [hpk] at hbond
  | some pk =>
    have hlt := (List.getElem?_eq_some_iff.mp hpk).1
    rw [length_publicKeys] at hlt
    change cfg.n-1 < keys.length at hlt
    omega

/-- What both loaders make of a configuration, a list of keys and a funding transaction. -/
structure Loaded (cfg : ChannelConfig) (keys : List PrivateKey) (tx : Tx) (ch : Channel) : Prop where
  cfg_eq : ch.cfg = cfg
  keybook_eq : ch.keybook = ⟨keys⟩
  fundingTx_eq : ch.fundingTx = tx
  keys_le : cfg.n ≤ keys.length
  conserving : ch.state.Conserving cfg

theorem Loaded.revalidated_iff (h : Loaded cfg keys tx ch) :
    ch.Revalidated B ↔ Funds B cfg keys tx := by
  have hkeys := h.keys_le
  obtain ⟨rfl,hbook,rfl,_,hs⟩ := h
  have htake : ∀ {n : ℕ} {l m : List TxOutput}, m.length = n →
      (l.take n = m ↔ ∀ i < n, l[i]? = m[i]?) := by
    intro n l m hm
    constructor
    · rintro rfl i hi
      rw [List.getElem?_take_of_lt hi]
    · intro hi
      apply List.ext_getElem?
      intro i
      rw [List.getElem?_take]
      split_ifs with hlt
      · exact hi i hlt
      · rw [List.getElem?_eq_none (by omega)]
  constructor
  · rintro ⟨hn,⟨outs,ho,ht⟩,_⟩
    obtain ⟨_,rfl⟩ := buildChannelOutputs_ok ho
    rw [hbook] at hn ht
    exact ⟨hn.le,(htake length_channelOutputsOf).mp ht⟩
  · rintro ⟨hle,ho⟩
    have hn : ch.keybook.n = ch.cfg.n := by
      rw [hbook]
      exact le_antisymm hle hkeys
    refine ⟨hn,⟨_,buildChannelOutputs_eq hn,?_⟩,hs⟩
    rw [hbook]
    exact (htake length_channelOutputsOf).mpr ho

theorem dictToChannel_ok {d : ChannelDoc} (h : dictToChannel B readKey d = .ok ch) :
    ∃ cfg keys tx, d.cfg.decode = .ok cfg ∧ d.keys.mapM readKey = some keys ∧
      B.txFromHex d.fundingTxHex = some tx ∧ Loaded cfg keys tx ch := by
  unfold dictToChannel at h
  split_ifs at h
  obtain ⟨cfg,hcfg,h⟩ := bind_eq_ok.mp h
  split at h
  · cases h
  · rename_i keys hkeys
    split at h
    · cases h
    · rename_i tx htx
      obtain ⟨bonds,hbonds,h⟩ := bind_eq_ok.mp h
      obtain ⟨s,_,h⟩ := bind_eq_ok.mp h
      obtain ⟨_,hs,h⟩ := bind_eq_ok.mp h
      cases h
      exact ⟨cfg,keys,tx,hcfg,hkeys,htx,rfl,rfl,rfl,keys_of_recoverBonds hbonds,
        State.conservationCheck_ok_iff.mp hs⟩

theorem recoverState_conserving {latest : Option (ℕ × StateDoc)} {s : State}
    (h : recoverState cfg latest = .ok s) : s.Conserving cfg := by
  cases latest with
  | none =>
    rw [recoverState,Channel.initialState_zero] at h
    cases h
    exact Channel.conserving_initial cfg
  | some p =>
    obtain ⟨s',_,h⟩ := bind_eq_ok.mp h
    obtain ⟨_,hs,h⟩ := bind_eq_ok.mp h
    cases h
    exact State.conservationCheck_ok_iff.mp hs

theorem recoverRow_ok {row : ChannelMeta} {latest : Option (ℕ × StateDoc)}
    (h : recoverRow B row latest = .ok ch) : ∃ cfg tx, row.cfgJson.decode = .ok cfg ∧
      B.txFromHex (hex row.fundingTxHex) = some tx ∧
      Loaded cfg (row.keysHex.map PrivateKey.mk) tx ch := by
  obtain ⟨cfg,hcfg,h⟩ := bind_eq_ok.mp h
  split at h
  · cases h
  · rename_i tx htx
    obtain ⟨bonds,hbonds,h⟩ := bind_eq_ok.mp h
    obtain ⟨s,hs,h⟩ := bind_eq_ok.mp h
    cases h
    exact ⟨cfg,tx,hcfg,htx,rfl,rfl,rfl,keys_of_recoverBonds hbonds,recoverState_conserving hs⟩

end Loaders

section RoundTrip
variable {B : Bitcoinx} {readKey : String → Option PrivateKey} {ch : Channel} {d : ChannelDoc}

/-- A channel as it comes back from its document: of the parent outputs the first value is kept, and
the bonds are made anew. -/
def Channel.rebuilt (B : Bitcoinx) (ch : Channel) : Channel :=
  { ch.reloaded ch.state with
    bonds := (List.range ch.cfg.n).map (bondOutputOf B ch.cfg ch.keybook ch.fundingTx) }

theorem dictToChannel_channelToDict (hkey : ∀ k : PrivateKey, readKey (hex k.toBytes) = some k)
    (hread : ReadsHex B) (hn : ch.keybook.n = ch.cfg.n) (hs : ch.state.Conserving ch.cfg)
    (h : channelToDict B ch = .ok d) : dictToChannel B readKey d =
      .ok (ch.rebuilt B) := by
  unfold channelToDict at h
  split at h
  · cases h
  · rename_i utxo rest hutxos
    cases h
    have hkeys : (ch.keybook.keys.map fun k => hex k.toBytes).mapM readKey = some ch.keybook.keys := by
      generalize ch.keybook.keys = keys
      induction keys with
      | nil => rfl
      | cons k keys ih => simp [hkey,ih]
    have htx : B.txFromHex (hex (B.txToBytes ch.fundingTx)) = some ch.fundingTx := hread _
    have hbonds := recoverBonds_eq (B := B) hn ch.fundingTx
    have hstate := make_stateDoc ch.state
    rw [dictToChannel,if_neg (by simp)]
    simp only [ConfigDoc.decode,Channel.configDoc,ch.cfg.make_self,bind,Except.bind,hkeys,htx,hbonds,
      hstate,hs.check,Channel.rebuilt,Channel.reloaded,hutxos]
    rfl

end RoundTrip

namespace Reference

/-- Read a private key from its hex digits. -/
def readKey (s : String) : Option PrivateKey := (unhex s.toList).map PrivateKey.mk

theorem readKey_hex (k : PrivateKey) : readKey (hex k.toBytes) = some k := by
  rw [readKey,unhex_hex]
  rfl

/-- The sample channel, funded by a wallet from an output of the first party. -/
def walletChannel : Channel :=
  { sampleChannel anyone with
    fundingUtxos := [⟨5000,(reference anyone).p2pkhScript (publicKey (sampleKey 1))⟩]
    fundingConfirmed := false }

/-- The sample channel with a funding transaction that has nothing to do with it. -/
def strayChannel : Channel := { sampleChannel anyone with fundingTx := spendOnce }

end Reference

/-- A loaded channel satisfies what `from_funding_tx` enforces exactly when its document, or its row,
has no keys too many and a funding transaction with the outputs made for them. -/
theorem loaders_revalidate_iff (B : Bitcoinx) (readKey : String → Option PrivateKey) :
    (∀ d ch, dictToChannel B readKey d = .ok ch → ∃ cfg keys tx, d.cfg.decode = .ok cfg ∧
      d.keys.mapM readKey = some keys ∧ B.txFromHex d.fundingTxHex = some tx ∧
      (ch.Revalidated B ↔ Funds B cfg keys tx)) ∧
    ∀ store c ch, recoverChannel B store c = .ok (some ch) → ∃ row cfg tx,
      store.getChannelMeta c = some row ∧ row.cfgJson.decode = .ok cfg ∧
      B.txFromHex (hex row.fundingTxHex) = some tx ∧
      (ch.Revalidated B ↔ Funds B cfg (row.keysHex.map PrivateKey.mk) tx) := by
  refine ⟨fun d ch h => ?_,fun store c ch h => ?_⟩
  · obtain ⟨cfg,keys,tx,hcfg,hkeys,htx,hl⟩ := dictToChannel_ok h
    exact ⟨cfg,keys,tx,hcfg,hkeys,htx,hl.revalidated_iff⟩
  · unfold recoverChannel at h
    split at h
    · cases h
    · rename_i row hrow
      obtain ⟨ch',hch,heq⟩ := map_eq_ok.mp h
      cases heq
      obtain ⟨cfg,tx,hcfg,htx,hl⟩ := recoverRow_ok hch
      exact ⟨row,cfg,tx,hrow,hcfg,htx,hl.revalidated_iff⟩

open Reference in
theorem loaders_revalidate_iff_sample : ∃ d ch, channelToDict (reference anyone) (sampleChannel anyone) = .ok d ∧
    dictToChannel (reference anyone) readKey d = .ok ch ∧ ∃ cfg keys tx, d.cfg.decode = .ok cfg ∧
      d.keys.mapM readKey = some keys ∧ (reference anyone).txFromHex d.fundingTxHex = some tx ∧
      (ch.Revalidated (reference anyone) ↔ Funds (reference anyone) cfg keys tx) := by
  have hload : dictToChannel (reference anyone) readKey _ =
      .ok ((sampleChannel anyone).rebuilt (reference anyone)) :=
    dictToChannel_channelToDict readKey_hex (txFromHex_hex anyone) rfl
      (Channel.conserving_initial sampleConfig) rfl
  exact ⟨_,_,rfl,hload,(loaders_revalidate_iff (reference anyone) readKey).1 _ _ hload⟩

open Reference in
/-- A document whose funding transaction has none of the outputs is loaded. -/
theorem stray_funding_loaded : ∃ d ch, channelToDict (reference anyone) strayChannel = .ok d ∧
    dictToChannel (reference anyone) readKey d = .ok ch ∧ ¬ ch.Revalidated (reference anyone) := by
  refine ⟨_,strayChannel.rebuilt (reference anyone),rfl,?_,fun h => ?_⟩
  · exact dictToChannel_channelToDict readKey_hex (txFromHex_hex anyone) rfl
      (Channel.conserving_initial sampleConfig) rfl
  · obtain ⟨outs,ho,ht⟩ := h.outputs
    obtain ⟨_,rfl⟩ := buildChannelOutputs_ok ho
    have hlen := congrArg List.length ht
    rw [length_channelOutputsOf] at hlen
    exact absurd hlen (by decide)

/-- Saving and loading gives a channel back, and the document with it, exactly when its parent outputs
are the one output that anyone can spend which a loader puts in their place. -/
theorem save_load_iff (B : Bitcoinx) (readKey : String → Option PrivateKey)
    (hkey : ∀ k : PrivateKey, readKey (hex k.toBytes) = some k) (hread : ReadsHex B) (ch : Channel)
    (hch : ch.Obtained B) :
    (∃ d loaded, channelToDict B ch = .ok d ∧ dictToChannel B readKey d = .ok loaded ∧ loaded = ch ∧
      channelToDict B loaded = .ok d) ↔
    ∃ value, ch.fundingUtxos = [⟨value,[.op .opTrue]⟩] := by
  have hcanon := hch.canonical
  constructor
  · rintro ⟨d,loaded,hd,hl,rfl,_⟩
    rw [dictToChannel_channelToDict hkey hread hcanon.keys hcanon.conserving hd] at hl
    have hutxos := congrArg Channel.fundingUtxos (Except.ok.inj hl)
    unfold channelToDict at hd
    split at hd
    · cases hd
    · rename_i utxo rest hcons
      simp only [Channel.rebuilt,Channel.reloaded,hcons,List.head?_cons,Option.toList_some,List.map_cons,
        List.map_nil] at hutxos
      exact ⟨utxo.value,hcons.trans hutxos.symm⟩
  · rintro ⟨value,hvalue⟩
    obtain ⟨d,hd⟩ : ∃ d, channelToDict B ch = .ok d := by
      unfold channelToDict
      rw [hvalue]
      exact ⟨_,rfl⟩
    refine ⟨d,ch,hd,?_,rfl,hd⟩
    rw [dictToChannel_channelToDict hkey hread hcanon.keys hcanon.conserving hd,Channel.rebuilt,
      ← hcanon.bonds]
    simp only [Channel.reloaded,hvalue,List.head?_cons,Option.toList_some,List.map_cons,List.map_nil]
    rw [← hvalue]

open Reference in
theorem save_load_iff_sample : (∃ d loaded, channelToDict (reference anyone) (sampleChannel anyone) = .ok d ∧
    dictToChannel (reference anyone) readKey d = .ok loaded ∧ loaded = sampleChannel anyone ∧
    channelToDict (reference anyone) loaded = .ok d) :=
  (save_load_iff (reference anyone) readKey readKey_hex (txFromHex_hex anyone) _
    (obtained_sampleChannel anyone)).mpr ⟨5000,rfl⟩

open Reference in
/-- A channel that a wallet has funded comes back with another script on its parent output. -/
theorem parent_script_lost :
    Channel.fromFundingTx (reference anyone) sampleConfig sampleKeys walletChannel.fundingTx
      walletChannel.fundingUtxos = .ok walletChannel ∧
    ∃ d loaded, channelToDict (reference anyone) walletChannel = .ok d ∧
      dictToChannel (reference anyone) readKey d = .ok loaded ∧
      loaded.fundingUtxos = [⟨5000,trueScript⟩] ∧ walletChannel.fundingUtxos ≠ [⟨5000,trueScript⟩] := by
  refine ⟨by decide +kernel,_,walletChannel.rebuilt (reference anyone),rfl,?_,rfl,by decide +kernel⟩
  exact dictToChannel_channelToDict readKey_hex (txFromHex_hex anyone) rfl
    (Channel.conserving_initial sampleConfig) rfl

end SubsatChannel
