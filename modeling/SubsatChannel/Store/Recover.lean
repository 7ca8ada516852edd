import SubsatChannel.Store.SystemStore
import SubsatChannel.Channel.Obtained

/-! Writing a channel to the durable store, and making a channel from what the store holds. -/
namespace SubsatChannel

namespace Channel

def configDoc (cfg : ChannelConfig) : ConfigDoc :=
  ⟨cfg.n,cfg.k,cfg.S,cfg.bonds.map Int.ofNat,cfg.L0,cfg.delta⟩

/-- The row that `persist_channel` writes to `channel_meta`. -/
def metaRow (B : Bitcoinx) (ch : Channel) : Except Fault ChannelMeta :=
  match ch.fundingUtxos with
  | [] => .error ⟨.indexError,"list index out of range"⟩
  | utxo :: _ => .ok ⟨configDoc ch.cfg,ch.keybook.keys.map PrivateKey.toBytes,
      B.txToBytes ch.fundingTx,ch.fundingConfirmed,utxo.value⟩

def stateDoc (s : State) : StateDoc := ⟨s.balances.map Int.ofNat,s.version⟩

end Channel

/-- The first write of `persist_channel`; it is committed on its own. -/
def persistMeta (B : Bitcoinx) (store : SystemStore) (ch : Channel) : Except Fault SystemStore :=
  (ch.metaRow B).map (store.putChannelMeta (ch.fundingTxid B))

/-- The second write of `persist_channel`. -/
def persistState (B : Bitcoinx) (store : SystemStore) (ch : Channel) : SystemStore :=
  store.putChannelState (ch.fundingTxid B) ch.state.version (Channel.stateDoc ch.state)

def persistChannel (B : Bitcoinx) (store : SystemStore) (ch : Channel) :
    Except Fault SystemStore :=
  (persistMeta B store ch).map fun s => persistState B s ch

/-- The store holds the channel's row and its current state. -/
structure Saved (B : Bitcoinx) (store : SystemStore) (ch : Channel) : Prop where
  row : ∃ row, ch.metaRow B = .ok row ∧ (store.rows (ch.fundingTxid B)).1 = some row
  state : (store.rows (ch.fundingTxid B)).2 ch.state.version = some (Channel.stateDoc ch.state)

section Persist
variable {B : Bitcoinx} {store store' : SystemStore} {ch : Channel} {c : Bytes}

theorem persistMeta_ok (h : persistMeta B store ch = .ok store') :
    ∃ row, ch.metaRow B = .ok row ∧ store' = store.putChannelMeta (ch.fundingTxid B) row := by
  unfold persistMeta at h
  cases hr : ch.metaRow B with
  | error e => rw [hr] at h; cases h
  | ok row => rw [hr] at h; cases h; exact ⟨row,rfl,rfl⟩

theorem persistMeta_of_row {row : ChannelMeta} (h : ch.metaRow B = .ok row) :
    persistMeta B store ch = .ok (store.putChannelMeta (ch.fundingTxid B) row) := by
  rw [persistMeta,h]
  rfl

/-- The store after `persist_channel`. -/
theorem persistChannel_of_row {row : ChannelMeta} (h : ch.metaRow B = .ok row) :
    persistChannel B store ch =
      .ok (persistState B (store.putChannelMeta (ch.fundingTxid B) row) ch) := by
  rw [persistChannel,persistMeta_of_row h]
  rfl

theorem rows_persist {row : ChannelMeta} :
    (persistState B (store.putChannelMeta (ch.fundingTxid B) row) ch).rows (ch.fundingTxid B) =
      (some row,Function.update (store.rows (ch.fundingTxid B)).2 ch.state.version
        (some (Channel.stateDoc ch.state))) := by
  rw [persistState,SystemStore.rows_putChannelState,SystemStore.rows_putChannelMeta]

theorem persistChannel_ok (h : persistChannel B store ch = .ok store') :
    ∃ s, persistMeta B store ch = .ok s ∧ store' = persistState B s ch := by
  unfold persistChannel at h
  cases hm : persistMeta B store ch with
  | error e => rw [hm] at h; cases h
  | ok s => rw [hm] at h; cases h; exact ⟨s,rfl,rfl⟩

/-- A channel without funding outputs cannot be written. -/
theorem metaRow_ok_iff : (∃ row, ch.metaRow B = .ok row) ↔ ch.fundingUtxos ≠ [] := by
  unfold Channel.metaRow
  split <;> simp_all

theorem persistMeta_error {e : Fault} (h : persistMeta B store ch = .error e) :
    ch.fundingUtxos = [] := by
  by_contra hne
  obtain ⟨row,hr⟩ := metaRow_ok_iff.mpr hne
  rw [persistMeta,hr] at h
  cases h

theorem rows_persistMeta_of_ne (h : persistMeta B store ch = .ok store')
    (hc : ch.fundingTxid B ≠ c) : store'.rows c = store.rows c := by
  obtain ⟨row,_,rfl⟩ := persistMeta_ok h
  exact store.rows_putChannelMeta_of_ne hc row

theorem rows_persistState_of_ne (hc : ch.fundingTxid B ≠ c) :
    (persistState B store ch).rows c = store.rows c :=
  store.rows_putChannelState_of_ne hc _ _

end Persist

/-- `ChannelConfig(..)` from the object in `cfg_json`. -/
def ConfigDoc.decode (doc : ConfigDoc) : Except Fault ChannelConfig :=
  ChannelConfig.make doc.n doc.k doc.S doc.bonds doc.L0 doc.delta

/-- The bond descriptor of party `i`, rebuilt from the public keys. -/
def recoverBond (B : Bitcoinx) (cfg : ChannelConfig) (pubs : List PublicKey) (fundingTx : Tx)
    (i : ℕ) : Except Fault BondOutput := do
  let cp ← (others cfg.n i).mapM fun j =>
    match pubs[j]? with
    | none => .error ⟨.indexError,"list index out of range"⟩
    | some pk => .ok pk
  match pubs[i]? with
  | none => .error ⟨.indexError,"list index out of range"⟩
  | some owner => do
    let lock ← makeBondScriptFor owner cp
    let b ← bondValue cfg i
    .ok ⟨i,b,B.txHash fundingTx,1+i,lock⟩

/-- The latest stored state, or the initial one when there is none. -/
def recoverState (cfg : ChannelConfig) : Option (ℕ × StateDoc) → Except Fault State
  | none => initialState cfg 0
  | some (_,doc) => do
    let s ← State.make doc.balances doc.version
    s.conservationCheck cfg
    .ok s

/-- The channel of a row of `channel_meta` with the latest row of `channel_states`. -/
def recoverRow (B : Bitcoinx) (row : ChannelMeta) (latest : Option (ℕ × StateDoc)) :
    Except Fault Channel := do
  let cfg ← row.cfgJson.decode
  let keybook : KeyBook := ⟨row.keysHex.map PrivateKey.mk⟩
  match B.txFromHex (hex row.fundingTxHex) with
  | none => .error ⟨.streamError,""⟩
  | some fundingTx => do
    let bonds ← (List.range cfg.n).mapM (recoverBond B cfg (keybook.publicKeys B) fundingTx)
    let state ← recoverState cfg latest
    .ok ⟨cfg,keybook,fundingTx,[⟨row.parentValue,[.op .opTrue]⟩],row.fundingConfirmed,state,bonds⟩

def recoverChannel (B : Bitcoinx) (store : SystemStore) (channelId : Bytes) :
    Except Fault (Option Channel) :=
  match store.getChannelMeta channelId with
  | none => .ok none
  | some row => (recoverRow B row (store.getLatestChannelState channelId)).map some

/-- `Tx.from_hex` reads what `to_hex` writes. -/
def ReadsHex (B : Bitcoinx) : Prop := ∀ tx, B.txFromHex (hex (B.txToBytes tx)) = some tx

/-- The channel as it comes back from the store, in this state: the value of its first parent output
is kept, the script is not. -/
def Channel.reloaded (ch : Channel) (s : State) : Channel :=
  { ch with
    fundingUtxos := ch.fundingUtxos.head?.toList.map fun utxo => ⟨utxo.value,[.op .opTrue]⟩
    state := s }

section Recover
variable {B : Bitcoinx} {store : SystemStore} {ch : Channel} {cfg : ChannelConfig} {kb : KeyBook}
  {s : State} {row : ChannelMeta} {c : Bytes}

theorem counterparties_eq_map {pubs : List PublicKey} (i : ℕ) :
    counterparties pubs i = (others pubs.length i).map fun j => pubs.getD j ⟨[]⟩ := by
  rw [counterparties,← List.filterMap_eq_map]
  refine List.filterMap_congr fun j hj => ?_
  have hlt := (mem_others.mp hj).1
  simp [hlt]

theorem recoverBond_eq (hn : kb.n = cfg.n) (tx : Tx) {i : ℕ} (hi : i < cfg.n) :
    recoverBond B cfg (kb.publicKeys B) tx i = .ok (Channel.bondOutputOf B cfg kb tx i) := by
  have hlen : (kb.publicKeys B).length = cfg.n := (length_publicKeys B kb).trans hn
  have hlt : i < (kb.publicKeys B).length := by rwa [hlen]
  have hcp : (others cfg.n i).mapM (fun j =>
      match (kb.publicKeys B)[j]? with
      | none => .error ⟨.indexError,"list index out of range"⟩
      | some pk => .ok pk) = (.ok (counterparties (kb.publicKeys B) i) : Except Fault _) := by
    rw [counterparties_eq_map,hlen]
    refine mapM_eq_ok fun j hj => ?_
    have hj' : j < (kb.publicKeys B).length := by
      rw [hlen]
      exact (mem_others.mp hj).1
    simp [hj']
  have hlock := bondLock_of_lt (B := B) hn hi
  rw [bondLock,List.getElem?_eq_getElem hlt] at hlock
  rw [recoverBond,hcp]
  simp only [bind,Except.bind,List.getElem?_eq_getElem hlt,hlock,bondValue_of_lt hi]
  rfl

theorem recoverBonds_eq (hn : kb.n = cfg.n) (tx : Tx) :
    (List.range cfg.n).mapM (recoverBond B cfg (kb.publicKeys B) tx) =
      .ok ((List.range cfg.n).map (Channel.bondOutputOf B cfg kb tx)) :=
  mapM_eq_ok fun _ hi => recoverBond_eq hn tx (List.mem_range.mp hi)

/-- A row that a channel has written gives this channel back, in the latest stored state. -/
theorem recoverRow_eq (hread : ReadsHex B) (hch : ch.Canonical B) (hrow : ch.metaRow B = .ok row)
    (latest : Option (ℕ × StateDoc)) :
    recoverRow B row latest = (recoverState ch.cfg latest).map ch.reloaded := by
  unfold Channel.metaRow at hrow
  split at hrow
  · cases hrow
  · rename_i utxo rest hutxos
    cases hrow
    have hkeys : (ch.keybook.keys.map PrivateKey.toBytes).map PrivateKey.mk = ch.keybook.keys := by
      rw [List.map_map]
      exact List.map_id _
    have hbonds := recoverBonds_eq (B := B) hch.keys ch.fundingTx
    rw [← hch.bonds] at hbonds
    have hhex : B.txFromHex (hex (B.txToBytes ch.fundingTx)) = some ch.fundingTx := hread _
    simp only [recoverRow,ConfigDoc.decode,Channel.configDoc,ch.cfg.make_self,hkeys,bind,Except.bind,hhex,
      hbonds]
    cases recoverState ch.cfg latest with
    | error e => rfl
    | ok s =>
      simp only [Except.map,Channel.reloaded,hutxos]
      rfl

/-- The values of a state pass the checks of `State(..)`. -/
theorem make_stateDoc (s : State) :
    State.make (Channel.stateDoc s).balances (Channel.stateDoc s).version = .ok s := s.make_self

theorem recoverState_of_conserving (hs : s.Conserving cfg) (version : ℕ) :
    recoverState cfg (some (version,Channel.stateDoc s)) = .ok s := by
  simp only [recoverState,make_stateDoc]
  change (s.conservationCheck cfg).bind (fun _ => .ok s) = .ok s
  rw [hs.check]
  rfl

theorem recoverState_stateDoc {s' : State} {version : ℕ}
    (h : recoverState cfg (some (version,Channel.stateDoc s)) = .ok s') :
    s' = s ∧ s.Conserving cfg := by
  simp only [recoverState,make_stateDoc] at h
  obtain ⟨_,hmake,h⟩ := bind_eq_ok.mp h
  cases hmake
  obtain ⟨_,hc,h⟩ := bind_eq_ok.mp h
  cases h
  exact ⟨rfl,State.conservationCheck_ok_iff.mp hc⟩

/-- What comes back from the store is in canonical form and can be written again. -/
theorem Channel.Canonical.reloaded (hch : ch.Canonical B) (hs : s.Conserving ch.cfg) :
    (ch.reloaded s).Canonical B := ⟨hch.keys,hch.outputs,hch.bonds,hs⟩

/-- The row determines all of a reloaded channel but its state, and the other way round. -/
theorem metaRow_of_reloaded {ch' : Channel} {row' : ChannelMeta} {s' : State}
    (hrow : ch.metaRow B = .ok row) (hrow' : ch'.metaRow B = .ok row')
    (h : ch.reloaded s = ch'.reloaded s') : row = row' := by
  unfold Channel.metaRow at hrow hrow'
  split at hrow
  · cases hrow
  · rename_i utxo rest hutxos
    split at hrow'
    · cases hrow'
    · rename_i utxo' rest' hutxos'
      cases hrow
      cases hrow'
      simp only [Channel.reloaded,hutxos,hutxos',List.head?_cons,Option.toList_some,List.map_cons,
        List.map_nil,Channel.mk.injEq,List.cons.injEq,TxOutput.mk.injEq,and_true] at h
      obtain ⟨hcfg,hkeys,htx,hvalue,hconf,_⟩ := h
      rw [hcfg,hkeys,htx,hvalue,hconf]

end Recover
end SubsatChannel
