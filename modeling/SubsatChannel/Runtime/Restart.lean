import SubsatChannel.Runtime.Durability

/-! Restarts: the set of closed channels lives in memory only, so a channel stays closed until a later
process loads it again. -/
namespace SubsatChannel
open Transition

/-- The operations of a process on the store, and its end. -/
inductive ManagerOp
  | add (ch : Channel)
  | applyTransfer (channelId : Bytes) (sender recipient delta : ℤ)
  | cooperativeClose (channelId : Bytes)
  /-- A new manager on the same store. -/
  | restart
  /-- `recover_channel` and `add`. -/
  | reload (channelId : Bytes)

inductive OpAnswer
  | done
  | version (v : ℕ)
  | closed (close : CloseTx)
  | raised (e : Fault)

namespace ChannelManager

/-- `recover_channel` and, if there is a channel, `add`. -/
def reload (B : Bitcoinx) (m : ChannelManager) (channelId : Bytes) :
    ChannelManager × Except Fault Unit :=
  match recoverChannel B m.store channelId with
  | .error e => (m,.error e)
  | .ok none => (m,.ok ())
  | .ok (some ch) => ((m.add B ch).1,(m.add B ch).2.map fun _ => ())

def call (B : Bitcoinx) (m : ChannelManager) : ManagerOp → ChannelManager × OpAnswer
  | .add ch => ((m.add B ch).1,match (m.add B ch).2 with | .error e => .raised e | .ok _ => .done)
  | .applyTransfer c s r d => ((m.applyTransfer B c s r d).1,
    match (m.applyTransfer B c s r d).2 with | .error e => .raised e | .ok v => .version v)
  | .cooperativeClose c => ((m.cooperativeClose B c).1,
    match (m.cooperativeClose B c).2 with | .error e => .raised e | .ok close => .closed close)
  | .restart => (.fresh m.store,.done)
  | .reload c => ((m.reload B c).1,match (m.reload B c).2 with | .error e => .raised e | .ok _ => .done)

end ChannelManager

/-- A channel that is added is registered already, or it is a channel with a parent output of which
nothing is stored. A stored channel comes back with `reload`. -/
def AddsNew (B : Bitcoinx) (m : ChannelManager) : ManagerOp → Prop
  | .add ch => (∃ old, m.channels.get? (ch.fundingTxid B) = some old) ∨
    ch.Obtained B ∧ ch.fundingUtxos ≠ [] ∧ m.store.rows (ch.fundingTxid B) = (none,fun _ => none)
  | _ => True

/-- The store holds a channel: its row, and states that are allocations of it. -/
structure StoreHolds (B : Bitcoinx) (store : SystemStore) (ch : Channel) : Prop where
  canonical : ch.Canonical B
  row : ∃ row, ch.metaRow B = .ok row ∧ (store.rows (ch.fundingTxid B)).1 = some row
  states : ∀ v doc, (store.rows (ch.fundingTxid B)).2 v = some doc →
    ∃ s : State, doc = Channel.stateDoc s ∧ s.Conserving ch.cfg

/-- Every registered channel is held by the store, and everything in the store is held. -/
structure Kept (B : Bitcoinx) (m : ChannelManager) : Prop where
  locks : ∀ c, c ∈ m.locks ↔ ∃ ch, m.channels.get? c = some ch
  live : ∀ c ch, m.channels.get? c = some ch → ch.fundingTxid B = c ∧ StoreHolds B m.store ch
  stored : ∀ c row, (m.store.rows c).1 = some row → ∃ ch, ch.fundingTxid B = c ∧ StoreHolds B m.store ch

section StoreHolds
variable {B : Bitcoinx} {store : SystemStore} {ch ch' : Channel} {row : ChannelMeta}

/-- Writing a channel leaves it held. -/
theorem StoreHolds.written (hch : ch.Canonical B) (hrow : ch.metaRow B = .ok row)
    (hold : ∀ v doc, (store.rows (ch.fundingTxid B)).2 v = some doc →
      ∃ s : State, doc = Channel.stateDoc s ∧ s.Conserving ch.cfg) :
    StoreHolds B (persistState B (store.putChannelMeta (ch.fundingTxid B) row) ch) ch where
  canonical := hch
  row := ⟨row,hrow,by rw [rows_persist]⟩
  states v doc hdoc := by
    rw [rows_persist] at hdoc
    simp only [Function.update_apply] at hdoc
    split_ifs at hdoc
    · exact ⟨ch.state,(Option.some.inj hdoc).symm,hch.conserving⟩
    · exact hold v doc hdoc

/-- Writing another channel leaves it held. -/
theorem StoreHolds.frame (h : StoreHolds B store ch) {store' : SystemStore}
    (hrows : store'.rows (ch.fundingTxid B) = store.rows (ch.fundingTxid B)) : StoreHolds B store' ch :=
  ⟨h.canonical,by rw [hrows]; exact h.row,by rw [hrows]; exact h.states⟩

theorem rows_written_of_ne {c : Bytes} (h : ch.fundingTxid B ≠ c) :
    (persistState B (store.putChannelMeta (ch.fundingTxid B) row) ch).rows c = store.rows c := by
  rw [rows_persistState_of_ne h,SystemStore.rows_putChannelMeta_of_ne _ h]

/-- A held channel comes back from the store. -/
theorem StoreHolds.recovered (hread : ReadsHex B) (h : StoreHolds B store ch) :
    ∃ s : State, s.Conserving ch.cfg ∧
      recoverChannel B store (ch.fundingTxid B) = .ok (some (ch.reloaded s)) := by
  obtain ⟨row,hrow,hstored⟩ := h.row
  have hget : store.getChannelMeta (ch.fundingTxid B) = some row := hstored
  have hrec : ∀ latest s, store.getLatestChannelState (ch.fundingTxid B) = latest →
      recoverState ch.cfg latest = .ok s →
      recoverChannel B store (ch.fundingTxid B) = .ok (some (ch.reloaded s)) := by
    intro latest s hl hs
    simp only [recoverChannel,hget,hl,recoverRow_eq hread h.canonical hrow,hs]
    rfl
  cases hl : store.getLatestChannelState (ch.fundingTxid B) with
  | none =>
    exact ⟨_,Channel.conserving_initial ch.cfg,hrec none _ hl (Channel.initialState_zero ch.cfg)⟩
  | some p =>
    obtain ⟨version,doc⟩ := p
    obtain ⟨s,rfl,hs⟩ := h.states version doc (store.getLatestChannelState_eq_some.mp hl).1
    exact ⟨s,hs,hrec _ s hl (recoverState_of_conserving hs version)⟩

/-- A reloaded channel is written to the same row. -/
theorem metaRow_reloaded {s : State} (h : ch.metaRow B = .ok row) :
    (ch.reloaded s).metaRow B = .ok row := by
  unfold Channel.metaRow at h ⊢
  split at h
  · cases h
  · rename_i utxo rest hutxos
    cases h
    simp only [Channel.reloaded,hutxos]
    rfl

/-- A transfer of nothing between the first two parties is accepted. -/
theorem Channel.Canonical.transfers (hch : ch.Canonical B) :
    ∃ ch', ch.applyTransfer 0 1 0 = .ok ch' := by
  have htwo := ch.cfg.two_le_n
  obtain ⟨a,b,l,hl⟩ : ∃ a b l, ch.state.balances = a :: b :: l := by
    have hlen := hch.conserving.length
    match hb : ch.state.balances with
    | [] | [_] => rw [hb] at hlen; simp only [List.length_cons,List.length_nil] at hlen; omega
    | a :: b :: l => exact ⟨a,b,l,rfl⟩
  have hs : State.Conserving ⟨a :: b :: l,ch.state.version + 1⟩ ch.cfg :=
    ⟨by rw [← hl]; exact hch.conserving.total,by rw [← hl]; exact hch.conserving.length⟩
  have hn : (1 : ℤ) < ch.cfg.n := by omega
  have hpos : ch.cfg.n ≠ 0 := by omega
  have ha : ¬ (a : ℤ) < 0 := by omega
  have ht : transfer ch.state 0 1 0 ch.cfg = .ok ⟨a :: b :: l,ch.state.version + 1⟩ := by
    simp [transfer,hl,hn,hpos,ha,hs.check]
    rfl
  exact ⟨_,by rw [Channel.applyTransfer,ht]; rfl⟩

end StoreHolds

section Kept
variable {B : Bitcoinx} {m m' : ChannelManager} {ch ch' : Channel} {c : Bytes} {row : ChannelMeta}

/-- The channel at its place in the registry is replaced by one that is then written. -/
theorem Kept.write (h : Kept B m) (hch : ch.Canonical B) (hrow : ch.metaRow B = .ok row)
    (hold : ∀ v doc, (m.store.rows (ch.fundingTxid B)).2 v = some doc →
      ∃ s : State, doc = Channel.stateDoc s ∧ s.Conserving ch.cfg)
    (hstore : m'.store = persistState B (m.store.putChannelMeta (ch.fundingTxid B) row) ch)
    (hchannels : ∀ d, m'.channels.get? d =
      if ch.fundingTxid B = d then some ch else m.channels.get? d)
    (hlocks : ∀ d, d ∈ m'.locks ↔ d = ch.fundingTxid B ∨ d ∈ m.locks) : Kept B m' where
  locks d := by
    rw [hlocks,h.locks,hchannels]
    split_ifs with hd
    · exact ⟨fun _ => ⟨ch,rfl⟩,fun _ => .inl hd.symm⟩
    · exact ⟨fun hor => hor.resolve_left (Ne.symm hd),.inr⟩
  live d ch' hget := by
    rw [hchannels] at hget
    rw [hstore]
    split_ifs at hget with hd
    · cases hget
      exact ⟨hd,.written hch hrow hold⟩
    · obtain ⟨hkey,hheld⟩ := h.live d ch' hget
      refine ⟨hkey,hheld.frame (rows_written_of_ne ?_)⟩
      rwa [hkey]
  stored d row' hrow' := by
    rw [hstore] at hrow' ⊢
    by_cases hd : ch.fundingTxid B = d
    · exact ⟨ch,hd,.written hch hrow hold⟩
    · rw [rows_written_of_ne hd] at hrow'
      obtain ⟨ch',hkey,hheld⟩ := h.stored d row' hrow'
      refine ⟨ch',hkey,hheld.frame (rows_written_of_ne ?_)⟩
      rwa [hkey]

theorem Kept.restart (h : Kept B m) : Kept B (.fresh m.store) where
  locks _ := by simp [ChannelManager.fresh]
  live _ _ hget := by cases hget
  stored := h.stored

/-- Registering a channel that is not registered yet. -/
theorem add_new (hrow : ch.metaRow B = .ok row) (hnew : m.channels.get? (ch.fundingTxid B) = none) :
    m.add B ch = (⟨persistState B (m.store.putChannelMeta (ch.fundingTxid B) row) ch,
      m.channels.set (ch.fundingTxid B) ch,ch.fundingTxid B :: m.locks,m.closedChannels⟩,
      .ok (ch.fundingTxid B)) := by
  simp only [ChannelManager.add,hnew,persistChannel_of_row hrow]

theorem add_known (hold : m.channels.get? (ch.fundingTxid B) = some ch') :
    ∃ e, m.add B ch = (m,.error e) := by
  simp only [ChannelManager.add,hold]
  exact ⟨_,rfl⟩

theorem Kept.add (h : Kept B m) (hch : ch.Canonical B) (hrow : ch.metaRow B = .ok row)
    (hold : ∀ v doc, (m.store.rows (ch.fundingTxid B)).2 v = some doc →
      ∃ s : State, doc = Channel.stateDoc s ∧ s.Conserving ch.cfg) : Kept B (m.add B ch).1 := by
  cases hget : m.channels.get? (ch.fundingTxid B) with
  | some old =>
    obtain ⟨e,hadd⟩ := add_known hget
    rw [hadd]
    exact h
  | none =>
    rw [add_new hrow hget]
    exact h.write hch hrow hold rfl (fun d => Dict.get?_set _ _ _ _) fun d => List.mem_cons

/-- What can come of an operation on a registered channel. -/
theorem locked_cases {α : Type} (h : Kept B m) (block : Channel → ChannelManager × Except Fault α) :
    (c ∉ m.locks ∧ ∃ e, m.locked c block = (m,.error e)) ∨
    ∃ ch, m.channels.get? c = some ch ∧ m.locked c block = block ch := by
  unfold ChannelManager.locked
  by_cases hc : c ∈ m.locks
  · obtain ⟨ch,hget⟩ := (h.locks c).mp hc
    rw [if_neg (not_not.mpr hc),hget]
    exact .inr ⟨ch,rfl,rfl⟩
  · rw [if_pos hc]
    exact .inl ⟨hc,_,rfl⟩

/-- A transfer is refused and changes nothing, or the channel is open and the transfer is written. -/
theorem Kept.applyTransfer (h : Kept B m) (s r d : ℤ) :
    (∃ e, m.applyTransfer B c s r d = (m,.error e)) ∨
    ∃ ch ch' row store, m.channels.get? c = some ch ∧ c ∉ m.closedChannels ∧
      ch.applyTransfer s r d = .ok ch' ∧ ch'.metaRow B = .ok row ∧ ch'.fundingTxid B = c ∧
      store = persistState B (m.store.putChannelMeta c row) ch' ∧
      m.applyTransfer B c s r d = ({ m with channels := m.channels.set c ch', store := store },
        .ok ch'.state.version) := by
  unfold ChannelManager.applyTransfer
  split_ifs with hclosed
  · exact .inl ⟨_,rfl⟩
  · rcases locked_cases h _ with ⟨_,e,he⟩ | ⟨ch,hget,hblock⟩
    · exact .inl ⟨e,he⟩
    · rw [hblock]
      cases ht : ch.applyTransfer s r d with
      | error e => exact .inl ⟨e,rfl⟩
      | ok ch' =>
        obtain ⟨hkey,hheld⟩ := h.live c ch hget
        obtain ⟨row,hrow,_⟩ := hheld.row
        obtain ⟨_,_,hsame⟩ := Process.applyTransfer_next hheld.canonical ht
        obtain ⟨state,rfl⟩ := Channel.applyTransfer_ok ht
        refine .inr ⟨ch,_,row,_,hget,hclosed,ht,hsame.trans hrow,hkey,rfl,?_⟩
        dsimp only
        rw [persistChannel_of_row (hsame.trans hrow)]
        subst hkey
        rfl

/-- A close is refused and changes nothing, or it closes the channel and writes it. -/
theorem Kept.cooperativeClose (h : Kept B m) :
    (∃ e, m.cooperativeClose B c = (m,.error e)) ∨
    ∃ ch row close store, m.channels.get? c = some ch ∧ c ∉ m.closedChannels ∧
      ch.metaRow B = .ok row ∧ ch.fundingTxid B = c ∧
      store = persistState B (m.store.putChannelMeta c row) ch ∧
      m.cooperativeClose B c =
        ({ m with closedChannels := c :: m.closedChannels, store := store },.ok close) := by
  unfold ChannelManager.cooperativeClose
  rcases locked_cases h _ with ⟨_,e,he⟩ | ⟨ch,hget,hblock⟩
  · exact .inl ⟨e,he⟩
  · rw [hblock]
    dsimp only
    split_ifs with hclosed
    · exact .inl ⟨_,rfl⟩
    · cases hclose : ch.cooperativeClose B none with
      | error e => exact .inl ⟨e,rfl⟩
      | ok close =>
        obtain ⟨hkey,hheld⟩ := h.live c ch hget
        obtain ⟨row,hrow,_⟩ := hheld.row
        refine .inr ⟨ch,row,close,_,hget,hclosed,hrow,hkey,rfl,?_⟩
        dsimp only
        rw [persistChannel_of_row hrow]
        subst hkey
        rfl

/-- A channel that is registered and not closed takes transfers. -/
theorem Kept.transfers (h : Kept B m) (hget : m.channels.get? c = some ch)
    (hopen : c ∉ m.closedChannels) : ∃ v, (m.applyTransfer B c 0 1 0).2 = .ok v := by
  obtain ⟨hkey,hheld⟩ := h.live c ch hget
  obtain ⟨ch',ht⟩ := hheld.canonical.transfers
  obtain ⟨row,hrow,_⟩ := hheld.row
  obtain ⟨_,_,hsame⟩ := Process.applyTransfer_next hheld.canonical ht
  have hlock : c ∈ m.locks := (h.locks c).mpr ⟨ch,hget⟩
  refine ⟨ch'.state.version,?_⟩
  simp only [ChannelManager.applyTransfer,if_neg hopen,ChannelManager.locked,not_not.mpr hlock,if_false,
    hget,ht,persistChannel_of_row (hsame.trans hrow)]

end Kept

/-- What an operation can do to a manager. -/
inductive Called (B : Bitcoinx) (m : ChannelManager) : ManagerOp → ChannelManager → Prop
  | unchanged {op : ManagerOp} : Called B m op m
  | registered {op : ManagerOp} {ch : Channel} {row : ChannelMeta} (hch : ch.Canonical B)
      (hrow : ch.metaRow B = .ok row)
      (hold : ∀ v doc, (m.store.rows (ch.fundingTxid B)).2 v = some doc →
        ∃ s : State, doc = Channel.stateDoc s ∧ s.Conserving ch.cfg)
      (hop : (m.store.rows (ch.fundingTxid B)).1 = none ∨ op = .reload (ch.fundingTxid B)) :
      Called B m op ⟨persistState B (m.store.putChannelMeta (ch.fundingTxid B) row) ch,
        m.channels.set (ch.fundingTxid B) ch,ch.fundingTxid B :: m.locks,m.closedChannels⟩
  | transferred {op : ManagerOp} {ch ch' : Channel} {row : ChannelMeta}
      (hget : m.channels.get? (ch'.fundingTxid B) = some ch) (hch : ch'.Canonical B)
      (hcfg : ch'.cfg = ch.cfg) (hid : ch'.fundingTxid B = ch.fundingTxid B)
      (hrow : ch'.metaRow B = .ok row) :
      Called B m op ⟨persistState B (m.store.putChannelMeta (ch'.fundingTxid B) row) ch',
        m.channels.set (ch'.fundingTxid B) ch',m.locks,m.closedChannels⟩
  | closed {op : ManagerOp} {ch : Channel} {row : ChannelMeta}
      (hget : m.channels.get? (ch.fundingTxid B) = some ch) (hrow : ch.metaRow B = .ok row) :
      Called B m op ⟨persistState B (m.store.putChannelMeta (ch.fundingTxid B) row) ch,
        m.channels,m.locks,ch.fundingTxid B :: m.closedChannels⟩
  | restarted : Called B m .restart (.fresh m.store)

section Called
variable {B : Bitcoinx} {m m' : ChannelManager} {c : Bytes} {op : ManagerOp}

theorem Kept.called (hread : ReadsHex B) (h : Kept B m) (hnew : AddsNew B m op) :
    Called B m op (m.call B op).1 := by
  cases op with
  | add ch =>
    rcases hnew with ⟨old,hold⟩ | ⟨hch,hutxos,hrows⟩
    · obtain ⟨e,he⟩ := add_known hold
      simp only [ChannelManager.call,he]
      exact .unchanged
    · obtain ⟨row,hrow⟩ := metaRow_ok_iff.mpr hutxos
      cases hget : m.channels.get? (ch.fundingTxid B) with
      | some old =>
        obtain ⟨e,he⟩ := add_known hget
        simp only [ChannelManager.call,he]
        exact .unchanged
      | none =>
        simp only [ChannelManager.call,add_new hrow hget]
        refine .registered hch.canonical hrow (fun v doc hdoc => ?_) (.inl (by rw [hrows]))
        rw [hrows] at hdoc
        cases hdoc
  | applyTransfer d s r x =>
    simp only [ChannelManager.call]
    rcases h.applyTransfer s r x with ⟨e,he⟩ | ⟨ch,ch',row,store,hget,_,ht,hrow,hkey,rfl,he⟩
    · rw [he]
      exact .unchanged
    · rw [he]
      subst hkey
      obtain ⟨hid,hheld⟩ := h.live _ ch hget
      obtain ⟨hch,_,_⟩ := Process.applyTransfer_next hheld.canonical ht
      refine .transferred hget hch ?_ hid.symm hrow
      obtain ⟨state,rfl⟩ := Channel.applyTransfer_ok ht
      rfl
  | cooperativeClose d =>
    simp only [ChannelManager.call]
    rcases h.cooperativeClose (c := d) with ⟨e,he⟩ | ⟨ch,row,close,store,hget,_,hrow,hkey,rfl,he⟩
    · rw [he]
      exact .unchanged
    · rw [he]
      subst hkey
      exact .closed hget hrow
  | restart => exact .restarted
  | reload d =>
    simp only [ChannelManager.call,ChannelManager.reload]
    cases hrow : (m.store.rows d).1 with
    | none =>
      have hget : m.store.getChannelMeta d = none := hrow
      simp only [recoverChannel,hget]
      exact .unchanged
    | some row =>
      obtain ⟨ch,rfl,hheld⟩ := h.stored d row hrow
      obtain ⟨s,hs,hrec⟩ := hheld.recovered hread
      obtain ⟨row',hrow',_⟩ := hheld.row
      have hback := metaRow_reloaded (s := s) hrow'
      simp only [hrec]
      cases hget : m.channels.get? (ch.fundingTxid B) with
      | some old =>
        have hget' : m.channels.get? ((ch.reloaded s).fundingTxid B) = some old := hget
        obtain ⟨e,he⟩ := add_known hget'
        simp only [he]
        exact .unchanged
      | none =>
        have hadd := add_new hback hget
        simp only [hadd]
        exact .registered (hheld.canonical.reloaded hs) hback hheld.states (.inr rfl)

theorem Kept.step (h : Kept B m) (hc : Called B m op m') : Kept B m' := by
  cases hc with
  | unchanged => exact h
  | registered hch hrow hold _ =>
    exact h.write hch hrow hold rfl (fun d => Dict.get?_set _ _ _ _) fun d => List.mem_cons
  | @transferred _ ch ch' row hget hch hcfg hid hrow =>
    obtain ⟨_,hheld⟩ := h.live _ ch hget
    refine h.write hch hrow ?_ rfl (fun d => Dict.get?_set _ _ _ _) fun d => ?_
    · rw [hcfg,hid]
      exact hheld.states
    · refine ⟨.inr,fun hd => hd.elim ?_ id⟩
      rintro rfl
      exact (h.locks _).mpr ⟨ch,hget⟩
  | @closed _ ch row hget hrow =>
    obtain ⟨_,hheld⟩ := h.live _ ch hget
    refine h.write hheld.canonical hrow hheld.states rfl (fun d => ?_) fun d => ?_
    · split_ifs with hd
      · subst hd
        exact hget
      · rfl
    · refine ⟨.inr,fun hd => hd.elim ?_ id⟩
      rintro rfl
      exact (h.locks _).mpr ⟨ch,hget⟩
  | restarted => exact h.restart

/-- A row stays in the store. -/
theorem Called.stored (hc : Called B m op m') (h : (m.store.rows c).1 ≠ none) :
    (m'.store.rows c).1 ≠ none := by
  have hwrite : ∀ (ch : Channel) (row : ChannelMeta),
      ((persistState B (m.store.putChannelMeta (ch.fundingTxid B) row) ch).rows c).1 ≠ none := by
    intro ch row
    by_cases hd : ch.fundingTxid B = c
    · subst hd
      rw [rows_persist]
      exact Option.some_ne_none row
    · rwa [rows_written_of_ne hd]
  cases hc with
  | unchanged | restarted => exact h
  | registered | transferred | closed => exact hwrite _ _

/-- Only a restart opens a closed channel. -/
theorem Called.closed_of_closed (hc : Called B m op m') (hop : op ≠ .restart)
    (h : c ∈ m.closedChannels) : c ∈ m'.closedChannels := by
  cases hc with
  | unchanged | registered | transferred => exact h
  | closed => exact List.mem_cons_of_mem _ h
  | restarted => exact absurd rfl hop

/-- Neither registered nor closed in this process, but stored. -/
structure Dormant (m : ChannelManager) (c : Bytes) : Prop where
  unregistered : c ∉ m.locks
  unclosed : c ∉ m.closedChannels
  stored : (m.store.rows c).1 ≠ none

/-- Only a reload registers a stored channel. -/
theorem Dormant.step (h : Dormant m c) (hkept : Kept B m) (hc : Called B m op m')
    (hop : op ≠ .reload c) : Dormant m' c := by
  refine ⟨?_,?_,hc.stored h.stored⟩
  · cases hc with
    | unchanged | transferred | closed => exact h.unregistered
    | registered _ _ _ hnew =>
      refine List.not_mem_cons_of_ne_of_not_mem ?_ h.unregistered
      rintro rfl
      exact hnew.elim h.stored hop
    | restarted => exact List.not_mem_nil
  · cases hc with
    | unchanged | transferred | registered => exact h.unclosed
    | @closed _ ch _ hget _ =>
      refine List.not_mem_cons_of_ne_of_not_mem ?_ h.unclosed
      rintro rfl
      exact h.unregistered ((hkept.locks _).mpr ⟨ch,hget⟩)
    | restarted => exact List.not_mem_nil

end Called

/-- Every transfer and every close of the channel is refused and changes nothing. -/
structure Shut (B : Bitcoinx) (m : ChannelManager) (c : Bytes) : Prop where
  transfer : ∀ s r d, ∃ e, m.call B (.applyTransfer c s r d) = (m,.raised e)
  close : ∃ e, m.call B (.cooperativeClose c) = (m,.raised e)

/-- The channel is loaded from the store at some time after a restart. -/
def Reopened (c : Bytes) (ops : List ManagerOp) : Prop :=
  ∃ pre post, ops = pre ++ .reload c :: post ∧ .restart ∈ pre

section Runs
variable {B : Bitcoinx} {m : ChannelManager} {c : Bytes} {ops : List ManagerOp}

theorem Kept.shut (h : Kept B m) (hc : c ∈ m.closedChannels ∨ c ∉ m.locks) : Shut B m c where
  transfer s r d := by
    simp only [ChannelManager.call]
    rcases h.applyTransfer (c := c) s r d with ⟨e,he⟩ | ⟨ch,_,_,_,hget,hopen,_⟩
    · exact ⟨e,by rw [he]⟩
    · exact absurd ((h.locks c).mpr ⟨ch,hget⟩) (hc.resolve_left hopen)
  close := by
    simp only [ChannelManager.call]
    rcases h.cooperativeClose (c := c) with ⟨e,he⟩ | ⟨ch,_,_,_,hget,hopen,_⟩
    · exact ⟨e,by rw [he]⟩
    · exact absurd ((h.locks c).mpr ⟨ch,hget⟩) (hc.resolve_left hopen)

/-- A channel that is registered and not closed is not shut. -/
theorem Shut.closed (h : Shut B m c) (hkept : Kept B m) {ch : Channel}
    (hget : m.channels.get? c = some ch) : c ∈ m.closedChannels := by
  by_contra hopen
  obtain ⟨v,hv⟩ := hkept.transfers hget hopen
  obtain ⟨e,he⟩ := h.transfer 0 1 0
  simp only [ChannelManager.call,hv,Prod.mk.injEq] at he
  exact absurd he.2 (by simp)

theorem kept_fresh : Kept B (.fresh .fresh) where
  locks _ := by simp [ChannelManager.fresh]
  live _ _ hget := by cases hget
  stored _ _ hrow := by cases hrow

theorem Kept.run (hread : ReadsHex B) (h : Kept B m)
    (hnew : Along (ChannelManager.call B) (AddsNew B) m ops) : Kept B (run (ChannelManager.call B) m ops) :=
  run_invariant (fun _ _ hk ha => hk.step (hk.called hread ha)) h hnew

theorem stored_run (hread : ReadsHex B) (h : Kept B m)
    (hnew : Along (ChannelManager.call B) (AddsNew B) m ops) (hs : (m.store.rows c).1 ≠ none) :
    ((run (ChannelManager.call B) m ops).store.rows c).1 ≠ none := by
  have keep : ∀ n op, (Kept B n ∧ (n.store.rows c).1 ≠ none) → AddsNew B n op →
      Kept B (n.call B op).1 ∧ ((n.call B op).1.store.rows c).1 ≠ none := by
    intro n op hn ha
    have hcalled := hn.1.called hread ha
    exact ⟨hn.1.step hcalled,hcalled.stored hn.2⟩
  exact (run_invariant (I := fun n => Kept B n ∧ (n.store.rows c).1 ≠ none) keep ⟨h,hs⟩ hnew).2

/-- A closed channel stays closed until the next restart. -/
theorem closed_run (hread : ReadsHex B) (h : Kept B m)
    (hnew : Along (ChannelManager.call B) (AddsNew B) m ops) (hops : .restart ∉ ops)
    (hc : c ∈ m.closedChannels) : c ∈ (run (ChannelManager.call B) m ops).closedChannels := by
  induction ops generalizing m with
  | nil => exact hc
  | cons op ops ih =>
    have hop := List.ne_of_not_mem_cons hops
    have hops := List.not_mem_of_not_mem_cons hops
    have hcalled := h.called hread hnew.1
    exact ih (h.step hcalled) hnew.2 hops (hcalled.closed_of_closed (Ne.symm hop) hc)

/-- A dormant channel stays dormant until it is loaded. -/
theorem Dormant.run (hread : ReadsHex B) (h : Kept B m)
    (hnew : Along (ChannelManager.call B) (AddsNew B) m ops) (hops : .reload c ∉ ops)
    (hd : Dormant m c) : Dormant (run (ChannelManager.call B) m ops) c := by
  induction ops generalizing m with
  | nil => exact hd
  | cons op ops ih =>
    have hop := List.ne_of_not_mem_cons hops
    have hops := List.not_mem_of_not_mem_cons hops
    have hcalled := h.called hread hnew.1
    exact ih (h.step hcalled) hnew.2 hops (hd.step h hcalled (Ne.symm hop))

/-- After a restart every stored channel is dormant. -/
theorem dormant_restart (h : (m.store.rows c).1 ≠ none) : Dormant (m.call B .restart).1 c :=
  ⟨List.not_mem_nil,List.not_mem_nil,h⟩

/-- Loading a dormant channel registers it, and it is open. -/
theorem Dormant.reload (hread : ReadsHex B) (h : Kept B m) (hd : Dormant m c) :
    c ∉ (m.call B (.reload c)).1.closedChannels ∧
    ∃ ch, (m.call B (.reload c)).1.channels.get? c = some ch := by
  obtain ⟨row,hrow⟩ := Option.ne_none_iff_exists'.mp hd.stored
  obtain ⟨ch,rfl,hheld⟩ := h.stored c row hrow
  obtain ⟨s,_,hrec⟩ := hheld.recovered hread
  obtain ⟨row',hrow',_⟩ := hheld.row
  have hnone : m.channels.get? (ch.fundingTxid B) = none := by
    by_contra hget
    exact hd.unregistered ((h.locks _).mpr (Option.ne_none_iff_exists'.mp hget))
  have hback := metaRow_reloaded (s := s) hrow'
  have hadd := add_new hback hnone
  simp only [ChannelManager.call,ChannelManager.reload,hrec,hadd]
  exact ⟨hd.unclosed,_,Dict.get?_set_self _ _ _⟩

theorem run_restart_reload {ch : Channel} (h : recoverChannel B m.store c = .ok (some ch)) :
    run (ChannelManager.call B) m [.restart,.reload c] =
      ((ChannelManager.fresh m.store).add B ch).1 := by
  have hrec : recoverChannel B (ChannelManager.fresh m.store).store c = .ok (some ch) := h
  simp only [run_cons,run_nil,ChannelManager.call,ChannelManager.reload,hrec]

/-- The row of a closed channel is in the store. -/
theorem closed_stored (h : Kept B m) {close : CloseTx}
    (hclose : (m.call B (.cooperativeClose c)).2 = .closed close) :
    c ∈ (m.call B (.cooperativeClose c)).1.closedChannels ∧
    ((m.call B (.cooperativeClose c)).1.store.rows c).1 ≠ none := by
  simp only [ChannelManager.call] at hclose ⊢
  rcases h.cooperativeClose (c := c) with ⟨e,he⟩ | ⟨ch,row,_,_,_,_,hrow,hkey,rfl,he⟩
  · rw [he] at hclose
    cases hclose
  · rw [he]
    subst hkey
    refine ⟨List.mem_cons_self,?_⟩
    dsimp only
    rw [rows_persist]
    exact Option.some_ne_none row

end Runs

/-- In every run of registrations, transfers, closes, restarts and reloads: after a close every
transfer and every close of the channel is refused and changes nothing, at every later time, exactly
when the channel is not loaded from the store after a restart. -/
theorem closed_until_reopened {B : Bitcoinx} (hread : ReadsHex B) {before after : List ManagerOp}
    {c : Bytes} {close : CloseTx} {m : ChannelManager}
    (hm : m = run (ChannelManager.call B) (.fresh .fresh) before)
    (hclose : (m.call B (.cooperativeClose c)).2 = .closed close)
    (hnew : Along (ChannelManager.call B) (AddsNew B) (.fresh .fresh)
      (before ++ .cooperativeClose c :: after)) :
    (∀ later, later <+: after →
      Shut B (run (ChannelManager.call B) (m.call B (.cooperativeClose c)).1 later) c) ↔
    ¬ Reopened c after := by
  rw [along_append,← hm] at hnew
  obtain ⟨hbefore,hadd,hafter⟩ := hnew
  have hkept : Kept B m := by
    rw [hm]
    exact kept_fresh.run hread hbefore
  obtain ⟨hclosed,hstored⟩ := closed_stored hkept hclose
  have hkept := hkept.step (hkept.called hread hadd)
  generalize (m.call B (.cooperativeClose c)).1 = n at hkept hclosed hstored hafter
  constructor
  · rintro hshut ⟨pre,post,rfl,hrestart⟩
    -- the first load after the first restart finds the channel dormant and opens it
    obtain ⟨first,second,rfl,_⟩ := List.eq_append_cons_of_mem hrestart
    have hload : .reload c ∈ second ++ .reload c :: post := by simp
    obtain ⟨mid,rest,hmid,hfresh⟩ := List.eq_append_cons_of_mem hload
    have hsplit : (first ++ .restart :: second) ++ .reload c :: post =
        first ++ .restart :: mid ++ .reload c :: rest := by
      simp only [List.append_assoc,List.cons_append,hmid]
    rw [hsplit,along_append,along_append] at hafter
    obtain ⟨⟨hfirst,_,hmidAlong⟩,hreload,_⟩ := hafter
    have hkept₁ := hkept.run hread hfirst
    have hdormant := dormant_restart (B := B) (stored_run hread hkept hfirst hstored)
    have hkept₂ := hkept₁.restart.run hread hmidAlong
    have hdormant := hdormant.run hread hkept₁.restart hmidAlong hfresh
    obtain ⟨hopen,ch,hget⟩ := hdormant.reload hread hkept₂
    have hprefix : first ++ .restart :: mid ++ [.reload c] <+:
        (first ++ .restart :: second) ++ .reload c :: post := by
      rw [hsplit]
      exact ⟨rest,by simp⟩
    have hshut := hshut _ hprefix
    rw [run_concat,run_append,run_cons] at hshut
    have hcalled : Called B _ (.reload c) _ := hkept₂.called hread trivial
    have hkept₃ := hkept₂.step hcalled
    exact hopen (hshut.closed hkept₃ hget)
  · rintro hnot later ⟨rest,rfl⟩
    have hlater := ((along_append _ _ _ _ _).mp hafter).1
    refine (hkept.run hread hlater).shut ?_
    by_cases hrestart : .restart ∈ later
    · obtain ⟨pre,post,rfl,_⟩ := List.eq_append_cons_of_mem hrestart
      rw [along_append] at hlater
      have hkept₁ := hkept.run hread hlater.1
      have hdormant := dormant_restart (B := B) (stored_run hread hkept hlater.1 hstored)
      have hload : .reload c ∉ post := by
        intro hmem
        obtain ⟨mid,tail,rfl⟩ := List.append_of_mem hmem
        exact hnot ⟨pre ++ .restart :: mid,tail ++ rest,by simp,by simp⟩
      rw [run_append,run_cons]
      exact .inr (hdormant.run hread hkept₁.restart hlater.2.2 hload).unregistered
    · exact .inl (closed_run hread hkept hlater hrestart hclosed)

namespace Reference

/-- A manager that has closed its only channel. -/
def closedManager : ChannelManager :=
  (sampleManager.call (reference anyone) (.cooperativeClose sampleId)).1

theorem closed_sampleManager : ∃ close,
    (sampleManager.call (reference anyone) (.cooperativeClose sampleId)).2 = .closed close := by
  have hok : (sampleManager.cooperativeClose (reference anyone) sampleId).2.toOption.isSome = true := by
    decide +kernel
  cases hc : (sampleManager.cooperativeClose (reference anyone) sampleId).2 with
  | error e =>
    rw [hc] at hok
    cases hok
  | ok close => exact ⟨close,by simp only [ChannelManager.call,hc]⟩

theorem recover_closedManager : recoverChannel (reference anyone) closedManager.store sampleId =
    .ok (some ((sampleChannel anyone).reloaded ⟨[30,0],0⟩)) := by
  have hrows : closedManager.store.getChannelMeta sampleId = some sampleRow ∧
      closedManager.store.getLatestChannelState sampleId = some (0,Channel.stateDoc ⟨[30,0],0⟩) := by
    decide +kernel
  have hs : State.Conserving ⟨[30,0],0⟩ (sampleChannel anyone).cfg := ⟨rfl,rfl⟩
  simp only [recoverChannel,hrows.1,hrows.2,recoverRow_eq (readsHex anyone)
    (obtained_sampleChannel anyone).canonical metaRow_sampleChannel,recoverState_of_conserving hs]
  rfl

end Reference

open Reference in
theorem closed_until_reopened_sample :
    ¬ Reopened sampleId [.applyTransfer sampleId 0 1 10,.restart,.cooperativeClose sampleId] ∧
    ∀ later, later <+: [.applyTransfer sampleId 0 1 10,.restart,.cooperativeClose sampleId] →
      Shut (reference anyone) (run (ChannelManager.call (reference anyone)) closedManager later)
        sampleId := by
  obtain ⟨close,hclose⟩ := closed_sampleManager
  have hm : sampleManager = run (ChannelManager.call (reference anyone)) (.fresh .fresh)
      [.add (sampleChannel anyone)] := rfl
  have hnew : Along (ChannelManager.call (reference anyone)) (AddsNew (reference anyone))
      (.fresh .fresh) ([.add (sampleChannel anyone)] ++ .cooperativeClose sampleId ::
        [.applyTransfer sampleId 0 1 10,.restart,.cooperativeClose sampleId]) := by
    refine ⟨.inr ⟨obtained_sampleChannel anyone,?_,SystemStore.rows_fresh⟩,?_⟩
    · exact List.cons_ne_nil _ _
    · exact ⟨trivial,trivial,trivial,trivial,trivial⟩
  have hnot : ¬ Reopened sampleId
      [.applyTransfer sampleId 0 1 10,.restart,.cooperativeClose sampleId] := by
    rintro ⟨pre,post,heq,_⟩
    have hmem : .reload sampleId ∈ pre ++ .reload sampleId :: post := by simp
    rw [← heq] at hmem
    simp at hmem
  exact ⟨hnot,(closed_until_reopened (readsHex anyone) hm hclose hnew).mpr hnot⟩

open Reference in
/-- After a close, a restart and a reload, a transfer of ten micro-units is accepted. -/
theorem transfer_accepted_after_restart :
    (∃ close, (sampleManager.call (reference anyone) (.cooperativeClose sampleId)).2 = .closed close) ∧
    ((run (ChannelManager.call (reference anyone)) closedManager [.restart,.reload sampleId]).call
      (reference anyone) (.applyTransfer sampleId 0 1 10)).2 = .version 1 := by
  refine ⟨closed_sampleManager,?_⟩
  have hv : ((((ChannelManager.fresh closedManager.store).add (reference anyone)
      ((sampleChannel anyone).reloaded ⟨[30,0],0⟩)).1).applyTransfer (reference anyone)
        sampleId 0 1 10).2 = .ok 1 := by
    decide +kernel
  rw [run_restart_reload recover_closedManager,ChannelManager.call,hv]

end SubsatChannel
