import SubsatChannel.Watchtower.Cluster
import SubsatChannel.Watchtower.Defence

/-! Registering and broadcasting do not commute: a tower reacts to what the mempool takes in after it
has been registered or attached, and to nothing that is there already. -/
namespace SubsatChannel

/-- The mempool holds this transaction as the spender of the channel output. -/
def SpentBy (B : Bitcoinx) (m : Mempool Tower) (c : Bytes) (tx : Tx) : Prop :=
  m.spentBy.lookup (c,0) = some (B.txHash tx) ∧
    ∃ e, m.entries.get? (B.txHash tx) = some e ∧ e.tx = tx

/-- Every spender of the channel output in the mempool is a state below this version. -/
def OlderOnly (m : Mempool Tower) (c : Bytes) (w : ℕ) : Prop :=
  ∀ tx ∈ m.allTxs, (c,0) ∈ tx.outpoints → ∃ p, StateFor c p tx ∧ p < w

/-- For this channel the registries hold nothing, this current state, or older valid ones. -/
def StatesUpTo (B : Bitcoinx) (U : UtxoSet) (regs : List Registry) (c : Bytes) (v : ℕ) (current : Tx) :
    Prop :=
  ∀ reg ∈ regs, ∀ r, reg.get c = some r → r.currentStateTx B = some current ∨
    ∃ tx s, r.currentStateTx B = some tx ∧ StateFor c s tx ∧ s < v ∧ (validateTx B tx U).ok = true

/-- The transactions of the mempool, a submitted one and the states held for a channel. -/
def concerned (B : Bitcoinx) (m : Mempool Tower) (regs : List Registry) (c : Bytes) (tx : Tx) :
    Set Tx :=
  {t | t ∈ m.allTxs ∨ t = tx ∨ ∃ reg ∈ regs, ∃ r, reg.get c = some r ∧ r.currentStateTx B = some t}

/-- A stale state and the current state of a channel whose output is unspent, and a mempool in which
no newer state than the stale one spends it. -/
structure Contested (B : Bitcoinx) (n : EmbeddedNode) (depth : ℕ) (c : Bytes) (current stale : Tx)
    (v w : ℕ) : Prop where
  consistent : n.mempool.Consistent B
  deep : n.mempool.observers.length < depth
  currentState : StateFor c v current
  staleState : StateFor c w stale
  behind : w < v
  currentOk : (validateTx B current n.utxos).ok = true
  staleOk : (validateTx B stale n.utxos).ok = true
  older : OlderOnly n.mempool c w

section Submit
variable {B : Bitcoinx} {U : UtxoSet} {m m' : Mempool Tower} {regs : List Registry} {c : Bytes}
  {v w depth : ℕ} {stale current tx : Tx}

theorem StateFor.version_unique {p q : ℕ} (hp : StateFor c p tx) (hq : StateFor c q tx) : p = q := by
  have h := hp.lookup.symm.trans hq.lookup
  exact Option.some.inj h

theorem StateFor.mem (h : StateFor c w tx) : (c,0) ∈ tx.outpoints := by simp [h.outpoints]

theorem StatesUpTo.ready (h : StatesUpTo B U regs c v current) (hcurrent : StateFor c v current)
    (hvalid : (validateTx B current U).ok = true)
    (hinj : Set.InjOn B.txHash (concerned B m regs c stale)) :
    ChannelReady B (concerned B m regs c stale) U regs c where
  inj := hinj
  current reg hreg r hget := by
    rcases h reg hreg r hget with hcur | ⟨tx,s,hcur,hs,_,hok⟩
    · exact ⟨current,v,hcur,hcurrent,.inr (.inr ⟨reg,hreg,r,hget,hcur⟩),fun _ _ => hvalid⟩
    · exact ⟨tx,s,hcur,hs,.inr (.inr ⟨reg,hreg,r,hget,hcur⟩),fun _ _ => hok⟩

theorem orderly_concerned (hc : m.Consistent B) :
    Orderly B (concerned B m (registries m) c stale) (registries m) m :=
  ⟨hc,rfl,fun txid e he => .inl (Mempool.mem_allTxs.mpr ⟨txid,e,he,rfl⟩)⟩

/-- With a tower attached that holds the current state, the submission of a stale one ends with the
current state in the mempool. -/
theorem submit_stale_overtaken (hc : m.Consistent B) (hdepth : m.observers.length < depth)
    (hcurrent : StateFor c v current) (hvalid : (validateTx B current U).ok = true)
    (hstale : StateFor c w stale) (hlt : w < v) (hok : (validateTx B stale U).ok = true) (holder : OlderOnly m c w)
    (hregs : StatesUpTo B U (registries m) c v current)
    (hinj : Set.InjOn B.txHash (concerned B m (registries m) c stale)) {reg : Registry}
    {r : WatchRecord} (hreg : reg ∈ registries m) (hget : reg.get c = some r)
    (hcur : r.currentStateTx B = some current) :
    ∃ m' res, Mempool.admitTx B (Tower.observe B) U depth m stale = some (m',.ok res) ∧
      SpentBy B m' c current := by
  have hready := hregs.ready hcurrent hvalid hinj
  have hrank : rank B (registries m) c w < depth := by
    refine (List.countP_le_length).trans_lt ?_
    rwa [registries,List.length_map]
  obtain ⟨m',res,hres,hans⟩ := answersAt_admitTx hready depth m w stale (orderly_concerned hc)
    (.inr (.inl rfl)) hstale hok hrank
  refine ⟨m',res,hres,?_⟩
  obtain ⟨q,⟨txid,e,he,hq⟩,hwq,_⟩ := hans.top
  have hspends := outpoint_of_lookup hq
  have hnotold : e.tx ∉ m.allTxs := by
    intro hmem
    obtain ⟨p,hp,hpw⟩ := holder e.tx hmem hspends
    have heq : p = q := Option.some.inj (hp.lookup.symm.trans hq)
    omega
  -- the spender is new, so every version held is covered by it
  have hvq : v ≤ q := by
    rcases hans.entry txid e he with hold | ⟨hguard,p,hp,_⟩
    · exact absurd (Mempool.mem_allTxs.mpr ⟨txid,e,hold,rfl⟩) hnotold
    · have hpq : p = q := Option.some.inj (hp.lookup.symm.trans hq)
      obtain ⟨sig,hins⟩ := hp
      obtain ⟨sig',hins'⟩ := id hcurrent
      have hcov := hguard c ⟨c,0,sig,p⟩ (by simp [hins]) rfl
      rw [← hpq]
      refine hcov reg hreg v ?_
      simp [Registry.version,hget,hcur,hins']
  have htx : e.tx = current := by
    rcases hans.orderly.known txid e he with hmem | heq | ⟨reg',hreg',r',hget',hcur'⟩
    · exact absurd hmem hnotold
    · have hwq' : w = q := by
        rw [heq] at hq
        exact Option.some.inj (hstale.lookup.symm.trans hq)
      omega
    · rcases hregs reg' hreg' r' hget' with htx | ⟨tx,s,htx,hs,hsv,_⟩
      · exact Option.some.inj (hcur'.symm.trans htx)
      · rw [hcur'] at htx
        cases htx
        have hsq : s = q := Option.some.inj (hs.lookup.symm.trans hq)
        omega
  have hkey := hans.orderly.consistent.keyed txid e he
  rw [htx] at hkey hspends
  refine ⟨?_,e,by rw [hkey]; exact he,htx⟩
  rw [hkey]
  exact (hans.orderly.consistent.held (c,0) txid).mpr ⟨e,he,by rw [htx]; exact hspends⟩

/-- A tower that knows no newer state passes a state over. -/
theorem observeInputs_covered {submit : Admission Tower} {i : ℕ} (hstale : StateFor c w stale)
    (hcov : Covers B (registries m) c w) :
    Tower.observeInputs B submit i stale.inputs m = some m := by
  obtain ⟨sig,hins⟩ := hstale
  rw [hins]
  simp only [Tower.observeInputs]
  cases hr : (m.observers[i]?).bind fun t => t.recordFor ⟨c,0,sig,w⟩ with
  | none => rfl
  | some record =>
    dsimp only
    cases hcur : record.currentStateTx B with
    | none => rfl
    | some current =>
      dsimp only
      cases hfirst : current.inputs with
      | nil => rfl
      | cons first rest =>
        obtain ⟨t,ht,hrec⟩ := Option.bind_eq_some_iff.mp hr
        have hget : t.registry.get c = some record := hrec
        have hle := hcov t.registry (List.mem_map.mpr ⟨t,List.mem_of_getElem? ht,rfl⟩) first.sequence
          (by simp [Registry.version,hget,hcur,hfirst])
        dsimp only
        rw [if_pos hle]

theorem notify_covered {submit : Admission Tower} {event : MempoolEvent} (hstale : StateFor c w stale)
    (hcov : Covers B (registries m) c w) (count i : ℕ) :
    Mempool.notifyFrom (Tower.observe B) submit event stale count i m = some m := by
  induction count generalizing i with
  | zero => rfl
  | succ count ih =>
    have hobs : Tower.observe B submit i m event stale = some m := by
      by_cases hev : event = .evict
      · rw [hev]
        rfl
      · rw [Tower.observe_of_ne_evict _ _ _ _ hev]
        exact observeInputs_covered hstale hcov
    rw [Mempool.notifyFrom,hobs]
    exact ih (i+1)

/-- When no attached tower knows a newer state, a submitted state stays. -/
theorem submit_stale_stays (hc : m.Consistent B) (hdepth : 0 < depth) (hstale : StateFor c w stale)
    (hok : (validateTx B stale U).ok = true) (holder : OlderOnly m c w)
    (hcov : Covers B (registries m) c w)
    (hinj : Set.InjOn B.txHash (concerned B m (registries m) c stale)) :
    ∃ m' res, Mempool.admitTx B (Tower.observe B) U depth m stale = some (m',.ok res) ∧
      SpentBy B m' c stale := by
  obtain ⟨d,rfl⟩ := Nat.exists_eq_succ_of_ne_zero hdepth.ne'
  rcases admit_spec U d hc stale with ⟨href,_⟩ | ⟨m₁,event,htaken,_,hres⟩
  · exfalso
    cases href with
    | known f hf =>
      have hmem : f.tx ∈ m.allTxs := Mempool.mem_allTxs.mpr ⟨_,f,hf,rfl⟩
      have hft : f.tx = stale := hinj (.inl hmem) (.inr (.inl rfl)) (hc.keyed _ f hf)
      rw [hft] at hmem
      obtain ⟨p,hp,hlt⟩ := holder _ hmem hstale.mem
      have := hp.version_unique hstale
      omega
    | conflicts x y hxy hx hy =>
      obtain ⟨_,p,hp,hlp⟩ := Mempool.mem_conflictingTxids.mp hx
      obtain ⟨_,p',hp',hlp'⟩ := Mempool.mem_conflictingTxids.mp hy
      rw [hstale.outpoints,List.mem_singleton] at hp hp'
      subst hp hp'
      rw [hlp] at hlp'
      exact hxy (Option.some.inj hlp')
    | outbid oldTxid old hold tin q hseq =>
      obtain ⟨hq,hsq⟩ := hstale.seqViolation_some hseq
      obtain ⟨p,hp,hlt⟩ := holder old.tx (Mempool.mem_allTxs.mpr ⟨_,old,hold,rfl⟩)
        (outpoint_of_lookup hq)
      have hpq : p = q := Option.some.inj (hp.lookup.symm.trans hq)
      omega
    | invalid hno =>
      rw [hok] at hno
      cases hno
  · have hcov₁ : Covers B (registries m₁) c w := by rwa [registries,htaken.observers]
    refine ⟨m₁,validateTx B stale U,?_,?_⟩
    · rw [hres,Mempool.notify,notify_covered hstale hcov₁]
      rfl
    · obtain ⟨e,he,htx⟩ := htaken.entry
      exact ⟨((htaken.consistent hc).held _ _).mpr ⟨e,he,by rw [htx]; exact hstale.mem⟩,e,he,htx⟩

end Submit

/-- Two mempools with the same tables, whatever observes them. -/
structure SameTables (m m' : Mempool Tower) : Prop where
  entries : m'.entries = m.entries
  spentBy : m'.spentBy = m.spentBy

section Tables
variable {B : Bitcoinx} {m m' m'' : Mempool Tower} {c : Bytes} {w : ℕ} {tx : Tx}

theorem SameTables.refl (m : Mempool Tower) : SameTables m m := ⟨rfl,rfl⟩

theorem SameTables.trans (h : SameTables m m') (h' : SameTables m' m'') : SameTables m m'' :=
  ⟨h'.entries.trans h.entries,h'.spentBy.trans h.spentBy⟩

theorem SameTables.allTxs (h : SameTables m m') : m'.allTxs = m.allTxs := by
  rw [Mempool.allTxs,Mempool.allTxs,h.entries]

theorem SpentBy.tables (h : SameTables m m') (hs : SpentBy B m c tx) : SpentBy B m' c tx := by
  rw [SpentBy,h.entries,h.spentBy]
  exact hs

theorem Mempool.Consistent.tables (hc : m.Consistent B) (h : SameTables m m') : m'.Consistent B := by
  refine ⟨?_,?_⟩
  · rw [h.entries]
    exact hc.keyed
  · rw [h.entries,h.spentBy]
    exact hc.held

theorem OlderOnly.tables (ho : OlderOnly m c w) (h : SameTables m m') : OlderOnly m' c w := by
  rw [OlderOnly,h.allTxs]
  exact ho

end Tables

namespace WatchCluster
variable {B : Bitcoinx} {cl : WatchCluster}

/-- A cluster before and after watchers have been detached or attached. -/
structure Frame (cl cl' : WatchCluster) : Prop where
  tables : SameTables cl.node.mempool cl'.node.mempool
  utxos : cl'.node.utxos = cl.node.utxos

theorem Frame.refl (cl : WatchCluster) : Frame cl cl := ⟨.refl _,rfl⟩

theorem Frame.trans {cl' cl'' : WatchCluster} (h : Frame cl cl') (h' : Frame cl' cl'') :
    Frame cl cl'' := ⟨h.tables.trans h'.tables,h'.utxos.trans h.utxos⟩

theorem detach_frame (cl : WatchCluster) (i : ℕ) : Frame cl (cl.detach i) ∧
    (cl.detach i).node.mempool.observers.length ≤ cl.node.mempool.observers.length := by
  unfold detach
  split
  · split
    · exact ⟨.refl cl,le_rfl⟩
    · exact ⟨⟨⟨rfl,rfl⟩,rfl⟩,List.length_eraseIdx_le _ _⟩
  · exact ⟨.refl cl,le_rfl⟩

theorem attach_frame (cl : WatchCluster) (i : ℕ) : Frame cl (cl.attach i) := by
  unfold attach
  split
  · exact ⟨⟨rfl,rfl⟩,rfl⟩
  · exact .refl cl

/-- Detaching watchers leaves the mempool's tables alone. -/
theorem disable_frame (cl : WatchCluster) (is : List ℤ) : Frame cl (cl.disable is).1 ∧
    (cl.disable is).1.node.mempool.observers.length ≤ cl.node.mempool.observers.length := by
  induction is generalizing cl with
  | nil => exact ⟨.refl cl,le_rfl⟩
  | cons i is ih =>
    unfold disable
    split_ifs
    · obtain ⟨hframe,hlen⟩ := ih (cl.detach i.toNat)
      obtain ⟨hstep,hle⟩ := cl.detach_frame i.toNat
      exact ⟨hstep.trans hframe,hlen.trans hle⟩
    · exact ⟨.refl cl,le_rfl⟩

/-- So does attaching them again: a watcher does not look at what is there already. -/
theorem enable_frame (cl : WatchCluster) (is : List ℤ) : Frame cl (cl.enable is).1 := by
  induction is generalizing cl with
  | nil => exact .refl cl
  | cons i is ih =>
    unfold enable
    split
    · exact .refl cl
    · rename_i k _
      exact (cl.attach_frame k).trans (ih (cl.attach k))

end WatchCluster

section Register
variable {B : Bitcoinx} {n : EmbeddedNode} {depth i : ℕ} {c : Bytes} {record : WatchRecord}

theorem register_tables (n : EmbeddedNode) (i : ℕ) (record : WatchRecord) :
    SameTables n.mempool (n.register i record).mempool := ⟨rfl,rfl⟩

/-- A registered tower holds the record. -/
theorem register_holds (hi : i < n.mempool.observers.length) (hid : record.channelId = c) :
    ∃ reg ∈ registries (n.register i record).mempool, reg.get c = some record := by
  refine ⟨(n.mempool.observers[i].register record).registry,?_,?_⟩
  · refine List.mem_map.mpr ⟨_,List.mem_of_getElem? (i := i) ?_,rfl⟩
    simp [EmbeddedNode.register,hi]
  · rw [← hid]
    exact Dict.get?_set_self _ _ _

theorem call_submit {m' : Mempool Tower} {res : ValidationResult} {tx : Tx}
    (h : n.mempool.admitTx B (Tower.observe B) n.utxos depth tx = some (m',.ok res)) :
    (n.call B depth (.submitTx tx)).1 = { n with mempool := m' } := by
  simp only [EmbeddedNode.call,EmbeddedNode.submitTx,h,Option.map_some]

end Register

/-- What registration and broadcast leave in either order. A tower that is registered first overtakes
the stale state. A tower that is registered afterwards does not, whatever it is registered with, and
neither does a watcher that is detached during the broadcast. -/
theorem registration_order {B : Bitcoinx} {n : EmbeddedNode} {depth : ℕ} {c : Bytes}
    {current stale : Tx} {v w : ℕ} (h : Contested B n depth c current stale v w) :
    (∀ i record, i < n.mempool.observers.length → record.channelId = c →
      record.currentStateTx B = some current →
      StatesUpTo B n.utxos (registries (n.register i record).mempool) c v current →
      Set.InjOn B.txHash
        (concerned B n.mempool (registries (n.register i record).mempool) c stale) →
      SpentBy B ((n.register i record).call B depth (.submitTx stale)).1.mempool c current) ∧
    (Covers B (registries n.mempool) c w →
      Set.InjOn B.txHash (concerned B n.mempool (registries n.mempool) c stale) →
      ∀ i record, SpentBy B ((n.call B depth (.submitTx stale)).1.register i record).mempool c stale) ∧
    ∀ (cl : WatchCluster) (off on : List ℤ), cl.node = n →
      Covers B (registries (cl.disable off).1.node.mempool) c w →
      Set.InjOn B.txHash
        (concerned B n.mempool (registries (cl.disable off).1.node.mempool) c stale) →
      SpentBy B ({ (cl.disable off).1 with
        node := ((cl.disable off).1.node.call B depth (.submitTx stale)).1 }.enable on
          ).1.node.mempool c stale := by
  refine ⟨fun i record hi hid hcur hregs hinj => ?_,fun hcov hinj i record => ?_,
    fun cl off on hnode hcov hinj => ?_⟩
  · obtain ⟨reg,hreg,hget⟩ := register_holds hi hid
    have htables := register_tables n i record
    have hdeep : (n.register i record).mempool.observers.length < depth := by
      rw [EmbeddedNode.register,List.length_modify]
      exact h.deep
    obtain ⟨m',res,hres,hspent⟩ := submit_stale_overtaken (h.consistent.tables htables) hdeep
      h.currentState h.currentOk h.staleState h.behind h.staleOk (h.older.tables htables) hregs hinj
      hreg hget hcur
    rw [call_submit hres]
    exact hspent
  · have hpos : 0 < depth := (Nat.zero_le _).trans_lt h.deep
    obtain ⟨m',res,hres,hspent⟩ := submit_stale_stays h.consistent hpos h.staleState h.staleOk
      h.older hcov hinj
    rw [call_submit hres]
    exact hspent.tables (register_tables _ i record)
  · subst hnode
    have hpos : 0 < depth := (Nat.zero_le _).trans_lt h.deep
    obtain ⟨⟨htables,hutxos⟩,_⟩ := cl.disable_frame off
    have hok : (validateTx B stale (cl.disable off).1.node.utxos).ok = true := by
      rw [hutxos]
      exact h.staleOk
    have hinj' : Set.InjOn B.txHash (concerned B (cl.disable off).1.node.mempool
        (registries (cl.disable off).1.node.mempool) c stale) := by
      rw [concerned,htables.allTxs]
      exact hinj
    obtain ⟨m',res,hres,hspent⟩ := submit_stale_stays (h.consistent.tables htables) hpos h.staleState
      hok (h.older.tables htables) hcov hinj'
    rw [call_submit hres]
    exact hspent.tables (WatchCluster.enable_frame _ on).tables

namespace Reference

/-- The sample node after its first block, observed by a tower without records. -/
def unwatchedNode : EmbeddedNode := { watchedNode with mempool := .fresh [Tower.new .new] }

theorem contested_unwatched : Contested (reference anyone) unwatchedNode 2
    ((reference anyone).txHash firstCoinbase) (watchedState 5) (watchedState 1) 5 1 where
  consistent := Mempool.consistent_fresh _ _
  deep := by decide
  currentState := ⟨[],rfl⟩
  staleState := ⟨[],rfl⟩
  behind := by decide
  currentOk := by decide +kernel
  staleOk := by decide +kernel
  older := fun _ hmem => absurd hmem List.not_mem_nil

theorem currentStateTx_watchedRecord :
    watchedRecord.currentStateTx (reference anyone) = some (watchedState 5) := txFromHex_hex anyone _

end Reference

open Reference in
theorem registration_order_sample :
    SpentBy (reference anyone) ((unwatchedNode.register 0 watchedRecord).call (reference anyone) 2
      (.submitTx (watchedState 1))).1.mempool ((reference anyone).txHash firstCoinbase) (watchedState 5) ∧
    SpentBy (reference anyone) ((unwatchedNode.call (reference anyone) 2
      (.submitTx (watchedState 1))).1.register 0 watchedRecord).mempool
        ((reference anyone).txHash firstCoinbase) (watchedState 1) := by
  have h := registration_order contested_unwatched
  have hget : ∀ reg ∈ registries (unwatchedNode.register 0 watchedRecord).mempool, ∀ c r,
      reg.get c = some r → r = watchedRecord := by
    intro reg hreg c r hr
    obtain rfl := List.mem_singleton.mp hreg
    exact (get_watcher hr).2
  have hnone : ∀ reg ∈ registries unwatchedNode.mempool, ∀ c, reg.get c = none := by
    intro reg hreg c
    obtain rfl := List.mem_singleton.mp hreg
    rfl
  have hstates : StatesUpTo (reference anyone) unwatchedNode.utxos
      (registries (unwatchedNode.register 0 watchedRecord).mempool)
      ((reference anyone).txHash firstCoinbase) 5 (watchedState 5) := by
    intro reg hreg r hr
    rw [hget reg hreg _ r hr]
    exact .inl currentStateTx_watchedRecord
  have hapart : Set.InjOn (reference anyone).txHash {t | t ∈ [watchedState 1,watchedState 5]} :=
    injOn_list (by decide +kernel)
  refine ⟨h.1 0 watchedRecord (by decide) rfl currentStateTx_watchedRecord hstates
    (hapart.mono ?_),h.2.1 ?_ (hapart.mono ?_) 0 watchedRecord⟩
  · rintro t (hmem | rfl | ⟨reg,hreg,r,hr,ht⟩)
    · cases hmem
    · exact List.mem_cons_self
    · rw [hget reg hreg _ r hr,currentStateTx_watchedRecord] at ht
      cases ht
      simp
  · intro reg hreg v hv
    rw [Registry.version,hnone reg hreg] at hv
    cases hv
  · rintro t (hmem | rfl | ⟨reg,hreg,r,hr,ht⟩)
    · cases hmem
    · exact List.mem_cons_self
    · rw [hnone reg hreg] at hr
      cases hr

open Reference in
/-- A record that is registered after the broadcast changes nothing: the stale state stays in the
mempool, although the current state of the record is valid and newer. -/
theorem late_registration_ignored :
    unwatchedNode.mempool.allTxs = [] ∧
    (validateTx (reference anyone) (watchedState 5) unwatchedNode.utxos).ok = true ∧
    (validateTx (reference anyone) (watchedState 1) unwatchedNode.utxos).ok = true ∧
    watchedRecord.currentStateTx (reference anyone) = some (watchedState 5) ∧
    ((unwatchedNode.call (reference anyone) 2 (.submitTx (watchedState 1))).1.register 0
      watchedRecord).mempool.allTxs = [watchedState 1] :=
  ⟨rfl,contested_unwatched.currentOk,contested_unwatched.staleOk,currentStateTx_watchedRecord,
    by decide +kernel⟩

end SubsatChannel
