import SubsatChannel.Channel.Window
import SubsatChannel.Node.Mined

/-! The race for a bond: any number of watchers submit forfeitures and closes, whose inputs carry
the last sequence number, so the first of them in the mempool stays there and is the one mined. -/
namespace SubsatChannel
open Transition

/-- The pre-signed forfeiture of an offender's bond. -/
def WatchRecord.forfeitTxFor (B : Bitcoinx) (r : WatchRecord) (owner : ℤ) : Except Fault Tx :=
  match if 0 ≤ owner then r.forfeitTxHexByOwner.get? owner.toNat else none with
  | none => .error ⟨.registryError,s!"no forfeit tx for owner {owner}"⟩
  | some s =>
    match B.txFromHex s with
    | none => .error ⟨.streamError,""⟩
    | some tx => .ok tx

namespace EmbeddedNode

/-- Count a forfeiture of the tower that observes the mempool at an index. -/
def countForfeit (n : EmbeddedNode) (i : ℕ) : EmbeddedNode :=
  { n with mempool := { n.mempool with
      observers := n.mempool.observers.modify i fun t => { t with forfeits := t.forfeits+1 } } }

/-- `forfeit_offender_bond` of a tower that observes the mempool at an index. -/
def forfeitOffenderBond (B : Bitcoinx) (depth : ℕ) (n : EmbeddedNode) (i : ℕ) (t : Tower)
    (channelId : Bytes) (offender : ℤ) : Option (EmbeddedNode × Except Fault ValidationResult) :=
  match t.registry.get channelId with
  | none => some (n,.error ⟨.towerError,s!"no record for channel {hex channelId.reverse}"⟩)
  | some record =>
    match record.forfeitTxFor B offender with
    | .error e => some (n,.error e)
    | .ok tx =>
      match n.submitTx B depth tx with
      | none => none
      | some (n',.error e) => some (n',.error e)
      | some (n',.ok res) =>
        some (if res.ok then n'.countForfeit i else n',.ok res)

end EmbeddedNode

/-- A call on the node, or a tower's call for the forfeiture of a bond. -/
inductive RaceCall
  | node (c : NodeCall)
  | forfeit (place : ℕ) (channelId : Bytes) (offender : ℤ)
  deriving DecidableEq, Repr

namespace EmbeddedNode

/-- One call; the tower is looked up in the list of observers. -/
def raceCall (B : Bitcoinx) (depth : ℕ) (n : EmbeddedNode) : RaceCall → EmbeddedNode × NodeAnswer
  | .node c => n.call B depth c
  | .forfeit place channelId offender =>
    match n.mempool.observers[place]? with
    | none => (n,.admission (.error ⟨.indexError,"list index out of range"⟩))
    | some t =>
      match n.forfeitOffenderBond B depth place t channelId offender with
      | none => (n,.tooDeep)
      | some (n',r) => (n',.admission r)

/-- A tower's forfeiture changes nothing, or it submits the recorded transaction. -/
theorem forfeit_cases (n : EmbeddedNode) (B : Bitcoinx) (depth : ℕ) (place : ℕ) (channelId : Bytes)
    (offender : ℤ) :
    (∃ a, minedTxs a = [] ∧ n.raceCall B depth (.forfeit place channelId offender) = (n,a)) ∨
    ∃ t record tx n' a, n.mempool.observers[place]? = some t ∧ t.registry.get channelId = some record ∧
      record.forfeitTxFor B offender = .ok tx ∧ n.call B depth (.submitTx tx) = (n',a) ∧
      minedTxs a = [] ∧ (n.raceCall B depth (.forfeit place channelId offender) = (n',a) ∨
        n.raceCall B depth (.forfeit place channelId offender) = (n'.countForfeit place,a)) := by
  simp only [raceCall,call]
  cases ht : n.mempool.observers[place]? with
  | none => exact .inl ⟨_,rfl,rfl⟩
  | some t =>
    simp only [forfeitOffenderBond]
    cases hr : t.registry.get channelId with
    | none => exact .inl ⟨_,rfl,rfl⟩
    | some record =>
      cases hf : record.forfeitTxFor B offender with
      | error e => exact .inl ⟨.admission (.error e),rfl,by simp only [hf]⟩
      | ok tx =>
        cases hs : n.submitTx B depth tx with
        | none => exact .inl ⟨.tooDeep,rfl,by simp only [hf,hs]⟩
        | some p =>
          obtain ⟨n',res⟩ := p
          cases res with
          | error e => exact .inr ⟨t,record,tx,n',_,rfl,hr,hf,by rw [hs],rfl,.inl (by simp only [hf,hs])⟩
          | ok res =>
            refine .inr ⟨t,record,tx,n',_,rfl,hr,hf,by rw [hs],rfl,?_⟩
            cases hok : res.ok with
            | false => exact .inl (by simp only [hf,hs,hok,Bool.false_eq_true,if_false])
            | true => exact .inr (by simp only [hf,hs,hok,if_true])

end EmbeddedNode

/-- The calls of a race; `T` and `R` are the transactions and headers of the run. -/
def RaceAllowed (B : Bitcoinx) (T : Set Tx) (R : Set Bytes) (n : EmbeddedNode) : RaceCall → Prop
  | .node c => MiningCall B T R n c
  | .forfeit place channelId offender => ∀ t record tx, n.mempool.observers[place]? = some t →
      t.registry.get channelId = some record → record.forfeitTxFor B offender = .ok tx →
      MiningCall B T R n (.submitTx tx)

instance {B : Bitcoinx} {T : Set Tx} {R : Set Bytes} [DecidablePred (· ∈ T)]
    [DecidablePred (· ∈ R)] {n : EmbeddedNode} {script : Script} {incl : Bool} {extra : Bytes}
    {timestamp : ℕ} :
    Decidable (RaceAllowed B T R n (.node (.generateBlock script incl extra timestamp))) :=
  inferInstanceAs (Decidable (MiningCall B T R n (.generateBlock script incl extra timestamp)))

/-- What no call changes but by a call on the node, and the towers' counters do not touch, holds
after every call of a race. -/
theorem raceCall_rule {B : Bitcoinx} {T : Set Tx} {R : Set Bytes} {n : EmbeddedNode} (depth : ℕ)
    {P : EmbeddedNode → List Tx → Prop} {c : RaceCall} (hc : RaceAllowed B T R n c) (same : P n [])
    (call : ∀ d, MiningCall B T R n d → P (n.call B depth d).1 (minedTxs (n.call B depth d).2))
    (count : ∀ n' L i, P n' L → P (n'.countForfeit i) L) :
    P (n.raceCall B depth c).1 (minedTxs (n.raceCall B depth c).2) := by
  cases c with
  | node c => exact call c hc
  | forfeit place channelId offender =>
    rcases n.forfeit_cases B depth place channelId offender with
      ⟨a,hnil,he⟩ | ⟨t,record,tx,n',a,ht,hr,hf,hcall,hnil,he⟩
    · rw [he,hnil]
      exact same
    · have hn' := call _ (hc t record tx ht hr hf)
      rw [hcall] at hn'
      rcases he with he | he
      · rw [he]
        exact hn'
      · rw [he]
        exact count n' _ place hn'

/-- All inputs carry the last sequence number. -/
def Tx.AllFinal (t : Tx) : Prop := ∀ tin ∈ t.inputs, tin.sequence = finalSequence

/-- A sequence number takes four bytes. -/
def Tx.Sequenced (t : Tx) : Prop := ∀ tin ∈ t.inputs, tin.sequence ≤ finalSequence

instance (t : Tx) : Decidable t.AllFinal := by unfold Tx.AllFinal; infer_instance
instance (t : Tx) : Decidable t.Sequenced := by unfold Tx.Sequenced; infer_instance

theorem Tx.allFinal_congr {t u : Tx} (h : t.stripped = u.stripped) (hu : u.AllFinal) : t.AllFinal := by
  have hall : ∀ s ∈ u.inputs.map TxInput.sequence, s = finalSequence := by
    intro s hs
    obtain ⟨tin,ht,rfl⟩ := List.mem_map.mp hs
    exact hu tin ht
  rw [← Tx.sequences_congr h] at hall
  exact fun tin ht => hall _ (List.mem_map_of_mem ht)

namespace Channel
variable {B : Bitcoinx} {ch : Channel} {tx : Tx} {utxos : List TxOutput}

theorem Canonical.allFinal_close (h : ch.Canonical B) {s : Option State}
    (hc : ch.cooperativeClose B s = .ok (tx,utxos)) : tx.AllFinal := by
  obtain ⟨s,unsigned,hu,hstripped⟩ := cooperativeClose_ok hc
  obtain ⟨_,rfl⟩ := h.buildCloseTx_ok hu
  refine Tx.allFinal_congr hstripped fun tin ht => ?_
  obtain ⟨i,_,rfl⟩ := List.mem_map.mp ht
  rfl

theorem Canonical.allFinal_forfeit (h : ch.Canonical B) {offender fee : ℤ} {tower : Option PublicKey}
    (hf : ch.forfeitBondTx B offender tower fee = .ok (tx,utxos)) : tx.AllFinal := by
  obtain ⟨i,_,_,_,rfl⟩ := h.forfeitBondTx_ok hf
  refine Tx.allFinal_congr (Tx.stripped_setScriptSig _ _ _) fun tin ht => ?_
  rw [List.mem_singleton.mp ht]

theorem signStateTx_version {s : State} (h : ch.signStateTx B s = .ok (tx,utxos)) :
    s.version < finalSequence := by
  obtain ⟨unsigned,hb,_⟩ := signStateTx_ok h
  obtain ⟨q,_,hb⟩ := bind_eq_ok.mp hb
  obtain ⟨seq,hseq,_⟩ := bind_eq_ok.mp hb
  exact sequenceForVersion_ok hseq

/-- A state transaction never carries the last sequence number. -/
theorem CoSigned.version_lt {version : ℕ} (h : ch.CoSigned B version tx) : version < finalSequence := by
  rcases h with ⟨s,utxos,rfl,hs⟩ | ⟨allocation,utxos,hs⟩
  · exact signStateTx_version hs
  · obtain ⟨_,_,hs⟩ := bind_eq_ok.mp hs
    obtain ⟨s,hmake,hs⟩ := bind_eq_ok.mp hs
    obtain ⟨_,_,hs⟩ := bind_eq_ok.mp hs
    rw [← make_version hmake]
    exact @signStateTx_version B { ch with state := s } tx utxos s hs

theorem Canonical.channel_mem_close (h : ch.Canonical B) {s : Option State}
    (hc : ch.cooperativeClose B s = .ok (tx,utxos)) : (ch.fundingTxid B,0) ∈ tx.outpoints := by
  obtain ⟨s,unsigned,hu,hstripped⟩ := cooperativeClose_ok hc
  obtain ⟨_,rfl⟩ := h.buildCloseTx_ok hu
  rw [Tx.outpoints_congr hstripped,outpoints_closeTxOf]
  exact List.mem_map.mpr ⟨0,List.mem_range.mpr (by omega),rfl⟩

/-- The funding transaction pays the channel's value. -/
theorem Canonical.rich (h : ch.Canonical B) : ch.fundingTx.Rich := by
  have hout := h.output (i := 0) (by omega)
  refine ⟨⟨ch.cfg.S,channelLockOf B ch.keybook⟩,List.mem_of_getElem? hout,?_⟩
  have hpos := ch.cfg.S_pos
  dsimp only
  omega

end Channel

section Mempool
variable {B : Bitcoinx} {U : UtxoSet} {m m₁ : Mempool Tower} {t tx : Tx}

/-- A transaction with last sequence numbers is not replaced: a replacement would have to go beyond
them on the outpoint it shares. -/
theorem Mempool.Taken.keeps (h : Mempool.Taken B U m tx m₁) (hc : m.Consistent B)
    (hseq : tx.Sequenced) (hfinal : t.AllFinal) (ht : t ∈ m.allTxs) : t ∈ m₁.allTxs := by
  obtain ⟨txid,e,he,rfl⟩ := Mempool.mem_allTxs.mp ht
  have hne : B.txHash tx ≠ txid := by
    rintro rfl
    have hn := h.new
    rw [he] at hn
    cases hn
  refine Mempool.mem_allTxs.mpr ⟨txid,e,?_,rfl⟩
  cases h with
  | plain _ _ _ => rw [Mempool.get?_insert,if_neg hne,he]
  | replacing oldTxid old _ hold _ hconf _ hviol _ =>
    obtain ⟨o,ho,hl⟩ := hconf
    have hother : oldTxid ≠ txid := by
      rintro rfl
      obtain ⟨f,hf,hof⟩ := (hc.held o oldTxid).mp hl
      rw [he] at hf
      cases hf
      rw [he] at hold
      cases hold
      obtain ⟨q,hq⟩ := lookup_seqsByOutpoint_of_mem hof
      obtain ⟨old,hin,_,rfl⟩ := lookup_seqsByOutpoint hq
      obtain ⟨tin,htin,rfl⟩ := List.mem_map.mp ho
      have hlt := lt_of_seqViolation_none hviol htin hq
      have hle := hseq tin htin
      rw [hfinal old hin] at hlt
      omega
    rw [Mempool.get?_insert,if_neg hne,Mempool.get?_remove,if_neg hother,he]

/-- No submission of sequenced transactions displaces it, whatever the towers do. -/
theorem MempoolSteps.keeps {T : Set Tx} (h : MempoolSteps B U (· ∈ T) m m₁) (hc : m.Consistent B)
    (hseq : ∀ s ∈ T, s.Sequenced) (hfinal : t.AllFinal) (ht : t ∈ m.allTxs) : t ∈ m₁.allTxs := by
  have hboth : m.Consistent B ∧ t ∈ m.allTxs := ⟨hc,ht⟩
  refine (h.keep (I := fun m => m.Consistent B ∧ t ∈ m.allTxs) (fun m m' hm hs => ?_) hboth).2
  cases hs with
  | take tx htx htaken =>
    exact ⟨htaken.consistent hm.1,htaken.keeps hm.1 (hseq tx htx) hfinal hm.2⟩
  | count i => exact ⟨hm.1.countIntervention i,hm.2⟩

/-- The towers do not react to last sequence numbers. -/
theorem observeInputs_final {submit : Admission Tower} {i : ℕ}
    (hseq : ∀ s, Held B (registries m) s → s.Sequenced) {ins : List TxInput}
    (hfinal : ∀ tin ∈ ins, tin.sequence = finalSequence) :
    Tower.observeInputs B submit i ins m = some m := by
  induction ins with
  | nil => rfl
  | cons tin ins ih =>
    have hrest := ih fun s hs => hfinal s (by simp [hs])
    simp only [Tower.observeInputs]
    split
    · exact hrest
    · rename_i record hr
      split
      · rfl
      · rename_i current hcur
        split
        · rfl
        · rename_i first rest hins
          have hle := hseq current (Tower.recordFor_held hr hcur) first (by simp [hins])
          rw [hfinal tin (by simp),if_pos hle]
          exact hrest

theorem notify_final {submit : Admission Tower} {event : MempoolEvent}
    (hseq : ∀ s, Held B (registries m) s → s.Sequenced) (hfinal : t.AllFinal) :
    Mempool.notify (Tower.observe B) submit m event t = some m := by
  have hall : ∀ count i, Mempool.notifyFrom (Tower.observe B) submit event t count i m = some m := by
    intro count
    induction count with
    | zero => intro i; rfl
    | succ count ih =>
      intro i
      have hobs : Tower.observe B submit i m event t = some m := by
        cases event with
        | evict => rfl
        | admitted => exact observeInputs_final hseq hfinal
        | replace => exact observeInputs_final hseq hfinal
      rw [Mempool.notifyFrom,hobs]
      exact ih (i+1)
  exact hall _ 0

/-- A valid transaction with last sequence numbers is taken in when its only conflict has lower ones,
and the conflict goes. -/
theorem admit_replaces (depth : ℕ) {old : Tx} (hc : m.Consistent B)
    (hseq : ∀ s, Held B (registries m) s → s.Sequenced) (hfinal : t.AllFinal)
    (hok : (validateTx B t U).ok = true) (hnew : m.entries.get? (B.txHash t) = none)
    (hold : old ∈ m.allTxs) {o : Outpoint} (hot : o ∈ t.outpoints) (hoo : o ∈ old.outpoints)
    (honly : ∀ s ∈ m.allTxs, ∀ p ∈ t.outpoints, p ∈ s.outpoints → s = old)
    (hlow : ∀ tin ∈ old.inputs, tin.sequence < finalSequence) :
    ∃ m', m.admitTx B (Tower.observe B) U (depth+1) t = some (m',.ok (validateTx B t U)) ∧
      t ∈ m'.allTxs ∧ old ∉ m'.allTxs := by
  have hsole : ∀ p ∈ t.outpoints, ∀ txid, m.spentBy.lookup p = some txid → txid = B.txHash old := by
    intro p hp txid hl
    obtain ⟨f,hf,hpf⟩ := (hc.held p txid).mp hl
    rw [← hc.keyed txid f hf,honly f.tx (Mempool.mem_allTxs.mpr ⟨txid,f,hf,rfl⟩) p hp hpf]
  rcases admit_spec U depth hc t with ⟨href,_⟩ | ⟨m₁,event,htaken,_,hres⟩
  · exfalso
    cases href with
    | known f hf =>
      rw [hnew] at hf
      cases hf
    | conflicts a b hab ha hb =>
      obtain ⟨_,p,hp,hlp⟩ := Mempool.mem_conflictingTxids.mp ha
      obtain ⟨_,q,hq,hlq⟩ := Mempool.mem_conflictingTxids.mp hb
      exact hab ((hsole p hp a hlp).trans (hsole q hq b hlq).symm)
    | outbid txid f hf tin q hviol =>
      -- the transaction that outbids would be the conflict, whose numbers are lower
      obtain ⟨htin,hl,hle⟩ := of_seqViolation_some hviol
      obtain rfl := honly f.tx (Mempool.mem_allTxs.mpr ⟨txid,f,hf,rfl⟩) _
        (List.mem_map_of_mem htin) (outpoint_of_lookup hl)
      obtain ⟨low,hin,_,rfl⟩ := lookup_seqsByOutpoint hl
      have hlt := hlow low hin
      rw [hfinal tin htin] at hle
      omega
    | invalid hbad =>
      rw [hok] at hbad
      cases hbad
  · have hregs : registries m₁ = registries m := by rw [registries,registries,htaken.observers]
    have hquiet : Mempool.notify (Tower.observe B) (Mempool.admitTx B (Tower.observe B) U depth) m₁
        event t = some m₁ := notify_final (fun s hs => hseq s (by rwa [hregs] at hs)) hfinal
    obtain ⟨e,he,rfl⟩ := htaken.entry
    refine ⟨m₁,by rw [hres,hquiet]; rfl,Mempool.mem_allTxs.mpr ⟨_,e,he,rfl⟩,fun hstill => ?_⟩
    obtain ⟨txid,f,hf,rfl⟩ := Mempool.mem_allTxs.mp hstill
    obtain ⟨_,rfl⟩ := (htaken.consistent hc).spender_unique he hf hot hoo
    obtain ⟨tin,htin,_⟩ := List.mem_map.mp hoo
    have hlt := hlow tin htin
    rw [hfinal tin htin] at hlt
    omega

end Mempool

section Race
variable {B : Bitcoinx} {T M : Set Tx} {R : Set Bytes} {n : EmbeddedNode} {depth : ℕ} {t : Tx}

theorem Mining.countForfeit (h : Mining B T R M n) (i : ℕ) : Mining B T R M (n.countForfeit i) :=
  ⟨h.rooted,⟨h.consistent.keyed,h.consistent.held⟩,h.entries,h.known,h.origin,h.sealed⟩

/-- A transaction with last sequence numbers stays in the mempool until it is mined. -/
theorem Mining.stays (h : Mining B T R M n) (hseq : ∀ s ∈ T, s.Sequenced) (hfinal : t.AllFinal)
    (ht : t ∈ n.mempool.allTxs) {c : NodeCall} (hc : MiningCall B T R n c) :
    t ∈ (n.call B depth c).1.mempool.allTxs ∨ t ∈ minedTxs (n.call B depth c).2 := by
  cases c with
  | submitTx tx =>
    rcases n.submitTx_cases B depth tx with hcall | ⟨m,r,hm,hcall⟩
    · rw [hcall]
      exact .inl ht
    · rw [hcall]
      have hsteps : MempoolSteps B n.utxos (· ∈ T) n.mempool m := admit_steps depth _ _ _ _
        h.consistent (hc tx (.inl rfl)) (fun s hs => hc s (.inr hs)) hm
      exact .inl (hsteps.keeps h.consistent hseq hfinal ht)
  | generateBlock script incl extra timestamp =>
    rcases n.generateBlock_cases B depth script incl extra timestamp with
      ⟨e,_,hcall⟩ | ⟨raw,txs,ha,⟨hs,e,_,hcall⟩ | ⟨hs,hd,_,⟨e,_,hcall⟩ | ⟨rawBlock,_,hcall⟩⟩⟩ <;>
      rw [hcall]
    · exact .inl ht
    · exact .inl ht
    · exact .inl ht
    · obtain ⟨_,_,_,_,rfl,_⟩ := n.assembleBlock_txs B ha
      cases incl with
      | true => exact .inr (List.mem_cons_of_mem _ ht)
      | false => exact .inl ht
  | acceptBlock raw txs => exact hc.elim


/-- The mined transactions that spend an outpoint. -/
def spenders (B : Bitcoinx) (o : Outpoint) (L : List Tx) : ℕ :=
  L.countP fun t => o ∈ UtxoSet.spentBy B t

theorem spenders_append (o : Outpoint) (L L' : List Tx) :
    spenders B o (L ++ L') = spenders B o L + spenders B o L' := List.countP_append

/-- In a block at most one transaction spends an outpoint, and then the outpoint was unspent. -/
theorem Assembled.block_spenders {U : UtxoSet} {height : ℕ} {coinbase : Tx} {included : List Tx}
    (h : Assembled B T U height coinbase included) (o : Outpoint) :
    spenders B o (coinbase :: included) = 0 ∨ (spenders B o (coinbase :: included) = 1 ∧
      o ∈ UtxoSet.spentOf B (coinbase :: included) ∧ ∃ e, U.lookup o = some e) := by
  have hone : ∀ {l : List Tx}, (∀ t ∈ l, t ∈ included) →
      (l.Pairwise fun s t => (∀ o ∈ s.outpoints, o ∉ t.outpoints) ∧ B.txHash s ≠ B.txHash t) →
      spenders B o l ≤ 1 := by
    intro l
    induction l with
    | nil => simp [spenders]
    | cons s l ih =>
      intro hl hp
      obtain ⟨hs,hp⟩ := List.pairwise_cons.mp hp
      have hrest := ih (fun t ht => hl t (by simp [ht])) hp
      by_cases hso : o ∈ UtxoSet.spentBy B s
      · have hz : spenders B o l = 0 := by
          refine List.countP_eq_zero.mpr fun t ht hto => ?_
          rw [h.spentBy_included (hl s (by simp))] at hso
          rw [decide_eq_true_eq,h.spentBy_included (hl t (by simp [ht]))] at hto
          exact (hs t ht).1 o hso hto
        simp only [spenders] at hz ⊢
        simp [hso,hz]
      · simp only [spenders] at hrest ⊢
        simpa [hso] using hrest
  have hcons : spenders B o (coinbase :: included) = spenders B o included := by
    simp [spenders,h.spentBy_coinbase]
  rcases Nat.eq_zero_or_pos (spenders B o (coinbase :: included)) with hz | hpos
  · exact .inl hz
  · rw [hcons] at hpos
    obtain ⟨t,ht,hto⟩ := List.countP_pos_iff.mp hpos
    rw [decide_eq_true_eq] at hto
    have hle := hone (fun t ht => ht) h.apart
    refine .inr ⟨by rw [hcons]; omega,List.mem_flatMap.mpr ⟨t,by simp [ht],hto⟩,?_⟩
    rw [h.spentBy_included ht] at hto
    exact validateTx_present (h.valid t ht) o hto

/-- An output of `F` has been spent never, or once and is gone. -/
def SpentOnce (B : Bitcoinx) (F : Tx) (o : Outpoint) (L : List Tx) (U : UtxoSet) : Prop :=
  spenders B o L = 0 ∨ (spenders B o L = 1 ∧ F ∈ L ∧ U.lookup o = none)

theorem SpentOnce.connect {L : List Tx} {F : Tx} {o : Outpoint} {U : UtxoSet} {height k : ℕ}
    {coinbase : Tx} {included : List Tx} (h : SpentOnce B F o L U) (hinj : Set.InjOn B.txHash T)
    (hF : F ∈ T) (hrich : F.Rich) (hid : B.txHash F = o.1) (hL : ∀ t ∈ L, t ∈ T)
    (horigin : Originates B {t | t ∈ L} U)
    (hsealed : ∀ t ∈ L, t.Rich → Sealed B {t | t ∈ L} U height t)
    (hasm : Assembled B T U (height+1) coinbase included) :
    SpentOnce B F o (L ++ coinbase :: included) (U.connectBlockUtxos B k (coinbase :: included)) := by
  have hgone : F ∈ L → (U.connectBlockUtxos B k (coinbase :: included)).lookup o =
      if o ∈ UtxoSet.spentOf B (coinbase :: included) then none else U.lookup o := fun hm =>
    UtxoSet.lookup_connect_of_not_created (hasm.not_created hinj hF (hsealed F hm hrich) hid) k U
  rw [SpentOnce,spenders_append]
  rcases h with hzero | ⟨hone,hm,hnone⟩
  · rcases hasm.block_spenders o with hz | ⟨hone,hspent,e,he⟩
    · exact .inl (by omega)
    · -- the output was made by `F`, which was therefore mined before
      obtain ⟨t,ht,h1,_⟩ := horigin o e he
      obtain rfl := hinj (hL t ht) hF (h1.trans hid.symm)
      exact .inr ⟨by omega,List.mem_append_left _ ht,by rw [hgone ht,if_pos hspent]⟩
  · rcases hasm.block_spenders o with hz | ⟨_,_,e,he⟩
    · refine .inr ⟨by omega,List.mem_append_left _ hm,?_⟩
      rw [hgone hm,hnone,ite_self]
    · rw [hnone] at he
      cases he

/-- Every call keeps the outputs of `F` from being spent a second time. -/
theorem SpentOnce.call {L : List Tx} {F : Tx} {o : Outpoint} (h : SpentOnce B F o L n.utxos)
    (hm : Mining B T R {t | t ∈ L} n) (hinj : Set.InjOn B.txHash T)
    (hcb : ∀ value script height extra, B.isCoinbase (makeCoinbase value script height extra) = true)
    (hF : F ∈ T) (hrich : F.Rich) (hid : B.txHash F = o.1) {c : NodeCall}
    (hc : MiningCall B T R n c) :
    SpentOnce B F o (L ++ minedTxs (n.call B depth c).2) (n.call B depth c).1.utxos := by
  have hsame : ∀ a, minedTxs a = [] → SpentOnce B F o (L ++ minedTxs a) n.utxos := fun a ha => by
    rw [ha,List.append_nil]
    exact h
  cases c with
  | submitTx tx =>
    rcases n.submitTx_cases B depth tx with hcall | ⟨m,r,_,hcall⟩
    · rw [hcall]
      exact hsame _ rfl
    · rw [hcall]
      exact hsame _ rfl
  | generateBlock script incl extra timestamp =>
    rcases n.generateBlock_cases B depth script incl extra timestamp with
      ⟨e,_,hcall⟩ | ⟨raw,txs,ha,⟨hs,e,_,hcall⟩ | ⟨hs,hd,_,⟨e,_,hcall⟩ | ⟨rawBlock,_,hcall⟩⟩⟩
    · rw [hcall]
      exact hsame _ rfl
    · rw [hcall]
      exact hsame _ rfl
    · rw [hcall]
      exact hsame _ rfl
    · rw [hcall]
      obtain ⟨coinbase,rfl,hasm⟩ := hm.assembled hcb ha (hc raw txs ha).2.2
      exact h.connect hinj hF hrich hid hm.known hm.origin hm.sealed hasm
  | acceptBlock raw txs => exact hc.elim

end Race

/-- All transactions that were mined in some calls. -/
def minedIn {ι : Type} (past : List (EmbeddedNode × ι × NodeAnswer)) : List Tx :=
  past.flatMap fun x => minedTxs x.2.2

theorem minedIn_concat {ι : Type} (past : List (EmbeddedNode × ι × NodeAnswer)) (n : EmbeddedNode)
    (i : ι) (a : NodeAnswer) : minedIn (past ++ [(n,i,a)]) = minedIn past ++ minedTxs a := by
  simp [minedIn]

section Run
variable {B : Bitcoinx} {T M : Set Tx} {R : Set Bytes} {n : EmbeddedNode} {depth : ℕ}

theorem Mining.raceCall (h : Mining B T R M n) (depth : ℕ) (hinj : Set.InjOn B.txHash T)
    (hhash : Set.InjOn (headerHash B) R)
    (hcb : ∀ value script height extra, B.isCoinbase (makeCoinbase value script height extra) = true)
    {c : RaceCall} (hc : RaceAllowed B T R n c) :
    Mining B T R (M ∪ {t | t ∈ minedTxs (n.raceCall B depth c).2}) (n.raceCall B depth c).1 := by
  refine raceCall_rule depth (P := fun n' L => Mining B T R (M ∪ {t | t ∈ L}) n') hc ?_
    (fun d hd => h.call hinj hhash hcb depth d hd) fun n' L i hL => hL.countForfeit i
  simpa using h

theorem Mining.raceCall_list {L : List Tx} (h : Mining B T R {t | t ∈ L} n) (depth : ℕ)
    (hinj : Set.InjOn B.txHash T) (hhash : Set.InjOn (headerHash B) R)
    (hcb : ∀ value script height extra, B.isCoinbase (makeCoinbase value script height extra) = true)
    {c : RaceCall} (hc : RaceAllowed B T R n c) :
    Mining B T R {t | t ∈ L ++ minedTxs (n.raceCall B depth c).2} (n.raceCall B depth c).1 := by
  convert h.raceCall depth hinj hhash hcb hc using 1
  ext t
  simp

theorem mining_start {reward : ℤ} {towers : List Tower}
    (hR : (EmbeddedNode.init B reward towers).genesis ∈ R) :
    Mining B T R {t | t ∈ minedIn ([] : List (EmbeddedNode × RaceCall × NodeAnswer))}
      (EmbeddedNode.init B reward towers) := by
  have hempty := @mining_init B T R reward towers hR
  simpa [minedIn] using hempty

section Start
variable {reward : ℤ} {towers : List Tower} (hinj : Set.InjOn B.txHash T)
  (hhash : Set.InjOn (headerHash B) R)
  (hcb : ∀ value script height extra, B.isCoinbase (makeCoinbase value script height extra) = true)
  (hR : (EmbeddedNode.init B reward towers).genesis ∈ R) {calls : List RaceCall}

include hinj hhash hcb hR

/-- A transaction with last sequence numbers in the mempool stays there until it is mined. -/
theorem stays_until_mined (hseq : ∀ t ∈ T, t.Sequenced) {before after : List RaceCall}
    (hc : Along (EmbeddedNode.raceCall B depth) (RaceAllowed B T R)
      (EmbeddedNode.init B reward towers) (before ++ after)) {t : Tx} (hfinal : t.AllFinal)
    (ht : t ∈ (run (EmbeddedNode.raceCall B depth) (EmbeddedNode.init B reward towers)
      before).mempool.allTxs) :
    t ∈ (run (EmbeddedNode.raceCall B depth) (EmbeddedNode.init B reward towers)
      (before ++ after)).mempool.allTxs ∨
    t ∈ minedIn (trace (EmbeddedNode.raceCall B depth) (run (EmbeddedNode.raceCall B depth)
      (EmbeddedNode.init B reward towers) before) after) := by
  obtain ⟨hbefore,hafter⟩ := (along_append _ _ _ _ _).mp hc
  have keep : ∀ n c, (∃ M, Mining B T R M n) → RaceAllowed B T R n c →
      ∃ M, Mining B T R M (n.raceCall B depth c).1 :=
    fun n c ⟨M,hM⟩ hrc => ⟨_,hM.raceCall depth hinj hhash hcb hrc⟩
  have hstart : (∃ M, Mining B T R M (run (EmbeddedNode.raceCall B depth)
        (EmbeddedNode.init B reward towers) before)) ∧
      (t ∈ (run (EmbeddedNode.raceCall B depth) (EmbeddedNode.init B reward towers)
        before).mempool.allTxs ∨
      t ∈ minedIn ([] : List (EmbeddedNode × RaceCall × NodeAnswer))) :=
    ⟨run_invariant keep ⟨∅,mining_init hR⟩ hbefore,.inl ht⟩
  rw [run_append]
  refine (history_invariant (I := fun past n => (∃ M, Mining B T R M n) ∧
    (t ∈ n.mempool.allTxs ∨ t ∈ minedIn past)) ?_ hstart hafter).2
  rintro past n c ⟨⟨M,hM⟩,hin⟩ hrc
  refine ⟨keep n c ⟨M,hM⟩ hrc,?_⟩
  rw [minedIn_concat]
  rcases hin with hin | hin
  · have hstep := raceCall_rule depth (P := fun n' L => t ∈ n'.mempool.allTxs ∨ t ∈ L) hrc (.inl hin)
      (fun d hd => hM.stays hseq hfinal hin hd) fun n' L i h => h
    exact hstep.imp id fun h => List.mem_append_right _ h
  · exact .inr (List.mem_append_left _ hin)

/-- An output of a transaction of value is spent by at most one mined transaction. -/
theorem spenders_le_one {F : Tx} {o : Outpoint} (hF : F ∈ T) (hrich : F.Rich) (hid : B.txHash F = o.1)
    (hc : Along (EmbeddedNode.raceCall B depth) (RaceAllowed B T R)
      (EmbeddedNode.init B reward towers) calls) :
    spenders B o (minedIn (trace (EmbeddedNode.raceCall B depth)
      (EmbeddedNode.init B reward towers) calls)) ≤ 1 := by
  have hempty : Mining B T R {t | t ∈ minedIn ([] : List (EmbeddedNode × RaceCall × NodeAnswer))}
      (EmbeddedNode.init B reward towers) := mining_start hR
  have hstart : Mining B T R {t | t ∈ minedIn ([] : List (EmbeddedNode × RaceCall × NodeAnswer))}
        (EmbeddedNode.init B reward towers) ∧
      SpentOnce B F o (minedIn ([] : List (EmbeddedNode × RaceCall × NodeAnswer)))
        (EmbeddedNode.init B reward towers).utxos :=
    ⟨hempty,.inl rfl⟩
  have keep : ∀ (past : List (EmbeddedNode × RaceCall × NodeAnswer)) n c,
      (Mining B T R {t | t ∈ minedIn past} n ∧ SpentOnce B F o (minedIn past) n.utxos) →
      RaceAllowed B T R n c →
      Mining B T R {t | t ∈ minedIn (past ++ [(n,c,(n.raceCall B depth c).2)])} (n.raceCall B depth c).1 ∧
        SpentOnce B F o (minedIn (past ++ [(n,c,(n.raceCall B depth c).2)]))
          (n.raceCall B depth c).1.utxos := by
    rintro past n c ⟨hM,hs⟩ hrc
    rw [minedIn_concat]
    refine ⟨hM.raceCall_list depth hinj hhash hcb hrc,?_⟩
    refine raceCall_rule depth (P := fun n' L => SpentOnce B F o (minedIn past ++ L) n'.utxos) hrc ?_
      (fun d hd => hs.call hM hinj hcb hF hrich hid hd) fun n' L i h => h
    rw [List.append_nil]
    exact hs
  have hspent : SpentOnce B F o (minedIn (trace (EmbeddedNode.raceCall B depth)
      (EmbeddedNode.init B reward towers) calls)) _ := (history_invariant keep hstart hc).2
  rcases hspent with hz | ⟨hone,_⟩
  · omega
  · omega

end Start

/-- A valid cooperative close whose only conflict is a state transaction replaces it. -/
theorem close_replaces_state (h : Mining B T R M n) (hinj : Set.InjOn B.txHash T)
    (hseq : ∀ t ∈ T, t.Sequenced) {close : Tx} (hc : MiningCall B T R n (.submitTx close))
    {ch : Channel} (hch : ch.Canonical B) {s : Option State} {utxos : List TxOutput} {version : ℕ}
    {state : Tx} (hclose : ch.cooperativeClose B s = .ok (close,utxos))
    (hstate : ch.CoSigned B version state) (hin : state ∈ n.mempool.allTxs)
    (honly : ∀ t ∈ n.mempool.allTxs, ∀ o ∈ close.outpoints, o ∈ t.outpoints → t = state)
    (hok : (validateTx B close n.utxos).ok = true) :
    (n.call B (depth+1) (.submitTx close)).2 = .admission (.ok (validateTx B close n.utxos)) ∧
      close ∈ (n.call B (depth+1) (.submitTx close)).1.mempool.allTxs ∧
      state ∉ (n.call B (depth+1) (.submitTx close)).1.mempool.allTxs := by
  have hfinal := hch.allFinal_close hclose
  have hlt := hstate.version_lt
  obtain ⟨⟨sig,hins⟩,_⟩ := hstate.shape
  have hlow : ∀ tin ∈ state.inputs, tin.sequence < finalSequence := by
    simp [hins,hlt]
  have hmem := hch.channel_mem_close hclose
  have hnew : n.mempool.entries.get? (B.txHash close) = none := by
    by_contra hne
    obtain ⟨e,he⟩ := Option.ne_none_iff_exists'.mp hne
    have hentry := Mempool.mem_allTxs.mpr ⟨_,e,he,rfl⟩
    -- the entry would be the close itself, and so the state transaction
    obtain rfl := hinj (h.entries e.tx hentry).1 (hc close (.inl rfl)) (h.consistent.keyed _ e he)
    obtain rfl := honly e.tx hentry _ hmem hmem
    have heq := hfinal ⟨ch.fundingTxid B,0,sig,version⟩ (by simp [hins])
    dsimp only at heq
    omega
  have hheld : ∀ t, Held B (registries n.mempool) t → t.Sequenced := fun t ht =>
    hseq t (hc t (.inr ht))
  have hoo : (ch.fundingTxid B,0) ∈ state.outpoints := by simp [Tx.outpoints,hins,TxInput.outpoint]
  obtain ⟨m,hadm,hyes,hno⟩ :=
    admit_replaces depth h.consistent hheld hfinal hok hnew hin hmem hoo honly hlow
  simp only [EmbeddedNode.call,EmbeddedNode.submitTx,hadm,Option.map_some]
  exact ⟨trivial,hyes,hno⟩

end Run

/-- A race: any calls on the node and forfeitures by its towers in any order. Both settlements that
close a channel carry last sequence numbers; such a transaction, once it is in the mempool, stays
there until it is mined; of the transactions that spend a bond at most one is mined; and a valid
cooperative close whose only conflict is a state transaction replaces it. -/
theorem single_spend_race {B : Bitcoinx} {T : Set Tx} {R : Set Bytes} {reward : ℤ}
    {towers : List Tower} {depth : ℕ} (hinj : Set.InjOn B.txHash T) (hseq : ∀ t ∈ T, t.Sequenced)
    (hhash : Set.InjOn (headerHash B) R)
    (hcb : ∀ value script height extra, B.isCoinbase (makeCoinbase value script height extra) = true)
    (hR : (EmbeddedNode.init B reward towers).genesis ∈ R) {calls : List RaceCall}
    (hc : Along (EmbeddedNode.raceCall B (depth+1)) (RaceAllowed B T R)
      (EmbeddedNode.init B reward towers) calls) :
    (∀ ch : Channel, ch.Obtained B →
      (∀ s tx utxos, ch.cooperativeClose B s = .ok (tx,utxos) → tx.AllFinal) ∧
      ∀ offender tower fee tx utxos, ch.forfeitBondTx B offender tower fee = .ok (tx,utxos) →
        tx.AllFinal) ∧
    (∀ before after t, calls = before ++ after → t.AllFinal →
      t ∈ (run (EmbeddedNode.raceCall B (depth+1)) (EmbeddedNode.init B reward towers)
        before).mempool.allTxs →
      t ∈ (run (EmbeddedNode.raceCall B (depth+1)) (EmbeddedNode.init B reward towers)
        calls).mempool.allTxs ∨
      t ∈ minedIn (trace (EmbeddedNode.raceCall B (depth+1)) (run (EmbeddedNode.raceCall B (depth+1))
        (EmbeddedNode.init B reward towers) before) after)) ∧
    (∀ ch : Channel, ch.Obtained B → ch.fundingTx ∈ T → ∀ i < ch.cfg.n,
      spenders B (ch.fundingTxid B,1+i) (minedIn (trace (EmbeddedNode.raceCall B (depth+1))
        (EmbeddedNode.init B reward towers) calls)) ≤ 1) ∧
    ∀ n close answer, (n,RaceCall.node (.submitTx close),answer) ∈
        trace (EmbeddedNode.raceCall B (depth+1)) (EmbeddedNode.init B reward towers) calls →
      ∀ ch : Channel, ch.Obtained B → ∀ s utxos version state,
      ch.cooperativeClose B s = .ok (close,utxos) → ch.CoSigned B version state →
      state ∈ n.mempool.allTxs →
      (∀ t ∈ n.mempool.allTxs, ∀ o ∈ close.outpoints, o ∈ t.outpoints → t = state) →
      (validateTx B close n.utxos).ok = true →
      answer = .admission (.ok (validateTx B close n.utxos)) ∧
      close ∈ (n.call B (depth+1) (.submitTx close)).1.mempool.allTxs ∧
      state ∉ (n.call B (depth+1) (.submitTx close)).1.mempool.allTxs := by
  refine ⟨fun ch hch => ⟨fun s tx utxos h => hch.canonical.allFinal_close h,
    fun offender tower fee tx utxos h => hch.canonical.allFinal_forfeit h⟩,?_,?_,?_⟩
  · rintro before after t rfl hfinal ht
    exact stays_until_mined hinj hhash hcb hR hseq hc hfinal ht
  · intro ch hch hF i hi
    exact spenders_le_one hinj hhash hcb hR hF hch.canonical.rich rfl hc
  · intro n close answer hmem ch hch s utxos version state hclose hstate hin honly hok
    have keep : ∀ n c, (∃ M, Mining B T R M n) → RaceAllowed B T R n c →
        ∃ M, Mining B T R M (n.raceCall B (depth+1) c).1 :=
      fun n c ⟨M,hM⟩ hrc => ⟨_,hM.raceCall (depth+1) hinj hhash hcb hrc⟩
    obtain ⟨⟨M,hM⟩,hcall,rfl⟩ := trace_invariant keep ⟨∅,mining_init hR⟩ hc hmem
    exact close_replaces_state hM hinj hseq hcall hch.canonical hclose hstate hin honly hok

namespace Reference

/-- The forfeiture of the first bond of the sample channel. -/
def sampleForfeit : Tx :=
  (((sampleChannel anyone).forfeitBondTx (reference anyone) 0 none 0).toOption.map Prod.fst).getD
    firstCoinbase

/-- The sample channel is funded and the forfeiture submitted. -/
def raceStart : List RaceCall :=
  [.node (.generateBlock trueScript true [] 1),.node (.submitTx (sampleChannel anyone).fundingTx),
    .node (.generateBlock trueScript true [] 2),.node (.submitTx sampleForfeit)]

def raceEnd : List RaceCall := [.node (.generateBlock trueScript true [] 3)]

abbrev raceRun (calls : List RaceCall) : EmbeddedNode :=
  run (EmbeddedNode.raceCall (reference anyone) 1) (sampleNode anyone []) calls

def raceTxs : List Tx :=
  [firstCoinbase,(sampleChannel anyone).fundingTx,makeCoinbase 9991 trueScript 2 [],sampleForfeit,
    makeCoinbase 5000 trueScript 3 []]

abbrev raceHeaders : List Bytes := activeHeaders anyone (raceRun (raceStart ++ raceEnd))

theorem raceCalls_allowed : Along (EmbeddedNode.raceCall (reference anyone) 1)
    (RaceAllowed (reference anyone) {t | t ∈ raceTxs} {raw | raw ∈ raceHeaders})
    (sampleNode anyone []) (raceStart ++ raceEnd) := by
  have hsubmit : ∀ n tx, n.mempool.observers.isEmpty = true → tx ∈ raceTxs →
      RaceAllowed (reference anyone) {t | t ∈ raceTxs} {raw | raw ∈ raceHeaders} n
        (.node (.submitTx tx)) := by
    intro n tx ho htx t ht
    rw [ht.eq ho]
    exact htx
  exact ⟨by decide +kernel,hsubmit _ _ (by decide +kernel) (by decide +kernel),by decide +kernel,
    hsubmit _ _ (by decide +kernel) (by decide +kernel),by decide +kernel,trivial⟩

end Reference

open Reference in
theorem single_spend_race_sample :
    sampleForfeit ∈ minedIn (trace (EmbeddedNode.raceCall (reference anyone) 1)
      (raceRun raceStart) raceEnd) ∧
    spenders (reference anyone) ((sampleChannel anyone).fundingTxid (reference anyone),1)
      (minedIn (trace (EmbeddedNode.raceCall (reference anyone) 1) (sampleNode anyone [])
        (raceStart ++ raceEnd))) ≤ 1 := by
  have hinj : Set.InjOn (reference anyone).txHash {t | t ∈ raceTxs} := injOn_list (by decide +kernel)
  have hhash : Set.InjOn (headerHash (reference anyone)) {raw | raw ∈ raceHeaders} :=
    injOn_list (by decide +kernel)
  have hseq : ∀ t ∈ raceTxs, t.Sequenced := by decide +kernel
  obtain ⟨_,hstay,hspent,_⟩ := single_spend_race hinj hseq hhash (isCoinbase_makeCoinbase _)
    (by decide +kernel) raceCalls_allowed
  have hkept := hstay raceStart raceEnd sampleForfeit rfl (by decide +kernel) (by decide +kernel)
  exact ⟨hkept.resolve_left (by decide +kernel),
    hspent _ (obtained_sampleChannel anyone) (by decide +kernel) 0 (by decide)⟩

end SubsatChannel
