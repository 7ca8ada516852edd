import SubsatChannel.Lib.Transition
import SubsatChannel.Node.Calls
import SubsatChannel.Reference

/-! The watchtower defence: after every call the mempool holds no spender of a watched channel
that is older than the newest state any attached tower knows, and none is ever mined. -/
namespace SubsatChannel
open Transition

namespace Registry

/-- The sequence number of the current state held for a channel. -/
def version (B : Bitcoinx) (reg : Registry) (c : Bytes) : Option ℕ :=
  ((reg.get c).bind (WatchRecord.currentStateTx B)).bind fun tx => tx.inputs.head?.map TxInput.sequence

end Registry

/-- No registry holds a version of the channel above `q`. -/
def Covers (B : Bitcoinx) (regs : List Registry) (c : Bytes) (q : ℕ) : Prop :=
  ∀ reg ∈ regs, ∀ v, reg.version B c = some v → v ≤ q

/-- The transaction spends no watched channel with an older version than the newest one held. -/
def Guarded (B : Bitcoinx) (regs : List Registry) (tx : Tx) : Prop :=
  ∀ c, ∀ tin ∈ tx.inputs, tin.outpoint = (c,0) → Covers B regs c tin.sequence

/-- When the last input listed for a channel is not older than any version held, neither is an
input listed earlier for the same channel. -/
def LastDecides (B : Bitcoinx) (regs : List Registry) (tx : Tx) : Prop :=
  ∀ c q, (seqsByOutpoint tx).lookup (c,0) = some q → Covers B regs c q →
    ∀ tin ∈ tx.inputs, tin.outpoint = (c,0) → Covers B regs c tin.sequence

/-- A current state of a channel with this sequence number: it spends the funding output only. -/
def StateFor (c : Bytes) (s : ℕ) (tx : Tx) : Prop := ∃ sig, tx.inputs = [⟨c,0,sig,s⟩]

section StateFor
variable {c : Bytes} {s : ℕ} {tx : Tx}

theorem StateFor.outpoints (h : StateFor c s tx) : tx.outpoints = [(c,0)] := by
  obtain ⟨sig,hi⟩ := h
  simp [Tx.outpoints,TxInput.outpoint,hi]

theorem StateFor.lookup (h : StateFor c s tx) : (seqsByOutpoint tx).lookup (c,0) = some s := by
  obtain ⟨sig,hi⟩ := h
  simp [seqsByOutpoint,hi,TxInput.outpoint]

theorem StateFor.guarded {B : Bitcoinx} {regs : List Registry} (h : StateFor c s tx)
    (hs : Covers B regs c s) : Guarded B regs tx := by
  obtain ⟨sig,hi⟩ := h
  intro d tin ht ho
  rw [hi,List.mem_singleton] at ht
  subst ht
  simp only [TxInput.outpoint,Prod.mk.injEq] at ho
  rw [← ho.1]
  exact hs

/-- A transaction with one input lists nothing earlier. -/
theorem StateFor.lastDecides {B : Bitcoinx} {regs : List Registry} (h : StateFor c s tx) :
    LastDecides B regs tx := by
  obtain ⟨sig,hi⟩ := h
  intro d q hq hcov tin ht ho
  rw [hi,List.mem_singleton] at ht
  subst ht
  rw [seqsByOutpoint,hi,List.foldl_cons,List.foldl_nil,← ho,Finmap.lookup_insert,
    Option.some.injEq] at hq
  rw [hq]
  exact hcov

theorem StateFor.seqViolation_none {old : Tx} (h : StateFor c s tx)
    (hv : seqViolation (seqsByOutpoint old) tx = none) {q : ℕ}
    (hq : (seqsByOutpoint old).lookup (c,0) = some q) : q < s := by
  obtain ⟨sig,hi⟩ := h
  simpa [seqViolation,hi,TxInput.outpoint,hq] using hv

theorem StateFor.seqViolation_some {old : Tx} (h : StateFor c s tx) {tin : TxInput} {q : ℕ}
    (hv : seqViolation (seqsByOutpoint old) tx = some (tin,q)) :
    (seqsByOutpoint old).lookup (c,0) = some q ∧ s ≤ q := by
  obtain ⟨sig,hi⟩ := h
  simp only [seqViolation,hi,TxInput.outpoint,List.findSome?_cons,List.findSome?_nil] at hv
  cases hl : (seqsByOutpoint old).lookup (c,0) with
  | none => simp [hl] at hv
  | some p =>
    simp only [hl,Option.bind_some] at hv
    split_ifs at hv with hle
    · simp only [Option.some.injEq,Prod.mk.injEq] at hv
      obtain ⟨_,rfl⟩ := hv
      exact ⟨rfl,hle⟩

end StateFor

section Rank

theorem countP_lt_of_mem {α : Type*} {p q : α → Bool} {l : List α} {a : α}
    (h : ∀ x, p x = true → q x = true) (ha : a ∈ l) (hq : q a = true) (hp : p a = false) :
    l.countP p < l.countP q := by
  induction l with
  | nil => simp at ha
  | cons x l ih =>
    have hle : l.countP p ≤ l.countP q := List.countP_mono_left fun y _ => h y
    rcases List.mem_cons.mp ha with rfl | hm
    · rw [List.countP_cons_of_pos hq,List.countP_cons_of_neg (by simp [hp])]
      omega
    · have hlt := ih hm
      rw [List.countP_cons,List.countP_cons]
      by_cases hx : p x = true
      · rw [if_pos hx,if_pos (h x hx)]; omega
      · rw [if_neg hx]; omega

/-- How many registries hold a newer version of the channel than `s`. -/
def rank (B : Bitcoinx) (regs : List Registry) (c : Bytes) (s : ℕ) : ℕ :=
  regs.countP fun reg => (reg.version B c).any fun v => s < v

variable {B : Bitcoinx} {regs : List Registry} {reg : Registry} {c : Bytes} {s v : ℕ}

theorem rank_lt (hr : reg ∈ regs) (hv : reg.version B c = some v) (h : s < v) :
    rank B regs c v < rank B regs c s := by
  refine countP_lt_of_mem (fun r hx => ?_) hr ?_ ?_
  · cases hw : r.version B c with
    | none => simp [hw] at hx
    | some w =>
      simp only [hw,Option.any_some,decide_eq_true_eq] at hx ⊢
      omega
  · simp [hv,h]
  · simp [hv]

theorem rank_lt_length (hr : reg ∈ regs) (hv : reg.version B c = some v) :
    rank B regs c v < regs.length := by
  rw [rank,List.countP_lt_length_iff]
  exact ⟨reg,hr,by simp [hv]⟩

end Rank

/-- Every record held was registered over unspent funding outputs: its current state parses to a
transaction that spends the funding output only and validates while that output is unspent. -/
structure RecordsReady (B : Bitcoinx) (T : Set Tx) (V : UtxoSet) (regs : List Registry) : Prop where
  inj : Set.InjOn B.txHash T
  current : ∀ reg ∈ regs, ∀ c r, reg.get c = some r → ∃ tx s, r.currentStateTx B = some tx ∧
    StateFor c s tx ∧ tx ∈ T ∧ (validateTx B tx V).ok = true
  funding : ∀ reg ∈ regs, ∀ c r, reg.get c = some r → ∃ tx ∈ T, ∃ out, B.txHash tx = c ∧
    tx.outputs[0]? = some out ∧ (V.lookup (c,0)).map UtxoEntry.asTxOutput = some out

/-- Where a watched funding output is unspent, it is still the one the records were made for. -/
def Intact (regs : List Registry) (V W : UtxoSet) : Prop :=
  ∀ reg ∈ regs, ∀ c r, reg.get c = some r → ∀ e, W.lookup (c,0) = some e →
    (V.lookup (c,0)).map UtxoEntry.asTxOutput = some e.asTxOutput

/-- The records of one channel: each parses to a state of the channel that validates while the channel
output is unspent. -/
structure ChannelReady (B : Bitcoinx) (T : Set Tx) (W : UtxoSet) (regs : List Registry) (c : Bytes) :
    Prop where
  inj : Set.InjOn B.txHash T
  current : ∀ reg ∈ regs, ∀ r, reg.get c = some r → ∃ tx s, r.currentStateTx B = some tx ∧
    StateFor c s tx ∧ tx ∈ T ∧ ∀ e, W.lookup (c,0) = some e → (validateTx B tx W).ok = true

/-- The mempool between the submissions of a call: consistent, its towers and transactions known. -/
structure Orderly (B : Bitcoinx) (T : Set Tx) (regs : List Registry) (m : Mempool Tower) : Prop where
  consistent : m.Consistent B
  towers : registries m = regs
  known : ∀ txid e, m.entries.get? txid = some e → e.tx ∈ T

/-- Some entry spends the channel, and the last input it lists for it has this sequence number. -/
def Top (m : Mempool Tower) (c : Bytes) (q : ℕ) : Prop :=
  ∃ txid e, m.entries.get? txid = some e ∧ (seqsByOutpoint e.tx).lookup (c,0) = some q

/-- What holds after a current state with sequence number `s` was submitted for a channel: the
new entries are states of the channel no older than it that no tower can overtake, and the
channel has a spender that is at least as new as it and as any spender before. -/
structure Answered (B : Bitcoinx) (T : Set Tx) (regs : List Registry) (c : Bytes) (s : ℕ)
    (m m' : Mempool Tower) : Prop where
  orderly : Orderly B T regs m'
  entry : ∀ txid e, m'.entries.get? txid = some e → m.entries.get? txid = some e ∨
    (Guarded B regs e.tx ∧ ∃ q, StateFor c q e.tx ∧ s ≤ q)
  top : ∃ q, Top m' c q ∧ s ≤ q ∧ ∀ p, Top m c p → p ≤ q

section Answers
variable {B : Bitcoinx} {T : Set Tx} {V W : UtxoSet} {regs : List Registry}
  {m m' : Mempool Tower} {c : Bytes} {s : ℕ} {tx : Tx}

/-- A consistent mempool holds one spender of a channel at most. -/
theorem Top.unique (hc : m.Consistent B) {p q : ℕ} (hp : Top m c p) (hq : Top m c q) : p = q := by
  obtain ⟨s,e,he,hpe⟩ := hp
  obtain ⟨t,f,hf,hqf⟩ := hq
  obtain ⟨_,rfl⟩ := hc.spender_unique he hf (outpoint_of_lookup hpe) (outpoint_of_lookup hqf)
  rw [hpe] at hqf
  exact Option.some.inj hqf

theorem Orderly.count (h : Orderly B T regs m) (i : ℕ) :
    Orderly B T regs (Tower.countIntervention m i) :=
  ⟨h.consistent.countIntervention i,by rw [Tower.registries_countIntervention]; exact h.towers,h.known⟩

theorem Orderly.taken (h : Orderly B T regs m) (ht : tx ∈ T) {m₁ : Mempool Tower}
    (hk : Mempool.Taken B W m tx m₁) : Orderly B T regs m₁ where
  consistent := hk.consistent h.consistent
  towers := by rw [registries,hk.observers]; exact h.towers
  known txid e he := by
    rcases hk.entry_old he with ⟨_,rfl,_⟩ | hold
    · exact ht
    · exact h.known txid e hold

/-- A current state validates as long as the funding output it spends is there. -/
theorem RecordsReady.channel (hr : RecordsReady B T V regs) (hw : Intact regs V W) (c : Bytes) :
    ChannelReady B T W regs c where
  inj := hr.inj
  current reg hreg r hget := by
    obtain ⟨tx,s,hcur,hs,ht,hok⟩ := hr.current reg hreg c r hget
    refine ⟨tx,s,hcur,hs,ht,fun e he => ?_⟩
    rw [validateTx_congr (V := V),hok]
    intro o ho
    rw [hs.outpoints,List.mem_singleton] at ho
    subst ho
    rw [he,hw reg hreg c r hget e he]
    rfl

theorem ChannelReady.held (hr : ChannelReady B T W regs c) {reg : Registry} {r : WatchRecord}
    (hreg : reg ∈ regs) (hget : reg.get c = some r) (hcur : r.currentStateTx B = some tx)
    {e : UtxoEntry} (he : W.lookup (c,0) = some e) : tx ∈ T ∧ (validateTx B tx W).ok = true := by
  obtain ⟨tx',s',hcur',_,ht,hok⟩ := hr.current reg hreg r hget
  rw [hcur] at hcur'
  cases hcur'
  exact ⟨ht,hok e he⟩

/-- One input of an observed transaction: the tower passes it over, or it submits the newer state
it holds and goes on with the next input. -/
theorem observeInputs_cons {tin : TxInput} (hr : ChannelReady B T W regs tin.prevHash)
    (submit : Admission Tower) (ho : Orderly B T regs m) {i : ℕ} {reg : Registry}
    (hi : regs[i]? = some reg) (ins : List TxInput) :
    ((∀ c, tin.outpoint = (c,0) → Covers B [reg] c tin.sequence) ∧
      Tower.observeInputs B submit i (tin :: ins) m = Tower.observeInputs B submit i ins m) ∨
    ∃ c r current v, tin.outpoint = (c,0) ∧ reg.get c = some r ∧
      r.currentStateTx B = some current ∧ StateFor c v current ∧ reg.version B c = some v ∧
      tin.sequence < v ∧ ∀ m' res, submit m current = some (m',.ok res) →
        Tower.observeInputs B submit i (tin :: ins) m = Tower.observeInputs B submit i ins
          (if res.ok then Tower.countIntervention m' i else m') := by
  have hreg : reg ∈ regs := List.mem_of_getElem? hi
  obtain ⟨t,ht,rfl⟩ : ∃ t, m.observers[i]? = some t ∧ t.registry = reg := by
    rw [← ho.towers,registries,List.getElem?_map] at hi
    exact Option.map_eq_some_iff.mp hi
  simp only [Tower.observeInputs,ht,Option.bind_some,Tower.recordFor]
  by_cases h0 : tin.prevIdx = 0
  · have hout : ∀ c, tin.outpoint = (c,0) ↔ c = tin.prevHash := by
      intro c
      simp [TxInput.outpoint,h0,eq_comm]
    simp only [h0,if_true]
    cases hget : t.registry.get tin.prevHash with
    | none =>
      refine .inl ⟨fun c hc reg' hreg' v hv => ?_,rfl⟩
      rw [List.mem_singleton] at hreg'
      subst hreg'
      rw [(hout c).mp hc,Registry.version,hget] at hv
      cases hv
    | some r =>
      obtain ⟨current,v,hcur,⟨sig,hins⟩,_,_⟩ := hr.current t.registry hreg r hget
      have hv : t.registry.version B tin.prevHash = some v := by
        simp [Registry.version,hget,hcur,hins]
      simp only [hcur,hins]
      split_ifs with hle
      · refine .inl ⟨fun c hc reg' hreg' w hw => ?_,rfl⟩
        rw [List.mem_singleton] at hreg'
        subst hreg'
        rw [(hout c).mp hc,hv] at hw
        cases hw
        exact hle
      · refine .inr ⟨_,r,current,v,(hout _).mpr rfl,hget,hcur,⟨sig,hins⟩,hv,by omega,?_⟩
        intro m' res hsub
        simp only [hsub]
  · simp only [h0,if_false]
    refine .inl ⟨fun c hc => ?_,trivial⟩
    simp only [TxInput.outpoint,Prod.mk.injEq] at hc
    exact absurd hc.2 h0

/-- A way to submit transactions that answers the current states of low enough rank. -/
def AnswersTo (B : Bitcoinx) (T : Set Tx) (W : UtxoSet) (regs : List Registry)
    (submit : Admission Tower) (depth : ℕ) : Prop :=
  ∀ m reg r c s tx e, Orderly B T regs m → reg ∈ regs → reg.get c = some r →
    r.currentStateTx B = some tx → StateFor c s tx → W.lookup (c,0) = some e →
    rank B regs c s < depth → ∃ m' res, submit m tx = some (m',.ok res) ∧
      Answered B T regs c s m m'

/-- A way to submit transactions that answers the states of one channel of low enough rank. -/
def AnswersAt (B : Bitcoinx) (T : Set Tx) (W : UtxoSet) (regs : List Registry) (c : Bytes)
    (submit : Admission Tower) (depth : ℕ) : Prop :=
  ∀ m s tx, Orderly B T regs m → tx ∈ T → StateFor c s tx → (validateTx B tx W).ok = true →
    rank B regs c s < depth → ∃ m' res, submit m tx = some (m',.ok res) ∧
      Answered B T regs c s m m'

/-- The state of an answer while the towers before index `i` have been told about it. -/
structure Answering (B : Bitcoinx) (T : Set Tx) (regs : List Registry) (c : Bytes) (s : ℕ) (tx : Tx)
    (m : Mempool Tower) (i : ℕ) (m' : Mempool Tower) : Prop where
  orderly : Orderly B T regs m'
  entry : ∀ txid e, m'.entries.get? txid = some e → m.entries.get? txid = some e ∨
    (Guarded B regs e.tx ∧ ∃ q, StateFor c q e.tx ∧ s ≤ q) ∨ e.tx = tx
  top : ∃ q, Top m' c q ∧ s ≤ q ∧ (∀ p, Top m c p → p ≤ q) ∧ Covers B (regs.take i) c q

theorem covers_take_succ {i q : ℕ} {reg : Registry} (hi : regs[i]? = some reg)
    (h : Covers B (regs.take i) c q) (hreg : Covers B [reg] c q) :
    Covers B (regs.take (i+1)) c q := by
  intro x hx v hv
  rw [List.take_add_one,hi,Option.toList_some,List.mem_append] at hx
  exact hx.elim (fun hx => h x hx v hv) (fun hx => hreg x hx v hv)

theorem Covers.mono {p q : ℕ} (h : Covers B regs c p) (hpq : p ≤ q) : Covers B regs c q :=
  fun reg hreg v hv => (h reg hreg v hv).trans hpq

theorem covers_of_version {q v : ℕ} {reg : Registry} (hv : reg.version B c = some v) (h : v ≤ q) :
    Covers B [reg] c q := by
  intro x hx w hw
  rw [List.mem_singleton] at hx
  subst hx
  rw [hv] at hw
  cases hw
  exact h

/-- One tower reacts to an answer. -/
theorem Answering.observe (hr : ChannelReady B T W regs c) {submit : Admission Tower} {depth i : ℕ}
    (hsub : AnswersAt B T W regs c submit depth) (hst : StateFor c s tx) {e : UtxoEntry}
    (he : W.lookup (c,0) = some e) (hrank : rank B regs c s ≤ depth) {reg : Registry}
    (hi : regs[i]? = some reg) {m₁ : Mempool Tower} (h : Answering B T regs c s tx m i m₁) :
    ∃ m₂, Tower.observeInputs B submit i tx.inputs m₁ = some m₂ ∧
      Answering B T regs c s tx m (i+1) m₂ := by
  obtain ⟨sig,hins⟩ := id hst
  obtain ⟨q,htop,hsq,hold,hcov⟩ := h.top
  rw [hins]
  rcases @observeInputs_cons _ _ _ _ _ ⟨c,0,sig,s⟩ hr submit h.orderly i reg hi [] with
    ⟨hpass,heq⟩ | ⟨c',r,current,v,hc,hget,hcur,hstate,hv,hlt,hnext⟩
  · exact ⟨m₁,heq,h.orderly,h.entry,q,htop,hsq,hold,
      covers_take_succ hi hcov ((hpass c rfl).mono hsq)⟩
  · obtain rfl : c = c' := by
      simp only [TxInput.outpoint,Prod.mk.injEq,and_true] at hc
      exact hc
    have hreg : reg ∈ regs := List.mem_of_getElem? hi
    have hlow : rank B regs c v < depth := (rank_lt hreg hv hlt).trans_le hrank
    obtain ⟨ht,hok⟩ := hr.held hreg hget hcur he
    obtain ⟨m₂,res,hm₂,hans⟩ := hsub m₁ v current h.orderly ht hstate hok hlow
    have hentry : ∀ txid f, m₂.entries.get? txid = some f → m.entries.get? txid = some f ∨
        (Guarded B regs f.tx ∧ ∃ q, StateFor c q f.tx ∧ s ≤ q) ∨ f.tx = tx := by
      intro txid f hf
      rcases hans.entry txid f hf with hf | ⟨hg,p,hp,hvp⟩
      · exact h.entry txid f hf
      · exact .inr (.inl ⟨hg,p,hp,by simp only at hlt; omega⟩)
    obtain ⟨p,hp,hvp,hraise⟩ := hans.top
    have hqp : q ≤ p := hraise q htop
    have hcov' : Covers B (regs.take (i+1)) c p :=
      covers_take_succ hi (hcov.mono hqp) (covers_of_version hv hvp)
    have hold' : ∀ p', Top m c p' → p' ≤ p := fun p' hp' => (hold p' hp').trans hqp
    refine ⟨_,hnext m₂ res hm₂,?_⟩
    split_ifs
    · exact ⟨hans.orderly.count i,hentry,p,hp,hsq.trans hqp,hold',hcov'⟩
    · exact ⟨hans.orderly,hentry,p,hp,hsq.trans hqp,hold',hcov'⟩

/-- All towers react to an answer, in their order. -/
theorem Answering.notify (hr : ChannelReady B T W regs c) {submit : Admission Tower} {depth : ℕ}
    (hsub : AnswersAt B T W regs c submit depth) (hst : StateFor c s tx) {e : UtxoEntry}
    (he : W.lookup (c,0) = some e) (hrank : rank B regs c s ≤ depth) {event : MempoolEvent}
    (hev : event ≠ .evict) (count i : ℕ) (hlen : i + count = regs.length) {m₁ : Mempool Tower}
    (h : Answering B T regs c s tx m i m₁) :
    ∃ m₂, Mempool.notifyFrom (Tower.observe B) submit event tx count i m₁ = some m₂ ∧
      Answering B T regs c s tx m regs.length m₂ := by
  induction count generalizing i m₁ with
  | zero => exact ⟨m₁,rfl,by rwa [← hlen,Nat.add_zero]⟩
  | succ count ih =>
    have hi : regs[i]? = some regs[i] := List.getElem?_eq_getElem (by omega)
    obtain ⟨m₂,hobs,h₂⟩ := h.observe hr hsub hst he hrank hi
    obtain ⟨m₃,hn,h₃⟩ := ih (i+1) (by omega) h₂
    refine ⟨m₃,?_,h₃⟩
    rw [Mempool.notifyFrom,Tower.observe_of_ne_evict _ _ _ _ hev,hobs]
    exact hn

/-- When every tower has reacted, what is left of the answer is as new as any version held. -/
theorem Answering.finish (hst : StateFor c s tx)
    (h : Answering B T regs c s tx m regs.length m') : Answered B T regs c s m m' := by
  obtain ⟨q,htop,hsq,hold,hcov⟩ := h.top
  rw [List.take_length] at hcov
  refine ⟨h.orderly,fun txid e he => ?_,q,htop,hsq,hold⟩
  rcases h.entry txid e he with h₁ | h₁ | rfl
  · exact .inl h₁
  · exact .inr h₁
  · have hq : s = q := Top.unique h.orderly.consistent ⟨txid,e,he,hst.lookup⟩ htop
    subst hq
    exact .inr ⟨hst.guarded hcov,s,hst,le_rfl⟩

/-- An answer that has just been taken in, before any tower reacts to it. -/
theorem Answering.start (ho : Orderly B T regs m) (ht : tx ∈ T) (hst : StateFor c s tx)
    {m₁ : Mempool Tower} (hk : Mempool.Taken B W m tx m₁) :
    Answering B T regs c s tx m 0 m₁ := by
  obtain ⟨e,he,rfl⟩ := hk.entry
  refine ⟨ho.taken ht hk,fun txid f hf => ?_,s,⟨_,e,he,hst.lookup⟩,le_rfl,?_,?_⟩
  · rcases hk.entry_old hf with ⟨_,hf',_⟩ | hf'
    · exact .inr (.inr hf')
    · exact .inl hf'
  · rintro p ⟨txid,f,hf,hp⟩
    have hheld := (ho.consistent.held (c,0) txid).mpr ⟨f,hf,outpoint_of_lookup hp⟩
    have hmem : (c,0) ∈ e.tx.outpoints := by simp [hst.outpoints]
    cases hk with
    | plain _ hfree _ =>
      rw [hfree _ hmem] at hheld
      cases hheld
    | replacing oldTxid old _ hold _ _ honly hseq _ =>
      obtain rfl := honly _ hmem _ hheld
      rw [hf] at hold
      cases hold
      exact (hst.seqViolation_none hseq hp).le
  · intro reg hreg
    simp at hreg

/-- Submitting a valid state of a channel always ends, with an answer. The induction is on the depth;
nested submissions are of newer versions, of which there are fewer. -/
theorem answersAt_admitTx (hr : ChannelReady B T W regs c) (depth : ℕ) :
    AnswersAt B T W regs c (Mempool.admitTx B (Tower.observe B) W depth) depth := by
  induction depth with
  | zero => intro m s tx _ _ _ _ hrank; omega
  | succ depth ih =>
    intro m s tx ho ht hst hok hrank
    obtain ⟨e,he⟩ := validateTx_present hok (c,0) (by simp [hst.outpoints])
    have hsame : ∀ q, Top m c q → s ≤ q → Answered B T regs c s m m := fun q hq hsq =>
      ⟨ho,fun _ _ => .inl,q,hq,hsq,fun p hp => (Top.unique ho.consistent hp hq).le⟩
    rcases admit_spec W depth ho.consistent tx with ⟨href,r,hanswer,hres⟩ | ⟨m₁,event,hk,hev,hres⟩
    · obtain ⟨result,rfl⟩ := hanswer (validateTx_ok_iff.mp hok).2.2.2.2
      refine ⟨m,result,hres,?_⟩
      cases href with
      | known f hf =>
        have hft : f.tx = tx := hr.inj (ho.known _ f hf) ht (ho.consistent.keyed _ f hf)
        exact hsame s ⟨_,f,hf,by rw [hft]; exact hst.lookup⟩ le_rfl
      | conflicts x y hxy hx hy =>
        obtain ⟨_,p,hp,hlp⟩ := Mempool.mem_conflictingTxids.mp hx
        obtain ⟨_,p',hp',hlp'⟩ := Mempool.mem_conflictingTxids.mp hy
        rw [hst.outpoints,List.mem_singleton] at hp hp'
        subst hp hp'
        rw [hlp] at hlp'
        exact absurd (Option.some.inj hlp') hxy
      | outbid oldTxid old hold tin q hseq =>
        obtain ⟨hq,hsq⟩ := hst.seqViolation_some hseq
        exact hsame q ⟨_,old,hold,hq⟩ hsq
      | invalid hno => rw [hok] at hno; cases hno
    · obtain ⟨m₂,hn,h₂⟩ := (Answering.start ho ht hst hk).notify hr ih hst he (by omega) hev
        m₁.observers.length 0 (by
          rw [hk.observers,← ho.towers,registries,List.length_map,Nat.zero_add])
      refine ⟨m₂,validateTx B tx W,?_,h₂.finish hst⟩
      rw [hres,Mempool.notify,hn]
      rfl

/-- Submitting a current state over an unspent funding output is answered. -/
theorem answersTo_admitTx (hr : ∀ c, ChannelReady B T W regs c) (depth : ℕ) :
    AnswersTo B T W regs (Mempool.admitTx B (Tower.observe B) W depth) depth := by
  intro m reg r c s tx e ho hreg hget hcur hst he hrank
  obtain ⟨ht,hok⟩ := (hr c).held hreg hget hcur he
  exact answersAt_admitTx (hr c) depth m s tx ho ht hst hok hrank

/-- The state of an arbitrary submission while the towers before index `i`, and tower `i` for the
inputs in `done`, have been told about it: what is left is guarded, or it is the submitted
transaction and no tower that has reacted holds a version above its last inputs. -/
structure Reacting (B : Bitcoinx) (T : Set Tx) (regs : List Registry) (tx : Tx) (i : ℕ)
    (done : List TxInput) (m : Mempool Tower) : Prop where
  orderly : Orderly B T regs m
  entry : ∀ txid e, m.entries.get? txid = some e → Guarded B regs e.tx ∨
    (e.tx = tx ∧ ∀ c q, (seqsByOutpoint tx).lookup (c,0) = some q → Covers B (regs.take i) c q ∧
      ∀ reg, regs[i]? = some reg → ∀ tin ∈ done, tin.outpoint = (c,0) →
        Covers B [reg] c tin.sequence ∨ Covers B [reg] c q)

/-- One tower goes through the inputs of a submitted transaction. -/
theorem Reacting.observe (hr : ∀ c, ChannelReady B T W regs c) {submit : Admission Tower} {depth i : ℕ}
    (hsub : AnswersTo B T W regs submit depth) (hdepth : regs.length ≤ depth)
    (hpres : ∀ o ∈ tx.outpoints, ∃ e, W.lookup o = some e) {reg : Registry}
    (hi : regs[i]? = some reg) (ins done : List TxInput) (hins : tx.inputs = done ++ ins)
    {m₁ : Mempool Tower} (h : Reacting B T regs tx i done m₁) :
    ∃ m₂, Tower.observeInputs B submit i ins m₁ = some m₂ ∧ Reacting B T regs tx i tx.inputs m₂ := by
  induction ins generalizing done m₁ with
  | nil =>
    rw [List.append_nil] at hins
    exact ⟨m₁,rfl,by rwa [hins]⟩
  | cons tin ins ih =>
    have hreg : reg ∈ regs := List.mem_of_getElem? hi
    have hins' : tx.inputs = (done ++ [tin]) ++ ins := by simp [hins]
    rcases observeInputs_cons (hr tin.prevHash) submit h.orderly hi ins with
      ⟨hpass,heq⟩ | ⟨c,r,current,v,hc,hget,hcur,hstate,hv,_,hnext⟩
    · have hstep : Reacting B T regs tx i (done ++ [tin]) m₁ := by
        refine ⟨h.orderly,fun txid e he => (h.entry txid e he).imp_right fun ⟨htx,hq⟩ =>
          ⟨htx,fun c q hl => ⟨(hq c q hl).1,?_⟩⟩⟩
        intro reg' hreg' t ht hto
        rw [hi] at hreg'
        cases hreg'
        rcases List.mem_append.mp ht with ht | ht
        · exact (hq c q hl).2 reg hi t ht hto
        · rw [List.mem_singleton] at ht
          subst ht
          exact .inl (hpass c hto)
      obtain ⟨m₂,hm₂,h₂⟩ := ih (done ++ [tin]) hins' hstep
      exact ⟨m₂,heq.trans hm₂,h₂⟩
    · obtain ⟨e₀,he₀⟩ := hpres (c,0) (List.mem_map.mpr ⟨tin,by simp [hins],hc⟩)
      have hlow : rank B regs c v < depth := (rank_lt_length hreg hv).trans_le hdepth
      obtain ⟨m₂,res,hm₂,hans⟩ := hsub m₁ reg r c v current e₀ h.orderly hreg hget hcur hstate he₀ hlow
      obtain ⟨p,hp,hvp,_⟩ := hans.top
      have hentry : ∀ txid e, m₂.entries.get? txid = some e → Guarded B regs e.tx ∨
          (e.tx = tx ∧ ∀ c q, (seqsByOutpoint tx).lookup (c,0) = some q →
            Covers B (regs.take i) c q ∧ ∀ reg, regs[i]? = some reg → ∀ t ∈ done ++ [tin],
              t.outpoint = (c,0) → Covers B [reg] c t.sequence ∨ Covers B [reg] c q) := by
        intro txid e he
        rcases hans.entry txid e he with hold | ⟨hg,_⟩
        · refine (h.entry txid e hold).imp_right fun ⟨htx,hq⟩ => ⟨htx,fun d q hl => ⟨(hq d q hl).1,?_⟩⟩
          intro reg' hreg' t ht hto
          rw [hi] at hreg'
          cases hreg'
          rcases List.mem_append.mp ht with ht | ht
          · exact (hq d q hl).2 reg hi t ht hto
          · rw [List.mem_singleton] at ht
            subst ht
            obtain rfl : c = d := by
              rw [hc,Prod.mk.injEq] at hto
              exact hto.1
            -- the transaction is still there, so it is the spender the answer left
            have hqp : q = p := Top.unique hans.orderly.consistent
              ⟨txid,e,he,by rw [htx]; exact hl⟩ hp
            exact .inr (covers_of_version hv (by rw [hqp]; exact hvp))
        · exact .inl hg
      have hnext' : Reacting B T regs tx i (done ++ [tin])
          (if res.ok then Tower.countIntervention m₂ i else m₂) := by
        split_ifs
        · exact ⟨hans.orderly.count i,hentry⟩
        · exact ⟨hans.orderly,hentry⟩
      obtain ⟨m₃,hm₃,h₃⟩ := ih (done ++ [tin]) hins' hnext'
      exact ⟨m₃,(hnext m₂ res hm₂).trans hm₃,h₃⟩

/-- All towers react to a submitted transaction, in their order. -/
theorem Reacting.notify (hr : ∀ c, ChannelReady B T W regs c) {submit : Admission Tower} {depth : ℕ}
    (hsub : AnswersTo B T W regs submit depth) (hdepth : regs.length ≤ depth)
    (hpres : ∀ o ∈ tx.outpoints, ∃ e, W.lookup o = some e) {event : MempoolEvent}
    (hev : event ≠ .evict) (count i : ℕ) (hlen : i + count = regs.length) {m₁ : Mempool Tower}
    (h : Reacting B T regs tx i [] m₁) :
    ∃ m₂, Mempool.notifyFrom (Tower.observe B) submit event tx count i m₁ = some m₂ ∧
      Reacting B T regs tx regs.length [] m₂ := by
  induction count generalizing i m₁ with
  | zero => exact ⟨m₁,rfl,by rwa [← hlen,Nat.add_zero]⟩
  | succ count ih =>
    have hi : regs[i]? = some regs[i] := List.getElem?_eq_getElem (by omega)
    obtain ⟨m₂,hobs,h₂⟩ := h.observe hr hsub hdepth hpres hi tx.inputs [] rfl
    have hstart : Reacting B T regs tx (i+1) [] m₂ := by
      refine ⟨h₂.orderly,fun txid e he => (h₂.entry txid e he).imp_right fun ⟨htx,hq⟩ => ⟨htx,?_⟩⟩
      intro c q hl
      refine ⟨covers_take_succ hi (hq c q hl).1 ?_,by simp⟩
      -- the last input listed for the channel settles it
      obtain ⟨tin,ht,hto,hseq⟩ := lookup_seqsByOutpoint hl
      rcases (hq c q hl).2 _ hi tin ht hto with hcov | hcov
      · rwa [hseq] at hcov
      · exact hcov
    obtain ⟨m₃,hn,h₃⟩ := ih (i+1) (by omega) hstart
    refine ⟨m₃,?_,h₃⟩
    rw [Mempool.notifyFrom,Tower.observe_of_ne_evict _ _ _ _ hev,hobs]
    exact hn

/-- A guarded mempool is guarded again when a submission has returned, and it always returns. -/
theorem admit_guarded (hr : ∀ c, ChannelReady B T W regs c) {depth : ℕ}
    (hdepth : regs.length < depth) (ho : Orderly B T regs m)
    (hg : ∀ txid e, m.entries.get? txid = some e → Guarded B regs e.tx) (ht : tx ∈ T)
    (hlast : LastDecides B regs tx) :
    ∃ m' r, Mempool.admitTx B (Tower.observe B) W depth m tx = some (m',r) ∧
      Orderly B T regs m' ∧ ∀ txid e, m'.entries.get? txid = some e → Guarded B regs e.tx := by
  obtain ⟨d,rfl⟩ : ∃ d, depth = d+1 := ⟨depth-1,by omega⟩
  rcases admit_spec W d ho.consistent tx with ⟨_,r,_,hres⟩ | ⟨m₁,event,hk,hev,hres⟩
  · exact ⟨m,r,hres,ho,hg⟩
  · have hstart : Reacting B T regs tx 0 [] m₁ := by
      refine ⟨ho.taken ht hk,fun txid e he => ?_⟩
      rcases hk.entry_old he with ⟨_,htx,_⟩ | hold
      · exact .inr ⟨htx,fun c q _ => ⟨fun reg hreg => by simp at hreg,by simp⟩⟩
      · exact .inl (hg txid e hold)
    obtain ⟨m₂,hn,h₂⟩ := hstart.notify hr (answersTo_admitTx hr d) (by omega)
      (validateTx_present hk.validated) hev m₁.observers.length 0 (by
        rw [hk.observers,← ho.towers,registries,List.length_map,Nat.zero_add])
    refine ⟨m₂,.ok (validateTx B tx W),?_,h₂.orderly,fun txid e he => ?_⟩
    · rw [hres,Mempool.notify,hn]
      rfl
    · rcases h₂.entry txid e he with hge | ⟨htx,hq⟩
      · exact hge
      · rw [htx]
        intro c tin hin hto
        obtain ⟨q,hl⟩ := lookup_seqsByOutpoint_of_mem (List.mem_map.mpr ⟨tin,hin,hto⟩)
        have hcov := (hq c q hl).1
        rw [List.take_length] at hcov
        exact hlast c q hl hcov tin hin hto

end Answers

section Runs
variable {B : Bitcoinx} {T : Set Tx} {V : UtxoSet} {regs : List Registry}

/-- Connecting transactions of the run does not change a watched funding output. -/
theorem Intact.connect (hr : RecordsReady B T V regs) (height : ℕ) (txs : List Tx)
    (ht : ∀ tx ∈ txs, tx ∈ T) {W : UtxoSet} (hw : Intact regs V W) :
    Intact regs V (W.connectBlockUtxos B height txs) := by
  induction txs generalizing W with
  | nil => exact hw
  | cons tx txs ih =>
    refine ih (fun t h => ht t (by simp [h])) (W := W.applyTx B height tx) ?_
    intro reg hreg c r hget e he
    rw [UtxoSet.lookup_applyTx] at he
    split_ifs at he with hcreated hspent
    · obtain ⟨funding,hf,out,hhash,hout,hV⟩ := hr.funding reg hreg c r hget
      have hid : B.txHash tx = B.txHash funding := by
        rw [hhash]
        exact (UtxoSet.mem_createdBy.mp hcreated).1.symm
      rw [hr.inj (ht tx (by simp)) hf hid,hout] at he
      cases he
      exact hV
    · exact hw reg hreg c r hget e he

/-- What a node under watch keeps between calls. -/
structure Defended (B : Bitcoinx) (T : Set Tx) (V : UtxoSet) (regs : List Registry)
    (n : EmbeddedNode) : Prop where
  orderly : Orderly B T regs n.mempool
  guarded : ∀ tx ∈ n.mempool.allTxs, Guarded B regs tx
  intact : Intact regs V n.utxos

/-- The calls of a defended run: transactions of `T` are submitted, in which the last input for a
channel decides, and blocks are mined locally from transactions of `T`. -/
def DefenceCall (B : Bitcoinx) (T : Set Tx) (regs : List Registry) (n : EmbeddedNode) :
    NodeCall → Prop
  | .submitTx tx => tx ∈ T ∧ LastDecides B regs tx
  | .generateBlock script incl extra timestamp => ∀ raw txs,
      n.assembleBlock B script incl extra timestamp = .ok (raw,txs) → ∀ tx ∈ txs, tx ∈ T
  | .acceptBlock _ _ => False

theorem guarded_makeCoinbase (value : ℤ) (script : Script) (height : ℕ) (extra : Bytes) :
    Guarded B regs (makeCoinbase value script height extra) := by
  intro c tin ht ho
  simp only [makeCoinbase,List.mem_singleton] at ht
  subst ht
  simp [TxInput.outpoint] at ho

/-- The transactions of an assembled block are guarded. -/
theorem Defended.assembled {n : EmbeddedNode} (h : Defended B T V regs n) {script : Script}
    {incl : Bool} {extra : Bytes} {timestamp : ℕ} {raw : Bytes} {txs : List Tx}
    (ha : n.assembleBlock B script incl extra timestamp = .ok (raw,txs)) :
    ∀ tx ∈ txs, Guarded B regs tx := by
  obtain ⟨tip,fees,_,_,rfl,_⟩ := n.assembleBlock_txs B ha
  intro tx ht
  rcases List.mem_cons.mp ht with rfl | ht
  · exact guarded_makeCoinbase _ _ _ _
  · cases incl with
    | false => simp at ht
    | true => exact h.guarded tx ht

/-- Every call of a defended run returns and leaves the node defended. -/
theorem Defended.call (hr : RecordsReady B T V regs) {depth : ℕ} (hdepth : regs.length < depth)
    {n : EmbeddedNode} (h : Defended B T V regs n) (call : NodeCall)
    (hc : DefenceCall B T regs n call) :
    Defended B T V regs (n.call B depth call).1 ∧ (n.call B depth call).2 ≠ .tooDeep := by
  cases call with
  | submitTx tx =>
    obtain ⟨ht,hlast⟩ := hc
    obtain ⟨m,r,hm,ho,hg⟩ := admit_guarded (hr.channel h.intact) hdepth h.orderly
      (fun txid e he => h.guarded e.tx (Mempool.mem_allTxs.mpr ⟨txid,e,he,rfl⟩)) ht hlast
    have hcall : n.call B depth (.submitTx tx) = ({ n with mempool := m },.admission r) := by
      simp only [EmbeddedNode.call,EmbeddedNode.submitTx,hm,Option.map_some]
    rw [hcall]
    refine ⟨⟨ho,fun t ht => ?_,h.intact⟩,by simp⟩
    obtain ⟨txid,e,he,rfl⟩ := Mempool.mem_allTxs.mp ht
    exact hg txid e he
  | generateBlock script incl extra timestamp =>
    rcases n.generateBlock_cases B depth script incl extra timestamp with
      ⟨e,_,hcall⟩ | ⟨raw,txs,ha,⟨hs,e,_,hcall⟩ | ⟨hs,hd,_,⟨e,_,hcall⟩ | ⟨rawBlock,_,hcall⟩⟩⟩
    · rw [hcall]; exact ⟨h,by simp⟩
    · rw [hcall]; exact ⟨⟨h.orderly,h.guarded,h.intact⟩,by simp⟩
    · rw [hcall]; exact ⟨⟨h.orderly,h.guarded,h.intact⟩,by simp⟩
    · rw [hcall]
      refine ⟨⟨⟨h.orderly.consistent.dropAll _,?_,?_⟩,?_,?_⟩,by simp⟩
      · rw [← h.orderly.towers]
        exact congrArg (List.map Tower.registry) (Mempool.observers_dropAll n.mempool _)
      · intro txid e he
        simp only [EmbeddedNode.extended,Mempool.get?_dropAll] at he
        split_ifs at he
        exact h.orderly.known txid e he
      · intro tx ht
        exact h.guarded tx (Mempool.mem_allTxs_dropAll ht)
      · exact h.intact.connect hr _ txs (hc raw txs ha)
  | acceptBlock raw txs => exact hc.elim

end Runs

/-- In every run that starts with an empty mempool over unspent funding outputs, with any number
of towers attached whose records were registered before, and in which the last input listed for a
channel decides: every call returns, after it the mempool holds no spender of a watched channel
older than the newest version any tower holds, and no block ever contains one. -/
theorem watchtower_defence {B : Bitcoinx} {T : Set Tx} {towers : List Tower} {n₀ : EmbeddedNode}
    {depth : ℕ} (hfresh : n₀.mempool = Mempool.fresh towers)
    (hr : RecordsReady B T n₀.utxos (towers.map Tower.registry)) (hdepth : towers.length < depth)
    {calls : List NodeCall}
    (hc : Along (EmbeddedNode.call B depth) (DefenceCall B T (towers.map Tower.registry)) n₀ calls)
    {n : EmbeddedNode} {call : NodeCall} {answer : NodeAnswer}
    (h : (n,call,answer) ∈ trace (EmbeddedNode.call B depth) n₀ calls) :
    answer ≠ .tooDeep ∧
    (∀ tx ∈ (n.call B depth call).1.mempool.allTxs, Guarded B (towers.map Tower.registry) tx) ∧
    ∀ hash txs, answer = .mined (.ok (hash,txs)) →
      ∀ tx ∈ txs, Guarded B (towers.map Tower.registry) tx := by
  have hlen : (towers.map Tower.registry).length < depth := by rwa [List.length_map]
  have hstart : Defended B T n₀.utxos (towers.map Tower.registry) n₀ := by
    refine ⟨⟨?_,?_,?_⟩,?_,?_⟩
    · rw [hfresh]; exact Mempool.consistent_fresh B towers
    · rw [hfresh]; rfl
    · rw [hfresh]; simp [Mempool.fresh]
    · rw [hfresh]; simp [Mempool.fresh,Mempool.allTxs]
    · intro reg hreg c r hget e he
      rw [he]
      rfl
  obtain ⟨hn,hcall,rfl⟩ := trace_invariant (fun s i hs hi => (hs.call hr hlen i hi).1) hstart hc h
  obtain ⟨hnext,hdeep⟩ := hn.call hr hlen call hcall
  refine ⟨hdeep,hnext.guarded,fun hash txs hmined => ?_⟩
  obtain ⟨script,incl,extra,timestamp,raw,rfl,ha⟩ := EmbeddedNode.mined_cases hmined
  exact hn.assembled ha

namespace Reference

/-- A watched state with this sequence number; its channel output is the first coinbase. -/
def watchedState (sequence : ℕ) : Tx :=
  ⟨1,[⟨(reference anyone).txHash firstCoinbase,0,[],sequence⟩],[⟨4000,trueScript⟩],0⟩

/-- The record of a channel with its current state and no forfeit. -/
def recordOf (made : Bytes → Bytes → Bool) (channelId : Bytes) (current : Tx) : WatchRecord :=
  ⟨channelId,hex ((reference made).txToBytes current),∅,defaultL0⟩

def watchedRecord : WatchRecord :=
  recordOf anyone ((reference anyone).txHash firstCoinbase) (watchedState 5)

/-- A tower that holds version 5. -/
def watcher : Tower := (Tower.new .new).register watchedRecord

/-- The sample node after its first block, with the watcher attached. -/
def watchedNode : EmbeddedNode :=
  { (sampleNode anyone []).call (reference anyone) 2 (.generateBlock trueScript true [] 1) |>.1 with
    mempool := .fresh [watcher] }

def watchedTxs : List Tx :=
  [firstCoinbase,watchedState 1,watchedState 5,makeCoinbase 6000 trueScript 2 []]

theorem get_watcher {c : Bytes} {r : WatchRecord} (h : watcher.registry.get c = some r) :
    c = (reference anyone).txHash firstCoinbase ∧ r = watchedRecord := by
  change Dict.get? (Dict.set ∅ watchedRecord.channelId watchedRecord) c = some r at h
  rw [Dict.get?_set] at h
  split_ifs at h with hc
  · exact ⟨hc.symm,(Option.some.inj h).symm⟩
  · cases h

theorem recordsReady_watched : RecordsReady (reference anyone) {t | t ∈ watchedTxs}
    watchedNode.utxos ([watcher].map Tower.registry) where
  inj := injOn_list (by decide +kernel)
  current reg hreg c r hget := by
    obtain rfl := List.mem_singleton.mp hreg
    obtain ⟨rfl,rfl⟩ := get_watcher hget
    exact ⟨watchedState 5,5,txFromHex_hex anyone _,⟨[],rfl⟩,by simp [watchedTxs],by decide +kernel⟩
  funding reg hreg c r hget := by
    obtain rfl := List.mem_singleton.mp hreg
    obtain ⟨rfl,rfl⟩ := get_watcher hget
    exact ⟨firstCoinbase,by simp [watchedTxs],⟨5000,trueScript⟩,rfl,rfl,by decide +kernel⟩

def watchedAnswer : NodeAnswer :=
  ((run (EmbeddedNode.call (reference anyone) 2) watchedNode [.submitTx (watchedState 1)]).call
    (reference anyone) 2 (.generateBlock trueScript true [] 2)).2

end Reference

open Reference in
theorem watchtower_defence_sample : watchedState 5 ∈ minedTxs watchedAnswer ∧
    ∀ tx ∈ minedTxs watchedAnswer, Guarded (reference anyone) ([watcher].map Tower.registry) tx := by
  refine ⟨by decide +kernel,?_⟩
  have hc : Along (EmbeddedNode.call (reference anyone) 2) (DefenceCall (reference anyone)
      {t | t ∈ watchedTxs} ([watcher].map Tower.registry)) watchedNode
      ([.submitTx (watchedState 1)] ++ [.generateBlock trueScript true [] 2]) := by
    refine ⟨⟨by simp [watchedTxs],StateFor.lastDecides (s := 1) ⟨[],rfl⟩⟩,?_,trivial⟩
    have htxs : ∀ raw txs, ((watchedNode.call (reference anyone) 2 (.submitTx (watchedState 1))).1
        ).assembleBlock (reference anyone) trueScript true [] 2 = .ok (raw,txs) →
        ∀ tx ∈ txs, tx ∈ watchedTxs := by
      decide +kernel
    exact htxs
  have hmem := mem_trace_append (EmbeddedNode.call (reference anyone) 2) watchedNode
    [.submitTx (watchedState 1)] (.generateBlock trueScript true [] 2) []
  obtain ⟨hash,hmined⟩ := minedTxs_ne_nil (a := watchedAnswer) (by decide +kernel)
  exact (watchtower_defence rfl recordsReady_watched (by decide) hc hmem).2.2 hash _ hmined

/-- Spend the watched output twice in one transaction, first with an old version, then with one
above all others. -/
def Reference.doubleSpender : Tx :=
  let c := (reference Reference.anyone).txHash Reference.firstCoinbase
  ⟨1,[⟨c,0,[],1⟩,⟨c,0,[],9⟩],[⟨4000,Reference.trueScript⟩],0⟩

open Reference in
/-- The tower's state is refused by the last input of such a transaction, and the old version in
its first one is mined. -/
theorem stale_input_mined :
    let n := (watchedNode.call (reference anyone) 2 (.submitTx doubleSpender)).1
    doubleSpender ∈ minedTxs (n.call (reference anyone) 2 (.generateBlock trueScript true [] 2)).2 ∧
    ¬ Guarded (reference anyone) ([watcher].map Tower.registry) doubleSpender := by
  refine ⟨by decide +kernel,fun h => ?_⟩
  have hver : watcher.registry.version (reference anyone) ((reference anyone).txHash firstCoinbase) =
      some 5 := by
    decide +kernel
  have hle := h _ ⟨_,0,[],1⟩ List.mem_cons_self rfl watcher.registry (by simp) 5 hver
  exact absurd hle (by decide)

end SubsatChannel
