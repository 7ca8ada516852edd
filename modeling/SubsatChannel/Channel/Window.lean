import SubsatChannel.Channel.Opened
import SubsatChannel.Channel.Settlement
import SubsatChannel.Watchtower.Defence

/-! The replacement window: a state transaction has lock time zero, so it stays out of the chain
only as long as a later version is submitted before the next block is mined. -/
namespace SubsatChannel
open Transition

namespace Channel

/-- A state transaction of this version that all parties have signed. -/
def CoSigned (B : Bitcoinx) (ch : Channel) (version : ℕ) (tx : Tx) : Prop :=
  (∃ s utxos, s.version = version ∧ ch.signStateTx B s = .ok (tx,utxos)) ∨
  ∃ allocation utxos, ch.supersededStateTxFor B version allocation = .ok (tx,utxos)

section CoSigned
variable {B : Bitcoinx} {ch : Channel} {s : State} {tx : Tx} {utxos : List TxOutput} {version : ℕ}

/-- The shape of a state transaction: it spends the channel output with its version as sequence
number, and its lock time is zero whatever the horizon of the channel is. -/
theorem buildStateTx_shape (h : ch.buildStateTx B s = .ok (tx,utxos)) :
    StateFor (ch.fundingTxid B) s.version tx ∧ tx.locktime = 0 := by
  obtain ⟨q,_,h⟩ := bind_eq_ok.mp h
  obtain ⟨seq,hseq,h⟩ := bind_eq_ok.mp h
  obtain ⟨outputs,_,h⟩ := bind_eq_ok.mp h
  obtain ⟨utxo,_,h⟩ := bind_eq_ok.mp h
  have hv := sequenceForVersion_of_lt (sequenceForVersion_ok hseq)
  rw [hv] at hseq
  cases hseq
  cases h
  exact ⟨⟨[],rfl⟩,rfl⟩

theorem signStateTx_shape (h : ch.signStateTx B s = .ok (tx,utxos)) :
    StateFor (ch.fundingTxid B) s.version tx ∧ tx.locktime = 0 := by
  obtain ⟨unsigned,hb,scriptSig,rfl⟩ := signStateTx_ok h
  obtain ⟨⟨sig,hin⟩,hlock⟩ := buildStateTx_shape hb
  refine ⟨⟨scriptSig,?_⟩,hlock⟩
  simp [Tx.setScriptSig,hin]

theorem make_version {allocation : List ℤ} (h : State.make allocation version = .ok s) :
    s.version = version := by
  unfold State.make at h
  split_ifs at h
  split at h
  · cases h
  · cases h
    rfl

theorem CoSigned.shape (h : ch.CoSigned B version tx) :
    StateFor (ch.fundingTxid B) version tx ∧ tx.locktime = 0 := by
  rcases h with ⟨s,utxos,rfl,hs⟩ | ⟨allocation,utxos,hs⟩
  · exact signStateTx_shape hs
  · obtain ⟨_,_,hs⟩ := bind_eq_ok.mp hs
    obtain ⟨s,hmake,hs⟩ := bind_eq_ok.mp hs
    obtain ⟨_,_,hs⟩ := bind_eq_ok.mp hs
    rw [← make_version hmake]
    exact @signStateTx_shape B { ch with state := s } s tx utxos hs

end CoSigned
end Channel

/-- The runs in which no block is mined from the mempool between a submission of the old state and
the next submission of a later one. The flag says that the old state has been submitted and not
been answered yet; a later state counts as an answer when it validates while the channel output is
unspent. -/
inductive OvertakingRun (B : Bitcoinx) (depth : ℕ) (T : Set Tx) (c : Bytes) (old : Tx)
    (later : Set Tx) : Bool → EmbeddedNode → List NodeCall → Prop
  | done (pending : Bool) (n : EmbeddedNode) : OvertakingRun B depth T c old later pending n []
  | broadcast {pending : Bool} {n : EmbeddedNode} {calls : List NodeCall}
      (h : OvertakingRun B depth T c old later true (n.call B depth (.submitTx old)).1 calls) :
      OvertakingRun B depth T c old later pending n (.submitTx old :: calls)
  | answer {pending : Bool} {n : EmbeddedNode} {calls : List NodeCall} {tx : Tx} (hl : tx ∈ later)
      (hok : (∃ e, n.utxos.lookup (c,0) = some e) → (validateTx B tx n.utxos).ok = true)
      (h : OvertakingRun B depth T c old later false (n.call B depth (.submitTx tx)).1 calls) :
      OvertakingRun B depth T c old later pending n (.submitTx tx :: calls)
  | other {pending : Bool} {n : EmbeddedNode} {calls : List NodeCall} {tx : Tx} (ht : tx ∈ T)
      (hne : tx ≠ old)
      (h : OvertakingRun B depth T c old later pending (n.call B depth (.submitTx tx)).1 calls) :
      OvertakingRun B depth T c old later pending n (.submitTx tx :: calls)
  | emptyBlock {pending : Bool} {n : EmbeddedNode} {calls : List NodeCall} {script : Script}
      {extra : Bytes} {timestamp : ℕ} (h : OvertakingRun B depth T c old later pending
        (n.call B depth (.generateBlock script false extra timestamp)).1 calls) :
      OvertakingRun B depth T c old later pending n (.generateBlock script false extra timestamp :: calls)
  | block {n : EmbeddedNode} {calls : List NodeCall} {script : Script} {extra : Bytes}
      {timestamp : ℕ} (h : OvertakingRun B depth T c old later false
        (n.call B depth (.generateBlock script true extra timestamp)).1 calls) :
      OvertakingRun B depth T c old later false n (.generateBlock script true extra timestamp :: calls)

/-- What holds along an answered run: the old state is in the mempool only while it is unanswered
and the channel output unspent. -/
structure Windowed (B : Bitcoinx) (T : Set Tx) (c : Bytes) (old : Tx) (pending : Bool)
    (n : EmbeddedNode) : Prop where
  consistent : n.mempool.Consistent B
  quiet : n.mempool.observers = []
  known : ∀ t ∈ n.mempool.allTxs, t ∈ T
  unanswered : old ∈ n.mempool.allTxs → pending = true
  unspent : old ∈ n.mempool.allTxs → ∃ e, n.utxos.lookup (c,0) = some e

section Window
variable {B : Bitcoinx} {T later : Set Tx} {c : Bytes} {old tx : Tx} {v w : ℕ} {pending : Bool}
  {n : EmbeddedNode} {depth : ℕ}

/-- Without towers a submission changes nothing or takes the transaction in. -/
theorem submit_quiet (hc : n.mempool.Consistent B) (hq : n.mempool.observers = [])
    (hdepth : 0 < depth) (tx : Tx) :
    (Mempool.Refused B n.utxos n.mempool tx ∧ (n.call B depth (.submitTx tx)).1 = n) ∨
    ∃ m, Mempool.Taken B n.utxos n.mempool tx m ∧
      (n.call B depth (.submitTx tx)).1 = { n with mempool := m } := by
  obtain ⟨d,rfl⟩ := Nat.exists_eq_succ_of_ne_zero hdepth.ne'
  simp only [EmbeddedNode.call,EmbeddedNode.submitTx]
  rcases admit_spec n.utxos d hc tx with ⟨href,r,_,hr⟩ | ⟨m,event,htaken,_,hr⟩
  · exact .inl ⟨href,by rw [hr]; rfl⟩
  · have hobs : m.observers = [] := htaken.observers.trans hq
    have hnotify : Mempool.notify (Tower.observe B) (Mempool.admitTx B (Tower.observe B) n.utxos d) m
        event tx = some m := by
      rw [Mempool.notify,hobs]
      rfl
    exact .inr ⟨m,htaken,by rw [hr,hnotify]; rfl⟩

theorem Windowed.keep (h : Windowed B T c old pending n) {m : Mempool Tower} (ht : tx ∈ T)
    (htaken : Mempool.Taken B n.utxos n.mempool tx m) {pending' : Bool}
    (hold : old ∈ m.allTxs → pending' = true ∧ ∃ e, n.utxos.lookup (c,0) = some e) :
    Windowed B T c old pending' { n with mempool := m } where
  consistent := htaken.consistent h.consistent
  quiet := htaken.observers.trans h.quiet
  known t hm := by
    obtain ⟨txid,e,he,rfl⟩ := Mempool.mem_allTxs.mp hm
    rcases htaken.entry_old he with ⟨_,heq,_⟩ | hold
    · rwa [heq]
    · exact h.known _ (Mempool.mem_allTxs.mpr ⟨txid,e,hold,rfl⟩)
  unanswered hm := (hold hm).1
  unspent hm := (hold hm).2

/-- An entry of the new mempool is the submitted transaction or an old entry. -/
theorem mem_allTxs_taken {m : Mempool Tower} {U : UtxoSet} {m₀ : Mempool Tower}
    (htaken : Mempool.Taken B U m₀ tx m) {t : Tx} (hm : t ∈ m.allTxs) : t = tx ∨ t ∈ m₀.allTxs := by
  obtain ⟨txid,e,he,rfl⟩ := Mempool.mem_allTxs.mp hm
  rcases htaken.entry_old he with ⟨_,heq,_⟩ | hold
  · exact .inl heq
  · exact .inr (Mempool.mem_allTxs.mpr ⟨txid,e,hold,rfl⟩)

theorem Windowed.broadcast (h : Windowed B T c old pending n) (ho : old ∈ T)
    (hs : StateFor c v old) (hdepth : 0 < depth) :
    Windowed B T c old true (n.call B depth (.submitTx old)).1 := by
  rcases submit_quiet h.consistent h.quiet hdepth old with ⟨_,hcall⟩ | ⟨m,htaken,hcall⟩
  · rw [hcall]
    exact ⟨h.consistent,h.quiet,h.known,fun _ => rfl,h.unspent⟩
  · rw [hcall]
    refine h.keep ho htaken fun _ => ⟨rfl,?_⟩
    exact validateTx_present htaken.validated _ (by rw [hs.outpoints]; simp)

theorem Windowed.other (h : Windowed B T c old pending n) (ht : tx ∈ T) (hne : tx ≠ old)
    (hdepth : 0 < depth) : Windowed B T c old pending (n.call B depth (.submitTx tx)).1 := by
  rcases submit_quiet h.consistent h.quiet hdepth tx with ⟨_,hcall⟩ | ⟨m,htaken,hcall⟩
  · rw [hcall]; exact h
  · rw [hcall]
    refine h.keep ht htaken fun hm => ?_
    have hold := (mem_allTxs_taken htaken hm).resolve_left (Ne.symm hne)
    exact ⟨h.unanswered hold,h.unspent hold⟩

/-- A later state that validates displaces the old one from the mempool. -/
theorem Windowed.displaced (h : Windowed B T c old pending n) (hinj : Set.InjOn B.txHash T)
    (hs : StateFor c v old) (ht : tx ∈ T) (hw : StateFor c w tx) (hvw : v < w)
    (hold : old ∈ n.mempool.allTxs) (hok : (validateTx B tx n.utxos).ok = true) :
    ¬ Mempool.Refused B n.utxos n.mempool tx := by
  obtain ⟨txid,e,he,rfl⟩ := Mempool.mem_allTxs.mp hold
  have heo : (c,0) ∈ e.tx.outpoints := by rw [hs.outpoints]; simp
  have hto : (c,0) ∈ tx.outpoints := by rw [hw.outpoints]; simp
  intro href
  cases href with
  | known f hf =>
    have hft : f.tx = tx :=
      hinj (h.known _ (Mempool.mem_allTxs.mpr ⟨_,f,hf,rfl⟩)) ht (h.consistent.keyed _ f hf)
    obtain ⟨_,rfl⟩ := h.consistent.spender_unique he hf heo (by rw [hft]; exact hto)
    have hv := hs.lookup
    rw [hft,hw.lookup] at hv
    exact hvw.ne (Option.some.inj hv).symm
  | conflicts s t hst hsc htc =>
    obtain ⟨_,o,ho,hl⟩ := Mempool.mem_conflictingTxids.mp hsc
    obtain ⟨_,p,hp,hl'⟩ := Mempool.mem_conflictingTxids.mp htc
    rw [hw.outpoints,List.mem_singleton] at ho hp
    subst ho hp
    rw [hl] at hl'
    exact hst (Option.some.inj hl')
  | outbid oldTxid f hf tin q hseq =>
    obtain ⟨hlook,hle⟩ := hw.seqViolation_some hseq
    obtain ⟨tin',htin,hout,_⟩ := lookup_seqsByOutpoint hlook
    have hfo : (c,0) ∈ f.tx.outpoints := hout ▸ List.mem_map_of_mem htin
    obtain ⟨_,rfl⟩ := h.consistent.spender_unique he hf heo hfo
    rw [hs.lookup] at hlook
    cases hlook
    omega
  | invalid hbad => rw [hok] at hbad; cases hbad

theorem Windowed.answer (h : Windowed B T c old pending n) (hinj : Set.InjOn B.txHash T)
    (hs : StateFor c v old) (ht : tx ∈ T) (hw : StateFor c w tx) (hvw : v < w)
    (hok : (∃ e, n.utxos.lookup (c,0) = some e) → (validateTx B tx n.utxos).ok = true)
    (hdepth : 0 < depth) : Windowed B T c old false (n.call B depth (.submitTx tx)).1 := by
  rcases submit_quiet h.consistent h.quiet hdepth tx with ⟨href,hcall⟩ | ⟨m,htaken,hcall⟩
  · -- a refusal leaves the mempool as it is, so the old state was not in it
    rw [hcall]
    have hnot : old ∉ n.mempool.allTxs := fun hold =>
      h.displaced hinj hs ht hw hvw hold (hok (h.unspent hold)) href
    exact ⟨h.consistent,h.quiet,h.known,fun hold => absurd hold hnot,h.unspent⟩
  · rw [hcall]
    refine h.keep ht htaken fun hm => ?_
    obtain ⟨txid,e,he,rfl⟩ := Mempool.mem_allTxs.mp hm
    obtain ⟨f,hf,rfl⟩ := htaken.entry
    obtain ⟨_,rfl⟩ := (htaken.consistent h.consistent).spender_unique (o := (c,0)) he hf
      (by rw [hs.outpoints]; simp) (by rw [hw.outpoints]; simp)
    have hv := hs.lookup
    rw [hw.lookup] at hv
    exact absurd (Option.some.inj hv).symm hvw.ne

/-- A block leaves a windowed node windowed, and does not contain the old state unless it is taken
from the mempool while that state is unanswered. -/
theorem Windowed.mine (h : Windowed B T c old pending n) (incl : Bool)
    (hincl : incl = true → old ∉ n.mempool.allTxs) (script : Script) (extra : Bytes)
    (timestamp : ℕ) :
    Windowed B T c old pending (n.call B depth (.generateBlock script incl extra timestamp)).1 := by
  rcases n.generateBlock_cases B depth script incl extra timestamp with
    ⟨e,_,hcall⟩ | ⟨raw,txs,ha,⟨hs,e,_,hcall⟩ | ⟨hs,hd,_,⟨e,_,hcall⟩ | ⟨rawBlock,_,hcall⟩⟩⟩
  · rw [hcall]; exact h
  · rw [hcall]; exact ⟨h.consistent,h.quiet,h.known,h.unanswered,h.unspent⟩
  · rw [hcall]; exact ⟨h.consistent,h.quiet,h.known,h.unanswered,h.unspent⟩
  · rw [hcall]
    refine ⟨h.consistent.dropAll _,(Mempool.observers_dropAll _ _).trans h.quiet,
      fun t ht => h.known t (Mempool.mem_allTxs_dropAll ht),
      fun hm => h.unanswered (Mempool.mem_allTxs_dropAll hm),fun hm => ?_⟩
    have hold := Mempool.mem_allTxs_dropAll hm
    obtain ⟨e,he⟩ := h.unspent hold
    obtain ⟨tip,fees,_,_,rfl,_⟩ := n.assembleBlock_txs B ha
    cases incl with
    | true => exact absurd hold (hincl rfl)
    | false =>
      have hlook : ((n.utxos.applyTx B (n.height+1) (makeCoinbase (n.coinbaseReward + fees) script
          (tip.height+1) extra)).lookup (c,0)).isSome := by
        rw [UtxoSet.lookup_applyTx]
        split_ifs with hcreated hspent
        · rw [List.getElem?_eq_getElem (UtxoSet.mem_createdBy.mp hcreated).2]
          rfl
        · unfold UtxoSet.spentBy at hspent
          split_ifs at hspent
          · simp at hspent
          · simp [Tx.outpoints,makeCoinbase,TxInput.outpoint] at hspent
        · rw [he]
          rfl
      exact Option.isSome_iff_exists.mp hlook

/-- A submission does not mine. -/
theorem mined_after_submit {B : Bitcoinx} {depth : ℕ} {n₁ n : EmbeddedNode} {tx : Tx}
    {call : NodeCall} {calls : List NodeCall} {block : Bytes × List Tx}
    (h : (n,call,NodeAnswer.mined (.ok block)) ∈
      trace (EmbeddedNode.call B depth) n₁ (.submitTx tx :: calls)) :
    (n,call,NodeAnswer.mined (.ok block)) ∈
      trace (EmbeddedNode.call B depth) (n₁.call B depth (.submitTx tx)).1 calls := by
  rcases List.mem_cons.mp h with heq | h
  · simp only [Prod.mk.injEq] at heq
    obtain ⟨rfl,rfl,hm⟩ := heq
    obtain ⟨_,_,_,_,_,hx,_⟩ := EmbeddedNode.mined_cases hm.symm
    cases hx
  · exact h

/-- A mined block is the coinbase with the mempool, if it was asked for, or it was mined later. -/
theorem mined_by_generate {B : Bitcoinx} {depth : ℕ} {n₁ n : EmbeddedNode} {script : Script}
    {incl : Bool} {extra : Bytes} {timestamp : ℕ} {call : NodeCall} {calls : List NodeCall}
    {hash : Bytes} {txs : List Tx} (h : (n,call,NodeAnswer.mined (.ok (hash,txs))) ∈
      trace (EmbeddedNode.call B depth) n₁ (.generateBlock script incl extra timestamp :: calls)) :
    (∃ value height, txs = makeCoinbase value script height extra ::
      if incl then n₁.mempool.allTxs else []) ∨
    (n,call,NodeAnswer.mined (.ok (hash,txs))) ∈ trace (EmbeddedNode.call B depth)
      (n₁.call B depth (.generateBlock script incl extra timestamp)).1 calls := by
  rcases List.mem_cons.mp h with heq | h
  · simp only [Prod.mk.injEq] at heq
    obtain ⟨rfl,rfl,hm⟩ := heq
    obtain ⟨_,_,_,_,_,hx,ha⟩ := EmbeddedNode.mined_cases hm.symm
    cases hx
    obtain ⟨tip,fees,_,_,rfl,_⟩ := n.assembleBlock_txs B ha
    exact .inl ⟨_,_,rfl⟩
  · exact .inr h

/-- A coinbase spends no channel output. -/
theorem StateFor.ne_coinbase (hs : StateFor c v old) (value : ℤ) (script : Script) (height : ℕ)
    (extra : Bytes) : old ≠ makeCoinbase value script height extra := by
  rintro rfl
  have hout := hs.outpoints
  simp [Tx.outpoints,makeCoinbase,TxInput.outpoint] at hout

/-- No overtaking run of a windowed node mines the old state. -/
theorem Windowed.not_mined (hinj : Set.InjOn B.txHash T) (ho : old ∈ T) (hs : StateFor c v old)
    (hlater : ∀ t ∈ later, t ∈ T ∧ ∃ w, v < w ∧ StateFor c w t) (hdepth : 0 < depth)
    {calls : List NodeCall} (hc : OvertakingRun B depth T c old later pending n calls)
    (hn : Windowed B T c old pending n) {m : EmbeddedNode} {call : NodeCall} {hash : Bytes}
    {txs : List Tx} (h : (m,call,NodeAnswer.mined (.ok (hash,txs))) ∈
      trace (EmbeddedNode.call B depth) n calls) : old ∉ txs := by
  induction hc with
  | done => cases h
  | broadcast _ ih => exact ih (hn.broadcast ho hs hdepth) (mined_after_submit h)
  | answer hl hok _ ih =>
    obtain ⟨ht,w,hvw,hw⟩ := hlater _ hl
    exact ih (hn.answer hinj hs ht hw hvw hok hdepth) (mined_after_submit h)
  | other ht hne _ ih => exact ih (hn.other ht hne hdepth) (mined_after_submit h)
  | emptyBlock _ ih =>
    rcases mined_by_generate h with ⟨value,height,rfl⟩ | h
    · simpa using hs.ne_coinbase _ _ _ _
    · exact ih (hn.mine false (by simp) _ _ _) h
  | block _ ih =>
    have hnot : old ∉ _ := fun hm => absurd (hn.unanswered hm) (by simp)
    rcases mined_by_generate h with ⟨value,height,rfl⟩ | h
    · simpa using ⟨hs.ne_coinbase _ _ _ _,hnot⟩
    · exact ih (hn.mine true (fun _ => hnot) _ _ _) h

end Window

/-- In every overtaking run of submissions and mined blocks on a node without towers that starts
with an empty mempool: no mined block contains the old co-signed state, whatever its height. -/
theorem superseded_never_mined {B : Bitcoinx} {T : Set Tx} (hinj : Set.InjOn B.txHash T)
    {ch : Channel} {v : ℕ} {old : Tx} (hold : ch.CoSigned B v old) (ho : old ∈ T)
    {n₀ : EmbeddedNode} (hfresh : n₀.mempool = Mempool.fresh []) {depth : ℕ} (hdepth : 0 < depth)
    {calls : List NodeCall} (hc : OvertakingRun B depth T (ch.fundingTxid B) old
      {tx | tx ∈ T ∧ ∃ w, v < w ∧ ch.CoSigned B w tx} false n₀ calls)
    {n : EmbeddedNode} {call : NodeCall} {hash : Bytes} {txs : List Tx}
    (h : (n,call,NodeAnswer.mined (.ok (hash,txs))) ∈ trace (EmbeddedNode.call B depth) n₀ calls) :
    old ∉ txs := by
  have hstart : Windowed B T (ch.fundingTxid B) old false n₀ := by
    refine ⟨?_,?_,?_,?_,?_⟩
    · rw [hfresh]; exact Mempool.consistent_fresh B []
    · rw [hfresh]; rfl
    all_goals rw [hfresh]; simp [Mempool.fresh,Mempool.allTxs]
  refine hstart.not_mined hinj ho hold.shape.1 ?_ hdepth hc h
  rintro t ⟨ht,w,hvw,hco⟩
  exact ⟨ht,w,hvw,hco.shape.1⟩

namespace Reference

/-- The state transaction of the sample channel with this version and allocation. -/
def sampleState (version : ℕ) (balances : List ℕ) : Tx :=
  (((sampleChannel anyone).signStateTx (reference anyone) ⟨balances,version⟩).toOption.map
    Prod.fst).getD firstCoinbase

theorem coSigned_sampleState (version : ℕ) (balances : List ℕ)
    (h : ((sampleChannel anyone).signStateTx (reference anyone) ⟨balances,version⟩).toOption.isSome =
      true) :
    (sampleChannel anyone).CoSigned (reference anyone) version (sampleState version balances) := by
  unfold sampleState
  cases hs : (sampleChannel anyone).signStateTx (reference anyone) ⟨balances,version⟩ with
  | error e => rw [hs] at h; cases h
  | ok p => exact .inl ⟨_,p.2,rfl,hs⟩

/-- The sample node on which the sample channel has been funded. -/
def fundedNode : EmbeddedNode :=
  run (EmbeddedNode.call (reference anyone) 1) (sampleNode anyone [])
    [.generateBlock trueScript true [] 1,.submitTx (sampleChannel anyone).fundingTx,
      .generateBlock trueScript true [] 2]

/-- The same with a mempool that has never held a transaction. -/
def quietNode : EmbeddedNode := { fundedNode with mempool := .fresh [] }

/-- Version 0 gives everything to party 0, version 1 a third of it to party 1. -/
def oldState : Tx := sampleState 0 [30,0]
def newState : Tx := sampleState 1 [20,10]

def overtakingCalls : List NodeCall := [.submitTx oldState,.submitTx newState]

def overtakenNode : EmbeddedNode :=
  run (EmbeddedNode.call (reference anyone) 1) quietNode overtakingCalls

def overtakenAnswer : NodeAnswer :=
  (overtakenNode.call (reference anyone) 1 (.generateBlock trueScript true [] 3)).2

end Reference

open Reference in
theorem superseded_never_mined_sample : oldState ∉ minedTxs overtakenAnswer := by
  have hinj : Set.InjOn (reference anyone).txHash {t | t ∈ [oldState,newState]} :=
    injOn_list (by decide +kernel)
  have hold := coSigned_sampleState 0 [30,0] (by decide +kernel)
  have hnew := coSigned_sampleState 1 [20,10] (by decide +kernel)
  have hc : OvertakingRun (reference anyone) 1 {t | t ∈ [oldState,newState]}
      ((sampleChannel anyone).fundingTxid (reference anyone)) oldState {tx |
        tx ∈ {t | t ∈ [oldState,newState]} ∧ ∃ w, 0 < w ∧
          (sampleChannel anyone).CoSigned (reference anyone) w tx} false quietNode
      (overtakingCalls ++ [.generateBlock trueScript true [] 3]) :=
    .broadcast (.answer ⟨by simp,1,Nat.one_pos,hnew⟩ (fun _ => by decide +kernel) (.block (.done _ _)))
  have hmem := mem_trace_append (EmbeddedNode.call (reference anyone) 1) quietNode
    overtakingCalls (.generateBlock trueScript true [] 3) []
  obtain ⟨hash,hmined⟩ := minedTxs_ne_nil (a := overtakenAnswer) (by decide +kernel)
  change (_,_,overtakenAnswer) ∈ _ at hmem
  rw [hmined] at hmem
  exact superseded_never_mined hinj hold List.mem_cons_self rfl Nat.one_pos hc hmem

open Reference in
/-- The old state is mined in the next block, far below the horizon, and the later one is then
refused. -/
theorem superseded_state_mined :
    (sampleChannel anyone).CoSigned (reference anyone) 0 oldState ∧
    (sampleChannel anyone).CoSigned (reference anyone) 1 newState ∧
    fundedNode.height + 1 < (sampleChannel anyone).cfg.L0 ∧
    (let n := (fundedNode.call (reference anyone) 1 (.submitTx oldState)).1
    oldState ∈ minedTxs (n.call (reference anyone) 1 (.generateBlock trueScript true [] 3)).2 ∧
    ((n.call (reference anyone) 1 (.generateBlock trueScript true [] 3)).1.call (reference anyone) 1
      (.submitTx newState)).1.mempool.allTxs = []) :=
  ⟨coSigned_sampleState 0 _ (by decide +kernel),coSigned_sampleState 1 _ (by decide +kernel),
    by decide +kernel,by decide +kernel,by decide +kernel⟩

end SubsatChannel
