import SubsatChannel.Node.Conservation
import SubsatChannel.Node.ReorgSafety

/-! Coherence of the mempool with the unspent outputs: which blocks from outside keep every entry
spendable, and what the blocks mined on a coherent node contain. -/
namespace SubsatChannel
open Transition

section Replay
variable {B : Bitcoinx} {T : Set Tx} {txsOf : Bytes → List Tx} {U V : UtxoSet} {o : Outpoint}

/-- What a block creates, or what was there before, and it does not spend, is unspent after it. -/
theorem exists_lookup_connect {txs : List Tx} {height : ℕ} (hns : o ∉ UtxoSet.spentOf B txs)
    (h : o ∈ EmbeddedNode.createdOf B txs ∨ ∃ e, U.lookup o = some e) :
    ∃ e, (U.connectBlockUtxos B height txs).lookup o = some e := by
  induction txs generalizing U with
  | nil =>
    rcases h with hc | h
    · simp [EmbeddedNode.createdOf] at hc
    · exact h
  | cons tx txs ih =>
    simp only [UtxoSet.spentOf,List.flatMap_cons,List.mem_append,not_or] at hns
    refine ih (U := U.applyTx B height tx) hns.2 ?_
    rw [UtxoSet.lookup_applyTx]
    by_cases hc : o ∈ UtxoSet.createdBy B tx
    · rw [if_pos hc,List.getElem?_eq_getElem (UtxoSet.mem_createdBy.mp hc).2]
      exact .inr ⟨_,rfl⟩
    · rw [if_neg hc,if_neg hns.1]
      refine h.imp_left fun hm => ?_
      rw [EmbeddedNode.createdOf,List.flatMap_cons,List.mem_append] at hm
      exact hm.resolve_left hc

/-- What the blocks on top of a branch create, or what was there below them, and none of them
spends, is unspent at the top. -/
theorem exists_lookup_replay {b c : List Bytes} (hns : ∀ h ∈ b, o ∉ UtxoSet.spentOf B (txsOf h))
    (h : (∃ h ∈ b, o ∈ EmbeddedNode.createdOf B (txsOf h)) ∨ ∃ e, (replay B txsOf c).lookup o = some e) :
    ∃ e, (replay B txsOf (b ++ c)).lookup o = some e := by
  induction b with
  | nil =>
    rcases h with ⟨x,hx,_⟩ | h
    · simp at hx
    · exact h
  | cons x b ih =>
    refine exists_lookup_connect (hns x (by simp)) ?_
    rcases h with ⟨y,hy,hc⟩ | h
    · rcases List.mem_cons.mp hy with rfl | hy
      · exact .inl hc
      · exact .inr (ih (fun z hz => hns z (by simp [hz])) (.inl ⟨y,hy,hc⟩))
    · exact .inr (ih (fun z hz => hns z (by simp [hz])) (.inr h))

/-- An output unspent at the top of a branch was made by its upper blocks or is unspent below them. -/
theorem lookup_replay_below {a c : List Bytes} {e : UtxoEntry}
    (he : (replay B txsOf (a ++ c)).lookup o = some e) :
    o.1 ∈ branchTxids B txsOf a ∨ (replay B txsOf c).lookup o = some e := by
  induction a with
  | nil => exact .inr he
  | cons h a ih =>
    rw [branchTxids_cons,List.mem_append]
    rcases UtxoSet.lookup_connect_some he with hc | hold
    · exact .inl (.inl (UtxoSet.mem_createdOf hc))
    · rcases ih hold with hm | hm
      · exact .inl (.inr hm)
      · exact .inr hm

theorem replay_originates {p : List Bytes} (h : ∀ x ∈ p, ∀ t ∈ txsOf x, t ∈ T) :
    Originates B T (replay B txsOf p) := by
  induction p with
  | nil =>
    intro o e he
    simp [replay] at he
  | cons x p ih => exact (ih fun y hy => h y (by simp [hy])).connect (h x (by simp))

/-- Between two sets made by the same transactions a verdict depends only on which outputs are
there. -/
theorem validateTx_of_present (hinj : Set.InjOn B.txHash T) (hU : Originates B T U)
    (hV : Originates B T V) {t : Tx} (hok : (validateTx B t U).ok = true)
    (hp : ∀ o ∈ t.outpoints, ∃ e, V.lookup o = some e) : (validateTx B t V).ok = true := by
  rw [← validateTx_congr (U := U) (V := V),hok]
  intro o ho
  obtain ⟨e,he⟩ := validateTx_present hok o ho
  obtain ⟨f,hf⟩ := hp o ho
  obtain ⟨s,hs,hid,hout⟩ := hU o e he
  have hout' := hV.output hinj hs hf hid.symm
  rw [hout] at hout'
  rw [he,hf]
  exact hout'

end Replay

/-- No outpoint of the transaction is lost when the blocks `a` are disconnected and the blocks `b`
connected: none was made by a disconnected block only, and none is spent by a connected one. -/
def Survives (B : Bitcoinx) (txsOf : Bytes → List Tx) (a b : List Bytes) (t : Tx) : Prop :=
  ∀ o ∈ t.outpoints,
    (o.1 ∈ branchTxids B txsOf a → ∃ h ∈ b, o ∈ EmbeddedNode.createdOf B (txsOf h)) ∧
    ∀ h ∈ b, o ∉ UtxoSet.spentOf B (txsOf h)

/-- The calls of a run in which every mempool transaction that a block from outside does not
contain survives it. -/
def CoherentCall (B : Bitcoinx) (T : Set Tx) (R : Set Bytes) (txsOf : Bytes → List Tx)
    (n : EmbeddedNode) : NodeCall → Prop
  | .submitTx tx => ∀ t, EmbeddedNode.MayEnter B n tx t → t ∈ T
  | .generateBlock script incl extra timestamp => ∀ raw txs,
      n.assembleBlock B script incl extra timestamp = .ok (raw,txs) →
      Delivered B R txsOf raw txs ∧ headerHash B raw ≠ n.genesisHash B
  | .acceptBlock raw txs => ∀ hs hd, n.headers.connect B raw = (hs,.ok hd) →
      Delivered B R txsOf raw txs ∧ ∀ a b c,
        Branch n.headers (n.genesisHash B) n.headers.tipHash (a ++ c) →
        Branch hs (n.genesisHash B) hs.tipHash (b ++ c) → a.Disjoint b →
        ∀ t ∈ n.mempool.allTxs, B.txHash t ∉ branchTxids B txsOf b → Survives B txsOf a b t

/-- The node's state belongs to its active chain, and every mempool transaction validates in it. -/
structure Coherent (B : Bitcoinx) (T : Set Tx) (R : Set Bytes) (g : Bytes) (txsOf : Bytes → List Tx)
    (n : EmbeddedNode) : Prop where
  settled : Settled B R g txsOf n
  consistent : n.mempool.Consistent B
  entries : ∀ t ∈ n.mempool.allTxs, t ∈ T ∧ (validateTx B t n.utxos).ok = true

section Calls
variable {B : Bitcoinx} {T : Set Tx} {R : Set Bytes} {g : Bytes} {txsOf : Bytes → List Tx}
  {n : EmbeddedNode}

/-- All unspent outputs of a settled node were made by transactions of the run. -/
theorem Settled.originates (hset : Settled B R g txsOf n)
    (hT : ∀ raw ∈ R, ∀ t ∈ txsOf (headerHash B raw), t ∈ T) : Originates B T n.utxos := by
  obtain ⟨p,hp,hstate⟩ := hset.chain
  rw [hstate.utxos]
  refine replay_originates fun x hx t ht => ?_
  obtain ⟨_,hd,hl⟩ := hp.mem_lookup x hx
  rw [← hset.rooted.keyed x hd hl] at ht
  exact hT hd.raw (hset.rooted.known x hd hl) t ht

theorem Coherent.submit (h : Coherent B T R g txsOf n) {depth : ℕ} {tx : Tx} {m : Mempool Tower}
    {r : Except Fault ValidationResult} (hc : CoherentCall B T R txsOf n (.submitTx tx))
    (hm : n.mempool.admitTx B (Tower.observe B) n.utxos depth tx = some (m,r)) :
    Coherent B T R g txsOf { n with mempool := m } := by
  obtain ⟨hcons,henter⟩ := n.submitTx_entries h.consistent hm
  refine ⟨h.settled.frame rfl rfl rfl rfl rfl,hcons,fun t ht => ?_⟩
  rcases henter t ht with hold | ⟨hmay,hok⟩
  · exact h.entries t hold
  · exact ⟨hc t hmay,hok⟩

/-- Mining keeps coherence: the block takes all of the mempool, or it spends nothing. -/
theorem Coherent.mine (hb : RunBlocks B R g txsOf) (hinj : Set.InjOn B.txHash T)
    (hT : ∀ raw ∈ R, ∀ t ∈ txsOf (headerHash B raw), t ∈ T)
    (hcb : ∀ value script height extra, B.isCoinbase (makeCoinbase value script height extra) = true)
    (h : Coherent B T R g txsOf n) {script : Script} {incl : Bool} {extra : Bytes} {timestamp : ℕ}
    {raw rawBlock : Bytes} {txs : List Tx} {hs : HeaderStore} {hd : Header}
    (ha : n.assembleBlock B script incl extra timestamp = .ok (raw,txs))
    (hdel : Delivered B R txsOf raw txs) (hg : headerHash B raw ≠ n.genesisHash B)
    (hconn : n.headers.connect B raw = (hs,.ok hd)) (hser : serialiseBlock B raw txs = .ok rawBlock) :
    Coherent B T R g txsOf (n.extended B hs (headerHash B raw) (n.height+1) rawBlock txs
      (txs.tail.map B.txHash)) := by
  obtain ⟨htip,hprev,hheight⟩ := h.settled.mined hb hdel hg ha hconn
  have hnext := h.settled.extended hb hdel hconn hser htip hprev (txs.tail.map B.txHash)
  rw [← hheight] at hnext
  refine ⟨hnext,h.consistent.dropAll _,fun t ht => ?_⟩
  obtain ⟨hold,hmined⟩ := h.consistent.kept ht
  obtain ⟨hTt,hok⟩ := h.entries t hold
  refine ⟨hTt,validateTx_of_present hinj (h.settled.originates hT) (hnext.originates hT) hok
    fun o ho => ?_⟩
  obtain ⟨tip,fees,_,_,rfl,_⟩ := n.assembleBlock_txs B ha
  cases incl with
  | true => exact absurd (List.mem_map_of_mem hold) hmined
  | false =>
    refine exists_lookup_connect (U := n.utxos) ?_ (.inr (validateTx_present hok o ho))
    simp [UtxoSet.spentOf,UtxoSet.spentBy,hcb]

/-- Accepting a block that the remaining mempool transactions survive keeps coherence. -/
theorem Coherent.accept (hb : RunBlocks B R g txsOf) (hinj : Set.InjOn B.txHash T)
    (hT : ∀ raw ∈ R, ∀ t ∈ txsOf (headerHash B raw), t ∈ T) (depth : ℕ)
    (h : Coherent B T R g txsOf n) {raw : Bytes} {txs : List Tx} {hs : HeaderStore} {hd : Header}
    (hc : CoherentCall B T R txsOf n (.acceptBlock raw txs))
    (hconn : n.headers.connect B raw = (hs,.ok hd)) :
    Coherent B T R g txsOf (n.call B depth (.acceptBlock raw txs)).1 := by
  obtain ⟨hdel,hsurv⟩ := hc hs hd hconn
  obtain ⟨n',a,b,c,mined,hcall,hnext,hheaders,hold,hnew,hdisj,hmem,hmined⟩ :=
    h.settled.accept hb depth hdel hconn
  rw [h.settled.genesis] at hsurv
  rw [hcall]
  refine ⟨hnext,by rw [hmem]; exact h.consistent.dropAll mined,fun t ht => ?_⟩
  rw [hmem] at ht
  obtain ⟨hin,hkept⟩ := h.consistent.kept ht
  obtain ⟨hTt,hok⟩ := h.entries t hin
  refine ⟨hTt,validateTx_of_present hinj (h.settled.originates hT) (hnext.originates hT) hok
    fun o ho => ?_⟩
  obtain ⟨hcreated,hspent⟩ := hsurv a b c hold hnew hdisj t hin
    (fun hx => hkept ((hmined _).mpr hx)) o ho
  obtain ⟨p,hp,hstate⟩ := h.settled.chain
  obtain ⟨q,hq,hstate'⟩ := hnext.chain
  obtain rfl := hp.unique hold
  rw [hheaders] at hq
  obtain rfl := hq.unique hnew
  obtain ⟨e,he⟩ := validateTx_present hok o ho
  rw [hstate.utxos] at he
  rw [hstate'.utxos]
  refine exists_lookup_replay hspent ?_
  rcases lookup_replay_below he with hm | hm
  · exact .inl (hcreated hm)
  · exact .inr ⟨e,hm⟩

theorem Coherent.call (hb : RunBlocks B R g txsOf) (hinj : Set.InjOn B.txHash T)
    (hT : ∀ raw ∈ R, ∀ t ∈ txsOf (headerHash B raw), t ∈ T)
    (hcb : ∀ value script height extra, B.isCoinbase (makeCoinbase value script height extra) = true)
    (depth : ℕ) (h : Coherent B T R g txsOf n) (c : NodeCall) (hc : CoherentCall B T R txsOf n c) :
    Coherent B T R g txsOf (n.call B depth c).1 := by
  cases c with
  | submitTx tx =>
    rcases n.submitTx_cases B depth tx with hcall | ⟨m,r,hm,hcall⟩
    · rw [hcall]; exact h
    · rw [hcall]; exact h.submit hc hm
  | generateBlock script incl extra timestamp =>
    rcases n.generateBlock_cases B depth script incl extra timestamp with
      ⟨e,_,hcall⟩ | ⟨raw,txs,ha,⟨hs,e,hconn,hcall⟩ | ⟨hs,hd,hconn,⟨e,hser,hcall⟩ | ⟨rawBlock,hser,hcall⟩⟩⟩
    · rw [hcall]; exact h
    · rw [hcall,(h.settled.rooted.connect_error hconn).1]; exact h
    · exact absurd hser ((hc raw txs ha).1.serialises (h.settled.rooted.connect_ok hconn).1 e)
    · obtain ⟨hdel,hg⟩ := hc raw txs ha
      rw [hcall]
      exact h.mine hb hinj hT hcb ha hdel hg hconn hser
  | acceptBlock raw txs =>
    rcases n.acceptBlock_cases B depth raw txs with ⟨hs,e,hconn,hcall⟩ | ⟨hs,hd,hconn,_⟩
    · rw [hcall,(h.settled.rooted.connect_error hconn).1]; exact h
    · exact h.accept hb hinj hT depth hc hconn

end Calls

/-- In every run of submissions, mined blocks and blocks from outside that the remaining mempool
transactions survive: after each call every input of every mempool transaction refers to an unspent
output, and the transactions of a mined block validate in the state it is mined on and spend no
outpoint in common. -/
theorem mempool_coherent {B : Bitcoinx} {T : Set Tx} {R : Set Bytes} {txsOf : Bytes → List Tx}
    {reward : ℤ} {towers : List Tower} {depth : ℕ}
    (hR : (EmbeddedNode.init B reward towers).genesis ∈ R)
    (hb : RunBlocks B R ((EmbeddedNode.init B reward towers).genesisHash B) txsOf)
    (hinj : Set.InjOn B.txHash T) (hT : ∀ raw ∈ R, ∀ t ∈ txsOf (headerHash B raw), t ∈ T)
    (hcb : ∀ value script height extra, B.isCoinbase (makeCoinbase value script height extra) = true)
    {calls : List NodeCall} (hc : Along (EmbeddedNode.call B depth) (CoherentCall B T R txsOf)
      (EmbeddedNode.init B reward towers) calls)
    {n : EmbeddedNode} {call : NodeCall} {answer : NodeAnswer}
    (h : (n,call,answer) ∈ trace (EmbeddedNode.call B depth) (EmbeddedNode.init B reward towers) calls) :
    (∀ t ∈ (n.call B depth call).1.mempool.allTxs, ∀ o ∈ t.outpoints,
      ∃ e, (n.call B depth call).1.utxos.lookup o = some e) ∧
    ∀ hash txs, answer = .mined (.ok (hash,txs)) →
      (∀ t ∈ txs.tail, (validateTx B t n.utxos).ok = true) ∧
      txs.tail.Pairwise fun s t => ∀ o ∈ s.outpoints, o ∉ t.outpoints := by
  have hstart : Coherent B T R ((EmbeddedNode.init B reward towers).genesisHash B) txsOf
      (EmbeddedNode.init B reward towers) :=
    ⟨settled_init hR,Mempool.consistent_fresh B towers,fun t ht => by
      simp [EmbeddedNode.init,Mempool.fresh,Mempool.allTxs] at ht⟩
  have keep := fun (s : EmbeddedNode) (i : NodeCall)
    (hs : Coherent B T R ((EmbeddedNode.init B reward towers).genesisHash B) txsOf s) hi =>
    hs.call hb hinj hT hcb depth i hi
  obtain ⟨hn,hcall,rfl⟩ := trace_invariant keep hstart hc h
  have hnext := hn.call hb hinj hT hcb depth call hcall
  refine ⟨fun t ht => validateTx_present (hnext.entries t ht).2,fun hash txs hmined => ?_⟩
  obtain ⟨script,incl,extra,timestamp,raw,rfl,ha⟩ := EmbeddedNode.mined_cases hmined
  obtain ⟨tip,fees,_,_,rfl,_⟩ := n.assembleBlock_txs B ha
  cases incl with
  | true =>
    exact ⟨fun t ht => (hn.entries t ht).2,hn.consistent.allTxs_apart.imp fun hst => hst.1⟩
  | false => exact ⟨by simp,List.Pairwise.nil⟩

namespace Reference

/-- The transactions of a stored block. -/
def storedTxs (n : EmbeddedNode) (hash : Bytes) : List Tx :=
  (((n.blockstore.getBlock hash).bind fun raw => (parseBlock (reference anyone) raw).toOption).map
    Prod.snd).getD []

def ledgerHeaders : List Bytes := (activeHeaders anyone ledgerNode).reverse

theorem runBlocks_ledger : RunBlocks (reference anyone) {raw | raw ∈ ledgerHeaders}
    ((sampleNode anyone []).genesisHash (reference anyone)) (storedTxs ledgerNode) :=
  runBlocks_of_list (by decide +kernel) (by decide +kernel) (by decide +kernel) (by decide +kernel)
    (by decide +kernel)

theorem delivered_ledger {raw : Bytes} {txs : List Tx} (hR : raw ∈ ledgerHeaders)
    (hsame : txs = storedTxs ledgerNode (headerHash (reference anyone) raw)) (hlen : txs.length < 2^64) :
    Delivered (reference anyone) {raw | raw ∈ ledgerHeaders} (storedTxs ledgerNode) raw txs :=
  ⟨hR,hsame,readsBack anyone fun tx htx => (runBlocks_ledger.regular raw hR tx (hsame ▸ htx)).packs,hlen⟩

/-- What a mined block of the ledger run has to satisfy. -/
theorem mines_ledger {n : EmbeddedNode} {timestamp : ℕ}
    (h : ∀ raw txs, n.assembleBlock (reference anyone) trueScript true [] timestamp = .ok (raw,txs) →
      raw ∈ ledgerHeaders ∧ txs = storedTxs ledgerNode (headerHash (reference anyone) raw) ∧
      txs.length < 2^64 ∧ headerHash (reference anyone) raw ≠ n.genesisHash (reference anyone)) :
    CoherentCall (reference anyone) {t | t ∈ ledgerTxs} {raw | raw ∈ ledgerHeaders}
      (storedTxs ledgerNode) n (.generateBlock trueScript true [] timestamp) := by
  intro raw txs ha
  obtain ⟨hR,hsame,hlen,hne⟩ := h raw txs ha
  exact ⟨delivered_ledger hR hsame hlen,hne⟩

def ledgerAnswer : NodeAnswer :=
  ((run (EmbeddedNode.call (reference anyone) 1) (sampleNode anyone []) ledgerCalls).call
    (reference anyone) 1 (.generateBlock trueScript true [] 2)).2

end Reference

open Reference in
theorem mempool_coherent_sample :
    (minedTxs ledgerAnswer).tail.Pairwise fun s t => ∀ o ∈ s.outpoints, o ∉ t.outpoints := by
  have hc : Along (EmbeddedNode.call (reference anyone) 1) (CoherentCall (reference anyone)
      {t | t ∈ ledgerTxs} {raw | raw ∈ ledgerHeaders} (storedTxs ledgerNode)) (sampleNode anyone [])
      (ledgerCalls ++ [.generateBlock trueScript true [] 2]) := by
    refine ⟨mines_ledger (by decide +kernel),fun t ht => ?_,mines_ledger (by decide +kernel),trivial⟩
    rw [ht.eq (by decide +kernel)]
    exact List.mem_cons_of_mem _ List.mem_cons_self
  have hinj : Set.InjOn (reference anyone).txHash {t | t ∈ ledgerTxs} :=
    injOn_list (by decide +kernel)
  have hT : ∀ raw ∈ ledgerHeaders, ∀ t ∈ storedTxs ledgerNode (headerHash (reference anyone) raw),
      t ∈ ledgerTxs := by decide +kernel
  have hmem := mem_trace_append (EmbeddedNode.call (reference anyone) 1) (sampleNode anyone [])
    ledgerCalls (.generateBlock trueScript true [] 2) []
  obtain ⟨hash,hmined⟩ := minedTxs_ne_nil (a := ledgerAnswer) (by decide +kernel)
  exact ((mempool_coherent (by decide +kernel) runBlocks_ledger hinj hT (isCoinbase_makeCoinbase _) hc
    hmem).2 hash _ hmined).2

namespace Reference

/-- Another spend of the coinbase that `spendOnce` spends. -/
def rivalSpend : Tx :=
  ⟨1,[⟨(reference anyone).txHash firstCoinbase,0,[],finalSequence⟩],[⟨5000,trueScript⟩],0⟩

def rivalTxs : List Tx := [makeCoinbase 5000 trueScript 2 [1],rivalSpend]

/-- The sample node while `spendOnce` waits in its mempool. -/
def waitingNode : EmbeddedNode :=
  run (EmbeddedNode.call (reference anyone) 1) (sampleNode anyone []) ledgerCalls

/-- A block from outside confirms the rival instead. -/
def staleNode : EmbeddedNode :=
  (waitingNode.call (reference anyone) 1
    (.acceptBlock (headerOn waitingNode.headers.tipHash rivalTxs) rivalTxs)).1

end Reference

open Reference in
/-- A block that spends what a waiting transaction spends leaves that transaction in the mempool,
and the next block contains it. -/
theorem stale_entry_mined :
    staleNode.height = 2 ∧ spendOnce ∈ staleNode.mempool.allTxs ∧
    (∃ o ∈ spendOnce.outpoints, staleNode.utxos.lookup o = none) ∧
    (validateTx (reference anyone) spendOnce staleNode.utxos).ok = false ∧
    spendOnce ∈
      (minedTxs (staleNode.call (reference anyone) 1 (.generateBlock trueScript true [] 3)).2).tail := by
  refine ⟨by decide +kernel,by decide +kernel,⟨((reference anyone).txHash firstCoinbase,0),?_,?_⟩,?_,?_⟩
  all_goals decide +kernel

end SubsatChannel
