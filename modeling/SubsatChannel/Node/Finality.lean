import SubsatChannel.Lib.Transition
import SubsatChannel.Node.HeaderTree
import SubsatChannel.Reference
import SubsatChannel.Routing.Path

/-! Finality: nothing in the node reads a lock time, so a block contains only final transactions
when only final transactions are submitted. -/
namespace SubsatChannel
open Transition

/-- A transaction is final at a height when all its inputs carry the final sequence number or its
lock time, read as a block height, has been reached. -/
def FinalAt (tx : Tx) (height : ℕ) : Prop :=
  (∀ tin ∈ tx.inputs, tin.sequence = 0xFFFFFFFF) ∨ tx.locktime ≤ height

instance (tx : Tx) (height : ℕ) : Decidable (FinalAt tx height) := by
  unfold FinalAt
  infer_instance

theorem FinalAt.mono {tx : Tx} {h k : ℕ} (hf : FinalAt tx h) (hk : h ≤ k) : FinalAt tx k :=
  hf.imp_right fun hl => hl.trans hk

/-- A transaction with a sequence number below the final one waits for its lock time. -/
theorem FinalAt.locktime_le {tx : Tx} {h : ℕ} (hf : FinalAt tx h) {tin : TxInput}
    (ht : tin ∈ tx.inputs) (hseq : tin.sequence ≠ 0xFFFFFFFF) : tx.locktime ≤ h :=
  hf.resolve_left fun hall => hseq (hall tin ht)

/-- The calls of a run in which only transactions enter that are final in the next block. -/
def FinalityCall (B : Bitcoinx) (n : EmbeddedNode) : NodeCall → Prop
  | .submitTx tx => ∀ t, EmbeddedNode.MayEnter B n tx t → (validateTx B t n.utxos).ok = true →
      FinalAt t (n.height+1)
  | .generateBlock _ _ _ _ => True
  | .acceptBlock _ _ => False

/-- Every mempool transaction is final in the next block. -/
structure Final (B : Bitcoinx) (n : EmbeddedNode) : Prop where
  rooted : Rooted B Set.univ (n.genesisHash B) n.headers
  consistent : n.mempool.Consistent B
  entries : ∀ t ∈ n.mempool.allTxs, FinalAt t (n.height+1)

section
variable {B : Bitcoinx} {n : EmbeddedNode}

/-- Connecting a header mined on the tip never lowers the height. -/
theorem Rooted.height_le {R : Set Bytes} {g root raw : Bytes} {hs hs' : HeaderStore} {tip hd : Header}
    {timestamp : ℕ} (hr : Rooted B R g hs) (ht : hs.tip = some tip)
    (hm : mineHeader B (tip.hash B) root timestamp = .ok raw)
    (hc : hs.connect B raw = (hs',.ok hd)) : hs.height ≤ hs'.height := by
  obtain ⟨k,hb⟩ := mineFrom_build hm
  have hprev : rawPrevHash raw = hs.tipHash :=
    (buildRawHeader_fields hb (by decide)).1.trans (hr.keyed _ _ ht)
  obtain ⟨hsub,hnew⟩ := hr.connect_lookup hc
  obtain ⟨_,⟨rfl,_⟩ | ⟨tip',parent,ht',_,hp,hhd,hgrown⟩⟩ := hr.connect_ok hc
  · exact le_rfl
  · rw [ht] at ht'
    cases ht'
    rw [hprev] at hp
    have hold : hs.height = tip.height := by rw [HeaderStore.height,ht]; rfl
    by_cases hw : tip.cumulativeWork < hd.cumulativeWork
    · have htip : hs'.tipHash = headerHash B raw := by rw [hgrown,if_pos hw]
      have hlook : hs.lookup hs.tipHash = some tip := ht
      rw [hlook] at hp
      cases hp
      rw [hold,HeaderStore.height,HeaderStore.tip,htip,hnew,hhd]
      exact Nat.le_succ _
    · have htip : hs'.tipHash = hs.tipHash := by rw [hgrown,if_neg hw]
      rw [hold,HeaderStore.height,HeaderStore.tip,htip,hsub _ _ ht]
      exact le_rfl

theorem Final.call (h : Final B n) (depth : ℕ) (c : NodeCall) (hc : FinalityCall B n c) :
    Final B (n.call B depth c).1 := by
  cases c with
  | submitTx tx =>
    rcases n.submitTx_cases B depth tx with hcall | ⟨m,r,hm,hcall⟩
    · rw [hcall]; exact h
    · rw [hcall]
      obtain ⟨hcons,henter⟩ := n.submitTx_entries h.consistent hm
      refine ⟨h.rooted,hcons,fun t ht => ?_⟩
      rcases henter t ht with hold | ⟨hmay,hok⟩
      · exact h.entries t hold
      · exact hc t hmay hok
  | generateBlock script incl extra timestamp =>
    rcases n.generateBlock_cases B depth script incl extra timestamp with
      ⟨e,_,hcall⟩ | ⟨raw,txs,ha,⟨hs,e,hconn,hcall⟩ | ⟨hs,hd,hconn,hrest⟩⟩
    · rw [hcall]; exact h
    · rw [hcall,(h.rooted.connect_error hconn).1]; exact h
    · obtain ⟨tip,_,htip,_,_,hm⟩ := n.assembleBlock_txs B ha
      have hup : n.height ≤ hs.height := h.rooted.height_le htip hm hconn
      have hroot := h.rooted.connect (Set.mem_univ raw) hconn
      rcases hrest with ⟨e,_,hcall⟩ | ⟨rawBlock,_,hcall⟩
      · rw [hcall]
        exact ⟨hroot,h.consistent,fun t ht => (h.entries t ht).mono (Nat.succ_le_succ hup)⟩
      · rw [hcall]
        refine ⟨hroot,h.consistent.dropAll _,fun t ht => ?_⟩
        exact (h.entries t (Mempool.mem_allTxs_dropAll ht)).mono (Nat.succ_le_succ hup)
  | acceptBlock raw txs => exact hc.elim

end

/-- In every run of submissions and locally mined blocks in which whatever validates on submission
is final in the next block, every transaction of a mined block except its coinbase is final at the
height of that block. -/
theorem mined_final {B : Bitcoinx} {reward : ℤ} {towers : List Tower} {depth : ℕ}
    {calls : List NodeCall} (hc : Along (EmbeddedNode.call B depth) (FinalityCall B)
      (EmbeddedNode.init B reward towers) calls)
    {n : EmbeddedNode} {call : NodeCall} {hash : Bytes} {txs : List Tx}
    (h : (n,call,NodeAnswer.mined (.ok (hash,txs))) ∈
      trace (EmbeddedNode.call B depth) (EmbeddedNode.init B reward towers) calls) :
    ∀ t ∈ txs.tail, FinalAt t (n.height+1) := by
  have hstart : Final B (EmbeddedNode.init B reward towers) :=
    ⟨rooted_withGenesis (Set.mem_univ _),Mempool.consistent_fresh B towers,fun t ht => by
      simp [EmbeddedNode.init,Mempool.fresh,Mempool.allTxs] at ht⟩
  have keep := fun (s : EmbeddedNode) (i : NodeCall) (hs : Final B s) hi => hs.call depth i hi
  obtain ⟨hn,hcall,hmined⟩ := trace_invariant keep hstart hc h
  obtain ⟨script,incl,extra,timestamp,raw,rfl,ha⟩ := EmbeddedNode.mined_cases hmined.symm
  obtain ⟨tip,fees,_,_,rfl,_⟩ := n.assembleBlock_txs B ha
  cases incl with
  | true => exact hn.entries
  | false => simp

namespace Reference

/-- The sample node with one block and the spend of its coinbase in the mempool. -/
def finalNode : EmbeddedNode :=
  run (EmbeddedNode.call (reference anyone) 1) (sampleNode anyone [])
    [.generateBlock trueScript true [] 1,.submitTx spendOnce]

def finalAnswer : NodeAnswer :=
  (finalNode.call (reference anyone) 1 (.generateBlock trueScript true [] 2)).2

end Reference

open Reference in
theorem mined_final_sample : FinalAt spendOnce (finalNode.height+1) := by
  obtain ⟨hash,hmined⟩ := minedTxs_ne_nil (a := finalAnswer) (by decide +kernel)
  have hc : Along (EmbeddedNode.call (reference anyone) 1) (FinalityCall (reference anyone))
      (sampleNode anyone []) ([.generateBlock trueScript true [] 1,.submitTx spendOnce] ++
        [.generateBlock trueScript true [] 2]) := by
    refine ⟨trivial,fun t ht _ => ?_,trivial,trivial⟩
    rw [ht.eq (by decide +kernel)]
    exact .inl (by decide +kernel)
  have hmem := mem_trace_append (EmbeddedNode.call (reference anyone) 1) (sampleNode anyone [])
    [.generateBlock trueScript true [] 1,.submitTx spendOnce] (.generateBlock trueScript true [] 2) []
  change (_,_,finalAnswer) ∈ _ at hmem
  rw [hmined] at hmem
  exact mined_final hc hmem spendOnce (by decide +kernel)

namespace Reference

def earlyPreimage : Bytes := List.replicate 32 7

/-- A hop locked until height 300 and funded by the first block of the sample node. -/
def earlyHop : Hop where
  payerPriv := ⟨List.replicate 31 0 ++ [1]⟩
  payeePriv := ⟨List.replicate 31 0 ++ [2]⟩
  value := 5000
  imageH160 := hash20 earlyPreimage
  locktime := 300
  fundingOutpoint := ((reference anyone).txHash (makeCoinbase 5000
    [.op .opIf,.op .opHash160,.push (hash20 earlyPreimage),.op .opEqualVerify,
      .push (2 :: List.replicate 31 0 ++ [2]),.op .opCheckSig,.op .opElse,
      .push (2 :: List.replicate 31 0 ++ [1]),.op .opCheckSig,.op .opEndIf] 1 []),0)

def earlyLock : Script := (earlyHop.lockingScript (reference anyone)).toOption.getD []

def earlyReturn : Tx :=
  let tx : Tx := ⟨1,[⟨earlyHop.fundingOutpoint.1,0,[],0⟩],
    [⟨5000,p2pkhScript (reference anyone) (publicKey earlyHop.payerPriv)⟩],300⟩
  tx.setScriptSig 0 (hopReturnUnlock (signInput (reference anyone) tx 0 5000 earlyLock
    earlyHop.payerPriv))

def earlyNode : EmbeddedNode :=
  run (EmbeddedNode.call (reference anyone) 1) (sampleNode anyone [])
    [.generateBlock earlyLock true [] 1,.submitTx earlyReturn]

end Reference

open Reference in
/-- The return transaction of a hop is mined long before its lock time. -/
theorem return_mined_early :
    buildPath (reference anyone) [earlyHop.payerPriv,earlyHop.payeePriv] 5000 300 144 earlyPreimage
        (some [earlyHop.fundingOutpoint]) =
      .ok ⟨[earlyHop],300,144,hash20 earlyPreimage,some earlyPreimage⟩ ∧
    earlyHop.buildReturnTx (reference anyone) = .ok (earlyReturn,⟨5000,earlyLock⟩) ∧
    earlyReturn ∈
      (minedTxs (earlyNode.call (reference anyone) 1 (.generateBlock trueScript true [] 2)).2).tail ∧
    earlyNode.height + 1 = 2 ∧ ¬ FinalAt earlyReturn 2 :=
  ⟨by decide +kernel,by decide +kernel,by decide +kernel,by decide +kernel,by decide +kernel⟩

end SubsatChannel
