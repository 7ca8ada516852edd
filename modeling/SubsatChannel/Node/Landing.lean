import SubsatChannel.Node.Unspent

/-! A settlement lands: a valid transaction with last sequence numbers gets into the mempool against
conflicts with lower ones, is not replaced there, and the next block that takes the mempool in has it. -/
namespace SubsatChannel
open Transition

/-- The answer with a mined block. -/
def NodeAnswer.hasBlock : NodeAnswer → Bool
  | .mined (.ok _) => true
  | _ => false

/-- The transactions spend an outpoint in common. -/
def Tx.Meets (s t : Tx) : Prop := ∃ o ∈ t.outpoints, o ∈ s.outpoints

/-- All that stands against a transaction is one other, with sequence numbers below the last. -/
structure Unopposed (n : EmbeddedNode) (t : Tx) : Prop where
  sole : ∀ s ∈ n.mempool.allTxs, s.Meets t → ∀ s' ∈ n.mempool.allTxs, s'.Meets t → s = s'
  low : ∀ s ∈ n.mempool.allTxs, s.Meets t → s ≠ t → ∀ tin ∈ s.inputs, tin.sequence < finalSequence

/-- Only what spends the null outpoint is taken for a coinbase. -/
def NullCoinbase (B : Bitcoinx) : Prop :=
  ∀ t, B.isCoinbase t = true → ∃ o ∈ t.outpoints, o.2 = 0xFFFFFFFF

namespace Reference

theorem nullCoinbase (made : Bytes → Bytes → Bool) : NullCoinbase (reference made) := by
  intro t h
  have he : t.outpoints = [(List.replicate 32 0,0xFFFFFFFF)] := by
    simpa [reference,base,Tx.outpoints] using h
  exact ⟨_,by rw [he]; exact List.mem_singleton_self _,rfl⟩

end Reference

section Validation
variable {B : Bitcoinx} {U : UtxoSet} {t : Tx}

theorem inputsVerify_iff {idx : ℕ} {ins : List TxInput} : InputsVerify B t U idx ins ↔
    ∀ (i : ℕ) (tin : TxInput), ins[i]? = some tin → ∃ e, U.lookup tin.outpoint = some e ∧
      verifySpend B t (idx+i) e.asTxOutput = .ok () := by
  induction ins generalizing idx with
  | nil => simp [InputsVerify]
  | cons tin ins ih =>
    rw [InputsVerify,ih]
    constructor
    · rintro ⟨hhead,hrest⟩ i tin' hi
      cases i with
      | zero =>
        cases hi
        exact hhead
      | succ i =>
        rw [show idx + (i+1) = idx + 1 + i by omega]
        exact hrest i tin' hi
    · intro h
      refine ⟨h 0 tin rfl,fun i tin' hi => ?_⟩
      rw [show idx + 1 + i = idx + (i+1) by omega]
      exact h (i+1) tin' hi

theorem verifySpend_ok_iff {idx : ℕ} {utxo : TxOutput} :
    verifySpend B t idx utxo = .ok () ↔ B.verifyInput t idx utxo = .ok true := by
  unfold verifySpend
  split
  · rename_i h
    simp [h]
  · rename_i h
    simp [h]
  · rename_i h
    simp [h]

/-- An accepted transaction satisfies the interpreter at every input. -/
theorem verifyInput_of_validateTx (h : (validateTx B t U).ok = true) {i : ℕ} {tin : TxInput}
    (hi : t.inputs[i]? = some tin) :
    ∃ e, U.lookup tin.outpoint = some e ∧ B.verifyInput t i e.asTxOutput = .ok true := by
  obtain ⟨e,he,hv⟩ := inputsVerify_iff.mp (validateTx_ok_iff.mp h).2.2.1 i tin hi
  rw [Nat.zero_add] at hv
  exact ⟨e,he,verifySpend_ok_iff.mp hv⟩

/-- A transaction that spends unspent outputs the interpreter lets it spend, and not more than they
hold, is accepted. -/
theorem validateTx_of_verifyInput (hne : t.inputs ≠ []) (hnull : NullCoinbase B) (hidx : ∀ o ∈ t.outpoints, o.2 < 0xFFFFFFFF)
    (hpos : ∀ out ∈ t.outputs, 0 ≤ out.value)
    (hins : ∀ (i : ℕ) (tin : TxInput), t.inputs[i]? = some tin → ∃ e, U.lookup tin.outpoint = some e ∧
      B.verifyInput t i e.asTxOutput = .ok true)
    (hsum : t.totalOutputValue ≤ (t.outpoints.map U.valueAt).sum) : (validateTx B t U).ok = true := by
  refine validateTx_ok_iff.mpr ⟨?_,hpos,?_,hsum,hne⟩
  · by_contra hcoinbase
    obtain ⟨o,ho,hlast⟩ := hnull t (by simpa using hcoinbase)
    have hlt := hidx o ho
    omega
  · refine inputsVerify_iff.mpr fun i tin hi => ?_
    obtain ⟨e,he,hv⟩ := hins i tin hi
    rw [Nat.zero_add]
    exact ⟨e,he,verifySpend_ok_iff.mpr hv⟩

end Validation

section Mempool
variable {B : Bitcoinx} {U : UtxoSet} {m : Mempool Tower} {t : Tx}

/-- A known transaction is accepted again. -/
theorem admit_known {depth : ℕ} {e : MempoolEntry} (he : m.entries.get? (B.txHash t) = some e) :
    m.admitTx B (Tower.observe B) U (depth+1) t = some (m,.ok (.accept "already in mempool")) := by
  simp only [Mempool.admitTx,Mempool.admitWith,he,Option.isSome_some,if_true]

/-- Without a conflict that matches its sequence numbers a valid settlement is taken in. -/
theorem Mempool.Consistent.admit_settles (hc : m.Consistent B) (depth : ℕ)
    (hseq : ∀ s, Held B (registries m) s → s.Sequenced) (hfinal : t.AllFinal)
    (hok : (validateTx B t U).ok = true)
    (hknown : ∀ s ∈ m.allTxs, B.txHash s = B.txHash t → s = t)
    (hsole : ∀ s ∈ m.allTxs, s.Meets t → ∀ s' ∈ m.allTxs, s'.Meets t → s = s')
    (hlow : ∀ s ∈ m.allTxs, s.Meets t → s ≠ t → ∀ tin ∈ s.inputs, tin.sequence < finalSequence) :
    ∃ m' r, m.admitTx B (Tower.observe B) U (depth+1) t = some (m',.ok r) ∧ r.ok = true ∧
      t ∈ m'.allTxs ∧ ∀ s ∈ m'.allTxs, s = t ∨ s ∈ m.allTxs := by
  cases hg : m.entries.get? (B.txHash t) with
  | some e =>
    have hmem : e.tx ∈ m.allTxs := Mempool.mem_allTxs.mpr ⟨_,e,hg,rfl⟩
    refine ⟨m,_,admit_known hg,rfl,?_,fun s hs => .inr hs⟩
    rwa [← hknown e.tx hmem (hc.keyed _ e hg)]
  | none =>
    have hentry : ∀ txid f, m.entries.get? txid = some f → f.tx ≠ t := by
      rintro txid f hf rfl
      rw [hc.keyed txid f hf,hf] at hg
      cases hg
    rcases admit_spec U depth hc t with ⟨href,_⟩ | ⟨m₁,event,htaken,_,hres⟩
    · exfalso
      cases href with
      | known f hf =>
        rw [hg] at hf
        cases hf
      | conflicts a b hab ha hb =>
        obtain ⟨_,p,hp,hlp⟩ := Mempool.mem_conflictingTxids.mp ha
        obtain ⟨_,q,hq,hlq⟩ := Mempool.mem_conflictingTxids.mp hb
        obtain ⟨e,he,hpe⟩ := (hc.held p a).mp hlp
        obtain ⟨f,hf,hqf⟩ := (hc.held q b).mp hlq
        have hsame := hsole e.tx (Mempool.mem_allTxs.mpr ⟨a,e,he,rfl⟩) ⟨p,hp,hpe⟩ f.tx
          (Mempool.mem_allTxs.mpr ⟨b,f,hf,rfl⟩) ⟨q,hq,hqf⟩
        exact hab (by rw [← hc.keyed a e he,← hc.keyed b f hf,hsame])
      | outbid txid f hf tin q hviol =>
        obtain ⟨htin,hl,hle⟩ := of_seqViolation_some hviol
        obtain ⟨old,hin,_,rfl⟩ := lookup_seqsByOutpoint hl
        have hlt := hlow f.tx (Mempool.mem_allTxs.mpr ⟨txid,f,hf,rfl⟩)
          ⟨_,List.mem_map_of_mem htin,outpoint_of_lookup hl⟩ (hentry txid f hf) old hin
        rw [hfinal tin htin] at hle
        omega
      | invalid hbad =>
        rw [hok] at hbad
        cases hbad
    · have hregs : registries m₁ = registries m := by rw [registries,registries,htaken.observers]
      have hquiet : Mempool.notify (Tower.observe B) (Mempool.admitTx B (Tower.observe B) U depth) m₁
          event t = some m₁ := notify_final (fun s hs => hseq s (by rwa [hregs] at hs)) hfinal
      obtain ⟨e,he,rfl⟩ := htaken.entry
      refine ⟨m₁,_,by rw [hres,hquiet]; rfl,hok,Mempool.mem_allTxs.mpr ⟨_,e,he,rfl⟩,fun s hs => ?_⟩
      obtain ⟨txid,f,hf,rfl⟩ := Mempool.mem_allTxs.mp hs
      exact (htaken.entry_old hf).imp (fun h => h.2.1) fun h => Mempool.mem_allTxs.mpr ⟨txid,f,h,rfl⟩

end Mempool

section Run
variable {B : Bitcoinx} {T M : Set Tx} {R : Set Bytes} {n : EmbeddedNode} {depth : ℕ} {t : Tx}

variable (depth) in
/-- A valid settlement that nothing stands against is taken in, and nothing else comes in with it. -/
theorem Mining.submit_settles (h : Mining B T R M n) (hinj : Set.InjOn B.txHash T)
    (hseq : ∀ s ∈ T, s.Sequenced) (hc : MiningCall B T R n (.submitTx t)) (hfinal : t.AllFinal)
    (hok : (validateTx B t n.utxos).ok = true) (hopp : Unopposed n t) :
    ∃ m r, n.submitTx B (depth+1) t = some ({ n with mempool := m },.ok r) ∧ r.ok = true ∧
      t ∈ m.allTxs ∧ ∀ s ∈ m.allTxs, s = t ∨ s ∈ n.mempool.allTxs := by
  have hheld : ∀ s, Held B (registries n.mempool) s → s.Sequenced := fun s hs => hseq s (hc s (.inr hs))
  obtain ⟨m,r,hadm,hr,hmem⟩ := h.consistent.admit_settles depth hheld hfinal hok
    (fun s hs he => hinj (h.entries s hs).1 (hc t (.inl rfl)) he) hopp.sole hopp.low
  exact ⟨m,r,by rw [EmbeddedNode.submitTx,hadm]; rfl,hr,hmem⟩

/-- A block that takes the mempool in is answered with all of it. -/
theorem mined_all {n' : EmbeddedNode} {script : Script} {extra : Bytes} {timestamp : ℕ} {hash : Bytes}
    {txs : List Tx} (h : n.call B depth (.generateBlock script true extra timestamp) =
      (n',.mined (.ok (hash,txs)))) (ht : t ∈ n.mempool.allTxs) : t ∈ txs := by
  have hans : (n.call B depth (.generateBlock script true extra timestamp)).2 =
      .mined (.ok (hash,txs)) := by rw [h]
  obtain ⟨_,incl,_,_,raw,hcall,ha⟩ := EmbeddedNode.mined_cases hans
  cases hcall
  obtain ⟨_,_,_,_,rfl,_⟩ := n.assembleBlock_txs B ha
  exact List.mem_cons_of_mem _ ht

theorem minedIn_trace_append {step : EmbeddedNode → RaceCall → EmbeddedNode × NodeAnswer}
    (is js : List RaceCall) : minedIn (trace step n (is ++ js)) =
      minedIn (trace step n is) ++ minedIn (trace step (run step n is) js) := by
  rw [trace_append,minedIn,List.flatMap_append]
  rfl

section Start
variable {reward : ℤ} {towers : List Tower} (hinj : Set.InjOn B.txHash T)
  (hhash : Set.InjOn (headerHash B) R)
  (hcb : ∀ value script height extra, B.isCoinbase (makeCoinbase value script height extra) = true)
  (hR : (EmbeddedNode.init B reward towers).genesis ∈ R) (hseq : ∀ s ∈ T, s.Sequenced)

include hinj hhash hcb hR hseq

/-- The submission is taken in, and after a later block with the mempool in it the transaction has
been mined. -/
theorem lands {before middle after : List RaceCall} {script : Script} {extra : Bytes} {timestamp : ℕ}
    (hc : Along (EmbeddedNode.raceCall B (depth+1)) (RaceAllowed B T R)
      (EmbeddedNode.init B reward towers) (before ++ .node (.submitTx t) ::
        (middle ++ .node (.generateBlock script true extra timestamp) :: after)))
    (hfinal : t.AllFinal)
    (hok : (validateTx B t (run (EmbeddedNode.raceCall B (depth+1)) (EmbeddedNode.init B reward towers)
      before).utxos).ok = true)
    (hopp : Unopposed (run (EmbeddedNode.raceCall B (depth+1)) (EmbeddedNode.init B reward towers)
      before) t)
    (hmined : ((run (EmbeddedNode.raceCall B (depth+1)) (EmbeddedNode.init B reward towers)
      (before ++ .node (.submitTx t) :: middle)).raceCall B (depth+1)
        (.node (.generateBlock script true extra timestamp))).2.hasBlock = true) :
    ((run (EmbeddedNode.raceCall B (depth+1)) (EmbeddedNode.init B reward towers) before).raceCall B
      (depth+1) (.node (.submitTx t))).2.taken = true ∧
    t ∈ minedIn (trace (EmbeddedNode.raceCall B (depth+1)) (EmbeddedNode.init B reward towers)
      (before ++ .node (.submitTx t) ::
        (middle ++ .node (.generateBlock script true extra timestamp) :: after))) := by
  have hsplit : ∀ l : List RaceCall, before ++ .node (.submitTx t) :: l =
      (before ++ [.node (.submitTx t)]) ++ l := fun l => by simp
  obtain ⟨hbefore,hsub,hrest⟩ := (along_append _ _ _ _ _).mp hc
  obtain ⟨hmiddle,_,_⟩ := (along_append _ _ _ _ _).mp hrest
  have hM := (reflects_run hinj hhash hcb hR hbefore).1
  obtain ⟨m,r,hsubmit,hr,hmem,_⟩ := hM.submit_settles depth hinj hseq hsub hfinal hok hopp
  have hin : t ∈ ((run (EmbeddedNode.raceCall B (depth+1)) (EmbeddedNode.init B reward towers)
      before).raceCall B (depth+1) (.node (.submitTx t))).1.mempool.allTxs := by
    simp only [EmbeddedNode.raceCall,EmbeddedNode.call,hsubmit]
    exact hmem
  refine ⟨by simp only [EmbeddedNode.raceCall,EmbeddedNode.call,hsubmit]; exact hr,?_⟩
  have hc' : Along (EmbeddedNode.raceCall B (depth+1)) (RaceAllowed B T R)
      (EmbeddedNode.init B reward towers) ((before ++ [.node (.submitTx t)]) ++ middle) := by
    rw [← hsplit]
    exact (along_append _ _ _ _ _).mpr ⟨hbefore,hsub,hmiddle⟩
  have hstays := stays_until_mined hinj hhash hcb hR hseq hc' hfinal (by rw [run_concat]; exact hin)
  rw [hsplit,minedIn_trace_append]
  refine List.mem_append_right _ ?_
  rw [minedIn_trace_append]
  rcases hstays with hwait | hgone
  · refine List.mem_append_right _ (List.mem_append_left _ ?_)
    rw [hsplit,run_append] at hmined
    rw [run_append] at hwait
    generalize run (EmbeddedNode.raceCall B (depth+1)) (run (EmbeddedNode.raceCall B (depth+1))
      (EmbeddedNode.init B reward towers) (before ++ [.node (.submitTx t)])) middle = n at hmined hwait ⊢
    rcases hans : n.call B (depth+1) (.generateBlock script true extra timestamp) with ⟨n',a⟩
    simp only [EmbeddedNode.raceCall,hans] at hmined ⊢
    cases a with
    | mined r =>
      cases r with
      | error e => cases hmined
      | ok p => exact mined_all hans hwait
    | admission r => cases hmined
    | accepted r => cases hmined
    | tooDeep => cases hmined
  · exact List.mem_append_left _ hgone

end Start

/-- What a mined transaction has spent is gone, when it pays something. -/
theorem Reflects.spent_gone {L : List Tx} {U : UtxoSet} (h : Reflects B T L U) {s : Tx} (hs : s ∈ T)
    (hrich : s.Rich) {i : ℕ} (ht : t ∈ L) (hcb : B.isCoinbase t = false)
    (ho : (B.txHash s,i) ∈ t.outpoints) : U.lookup (B.txHash s,i) = none := by
  have hspent : (B.txHash s,i) ∈ UtxoSet.spentOf B L :=
    List.mem_flatMap.mpr ⟨t,ht,by simpa [UtxoSet.spentBy,hcb] using ho⟩
  have hag := h.agrees s hs hrich i
  rw [ledgerOutput,if_neg fun hand => hand.2 hspent] at hag
  exact Option.map_eq_none_iff.mp hag

/-- What a mined transaction pays is there until it is spent. -/
theorem Reflects.paid {L : List Tx} {U : UtxoSet} (h : Reflects B T L U) (htT : t ∈ T)
    (hrich : t.Rich) (ht : t ∈ L) {i : ℕ} (hns : (B.txHash t,i) ∉ UtxoSet.spentOf B L) :
    (U.lookup (B.txHash t,i)).map UtxoEntry.asTxOutput = t.outputs[i]? := by
  rw [h.agrees t htT hrich i,ledgerOutput,if_pos ⟨ht,hns⟩]

/-- A valid settlement against which only one transaction with lower sequence numbers stands, if any,
lands. Its submission is accepted, a later block that takes the mempool in mines it, whatever
is submitted in between, and from then on what it spent is gone and what it pays is there until a
mined transaction spends it. -/
theorem settlement_lands {reward : ℤ} {towers : List Tower} (hinj : Set.InjOn B.txHash T)
    (hhash : Set.InjOn (headerHash B) R)
    (hcb : ∀ value script height extra, B.isCoinbase (makeCoinbase value script height extra) = true)
    (hR : (EmbeddedNode.init B reward towers).genesis ∈ R) (hseq : ∀ s ∈ T, s.Sequenced)
    {before middle after : List RaceCall} {script : Script} {extra : Bytes} {timestamp : ℕ}
    (hc : Along (EmbeddedNode.raceCall B (depth+1)) (RaceAllowed B T R)
      (EmbeddedNode.init B reward towers) (before ++ .node (.submitTx t) ::
        (middle ++ .node (.generateBlock script true extra timestamp) :: after)))
    (hfinal : t.AllFinal)
    (hok : (validateTx B t (run (EmbeddedNode.raceCall B (depth+1)) (EmbeddedNode.init B reward towers)
      before).utxos).ok = true)
    (hopp : Unopposed (run (EmbeddedNode.raceCall B (depth+1)) (EmbeddedNode.init B reward towers)
      before) t)
    (hmined : ((run (EmbeddedNode.raceCall B (depth+1)) (EmbeddedNode.init B reward towers)
      (before ++ .node (.submitTx t) :: middle)).raceCall B (depth+1)
        (.node (.generateBlock script true extra timestamp))).2.hasBlock = true) :
    ((run (EmbeddedNode.raceCall B (depth+1)) (EmbeddedNode.init B reward towers) before).raceCall B
      (depth+1) (.node (.submitTx t))).2.taken = true ∧
    ∃ L U, L = minedIn (trace (EmbeddedNode.raceCall B (depth+1)) (EmbeddedNode.init B reward towers)
        (before ++ .node (.submitTx t) ::
          (middle ++ .node (.generateBlock script true extra timestamp) :: after))) ∧
      U = (run (EmbeddedNode.raceCall B (depth+1)) (EmbeddedNode.init B reward towers)
        (before ++ .node (.submitTx t) ::
          (middle ++ .node (.generateBlock script true extra timestamp) :: after))).utxos ∧
      t ∈ L ∧
      (∀ s ∈ T, s.Rich → ∀ i, (B.txHash s,i) ∈ t.outpoints → U.lookup (B.txHash s,i) = none) ∧
      (t.Rich → ∀ i, (B.txHash t,i) ∉ UtxoSet.spentOf B L →
        (U.lookup (B.txHash t,i)).map UtxoEntry.asTxOutput = t.outputs[i]?) := by
  obtain ⟨htaken,hin⟩ := lands hinj hhash hcb hR hseq hc hfinal hok hopp hmined
  have hr := (reflects_run hinj hhash hcb hR hc).2
  have hallowed : RaceAllowed B T R (run (EmbeddedNode.raceCall B (depth+1))
      (EmbeddedNode.init B reward towers) before) (.node (.submitTx t)) :=
    ((along_append _ _ _ _ _).mp hc).2.1
  have htT : t ∈ T := hallowed t (.inl rfl)
  exact ⟨htaken,_,_,rfl,rfl,hin,
    fun s hs hrich i ho => hr.spent_gone hs hrich hin (validateTx_ok_iff.mp hok).1 ho,
    fun hrich i hns => hr.paid htT hrich hin hns⟩

end Run

open Reference in
theorem Reference.landing_facts : (raceRun (raceStart.take 3)).mempool.allTxs = [] ∧
    (validateTx (reference anyone) sampleForfeit (raceRun (raceStart.take 3)).utxos).ok = true ∧
    ((raceRun (raceStart.take 3 ++ .node (.submitTx sampleForfeit) :: [])).raceCall (reference anyone) 1
      (.node (.generateBlock trueScript true [] 3))).2.hasBlock = true ∧
    ((reference anyone).txHash sampleForfeit,0) ∉ UtxoSet.spentOf (reference anyone) (minedIn (trace
      (EmbeddedNode.raceCall (reference anyone) 1) (sampleNode anyone []) (raceStart ++ raceEnd))) ∧
    sampleForfeit.AllFinal ∧ sampleForfeit.Rich := by
  decide +kernel

open Reference in
/-- The forfeiture of the sample race lands: the bond is gone, its payout is there. -/
theorem settlement_lands_sample :
    (raceRun (raceStart ++ raceEnd)).utxos.lookup
      ((sampleChannel anyone).fundingTxid (reference anyone),1) = none ∧
    ((raceRun (raceStart ++ raceEnd)).utxos.lookup
      ((reference anyone).txHash sampleForfeit,0)).map UtxoEntry.asTxOutput =
        sampleForfeit.outputs[0]? := by
  obtain ⟨hrun,_⟩ := race_facts
  obtain ⟨hempty,hok,hblock,hkept,hfinal,hrich⟩ := landing_facts
  have hopp : Unopposed (raceRun (raceStart.take 3)) sampleForfeit :=
    ⟨by rw [hempty]; simp,by rw [hempty]; simp⟩
  have hc : Along (EmbeddedNode.raceCall (reference anyone) (0+1))
      (RaceAllowed (reference anyone) {t | t ∈ raceTxs} {raw | raw ∈ raceHeaders})
      (sampleNode anyone []) (raceStart.take 3 ++ .node (.submitTx sampleForfeit) ::
        ([] ++ .node (.generateBlock trueScript true [] 3) :: [])) := hrun.allowed
  obtain ⟨_,L,U,hL,hU,_,hgone,hpaid⟩ := settlement_lands hrun.txids hrun.headers
    (isCoinbase_makeCoinbase _) hrun.start hrun.sequenced hc hfinal hok hopp hblock
  have hbond := hgone (sampleChannel anyone).fundingTx (by decide +kernel)
    (obtained_sampleChannel anyone).canonical.rich 1 (by decide +kernel)
  have hpayout := hpaid hrich 0 (by rw [hL]; exact hkept)
  rw [hU] at hbond hpayout
  exact ⟨hbond,hpayout⟩

end SubsatChannel
