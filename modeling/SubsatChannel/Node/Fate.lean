import SubsatChannel.Lib.Succession
import SubsatChannel.Watchtower.SingleSpend

/-! What becomes of a submitted transaction: it waits, it is mined once, or a transaction that took
its place does. -/
namespace SubsatChannel
open Transition Relation Succession

/-- The new transaction takes the place of the old one: they spend an outpoint in common, and on every
such outpoint the new one carries the higher sequence number. -/
structure Displaces (old new : Tx) : Prop where
  common : ∃ o ∈ new.outpoints, o ∈ old.outpoints
  higher : ∀ tin ∈ new.inputs, ∀ q, (seqsByOutpoint old).lookup tin.outpoint = some q →
    q < tin.sequence

/-- The transactions of a mempool. -/
def Mempool.waiting {ω : Type} (m : Mempool ω) : Set Tx := {t | t ∈ m.allTxs}

/-- The transactions of a mined block. -/
def minedSet (a : NodeAnswer) : Set Tx := {t | t ∈ minedTxs a}

section Mempool
variable {B : Bitcoinx} {U : UtxoSet} {T : Tx → Prop} {m m₁ m' : Mempool Tower} {tx : Tx}

theorem Mempool.Taken.handed (h : Mempool.Taken B U m tx m₁) (hc : m.Consistent B) :
    Handed Displaces m.waiting m₁.waiting := by
  have hkeep : ∀ txid e, m.entries.get? txid = some e → B.txHash tx ≠ txid := by
    rintro txid e he rfl
    rw [h.new] at he
    cases he
  obtain ⟨f,hf,hftx⟩ := h.entry
  have hnew : tx ∈ m₁.waiting := Mempool.mem_allTxs.mpr ⟨_,f,hf,hftx⟩
  cases h with
  | plain _ _ _ =>
    refine .of_subset fun t ht => ?_
    obtain ⟨txid,e,he,rfl⟩ := Mempool.mem_allTxs.mp ht
    refine Mempool.mem_allTxs.mpr ⟨txid,e,?_,rfl⟩
    rw [Mempool.get?_insert,if_neg (hkeep txid e he),he]
  | replacing oldTxid old _ hold _ hconf _ hseq _ =>
    obtain ⟨o,ho,hl⟩ := hconf
    obtain ⟨e,he,heo⟩ := (hc.held o oldTxid).mp hl
    rw [hold] at he
    cases he
    refine .replace ⟨⟨o,ho,heo⟩,fun tin ht q hq => lt_of_seqViolation_none hseq ht hq⟩ hnew ?_
    intro t ht hne
    obtain ⟨txid,e,he,rfl⟩ := Mempool.mem_allTxs.mp ht
    have hother : oldTxid ≠ txid := by
      rintro rfl
      rw [hold] at he
      cases he
      exact hne rfl
    refine Mempool.mem_allTxs.mpr ⟨txid,e,?_,rfl⟩
    rw [Mempool.get?_insert,if_neg (hkeep txid e he),Mempool.get?_remove,if_neg hother,he]

/-- Through all that the towers do inside a call of `admit` nothing gets lost. -/
theorem MempoolSteps.handed (h : MempoolSteps B U T m m') (hc : m.Consistent B) :
    Handed Displaces m.waiting m'.waiting := by
  have hboth : m.Consistent B ∧ Handed Displaces m.waiting m.waiting := ⟨hc,.of_subset subset_rfl⟩
  refine (h.keep (I := fun k => k.Consistent B ∧ Handed Displaces m.waiting k.waiting)
    (fun k k' hk hs => ?_) hboth).2
  cases hs with
  | take tx _ htaken => exact ⟨htaken.consistent hk.1,hk.2.trans (htaken.handed hk.1)⟩
  | count i => exact ⟨hk.1.countIntervention i,hk.2⟩

/-- A refusal is answered as one, unless the transaction is known already. -/
theorem Mempool.Refused.answer {submit : Admission Tower} {r : ValidationResult}
    (h : Mempool.Refused B U m tx) (hc : m.Consistent B)
    (hr : Mempool.admitWith B (Tower.observe B) submit U m tx = some (m',.ok r)) (hok : r.ok = true) :
    ∃ e, m.entries.get? (B.txHash tx) = some e := by
  by_contra hnone
  have hnew : m.entries.get? (B.txHash tx) = none := by
    cases hg : m.entries.get? (B.txHash tx) with
    | none => rfl
    | some e => exact absurd ⟨e,hg⟩ hnone
  have hrej : ∀ s, r ≠ .reject s := by
    rintro s rfl
    cases hok
  simp only [Mempool.admitWith,hnew,Option.isSome_none,Bool.false_eq_true,if_false] at hr
  cases h with
  | known e he =>
    rw [hnew] at he
    cases he
  | conflicts s t hst hs ht =>
    rcases hconf : m.conflictingTxids B tx with _ | ⟨a,_ | ⟨b,l⟩⟩
    · rw [hconf] at hs
      cases hs
    · rw [hconf,List.mem_singleton] at hs ht
      exact hst (hs.trans ht.symm)
    · simp only [hconf,Option.some.injEq,Prod.mk.injEq,Except.ok.injEq] at hr
      exact hrej _ hr.2.symm
  | outbid oldTxid old hold tin q hviol =>
    -- the entry that outbids holds an outpoint of the transaction, so it is a conflict
    obtain ⟨htin,hl,_⟩ := of_seqViolation_some hviol
    have hheld := (hc.held tin.outpoint oldTxid).mpr ⟨old,hold,outpoint_of_lookup hl⟩
    have hmem := hc.holder_conflicts hnew (List.mem_map_of_mem htin) hheld
    rcases hconf : m.conflictingTxids B tx with _ | ⟨a,_ | ⟨b,l⟩⟩
    · rw [hconf] at hmem
      cases hmem
    · rw [hconf,List.mem_singleton] at hmem
      subst hmem
      simp only [hconf,hold,hviol,Option.some.injEq,Prod.mk.injEq,Except.ok.injEq] at hr
      exact hrej _ hr.2.symm
    · simp only [hconf,Option.some.injEq,Prod.mk.injEq,Except.ok.injEq] at hr
      exact hrej _ hr.2.symm
  | invalid hbad =>
    have hinvalid : ∀ k : Mempool Tower, some (k,Except.ok (validateTx B tx U)) ≠
        (some (m',.ok r) : Option (Mempool Tower × Except Fault ValidationResult)) := by
      intro k he
      cases he
      rw [hok] at hbad
      cases hbad
    rcases hconf : m.conflictingTxids B tx with _ | ⟨a,_ | ⟨b,l⟩⟩
    · simp only [hconf,hbad,Bool.false_eq_true,if_false] at hr
      split at hr
      · cases hr
      · exact hinvalid m hr
    · simp only [hconf,hbad,Bool.false_eq_true,if_false] at hr
      split at hr
      · cases hr
      · split at hr
        · simp only [Option.some.injEq,Prod.mk.injEq,Except.ok.injEq] at hr
          exact hrej _ hr.2.symm
        · exact hinvalid m hr
    · simp only [hconf,Option.some.injEq,Prod.mk.injEq,Except.ok.injEq] at hr
      exact hrej _ hr.2.symm

/-- An accepted submission: the transaction was known, or it was taken in and the towers reacted. -/
theorem Mempool.accepted_cases {depth : ℕ} {r : ValidationResult} (hc : m.Consistent B)
    (h : m.admitTx B (Tower.observe B) U depth tx = some (m',.ok r)) (hok : r.ok = true) :
    (∃ e, m.entries.get? (B.txHash tx) = some e ∧ m' = m) ∨
    ∃ m₁, Mempool.Taken B U m tx m₁ ∧ MempoolSteps B U (Held B (registries m)) m₁ m' := by
  cases depth with
  | zero => cases h
  | succ depth =>
    cases admit_spec U depth hc tx with
    | inl hrefused =>
      obtain ⟨href,r',_,hr'⟩ := hrefused
      obtain ⟨e,he⟩ := href.answer hc h hok
      rw [hr'] at h
      cases h
      exact .inl ⟨e,he,rfl⟩
    | inr htaken =>
      obtain ⟨m₁,event,htaken,_,hresult⟩ := htaken
      rw [h] at hresult
      obtain ⟨m₂,hn,hpair⟩ := Option.map_eq_some_iff.mp hresult.symm
      cases hpair
      have hregs : registries m₁ = registries m := by rw [registries,registries,htaken.observers]
      have hsubmit : StepwiseSubmit B U (Held B (registries m))
          (Mempool.admitTx B (Tower.observe B) U depth) := admit_steps depth
      exact .inr ⟨m₁,htaken,notifyFrom_steps hsubmit _ 0 (htaken.consistent hc)
        (fun t ht => by rwa [hregs] at ht) hn⟩

/-- An accepted transaction waits in the mempool, or one that took its place does. -/
theorem Mempool.accepted_heir {depth : ℕ} {r : ValidationResult} (hc : m.Consistent B)
    (hknown : ∀ t ∈ m.allTxs, B.txHash t = B.txHash tx → t = tx)
    (h : m.admitTx B (Tower.observe B) U depth tx = some (m',.ok r)) (hok : r.ok = true) :
    ∃ heir ∈ m'.waiting, ReflTransGen Displaces tx heir := by
  rcases Mempool.accepted_cases hc h hok with ⟨e,he,rfl⟩ | ⟨m₁,htaken,hsteps⟩
  · have hmem : e.tx ∈ m'.allTxs := Mempool.mem_allTxs.mpr ⟨_,e,he,rfl⟩
    obtain rfl := hknown e.tx hmem (hc.keyed _ e he)
    exact ⟨e.tx,hmem,.refl⟩
  · obtain ⟨f,hf,hftx⟩ := htaken.entry
    exact hsteps.handed (htaken.consistent hc) tx (Mempool.mem_allTxs.mpr ⟨_,f,hf,hftx⟩)

end Mempool

section Call
variable {B : Bitcoinx} {T M : Set Tx} {R : Set Bytes} {n : EmbeddedNode} {depth : ℕ}

/-- A block with the mempool in it leaves nothing waiting. -/
theorem Mempool.Consistent.drained {m : Mempool Tower} (hc : m.Consistent B) (coinbase : Tx) :
    (m.dropAll ((coinbase :: m.allTxs).tail.map B.txHash)).allTxs = [] := by
  refine List.eq_nil_iff_forall_not_mem.mpr fun t ht => ?_
  obtain ⟨hold,hnot⟩ := hc.kept ht
  exact hnot (List.mem_map_of_mem hold)

/-- Every call hands on what waits in the mempool: to what waits after it, or to the mined block. -/
theorem Mining.handed (h : Mining B T R M n) {c : NodeCall} (hc : MiningCall B T R n c) :
    Handed Displaces n.mempool.waiting
      ((n.call B depth c).1.mempool.waiting ∪ minedSet (n.call B depth c).2) := by
  have hsame : ∀ S : Set Tx, Handed Displaces n.mempool.waiting (n.mempool.waiting ∪ S) := fun S =>
    .of_subset Set.subset_union_left
  cases c with
  | submitTx tx =>
    rcases n.submitTx_cases B depth tx with hcall | ⟨m,r,hm,hcall⟩
    · rw [hcall]
      exact hsame _
    · rw [hcall]
      have hsteps : MempoolSteps B n.utxos (· ∈ T) n.mempool m := admit_steps depth _ _ _ _
        h.consistent (hc tx (.inl rfl)) (fun s hs => hc s (.inr hs)) hm
      exact (hsteps.handed h.consistent).mono Set.subset_union_left
  | generateBlock script incl extra timestamp =>
    rcases n.generateBlock_cases B depth script incl extra timestamp with
      ⟨e,_,hcall⟩ | ⟨raw,txs,ha,⟨hs,e,_,hcall⟩ | ⟨hs,hd,_,⟨e,_,hcall⟩ | ⟨rawBlock,_,hcall⟩⟩⟩ <;>
      rw [hcall]
    · exact hsame _
    · exact hsame _
    · exact hsame _
    · obtain ⟨_,_,_,_,rfl,_⟩ := n.assembleBlock_txs B ha
      cases incl with
      | true => exact .of_subset fun t ht => .inr (List.mem_cons_of_mem _ ht)
      | false => exact hsame _
  | acceptBlock raw txs => exact hc.elim

/-- How often a transaction is there, in the blocks mined so far and in the mempool. -/
def places (L : List Tx) (n : EmbeddedNode) (t : Tx) : ℕ := L.count t + n.mempool.allTxs.count t

/-- A transaction that pays something is in one place: it waits once, or it was mined once. -/
theorem Mining.places_le {L : List Tx} (h : Mining B T R {t | t ∈ L} n) {t : Tx} (hrich : t.Rich)
    (hmined : L.count t ≤ 1) : places L n t ≤ 1 := by
  have honce : n.mempool.allTxs.count t ≤ 1 := by
    refine List.nodup_iff_count_le_one.mp (h.consistent.allTxs_apart.imp fun hst he => ?_) t
    subst he
    exact hst.2 rfl
  by_cases hL : t ∈ L
  · have hout : t ∉ n.mempool.allTxs := by
      intro hwait
      have hok := (h.entries t hwait).2
      rcases h.sealed t hL hrich with ⟨hcb,_⟩ | ⟨_,o,ho,hgone,_⟩
      · rw [(validateTx_ok_iff.mp hok).1] at hcb
        cases hcb
      · obtain ⟨e,he⟩ := validateTx_present hok o ho
        rw [hgone] at he
        cases he
    rw [places,List.count_eq_zero_of_not_mem hout]
    exact hmined
  · rw [places,List.count_eq_zero_of_not_mem hL,Nat.zero_add]
    exact honce

/-- Every call mines a transaction of value at most once, and none that was mined before. -/
theorem Mining.mined_once {L : List Tx} (h : Mining B T R {t | t ∈ L} n)
    (hcb : ∀ value script height extra, B.isCoinbase (makeCoinbase value script height extra) = true)
    {t : Tx} (hrich : t.Rich) (hmined : L.count t ≤ 1) {c : NodeCall} (hc : MiningCall B T R n c) :
    (L ++ minedTxs (n.call B depth c).2).count t ≤ 1 := by
  have hsame : ∀ a, minedTxs a = [] → (L ++ minedTxs a).count t ≤ 1 := fun a ha => by
    rwa [ha,List.append_nil]
  cases c with
  | submitTx tx =>
    rcases n.submitTx_cases B depth tx with hcall | ⟨m,r,_,hcall⟩ <;> rw [hcall] <;> exact hsame _ rfl
  | generateBlock script incl extra timestamp =>
    rcases n.generateBlock_cases B depth script incl extra timestamp with
      ⟨e,_,hcall⟩ | ⟨raw,txs,ha,⟨hs,e,_,hcall⟩ | ⟨hs,hd,_,⟨e,_,hcall⟩ | ⟨rawBlock,_,hcall⟩⟩⟩ <;>
      rw [hcall]
    · exact hsame _ rfl
    · exact hsame _ rfl
    · exact hsame _ rfl
    · obtain ⟨coinbase,rfl,hasm⟩ := h.assembled hcb ha (hc raw txs ha).2.2
      have hnodup : (coinbase :: (if incl then n.mempool.allTxs else [])).Nodup := by
        refine List.nodup_cons.mpr ⟨fun hin => ?_,hasm.apart.imp fun hst he => ?_⟩
        · have hnot := hasm.notCoinbase coinbase hin
          rw [hasm.isCoinbase] at hnot
          cases hnot
        · subst he
          exact hst.2 rfl
      change (L ++ coinbase :: _).count t ≤ 1
      rw [List.count_append]
      by_cases hL : t ∈ L
      · rw [List.count_eq_zero_of_not_mem (hasm.new (h.sealed t hL hrich))]
        exact hmined
      · rw [List.count_eq_zero_of_not_mem hL,Nat.zero_add]
        exact List.nodup_iff_count_le_one.mp hnodup t
  | acceptBlock raw txs => exact hc.elim

end Call

/-- The transaction that a call submits. -/
def Submits (B : Bitcoinx) (n : EmbeddedNode) : RaceCall → Tx → Prop
  | .node c, tx => c = .submitTx tx
  | .forfeit place channelId offender, tx => ∃ t record, n.mempool.observers[place]? = some t ∧
      t.registry.get channelId = some record ∧ record.forfeitTxFor B offender = .ok tx

/-- The answer to an accepted submission. -/
def NodeAnswer.taken : NodeAnswer → Bool
  | .admission (.ok r) => r.ok
  | _ => false

instance (t : Tx) : Decidable t.Rich := by unfold Tx.Rich; infer_instance

section Run
variable {B : Bitcoinx} {T M : Set Tx} {R : Set Bytes} {n : EmbeddedNode} {depth : ℕ}

variable (depth) in
theorem Mining.submit_heir (h : Mining B T R M n) (hinj : Set.InjOn B.txHash T) {tx : Tx}
    (hc : MiningCall B T R n (.submitTx tx))
    (hacc : (n.call B depth (.submitTx tx)).2.taken = true) :
    ∃ heir ∈ (n.call B depth (.submitTx tx)).1.mempool.waiting, ReflTransGen Displaces tx heir := by
  rcases n.submitTx_cases B depth tx with hcall | ⟨m,r,hm,hcall⟩
  · rw [hcall] at hacc
    cases hacc
  · rw [hcall] at hacc ⊢
    cases r with
    | error e => cases hacc
    | ok r =>
      exact Mempool.accepted_heir h.consistent
        (fun t ht he => hinj (h.entries t ht).1 (hc tx (.inl rfl)) he) hm hacc

/-- A tower's call for a forfeiture is a submission of the recorded transaction, which is counted when
it is accepted. -/
theorem raceCall_forfeit {place : ℕ} {channelId : Bytes} {offender : ℤ} {t : Tower} {record : WatchRecord}
    {tx : Tx} (ht : n.mempool.observers[place]? = some t) (hr : t.registry.get channelId = some record)
    (hf : record.forfeitTxFor B offender = .ok tx) :
    n.raceCall B depth (.forfeit place channelId offender) =
      (if (n.call B depth (.submitTx tx)).2.taken = true then
        (n.call B depth (.submitTx tx)).1.countForfeit place else (n.call B depth (.submitTx tx)).1,
        (n.call B depth (.submitTx tx)).2) := by
  simp only [EmbeddedNode.raceCall,EmbeddedNode.forfeitOffenderBond,ht,hr,hf]
  cases hs : n.submitTx B depth tx with
  | none =>
    have hcall : n.call B depth (.submitTx tx) = (n,.tooDeep) := by simp only [EmbeddedNode.call,hs]
    rw [hcall]
    rfl
  | some p =>
    obtain ⟨n',res⟩ := p
    have hcall : n.call B depth (.submitTx tx) = (n',.admission res) := by simp only [EmbeddedNode.call,hs]
    rw [hcall]
    cases res with
    | error e => rfl
    | ok res => rfl

/-- A tower submits the recorded transaction, or nothing happens. -/
theorem forfeit_submits (place : ℕ) (channelId : Bytes) (offender : ℤ) :
    (∃ a, a.taken = false ∧ n.raceCall B depth (.forfeit place channelId offender) = (n,a)) ∨
    ∃ tx, Submits B n (.forfeit place channelId offender) tx := by
  simp only [Submits,EmbeddedNode.raceCall]
  cases ht : n.mempool.observers[place]? with
  | none => exact .inl ⟨_,rfl,rfl⟩
  | some t =>
    simp only [EmbeddedNode.forfeitOffenderBond]
    cases hr : t.registry.get channelId with
    | none => exact .inl ⟨_,rfl,rfl⟩
    | some record =>
      cases hf : record.forfeitTxFor B offender with
      | error e => exact .inl ⟨.admission (.error e),rfl,by simp only [hf]⟩
      | ok tx => exact .inr ⟨tx,t,record,rfl,hr,hf⟩

theorem Submits.allowed {c : RaceCall} {tx : Tx} (hsub : Submits B n c tx) (hc : RaceAllowed B T R n c) :
    MiningCall B T R n (.submitTx tx) := by
  cases c with
  | node c =>
    obtain rfl : c = .submitTx tx := hsub
    exact hc
  | forfeit place channelId offender =>
    obtain ⟨t,record,ht,hr,hf⟩ := hsub
    exact hc t record tx ht hr hf

/-- An accepted submission, of a client or of a tower, is an accepted call of `submit_tx`. -/
theorem Submits.accepted {c : RaceCall} {tx : Tx} (hsub : Submits B n c tx)
    (hacc : (n.raceCall B depth c).2.taken = true) :
    (n.call B depth (.submitTx tx)).2.taken = true ∧
      (n.raceCall B depth c).1.mempool.allTxs = (n.call B depth (.submitTx tx)).1.mempool.allTxs := by
  cases c with
  | node c =>
    obtain rfl : c = .submitTx tx := hsub
    exact ⟨hacc,rfl⟩
  | forfeit place channelId offender =>
    obtain ⟨t,record,ht,hr,hf⟩ := hsub
    rw [raceCall_forfeit ht hr hf] at hacc ⊢
    refine ⟨hacc,?_⟩
    split_ifs <;> rfl

/-- An accepted submission, of a client or of a tower, waits after the call or has an heir there. -/
theorem Mining.race_heir (h : Mining B T R M n) (hinj : Set.InjOn B.txHash T) {c : RaceCall}
    (hc : RaceAllowed B T R n c) {tx : Tx} (hsub : Submits B n c tx)
    (hacc : (n.raceCall B depth c).2.taken = true) :
    ∃ heir ∈ (n.raceCall B depth c).1.mempool.waiting, ReflTransGen Displaces tx heir := by
  obtain ⟨htaken,hsame⟩ := hsub.accepted hacc
  obtain ⟨heir,hin,hlink⟩ := h.submit_heir depth hinj (hsub.allowed hc) htaken
  rw [Mempool.waiting,← hsame] at hin
  exact ⟨heir,hin,hlink⟩

theorem Mining.race_handed (h : Mining B T R M n) {c : RaceCall} (hc : RaceAllowed B T R n c) :
    Handed Displaces n.mempool.waiting
      ((n.raceCall B depth c).1.mempool.waiting ∪ minedSet (n.raceCall B depth c).2) :=
  raceCall_rule depth (P := fun n' L => Handed Displaces n.mempool.waiting
    (n'.mempool.waiting ∪ {t | t ∈ L})) hc (.of_subset Set.subset_union_left)
    (fun _ hd => h.handed hd) fun _ _ _ hL => hL

theorem carried_minedSet (past : List (EmbeddedNode × RaceCall × NodeAnswer)) :
    carried minedSet past = {t | t ∈ minedIn past} := by
  ext t
  simp [carried,minedSet,minedIn]

section Once
variable {reward : ℤ} {towers : List Tower} (hinj : Set.InjOn B.txHash T)
  (hhash : Set.InjOn (headerHash B) R)
  (hcb : ∀ value script height extra, B.isCoinbase (makeCoinbase value script height extra) = true)
  (hR : (EmbeddedNode.init B reward towers).genesis ∈ R) {calls : List RaceCall}
  (hc : Along (EmbeddedNode.raceCall B depth) (RaceAllowed B T R)
    (EmbeddedNode.init B reward towers) calls)

include hinj hhash hcb hR hc

/-- After every run the list of what was mined has a transaction that pays something at most once. -/
theorem once_run :
    Mining B T R {t | t ∈ minedIn (trace (EmbeddedNode.raceCall B depth)
        (EmbeddedNode.init B reward towers) calls)}
      (run (EmbeddedNode.raceCall B depth) (EmbeddedNode.init B reward towers) calls) ∧
    ∀ t : Tx, t.Rich → (minedIn (trace (EmbeddedNode.raceCall B depth)
      (EmbeddedNode.init B reward towers) calls)).count t ≤ 1 := by
  have hstart : Mining B T R {t | t ∈ minedIn ([] : List (EmbeddedNode × RaceCall × NodeAnswer))}
        (EmbeddedNode.init B reward towers) ∧ ∀ t : Tx, t.Rich →
      (minedIn ([] : List (EmbeddedNode × RaceCall × NodeAnswer))).count t ≤ 1 :=
    ⟨mining_start hR,fun t _ => Nat.zero_le 1⟩
  refine history_invariant (I := fun past n => Mining B T R {t | t ∈ minedIn past} n ∧
    ∀ t : Tx, t.Rich → (minedIn past).count t ≤ 1) ?_ hstart hc
  rintro past n c ⟨hM,honce⟩ hrc
  rw [minedIn_concat]
  refine ⟨hM.raceCall_list depth hinj hhash hcb hrc,fun t hrich => ?_⟩
  refine raceCall_rule depth (P := fun _ L => (minedIn past ++ L).count t ≤ 1) hrc ?_
    (fun _ hd => hM.mined_once hcb hrich (honce t hrich) hd) fun _ _ _ hL => hL
  rw [List.append_nil]
  exact honce t hrich

end Once

/-- What becomes of the submissions of a run. Every accepted one still waits, or was mined, or has
an heir that waits or was mined; a transaction that pays something is in one place only; and a
block that takes the mempool in takes all of it. -/
theorem submission_fate {reward : ℤ} {towers : List Tower} (hinj : Set.InjOn B.txHash T)
    (hhash : Set.InjOn (headerHash B) R)
    (hcb : ∀ value script height extra, B.isCoinbase (makeCoinbase value script height extra) = true)
    (hR : (EmbeddedNode.init B reward towers).genesis ∈ R) {calls : List RaceCall}
    (hc : Along (EmbeddedNode.raceCall B depth) (RaceAllowed B T R)
      (EmbeddedNode.init B reward towers) calls) :
    (∀ before c after tx, calls = before ++ c :: after →
      Submits B (run (EmbeddedNode.raceCall B depth) (EmbeddedNode.init B reward towers) before) c tx →
      ((run (EmbeddedNode.raceCall B depth) (EmbeddedNode.init B reward towers) before).raceCall B
        depth c).2.taken = true →
      ∃ heir, ReflTransGen Displaces tx heir ∧
        (heir ∈ (run (EmbeddedNode.raceCall B depth) (EmbeddedNode.init B reward towers)
          calls).mempool.allTxs ∨
        heir ∈ minedIn (trace (EmbeddedNode.raceCall B depth) (run (EmbeddedNode.raceCall B depth)
          (EmbeddedNode.init B reward towers) before) (c :: after)))) ∧
    (∀ t : Tx, t.Rich →
      places (minedIn (trace (EmbeddedNode.raceCall B depth) (EmbeddedNode.init B reward towers) calls))
        (run (EmbeddedNode.raceCall B depth) (EmbeddedNode.init B reward towers) calls) t ≤ 1) ∧
    ∀ n script extra timestamp hash txs,
      (n,RaceCall.node (.generateBlock script true extra timestamp),NodeAnswer.mined (.ok (hash,txs))) ∈
        trace (EmbeddedNode.raceCall B depth) (EmbeddedNode.init B reward towers) calls →
      (∀ t ∈ n.mempool.allTxs, t ∈ txs) ∧
        (n.call B depth (.generateBlock script true extra timestamp)).1.mempool.allTxs = [] := by
  have keep : ∀ n c, (∃ M, Mining B T R M n) → RaceAllowed B T R n c →
      ∃ M, Mining B T R M (n.raceCall B depth c).1 :=
    fun n c ⟨M,hM⟩ hrc => ⟨_,hM.raceCall depth hinj hhash hcb hrc⟩
  refine ⟨?_,?_,?_⟩
  · rintro before c after tx rfl hsub hacc
    obtain ⟨hbefore,hcall,hafter⟩ := (along_append _ _ _ _ _).mp hc
    obtain ⟨M,hM⟩ := run_invariant keep ⟨∅,mining_init hR⟩ hbefore
    obtain ⟨heir,hin,hlink⟩ := hM.race_heir hinj hcall hsub hacc
    obtain ⟨last,hlast,hlink'⟩ := handed_run (fun n => n.mempool.waiting) minedSet keep
      (fun n c ⟨M,hM⟩ hrc => hM.race_handed hrc) (keep _ c ⟨M,hM⟩ hcall) hafter heir hin
    rw [carried_minedSet] at hlast
    refine ⟨last,hlink.trans hlink',?_⟩
    rw [run_append]
    exact hlast.imp id fun hmined => List.mem_append_right _ hmined
  · intro t hrich
    obtain ⟨hM,honce⟩ := once_run hinj hhash hcb hR hc
    exact hM.places_le hrich (honce t hrich)
  · intro n script extra timestamp hash txs hmem
    obtain ⟨⟨M,hM⟩,hcall,hans⟩ := trace_invariant keep ⟨∅,mining_init hR⟩ hc hmem
    simp only [EmbeddedNode.raceCall] at hans
    rcases n.generateBlock_cases B depth script true extra timestamp with
      ⟨e,_,he⟩ | ⟨raw,txs',ha,⟨hs,e,_,he⟩ | ⟨hs,hd,_,⟨e,_,he⟩ | ⟨rawBlock,_,he⟩⟩⟩ <;>
      rw [he] at hans <;> cases hans
    obtain ⟨_,_,_,_,rfl,_⟩ := n.assembleBlock_txs B ha
    refine ⟨fun t ht => List.mem_cons_of_mem _ ht,?_⟩
    rw [he]
    exact hM.consistent.drained _

end Run

namespace Reference

/-- A submission or a block on a node without towers that the run allows. -/
def QuietCall (T : List Tx) (R : List Bytes) (n : EmbeddedNode) : RaceCall → Prop
  | .node (.submitTx tx) => n.mempool.observers.isEmpty = true ∧ tx ∈ T
  | .node (.generateBlock script incl extra timestamp) => MiningCall (reference anyone) {t | t ∈ T}
      {raw | raw ∈ R} n (.generateBlock script incl extra timestamp)
  | _ => False

instance (T : List Tx) (R : List Bytes) (n : EmbeddedNode) : (c : RaceCall) → Decidable (QuietCall T R n c)
  | .node (.submitTx _) => inferInstanceAs (Decidable (_ ∧ _))
  | .node (.generateBlock script incl extra timestamp) => inferInstanceAs (Decidable (MiningCall
      (reference anyone) {t | t ∈ T} {raw | raw ∈ R} n (.generateBlock script incl extra timestamp)))
  | .node (.acceptBlock _ _) => isFalse id
  | .forfeit _ _ _ => isFalse id

theorem QuietCall.allowed {T : List Tx} {R : List Bytes} {n : EmbeddedNode} {c : RaceCall}
    (h : QuietCall T R n c) : RaceAllowed (reference anyone) {t | t ∈ T} {raw | raw ∈ R} n c := by
  cases c with
  | node c =>
    cases c with
    | submitTx tx =>
      intro t ht
      rw [ht.eq h.1]
      exact h.2
    | generateBlock script incl extra timestamp => exact h
    | acceptBlock raw txs => exact h.elim
  | forfeit place channelId offender => exact h.elim

/-- What the checks on a sample run have to show. -/
def SampleRun (T : List Tx) (R : List Bytes) (calls : List RaceCall) : Prop :=
  (∀ a ∈ T, ∀ b ∈ T, (reference anyone).txHash a = (reference anyone).txHash b → a = b) ∧
  (∀ a ∈ R, ∀ b ∈ R, headerHash (reference anyone) a = headerHash (reference anyone) b → a = b) ∧
  (sampleNode anyone []).genesis ∈ R ∧ (∀ t ∈ T, t.Sequenced) ∧
  Along (EmbeddedNode.raceCall (reference anyone) 1) (QuietCall T R) (sampleNode anyone []) calls

instance (T : List Tx) (R : List Bytes) (calls : List RaceCall) : Decidable (SampleRun T R calls) :=
  inferInstanceAs (Decidable (_ ∧ _))

section SampleRun
variable {T : List Tx} {R : List Bytes} {calls : List RaceCall} (h : SampleRun T R calls)

include h

theorem SampleRun.txids : Set.InjOn (reference anyone).txHash {t | t ∈ T} := injOn_list h.1
theorem SampleRun.headers : Set.InjOn (headerHash (reference anyone)) {raw | raw ∈ R} := injOn_list h.2.1
theorem SampleRun.start : (sampleNode anyone []).genesis ∈ {raw | raw ∈ R} := h.2.2.1
theorem SampleRun.sequenced : ∀ t ∈ {t | t ∈ T}, t.Sequenced := h.2.2.2.1

theorem SampleRun.allowed : Along (EmbeddedNode.raceCall (reference anyone) (0+1))
    (RaceAllowed (reference anyone) {t | t ∈ T} {raw | raw ∈ R}) (sampleNode anyone []) calls :=
  h.2.2.2.2.imp fun _ _ hq => hq.allowed

end SampleRun

/-- All that is needed of the sample race is evaluated at once. -/
theorem race_facts : SampleRun raceTxs raceHeaders (raceStart ++ raceEnd) ∧
    ((raceRun (raceStart.take 3)).raceCall (reference anyone) 1
      (.node (.submitTx sampleForfeit))).2.taken = true ∧ sampleForfeit.Rich := by
  decide +kernel

end Reference

open Reference in
/-- The forfeiture of the sample race is mined, and it is nowhere else. -/
theorem submission_fate_sample :
    (∃ heir, ReflTransGen Displaces sampleForfeit heir ∧
      (heir ∈ (raceRun (raceStart ++ raceEnd)).mempool.allTxs ∨
      heir ∈ minedIn (trace (EmbeddedNode.raceCall (reference anyone) 1) (raceRun (raceStart.take 3))
        (.node (.submitTx sampleForfeit) :: raceEnd)))) ∧
    places (minedIn (trace (EmbeddedNode.raceCall (reference anyone) 1) (sampleNode anyone [])
      (raceStart ++ raceEnd))) (raceRun (raceStart ++ raceEnd)) sampleForfeit ≤ 1 := by
  obtain ⟨hrun,htaken,hrich⟩ := race_facts
  obtain ⟨hfate,honce,_⟩ := submission_fate hrun.txids hrun.headers (isCoinbase_makeCoinbase _)
    hrun.start hrun.allowed
  exact ⟨hfate (raceStart.take 3) (.node (.submitTx sampleForfeit)) raceEnd _ rfl rfl htaken,honce _ hrich⟩

end SubsatChannel
