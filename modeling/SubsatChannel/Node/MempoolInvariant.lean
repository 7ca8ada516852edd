import SubsatChannel.Node.Mempool

/-! The two tables of a mempool agree, and what one admission can do to them. -/
namespace SubsatChannel

section Sequences

theorem lookup_seqsFrom (ins : List TxInput) (d : Finmap fun _ : Outpoint => ℕ) (o : Outpoint) :
    (∃ tin ∈ ins, tin.outpoint = o ∧
      (ins.foldl (fun d tin => d.insert tin.outpoint tin.sequence) d).lookup o = some tin.sequence) ∨
    ((∀ tin ∈ ins, tin.outpoint ≠ o) ∧
      (ins.foldl (fun d tin => d.insert tin.outpoint tin.sequence) d).lookup o = d.lookup o) := by
  induction ins generalizing d with
  | nil => exact .inr ⟨by simp,rfl⟩
  | cons tin ins ih =>
    rw [List.foldl_cons]
    rcases ih (d.insert tin.outpoint tin.sequence) with ⟨t,ht,ho,hl⟩ | ⟨hne,hl⟩
    · exact .inl ⟨t,by simp [ht],ho,hl⟩
    · by_cases ho : tin.outpoint = o
      · subst ho
        exact .inl ⟨tin,by simp,rfl,by rw [hl,Finmap.lookup_insert]⟩
      · refine .inr ⟨by simpa [ho] using hne,?_⟩
        rw [hl,Finmap.lookup_insert_of_ne _ (Ne.symm ho)]

/-- The recorded sequence number of an outpoint is that of an input that lists it. -/
theorem lookup_seqsByOutpoint {tx : Tx} {o : Outpoint} {q : ℕ}
    (h : (seqsByOutpoint tx).lookup o = some q) :
    ∃ tin ∈ tx.inputs, tin.outpoint = o ∧ tin.sequence = q := by
  rcases lookup_seqsFrom tx.inputs ∅ o with ⟨tin,ht,ho,hl⟩ | ⟨_,hl⟩
  · refine ⟨tin,ht,ho,?_⟩
    rw [seqsByOutpoint,hl] at h
    exact Option.some.inj h
  · rw [seqsByOutpoint,hl] at h
    simp at h

theorem lookup_seqsByOutpoint_of_mem {tx : Tx} {o : Outpoint} (h : o ∈ tx.outpoints) :
    ∃ q, (seqsByOutpoint tx).lookup o = some q := by
  obtain ⟨tin,ht,rfl⟩ := List.mem_map.mp h
  rcases lookup_seqsFrom tx.inputs ∅ tin.outpoint with ⟨t,_,_,hl⟩ | ⟨hne,_⟩
  · exact ⟨_,hl⟩
  · exact absurd rfl (hne tin ht)

theorem outpoint_of_lookup {tx : Tx} {o : Outpoint} {q : ℕ}
    (h : (seqsByOutpoint tx).lookup o = some q) : o ∈ tx.outpoints := by
  obtain ⟨tin,ht,rfl,_⟩ := lookup_seqsByOutpoint h
  exact List.mem_map_of_mem ht

/-- Without a violation every input raises the sequence number recorded for its outpoint. -/
theorem lt_of_seqViolation_none {seqs : Finmap fun _ : Outpoint => ℕ} {tx : Tx}
    (h : seqViolation seqs tx = none) {tin : TxInput} (ht : tin ∈ tx.inputs) {q : ℕ}
    (hq : seqs.lookup tin.outpoint = some q) : q < tin.sequence := by
  have hn := List.findSome?_eq_none_iff.mp h tin ht
  simpa [hq] using hn

/-- The first violation is at an input that does not raise the number recorded for its outpoint. -/
theorem of_seqViolation_some {seqs : Finmap fun _ : Outpoint => ℕ} {tx : Tx} {tin : TxInput}
    {q : ℕ} (h : seqViolation seqs tx = some (tin,q)) :
    tin ∈ tx.inputs ∧ seqs.lookup tin.outpoint = some q ∧ tin.sequence ≤ q := by
  obtain ⟨a,ha,hv⟩ := List.exists_of_findSome?_eq_some h
  obtain ⟨old,hold,hif⟩ := Option.bind_eq_some_iff.mp hv
  split_ifs at hif with hle
  cases hif
  exact ⟨ha,hold,hle⟩

end Sequences

namespace Mempool
variable {ω : Type}

/-- Entries stand under their txid, and an outpoint is held by exactly the entry that spends it. -/
structure Consistent (B : Bitcoinx) (m : Mempool ω) : Prop where
  keyed : ∀ txid e, m.entries.get? txid = some e → B.txHash e.tx = txid
  held : ∀ o txid, m.spentBy.lookup o = some txid ↔
    ∃ e, m.entries.get? txid = some e ∧ o ∈ e.tx.outpoints

theorem consistent_fresh (B : Bitcoinx) (observers : List ω) : (fresh observers).Consistent B where
  keyed := by simp [fresh]
  held := by simp [fresh]

theorem mem_allTxs {m : Mempool ω} {tx : Tx} :
    tx ∈ m.allTxs ↔ ∃ txid e, m.entries.get? txid = some e ∧ e.tx = tx := by
  simp only [allTxs,List.mem_map,Dict.mem_values_iff]
  constructor
  · rintro ⟨e,⟨txid,he⟩,rfl⟩; exact ⟨txid,e,he,rfl⟩
  · rintro ⟨txid,e,he,rfl⟩; exact ⟨e,⟨txid,he⟩,rfl⟩

theorem lookup_spentBy_insert (B : Bitcoinx) (m : Mempool ω) (tx : Tx) (r : ValidationResult)
    (o : Outpoint) : (m.insert B tx r).spentBy.lookup o =
      if o ∈ tx.outpoints then some (B.txHash tx) else m.spentBy.lookup o := by
  simp only [insert]
  convert Finmap.lookup_foldl_insert m.spentBy (B.txHash tx) tx.outpoints o

theorem lookup_spentBy_remove (m : Mempool ω) (txid : Bytes) (e : MempoolEntry) (o : Outpoint) :
    (m.remove txid e).spentBy.lookup o =
      if o ∈ e.tx.outpoints ∧ m.spentBy.lookup o = some txid then none else m.spentBy.lookup o := by
  simp only [remove]
  convert Finmap.lookup_foldl_erase_if m.spentBy txid e.tx.outpoints o

theorem get?_insert (B : Bitcoinx) (m : Mempool ω) (tx : Tx) (r : ValidationResult) (txid : Bytes) :
    (m.insert B tx r).entries.get? txid =
      if B.txHash tx = txid then some ⟨tx,r.fee,tx.inputs.map TxInput.sequence⟩
      else m.entries.get? txid :=
  Dict.get?_set _ _ _ _

theorem get?_remove (m : Mempool ω) (txid : Bytes) (e : MempoolEntry) (other : Bytes) :
    (m.remove txid e).entries.get? other = if txid = other then none else m.entries.get? other :=
  Dict.get?_erase _ _ _

@[simp] theorem observers_insert (B : Bitcoinx) (m : Mempool ω) (tx : Tx) (r : ValidationResult) :
    (m.insert B tx r).observers = m.observers := rfl
@[simp] theorem observers_remove (m : Mempool ω) (txid : Bytes) (e : MempoolEntry) :
    (m.remove txid e).observers = m.observers := rfl

variable {B : Bitcoinx} {m : Mempool ω}

/-- Two entries of a consistent mempool that spend one outpoint are the same entry. -/
theorem Consistent.spender_unique (hc : m.Consistent B) {s t : Bytes} {e f : MempoolEntry}
    {o : Outpoint} (he : m.entries.get? s = some e) (hf : m.entries.get? t = some f)
    (heo : o ∈ e.tx.outpoints) (hfo : o ∈ f.tx.outpoints) : s = t ∧ e = f := by
  have hs := (hc.held o s).mpr ⟨e,he,heo⟩
  have ht := (hc.held o t).mpr ⟨f,hf,hfo⟩
  have hst : s = t := by rw [hs] at ht; exact Option.some.inj ht
  subst hst
  rw [he] at hf
  exact ⟨rfl,Option.some.inj hf⟩

/-- Distinct transactions of a consistent mempool have distinct txids and share no outpoint. -/
theorem Consistent.allTxs_apart (hc : m.Consistent B) : m.allTxs.Pairwise fun s t =>
    (∀ o ∈ s.outpoints, o ∉ t.outpoints) ∧ B.txHash s ≠ B.txHash t := by
  rw [allTxs,List.pairwise_map]
  refine Dict.values_pairwise fun j k e f hne he hf => ⟨fun o ho ho' => ?_,?_⟩
  · exact hne (hc.spender_unique he hf ho ho').1
  · rw [hc.keyed j e he,hc.keyed k f hf]
    exact hne

theorem Consistent.insert (hc : m.Consistent B) {tx : Tx} (r : ValidationResult)
    (hn : m.entries.get? (B.txHash tx) = none)
    (hfree : ∀ o ∈ tx.outpoints, m.spentBy.lookup o = none) : (m.insert B tx r).Consistent B where
  keyed txid e he := by
    rw [get?_insert] at he
    split_ifs at he with h
    · cases he; exact h
    · exact hc.keyed txid e he
  held o txid := by
    rw [lookup_spentBy_insert]
    simp only [get?_insert]
    by_cases ho : o ∈ tx.outpoints
    · rw [if_pos ho]
      constructor
      · intro h
        cases h
        exact ⟨_,if_pos rfl,ho⟩
      · rintro ⟨e,he,heo⟩
        split_ifs at he with h
        · rw [h]
        · have hx := (hc.held o txid).mpr ⟨e,he,heo⟩
          rw [hfree o ho] at hx
          cases hx
    · rw [if_neg ho,hc.held]
      constructor
      · rintro ⟨e,he,heo⟩
        have hne : B.txHash tx ≠ txid := by
          rintro rfl
          rw [hn] at he
          cases he
        exact ⟨e,by rw [if_neg hne]; exact he,heo⟩
      · rintro ⟨e,he,heo⟩
        split_ifs at he with h
        · cases he; exact absurd heo ho
        · exact ⟨e,he,heo⟩

theorem Consistent.remove (hc : m.Consistent B) {txid : Bytes} {e : MempoolEntry}
    (he : m.entries.get? txid = some e) : (m.remove txid e).Consistent B where
  keyed other f hf := by
    rw [get?_remove] at hf
    split_ifs at hf
    exact hc.keyed other f hf
  held o other := by
    rw [lookup_spentBy_remove]
    simp only [get?_remove]
    by_cases ho : m.spentBy.lookup o = some txid
    · have heo : o ∈ e.tx.outpoints := by
        obtain ⟨f,hf,hfo⟩ := (hc.held o txid).mp ho
        rw [he] at hf
        cases hf
        exact hfo
      rw [if_pos ⟨heo,ho⟩]
      simp only [reduceCtorEq,false_iff]
      rintro ⟨f,hf,hfo⟩
      split_ifs at hf with h
      exact h ((hc.spender_unique he hf heo hfo).1)
    · rw [if_neg (fun h => ho h.2),hc.held]
      constructor
      · rintro ⟨f,hf,hfo⟩
        have hne : txid ≠ other := by
          rintro rfl
          exact ho ((hc.held o txid).mpr ⟨f,hf,hfo⟩)
        exact ⟨f,by rw [if_neg hne]; exact hf,hfo⟩
      · rintro ⟨f,hf,hfo⟩
        split_ifs at hf with h
        exact ⟨f,hf,hfo⟩

theorem mem_conflictingTxids {tx : Tx} {txid : Bytes} : txid ∈ m.conflictingTxids B tx ↔
    txid ≠ B.txHash tx ∧ ∃ o ∈ tx.outpoints, m.spentBy.lookup o = some txid := by
  simp only [conflictingTxids,List.mem_dedup,List.mem_filterMap,Option.filter_eq_some_iff,
    decide_eq_true_eq]
  constructor
  · rintro ⟨o,ho,hl,hne⟩; exact ⟨hne,o,ho,hl⟩
  · rintro ⟨hne,o,ho,hl⟩; exact ⟨o,ho,hl,hne⟩

/-- The holder of an outpoint of a transaction that is not in the mempool is one of its conflicts. -/
theorem Consistent.holder_conflicts (hc : m.Consistent B) {tx : Tx} {o : Outpoint} {txid : Bytes}
    (hn : m.entries.get? (B.txHash tx) = none) (ho : o ∈ tx.outpoints)
    (hl : m.spentBy.lookup o = some txid) : txid ∈ m.conflictingTxids B tx := by
  refine mem_conflictingTxids.mpr ⟨?_,o,ho,hl⟩
  rintro rfl
  obtain ⟨e,he,_⟩ := (hc.held o _).mp hl
  rw [hn] at he
  cases he

/-- The mempool right after `admit` has taken a transaction in, before its observers react. -/
inductive Taken (B : Bitcoinx) (U : UtxoSet) (m : Mempool ω) (tx : Tx) : Mempool ω → Prop
  | plain (hn : m.entries.get? (B.txHash tx) = none)
      (hfree : ∀ o ∈ tx.outpoints, m.spentBy.lookup o = none)
      (hok : (validateTx B tx U).ok = true) : Taken B U m tx (m.insert B tx (validateTx B tx U))
  | replacing (oldTxid : Bytes) (old : MempoolEntry) (hn : m.entries.get? (B.txHash tx) = none)
      (hold : m.entries.get? oldTxid = some old) (hne : oldTxid ≠ B.txHash tx)
      (hconf : ∃ o ∈ tx.outpoints, m.spentBy.lookup o = some oldTxid)
      (honly : ∀ o ∈ tx.outpoints, ∀ t, m.spentBy.lookup o = some t → t = oldTxid)
      (hseq : seqViolation (seqsByOutpoint old.tx) tx = none)
      (hok : (validateTx B tx U).ok = true) :
      Taken B U m tx ((m.remove oldTxid old).insert B tx (validateTx B tx U))

/-- Why `admit` leaves the mempool as it is. -/
inductive Refused (B : Bitcoinx) (U : UtxoSet) (m : Mempool ω) (tx : Tx) : Prop
  | known (e : MempoolEntry) (he : m.entries.get? (B.txHash tx) = some e)
  | conflicts (s t : Bytes) (hst : s ≠ t) (hs : s ∈ m.conflictingTxids B tx)
      (ht : t ∈ m.conflictingTxids B tx)
  | outbid (oldTxid : Bytes) (old : MempoolEntry) (hold : m.entries.get? oldTxid = some old)
      (tin : TxInput) (q : ℕ) (hseq : seqViolation (seqsByOutpoint old.tx) tx = some (tin,q))
  | invalid (hok : (validateTx B tx U).ok = false)

variable {U : UtxoSet} {tx : Tx} {m₁ : Mempool ω}

theorem Taken.validated (h : Taken B U m tx m₁) : (validateTx B tx U).ok = true := by
  cases h with
  | plain _ _ hok => exact hok
  | replacing _ _ _ _ _ _ _ _ hok => exact hok

theorem Taken.new (h : Taken B U m tx m₁) : m.entries.get? (B.txHash tx) = none := by
  cases h with
  | plain hn _ _ => exact hn
  | replacing _ _ hn _ _ _ _ _ _ => exact hn

theorem Taken.observers (h : Taken B U m tx m₁) : m₁.observers = m.observers := by
  cases h <;> simp

theorem Taken.consistent (hc : m.Consistent B) (h : Taken B U m tx m₁) : m₁.Consistent B := by
  cases h with
  | plain hn hfree hok => exact hc.insert _ hn hfree
  | replacing oldTxid old hn hold hne hconf honly hseq hok =>
    refine (hc.remove hold).insert _ ?_ ?_
    · rw [get?_remove,if_neg hne]; exact hn
    · intro o ho
      rw [lookup_spentBy_remove]
      cases hl : m.spentBy.lookup o with
      | none => simp
      | some t =>
        obtain rfl := honly o ho t hl
        obtain ⟨e,he,heo⟩ := (hc.held o t).mp hl
        rw [hold] at he
        cases he
        rw [if_pos ⟨heo,rfl⟩]

/-- The transaction that was taken in has an entry. -/
theorem Taken.entry (h : Taken B U m tx m₁) : ∃ e, m₁.entries.get? (B.txHash tx) = some e ∧ e.tx = tx := by
  cases h <;> exact ⟨_,by rw [get?_insert,if_pos rfl],rfl⟩

/-- Every other entry was there before. -/
theorem Taken.entry_old (h : Taken B U m tx m₁) {txid : Bytes} {e : MempoolEntry}
    (he : m₁.entries.get? txid = some e) : (txid = B.txHash tx ∧ e.tx = tx ∧
      e.fee = (validateTx B tx U).fee) ∨ m.entries.get? txid = some e := by
  cases h with
  | plain hn hfree hok =>
    rw [get?_insert] at he
    split_ifs at he with h
    · cases he; exact .inl ⟨h.symm,rfl,rfl⟩
    · exact .inr he
  | replacing oldTxid old hn hold hne hconf honly hseq hok =>
    rw [get?_insert] at he
    split_ifs at he with h
    · cases he; exact .inl ⟨h.symm,rfl,rfl⟩
    · rw [get?_remove] at he
      split_ifs at he
      exact .inr he

/-- One call of `admit` on a consistent mempool whose observers ignore evictions: either it
changes nothing, or it takes the transaction in and tells the observers. Which of the two
happens does not depend on the answers to nested calls. -/
theorem admitWith_spec {handle : Handler ω}
    (hev : ∀ submit i m tx, handle submit i m .evict tx = some m) (hc : m.Consistent B) :
    (Refused B U m tx ∧ ∃ r, (tx.inputs ≠ [] → ∃ result, r = .ok result) ∧
      ∀ submit, admitWith B handle submit U m tx = some (m,r)) ∨
    ∃ m₁ event, Taken B U m tx m₁ ∧ event ≠ .evict ∧ ∀ submit, admitWith B handle submit U m tx =
      (notify handle submit m₁ event tx).map fun m' => (m',.ok (validateTx B tx U)) := by
  have hquiet : ∀ submit (count i : ℕ) (m : Mempool ω) (t : Tx),
      notifyFrom handle submit .evict t count i m = some m := by
    intro submit count
    induction count with
    | zero => intros; rfl
    | succ count ih =>
      intro i m t
      simp only [notifyFrom,hev]
      exact ih (i+1) m t
  have hins : ∀ submit (m₁ : Mempool ω) event,
      insertAndNotify B handle submit m₁ event tx (validateTx B tx U) =
        (notify handle submit (m₁.insert B tx (validateTx B tx U)) event tx).map
          fun m' => (m',.ok (validateTx B tx U)) := by
    intro submit m₁ event
    unfold insertAndNotify
    cases notify handle submit (m₁.insert B tx (validateTx B tx U)) event tx <;> rfl
  unfold admitWith
  cases hk : m.entries.get? (B.txHash tx) with
  | some e => exact .inl ⟨.known e hk,.ok (.accept "already in mempool"),fun _ => ⟨_,rfl⟩,fun _ => by simp [hk]⟩
  | none =>
    simp only [hk,Option.isSome_none,Bool.false_eq_true,if_false]
    rcases hconf : m.conflictingTxids B tx with _ | ⟨oldTxid,_ | ⟨t,l⟩⟩
    · cases hok : (validateTx B tx U).ok with
      | false =>
        by_cases hne : tx.inputs = []
        · exact .inl ⟨.invalid hok,_,fun h => absurd hne h,fun _ => by simp only [hne,if_true]; rfl⟩
        · exact .inl ⟨.invalid hok,.ok (validateTx B tx U),fun _ => ⟨_,rfl⟩,fun _ => by simp [hne]⟩
      | true =>
        have hne := (validateTx_ok_iff.mp hok).2.2.2.2
        simp only [if_neg hne]
        refine .inr ⟨_,.admitted,.plain hk ?_ hok,by simp,fun submit => hins submit m .admitted⟩
        intro o ho
        cases hl : m.spentBy.lookup o with
        | none => rfl
        | some t =>
          have ht := hc.holder_conflicts hk ho hl
          rw [hconf] at ht
          cases ht
    · have hmem : oldTxid ∈ m.conflictingTxids B tx := by rw [hconf]; simp
      obtain ⟨hne,o,ho,hl⟩ := mem_conflictingTxids.mp hmem
      obtain ⟨old,hold,_⟩ := (hc.held o oldTxid).mp hl
      simp only [hold]
      cases hseq : seqViolation (seqsByOutpoint old.tx) tx with
      | some v => exact .inl ⟨.outbid oldTxid old hold v.1 v.2 hseq,_,fun _ => ⟨_,rfl⟩,fun _ => rfl⟩
      | none =>
        cases hok : (validateTx B tx U).ok with
        | false => exact .inl ⟨.invalid hok,.ok (validateTx B tx U),fun _ => ⟨_,rfl⟩,fun _ => by simp⟩
        | true =>
          refine .inr ⟨_,.replace,.replacing oldTxid old hk hold hne ⟨o,ho,hl⟩ ?_ hseq hok,by simp,?_⟩
          · intro p hp t ht
            have hx := hc.holder_conflicts hk hp ht
            rw [hconf] at hx
            simpa using hx
          · intro submit
            simp only [if_true,evictInternal,hold,notify,hquiet]
            exact hins submit _ .replace
    · have hd : (oldTxid :: t :: l).Nodup := by rw [← hconf]; exact List.nodup_dedup _
      have hst : oldTxid ≠ t := by
        rintro rfl
        simp at hd
      exact .inl ⟨.conflicts oldTxid t hst (by simp [hconf]) (by simp [hconf]),_,fun _ => ⟨_,rfl⟩,
        fun _ => rfl⟩

end Mempool
end SubsatChannel
