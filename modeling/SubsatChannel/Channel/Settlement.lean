import Mathlib
import SubsatChannel.Channel.Opened

/-! Settlement conservation: state transactions, cooperative closes and bond forfeitures pay out
exactly the satoshis of the outputs they spend. -/
namespace SubsatChannel

section Payments
variable {B : Bitcoinx} {kb : KeyBook} {payments : List (ℕ × ℤ)}

/-- The P2PKH script of party `i`. -/
def partyScript (B : Bitcoinx) (kb : KeyBook) (i : ℕ) : Script :=
  p2pkhScript B (B.publicKey (kb.keyOf i))

/-- One output for each payment that is not zero. -/
def paid (B : Bitcoinx) (kb : KeyBook) (payments : List (ℕ × ℤ)) : List TxOutput :=
  payments.filterMap fun p => if 0 < p.2 then some ⟨p.2,partyScript B kb p.1⟩ else none

theorem paid_cons (p : ℕ × ℤ) : paid B kb (p :: payments) =
    if 0 < p.2 then ⟨p.2,partyScript B kb p.1⟩ :: paid B kb payments else paid B kb payments := by
  by_cases hp : 0 < p.2
  · simp [paid,hp]
  · simp [paid,hp]

theorem payParties_eq (hv : ∀ p ∈ payments, 0 ≤ p.2) (hi : ∀ p ∈ payments, p.1 < kb.n) :
    Channel.payParties B kb payments = .ok (paid B kb payments) := by
  induction payments with
  | nil => rfl
  | cons p payments ih =>
    obtain ⟨i,v⟩ := p
    have hrest := ih (fun p hp => hv p (by simp [hp])) (fun p hp => hi p (by simp [hp]))
    have hnn : ¬ v < 0 := not_lt.mpr (hv (i,v) (by simp))
    rw [Channel.payParties,ensureWholeSatoshi,if_neg hnn,hrest,
      KeyBook.publicKey_of_lt B (hi (i,v) (by simp)),paid_cons]
    by_cases hp : 0 < v
    · simp only [hp,if_true]
      rfl
    · simp only [hp,if_false]
      rfl

theorem sum_paid (hv : ∀ p ∈ payments, 0 ≤ p.2) :
    ((paid B kb payments).map TxOutput.value).sum = (payments.map Prod.snd).sum := by
  induction payments with
  | nil => rfl
  | cons p payments ih =>
    have hrest := ih fun q hq => hv q (by simp [hq])
    have hp := hv p (by simp)
    rw [paid_cons]
    split_ifs with hpos
    · simp [hrest]
    · have hz : p.2 = 0 := by omega
      simp [hz,hrest]

theorem paid_pos : ∀ out ∈ paid B kb payments, 0 < out.value := by
  intro out ho
  obtain ⟨p,_,hp⟩ := List.mem_filterMap.mp ho
  split_ifs at hp with hpos
  cases hp
  exact hpos

theorem paid_of_pos (h : ∀ p ∈ payments, 0 < p.2) :
    paid B kb payments = payments.map fun p => ⟨p.2,partyScript B kb p.1⟩ := by
  induction payments with
  | nil => rfl
  | cons p payments ih =>
    rw [paid_cons,if_pos (h p (by simp)),ih fun q hq => h q (by simp [hq]),List.map_cons]

theorem enumerate_nonneg (q : List ℕ) : ∀ p ∈ Channel.enumerate q, 0 ≤ p.2 := by
  intro p hp
  obtain ⟨a,_,rfl⟩ := List.mem_map.mp hp
  exact Int.natCast_nonneg a.1

theorem enumerate_lt (q : List ℕ) : ∀ p ∈ Channel.enumerate q, p.1 < q.length := by
  intro p hp
  obtain ⟨a,ha,rfl⟩ := List.mem_map.mp hp
  exact List.snd_lt_of_mem_zipIdx ha

theorem sum_enumerate (q : List ℕ) : ((Channel.enumerate q).map Prod.snd).sum = (q.sum : ℕ) := by
  have h : (Channel.enumerate q).map Prod.snd = q.map Nat.cast := by
    rw [Channel.enumerate,List.map_map]
    conv_rhs => rw [← List.zipIdx_map_fst 0 q,List.map_map]
    rfl
  rw [h]
  exact (map_list_sum (Nat.castAddMonoidHom ℤ) q).symm

end Payments

section Shares

theorem sum_last {l : List ℕ} (hl : l ≠ []) (r : ℤ) :
    (l.zipIdx.map fun p => if p.2 + 1 = l.length then r else 0).sum = r := by
  rcases List.eq_nil_or_concat l with rfl | ⟨front,last,rfl⟩
  · exact absurd rfl hl
  · rw [List.concat_eq_append,List.zipIdx_append,List.map_append,List.sum_append]
    have hz : (front.zipIdx.map fun p =>
        if p.2 + 1 = (front ++ [last]).length then r else 0).sum = 0 := by
      refine List.sum_eq_zero fun x hx => ?_
      obtain ⟨p,hp,rfl⟩ := List.mem_map.mp hx
      have hlt := List.snd_lt_of_mem_zipIdx hp
      rw [if_neg (by simp only [List.length_append,List.length_singleton]; omega)]
    rw [hz]
    simp

/-- The shares of a forfeited bond add up to what is split. -/
theorem sum_forfeitShares {honest : List ℕ} (h : honest ≠ []) (remaining : ℤ) :
    ((Channel.forfeitShares remaining honest).map Prod.snd).sum = remaining := by
  have hm : (honest.length : ℤ) ≠ 0 := by
    have := List.length_pos_iff.mpr h
    omega
  have hlast := sum_last h (remaining - remaining / honest.length * honest.length)
  have hmap : (Channel.forfeitShares remaining honest).map Prod.snd = honest.zipIdx.map fun p =>
      remaining / honest.length + if p.2 + 1 = honest.length then
        remaining - remaining / honest.length * honest.length else 0 := by
    simp [Channel.forfeitShares,Function.comp_def]
  rw [hmap,List.sum_map_add,hlast]
  simp
  ring

theorem forfeitShares_nonneg {honest : List ℕ} {remaining : ℤ} (h : 0 ≤ remaining) :
    ∀ p ∈ Channel.forfeitShares remaining honest, 0 ≤ p.2 := by
  intro p hp
  obtain ⟨a,ha,rfl⟩ := List.mem_map.mp hp
  have hlen : 0 < honest.length := (Nat.zero_le _).trans_lt (List.snd_lt_of_mem_zipIdx ha)
  have hshare : 0 ≤ remaining / honest.length := Int.ediv_nonneg h (by omega)
  have hrem : remaining / honest.length * honest.length ≤ remaining :=
    Int.ediv_mul_le _ (by omega)
  dsimp only
  split_ifs
  · omega
  · omega

theorem forfeitShares_fst (remaining : ℤ) (honest : List ℕ) :
    (Channel.forfeitShares remaining honest).map Prod.fst = honest := by
  have h : (Channel.forfeitShares remaining honest).map Prod.fst = honest.zipIdx.map Prod.fst := by
    simp [Channel.forfeitShares,Function.comp_def]
  rw [h,List.zipIdx_map_fst]

end Shares

namespace Channel
variable {B : Bitcoinx} {ch : Channel} {s : State}

theorem Canonical.head_output (h : ch.Canonical B) :
    ch.channelOutput = .ok ⟨ch.cfg.S,channelLockOf B ch.keybook⟩ := by
  have ho := h.outputs
  unfold channelOutput
  cases hf : ch.fundingTx.outputs with
  | nil => simp [hf,channelOutputsOf] at ho
  | cons out outs =>
    rw [hf,Nat.add_comm,List.take_succ_cons,channelOutputsOf] at ho
    rw [(List.cons.inj ho).1]

theorem Canonical.bond (h : ch.Canonical B) {i : ℕ} (hi : i < ch.cfg.n) :
    ch.bonds[i]? = some (bondOutputOf B ch.cfg ch.keybook ch.fundingTx i) := by
  rw [h.bonds]
  simp [hi]

/-- The outputs of the funding transaction by index, as far as they belong to the channel. -/
theorem Canonical.output (h : ch.Canonical B) {i : ℕ} (hi : i < 1 + ch.cfg.n) :
    ch.fundingTx.outputs[i]? = (channelOutputsOf B ch.cfg ch.keybook)[i]? := by
  rw [← h.outputs,List.getElem?_take,if_pos hi]

theorem sequenceForVersion_of_lt {version : ℕ} (h : version < finalSequence) :
    sequenceForVersion version = .ok version := by
  have h₁ : ¬ (version : ℤ) < 0 := by omega
  have h₂ : ¬ ((finalSequence : ℤ) ≤ version) := by omega
  simp only [sequenceForVersion,startSequence,Nat.cast_zero,zero_add,h₁,h₂,if_false,
    Int.toNat_natCast]

/-- The state transaction of a conserving allocation, without signatures. -/
def stateTxOf (B : Bitcoinx) (ch : Channel) (s : State) : Tx :=
  ⟨1,[⟨ch.fundingTxid B,0,[],s.version⟩],paid B ch.keybook (enumerate (payouts s ch.cfg)),0⟩

theorem sum_stateTxOf (hs : s.Conserving ch.cfg) :
    (stateTxOf B ch s).totalOutputValue = ch.cfg.S := by
  rw [Tx.totalOutputValue,stateTxOf,sum_paid (enumerate_nonneg _),sum_enumerate,sum_payouts hs]

theorem Canonical.buildStateTx_eq (h : ch.Canonical B) (hs : s.Conserving ch.cfg)
    (hv : s.version < finalSequence) : ch.buildStateTx B s =
      .ok (stateTxOf B ch s,[⟨ch.cfg.S,channelLockOf B ch.keybook⟩]) := by
  have hpay : payParties B ch.keybook (enumerate (payouts s ch.cfg)) =
      .ok (stateTxOf B ch s).outputs :=
    payParties_eq (enumerate_nonneg _) fun p hp => by
      have hlt := enumerate_lt _ p hp
      rwa [length_payouts,← h.keys] at hlt
  -- the fallback output is for payouts that are all zero, but they sum to `S`
  have hne : (stateTxOf B ch s).outputs ≠ [] := by
    intro hnil
    have hsum := sum_stateTxOf (B := B) hs
    rw [Tx.totalOutputValue,hnil] at hsum
    have hpos := ch.cfg.S_pos
    simp at hsum
    omega
  rw [buildStateTx,quantise_eq hs,sequenceForVersion_of_lt hv,h.head_output]
  simp only [bind,Except.bind,hpay,hne,if_false]
  rfl

/-- The cooperative close of a conserving allocation, without signatures. -/
def closeTxOf (B : Bitcoinx) (ch : Channel) (s : State) : Tx :=
  ⟨1,(List.range (1 + ch.cfg.n)).map fun i => ⟨ch.fundingTxid B,i,[],finalSequence⟩,
    (List.range ch.cfg.n).map fun i =>
      ⟨(payouts s ch.cfg).getD i 0 + bondOf ch.cfg i,partyScript B ch.keybook i⟩,coopLocktime⟩

theorem sum_closeTxOf (hs : s.Conserving ch.cfg) :
    (closeTxOf B ch s).totalOutputValue = ch.cfg.S + ch.cfg.bonds.sum := by
  have hq : ((List.range ch.cfg.n).map fun i => (payouts s ch.cfg).getD i 0).sum = ch.cfg.S := by
    rw [map_getD_range length_payouts,sum_payouts hs]
  have hsplit : (closeTxOf B ch s).totalOutputValue =
      (((List.range ch.cfg.n).map fun i => (payouts s ch.cfg).getD i 0).sum +
        ((List.range ch.cfg.n).map (bondOf ch.cfg)).sum : ℕ) := by
    rw [← List.sum_map_add]
    refine Eq.trans ?_ (map_list_sum (Nat.castAddMonoidHom ℤ) _).symm
    simp [Tx.totalOutputValue,closeTxOf,Function.comp_def]
  rw [hsplit,hq,sum_bondOf,Nat.cast_add]

theorem Canonical.buildCloseTx_eq (h : ch.Canonical B) (hs : s.Conserving ch.cfg) :
    ch.buildCloseTx B s = .ok (closeTxOf B ch s,channelOutputsOf B ch.cfg ch.keybook) := by
  have hbonds : (List.range ch.cfg.n).mapM (ch.bondInput B) =
      .ok ((List.range ch.cfg.n).map fun i => (⟨ch.fundingTxid B,1+i,[],finalSequence⟩,
        ⟨bondOf ch.cfg i,bondLockOf B ch.keybook i⟩)) :=
    mapM_eq_ok fun i hi => by
      rw [bondInput,h.bond (List.mem_range.mp hi)]
      rfl
  have hpayouts : (List.range ch.cfg.n).mapM (ch.closePayout (payouts s ch.cfg)) =
      .ok ((List.range ch.cfg.n).map fun i =>
        (i,((payouts s ch.cfg).getD i 0 : ℤ) + bondOf ch.cfg i)) :=
    mapM_eq_ok fun i hi => by
      have hlt := List.mem_range.mp hi
      have hq : (payouts s ch.cfg)[i]? = some ((payouts s ch.cfg).getD i 0) := by
        rw [List.getD_eq_getElem _ _ (by rwa [length_payouts]),List.getElem?_eq_getElem]
      rw [closePayout,hq,bondValue_of_lt hlt]
      rfl
  have hpos : ∀ p ∈ (List.range ch.cfg.n).map fun i =>
      (i,((payouts s ch.cfg).getD i 0 : ℤ) + bondOf ch.cfg i), 0 < p.2 ∧ p.1 < ch.keybook.n := by
    intro p hp
    obtain ⟨i,hi,rfl⟩ := List.mem_map.mp hp
    have hlt := List.mem_range.mp hi
    have hb := bondOf_pos hlt
    exact ⟨by dsimp only; omega,by rwa [h.keys]⟩
  have hpay := payParties_eq (B := B) (fun p hp => (hpos p hp).1.le) fun p hp => (hpos p hp).2
  rw [paid_of_pos fun p hp => (hpos p hp).1] at hpay
  have hins : (List.range (1 + ch.cfg.n)).map (fun i =>
      (⟨ch.fundingTxid B,i,[],finalSequence⟩ : TxInput)) = ⟨ch.fundingTxid B,0,[],finalSequence⟩ ::
        (List.range ch.cfg.n).map fun i => ⟨ch.fundingTxid B,1+i,[],finalSequence⟩ := by
    rw [Nat.add_comm,List.range_succ_eq_map,List.map_cons,List.map_map]
    simp [Function.comp_def,Nat.add_comm]
  rw [buildCloseTx,quantise_eq hs,h.head_output]
  simp only [bind,Except.bind,hbonds,hpayouts,hpay,closeTxOf,hins,channelOutputsOf,List.map_map,
    Function.comp_def]

/-- The forfeiture of a bond, without signatures. -/
def forfeitTxOf (B : Bitcoinx) (ch : Channel) (offender : ℕ) (tower : Option PublicKey)
    (fee : ℤ) : Tx :=
  ⟨1,[⟨ch.fundingTxid B,1+offender,[],finalSequence⟩],towerOutput B tower fee ++
    paid B ch.keybook (forfeitShares (bondOf ch.cfg offender - if tower.isSome then fee else 0)
      (others ch.cfg.n offender)),0⟩

/-- The output that a bond's forfeiture spends. -/
def bondUtxo (B : Bitcoinx) (ch : Channel) (offender : ℕ) : TxOutput :=
  ⟨bondOf ch.cfg offender,bondLockOf B ch.keybook offender⟩

section Forfeit
variable {offender : ℕ} {tower : Option PublicKey} {fee : ℤ}

theorem others_ne_nil (ho : offender < ch.cfg.n) : others ch.cfg.n offender ≠ [] := by
  have hlen := length_others ho
  have htwo := ch.cfg.two_le_n
  exact List.ne_nil_of_length_pos (by omega)

theorem remaining_nonneg (hmax : fee ≤ bondOf ch.cfg offender) :
    0 ≤ (bondOf ch.cfg offender : ℤ) - if tower.isSome then fee else 0 := by
  split_ifs <;> omega

theorem sum_forfeitTxOf (ho : offender < ch.cfg.n) (hfee : 0 ≤ fee)
    (hmax : fee ≤ bondOf ch.cfg offender) :
    (forfeitTxOf B ch offender tower fee).totalOutputValue = bondOf ch.cfg offender := by
  have htower : ((towerOutput B tower fee).map TxOutput.value).sum =
      if tower.isSome then fee else 0 := by
    unfold towerOutput
    cases tower with
    | none => rfl
    | some pk =>
      by_cases hpos : 0 < fee
      · simp [hpos]
      · have hz : fee = 0 := by omega
        simp [hz]
  rw [Tx.totalOutputValue,forfeitTxOf,List.map_append,List.sum_append,htower,
    sum_paid (forfeitShares_nonneg (remaining_nonneg hmax)),
    sum_forfeitShares (others_ne_nil ho)]
  ring

theorem forfeitTxOf_pos : ∀ out ∈ (forfeitTxOf B ch offender tower fee).outputs, 0 < out.value := by
  intro out hout
  rcases List.mem_append.mp hout with ht | hp
  · unfold towerOutput at ht
    cases tower with
    | none => simp at ht
    | some pk =>
      dsimp only at ht
      split_ifs at ht with hpos
      · rw [List.mem_singleton] at ht
        subst ht
        exact hpos
      · simp at ht
  · exact paid_pos out hp

/-- The honest parties are paid at most once each, in party order. -/
theorem paid_scripts (remaining : ℤ) (honest : List ℕ) :
    ((paid B ch.keybook (forfeitShares remaining honest)).map TxOutput.scriptPubkey).Sublist
      (honest.map (partyScript B ch.keybook)) := by
  have h : ∀ l : List (ℕ × ℤ), ((paid B ch.keybook l).map TxOutput.scriptPubkey).Sublist
      ((l.map Prod.fst).map (partyScript B ch.keybook)) := by
    intro l
    induction l with
    | nil => exact List.Sublist.refl _
    | cons p l ih =>
      rw [paid_cons]
      split_ifs
      · exact ih.cons_cons _
      · exact ih.cons _
  have hs := h (forfeitShares remaining honest)
  rwa [forfeitShares_fst] at hs

/-- The signatures of the other parties on a forfeiture, for the branch of the counterparties. -/
def forfeitUnlock (B : Bitcoinx) (ch : Channel) (offender : ℕ) (tower : Option PublicKey) (fee : ℤ) :
    Script :=
  .op (.opN 0) :: ((others ch.cfg.n offender).map fun j =>
    signInput B (forfeitTxOf B ch offender tower fee) 0 (bondUtxo B ch offender).value
      (bondUtxo B ch offender).scriptPubkey (ch.keybook.keyOf j)).map .push ++ [.op (.opN 0)]

/-- Forfeiting assembles the transaction, signs it for the other parties and returns it, unless the
interpreter refuses the spend. -/
theorem Canonical.forfeitBondTx_eq (h : ch.Canonical B) (tower : Option PublicKey)
    (hconf : ch.fundingConfirmed = true) (ho : offender < ch.cfg.n) (hfee : 0 ≤ fee)
    (hmax : fee ≤ bondOf ch.cfg offender) : ch.forfeitBondTx B offender tower fee =
      (verifyAllInputs B ((forfeitTxOf B ch offender tower fee).setScriptSig 0
        (forfeitUnlock B ch offender tower fee)) [bondUtxo B ch offender]).map fun _ =>
          ((forfeitTxOf B ch offender tower fee).setScriptSig 0 (forfeitUnlock B ch offender tower fee),
            [bondUtxo B ch offender]) := by
  have hin : ¬ ¬ ((0 : ℤ) ≤ offender ∧ (offender : ℤ) < ch.cfg.n) := by omega
  have hneg : ¬ fee < 0 := by omega
  have hbig : ¬ ((bondOf ch.cfg offender : ℤ) < fee) := by omega
  have hbuild : ch.buildForfeitTx B offender (bondOutputOf B ch.cfg ch.keybook ch.fundingTx offender)
      tower fee = .ok (forfeitTxOf B ch offender tower fee) := by
    have hparty : ∀ p ∈ forfeitShares (bondOf ch.cfg offender - if tower.isSome then fee else 0)
        (others ch.cfg.n offender), p.1 < ch.keybook.n := by
      intro p hp
      have hm := List.mem_map_of_mem (f := Prod.fst) hp
      rw [forfeitShares_fst] at hm
      rw [h.keys]
      exact (mem_others.mp hm).1
    have hpay := payParties_eq (B := B) (forfeitShares_nonneg (remaining_nonneg hmax)) hparty
    simp only [buildForfeitTx,bondOutputOf,bind,Except.bind,hpay]
    rfl
  have hprivs : (others ch.cfg.n offender).mapM ch.keybook.privateKey =
      .ok ((others ch.cfg.n offender).map ch.keybook.keyOf) :=
    mapM_eq_ok fun j hj => KeyBook.privateKey_of_lt (by rw [h.keys]; exact (mem_others.mp hj).1)
  have hsign : signBondForfeit B (forfeitTxOf B ch offender tower fee) 0
      (bondOutputOf B ch.cfg ch.keybook ch.fundingTx offender)
      ((others ch.cfg.n offender).map ch.keybook.keyOf) =
        .ok (forfeitUnlock B ch offender tower fee) := by
    have hne := others_ne_nil ho
    simp [signBondForfeit,bondForfeitUnlock,hne,forfeitUnlock,bondUtxo,bondOutputOf]
  rw [forfeitBondTx,requireConfirmed,if_pos hconf,if_neg hin,if_neg hneg,Int.toNat_natCast,h.bond ho]
  simp only [bondOutputOf] at hbuild hsign ⊢
  simp only [bind,Except.bind,hbig,if_false,hbuild,hprivs,hsign]
  unfold bondUtxo BondOutput.utxo
  cases verifyAllInputs B ((forfeitTxOf B ch offender tower fee).setScriptSig 0
    (forfeitUnlock B ch offender tower fee)) [⟨bondOf ch.cfg offender,bondLockOf B ch.keybook offender⟩] <;> rfl

end Forfeit

/-- The transactions that settle a channel, signed or not. -/
inductive Settles (B : Bitcoinx) (ch : Channel) : Tx → Prop
  | state {s : State} {tx : Tx} {utxos : List TxOutput}
      (h : ch.buildStateTx B s = .ok (tx,utxos)) : Settles B ch tx
  | signedState {s : State} {tx : Tx} {utxos : List TxOutput}
      (h : ch.signStateTx B s = .ok (tx,utxos)) : Settles B ch tx
  | close {s : State} {tx : Tx} {utxos : List TxOutput}
      (h : ch.buildCloseTx B s = .ok (tx,utxos)) : Settles B ch tx
  | cooperative {s : Option State} {tx : Tx} {utxos : List TxOutput}
      (h : ch.cooperativeClose B s = .ok (tx,utxos)) : Settles B ch tx
  | forfeit {offender fee : ℤ} {tower : Option PublicKey} {tx : Tx} {utxos : List TxOutput}
      (h : ch.forfeitBondTx B offender tower fee = .ok (tx,utxos)) : Settles B ch tx

section Settles
variable {tx tx' : Tx} {utxos : List TxOutput}

theorem quantise_ok {q : List ℕ} {cfg : ChannelConfig} (h : quantise s cfg = .ok q) :
    s.Conserving cfg := by
  obtain ⟨_,hc,_⟩ := bind_eq_ok.mp h
  exact State.conservationCheck_ok_iff.mp hc

theorem sequenceForVersion_ok {version seq : ℕ} (h : sequenceForVersion version = .ok seq) :
    version < finalSequence := by
  by_contra hge
  have h₁ : ¬ (version : ℤ) < 0 := by omega
  have h₂ : (finalSequence : ℤ) ≤ version := by omega
  simp [sequenceForVersion,startSequence,h₁,h₂] at h

theorem Canonical.buildStateTx_ok (h : ch.Canonical B) (hb : ch.buildStateTx B s = .ok (tx,utxos)) :
    s.Conserving ch.cfg ∧ s.version < finalSequence ∧ tx = stateTxOf B ch s := by
  obtain ⟨q,hq,hrest⟩ := bind_eq_ok.mp hb
  obtain ⟨seq,hseq,_⟩ := bind_eq_ok.mp hrest
  have hs := quantise_ok hq
  have hv := sequenceForVersion_ok hseq
  rw [h.buildStateTx_eq hs hv] at hb
  cases hb
  exact ⟨hs,hv,rfl⟩

theorem Canonical.buildCloseTx_ok (h : ch.Canonical B) (hb : ch.buildCloseTx B s = .ok (tx,utxos)) :
    s.Conserving ch.cfg ∧ tx = closeTxOf B ch s := by
  obtain ⟨q,hq,_⟩ := bind_eq_ok.mp hb
  have hs := quantise_ok hq
  rw [h.buildCloseTx_eq hs] at hb
  cases hb
  exact ⟨hs,rfl⟩

theorem signChannelInput_ok (h : ch.signChannelInput B tx utxos = .ok tx') :
    ∃ scriptSig, tx' = tx.setScriptSig 0 scriptSig := by
  unfold signChannelInput at h
  cases utxos with
  | nil => cases h
  | cons utxo utxos =>
    obtain ⟨sigs,_,h⟩ := bind_eq_ok.mp h
    obtain ⟨scriptSig,_,h⟩ := bind_eq_ok.mp h
    exact ⟨scriptSig,(Except.ok.inj h).symm⟩

theorem signBondInputs_ok {is : List ℕ} (h : ch.signBondInputs B is tx = .ok tx') :
    tx'.stripped = tx.stripped := by
  induction is generalizing tx with
  | nil => cases h; rfl
  | cons i is ih =>
    unfold signBondInputs at h
    cases hb : ch.bonds[i]? with
    | none => simp [hb] at h
    | some bond =>
      simp only [hb] at h
      obtain ⟨priv,_,h⟩ := bind_eq_ok.mp h
      obtain ⟨scriptSig,_,h⟩ := bind_eq_ok.mp h
      exact (ih h).trans (Tx.stripped_setScriptSig _ _ _)

theorem signStateTx_ok (h : ch.signStateTx B s = .ok (tx,utxos)) :
    ∃ unsigned, ch.buildStateTx B s = .ok (unsigned,utxos) ∧
      ∃ scriptSig, tx = unsigned.setScriptSig 0 scriptSig := by
  obtain ⟨_,_,h⟩ := bind_eq_ok.mp h
  obtain ⟨⟨unsigned,us⟩,hb,h⟩ := bind_eq_ok.mp h
  obtain ⟨signed,hs,h⟩ := bind_eq_ok.mp h
  cases h
  exact ⟨unsigned,hb,signChannelInput_ok hs⟩

theorem cooperativeClose_ok {o : Option State} (h : ch.cooperativeClose B o = .ok (tx,utxos)) :
    ∃ s unsigned, ch.buildCloseTx B s = .ok (unsigned,utxos) ∧ tx.stripped = unsigned.stripped := by
  obtain ⟨_,_,h⟩ := bind_eq_ok.mp h
  obtain ⟨⟨unsigned,us⟩,hb,h⟩ := bind_eq_ok.mp h
  obtain ⟨first,hf,h⟩ := bind_eq_ok.mp h
  obtain ⟨signed,hs,h⟩ := bind_eq_ok.mp h
  obtain ⟨_,_,h⟩ := bind_eq_ok.mp h
  cases h
  obtain ⟨scriptSig,rfl⟩ := signChannelInput_ok hf
  exact ⟨_,unsigned,hb,(signBondInputs_ok hs).trans (Tx.stripped_setScriptSig _ _ _)⟩

/-- A forfeiture that is returned has passed the check at its end. -/
theorem Canonical.forfeitBondTx_checked (h : ch.Canonical B) {offender fee : ℤ} {tower : Option PublicKey}
    (hf : ch.forfeitBondTx B offender tower fee = .ok (tx,utxos)) :
    ∃ i, i < ch.cfg.n ∧ 0 ≤ fee ∧ fee ≤ bondOf ch.cfg i ∧ verifyAllInputs B tx utxos = .ok () ∧
      utxos = [bondUtxo B ch i] ∧
      tx = (forfeitTxOf B ch i tower fee).setScriptSig 0 (forfeitUnlock B ch i tower fee) := by
  obtain ⟨_,hconf,hrest⟩ := bind_eq_ok.mp hf
  have hc : ch.fundingConfirmed = true := by
    by_contra hn
    simp [requireConfirmed,hn] at hconf
  split_ifs at hrest with hin hneg
  obtain ⟨h0,hlt⟩ := hin
  obtain ⟨i,rfl⟩ := Int.eq_ofNat_of_zero_le h0
  have hi : i < ch.cfg.n := by omega
  simp only [Int.toNat_natCast,h.bond hi,bondOutputOf] at hrest
  split_ifs at hrest with hbig
  have hfee : 0 ≤ fee := not_lt.mp hneg
  have hmax : fee ≤ bondOf ch.cfg i := not_lt.mp hbig
  rw [h.forfeitBondTx_eq tower hc hi hfee hmax] at hf
  obtain ⟨_,hverify,heq⟩ := map_eq_ok.mp hf
  obtain ⟨rfl,rfl⟩ := Prod.mk.inj heq
  exact ⟨i,hi,hfee,hmax,hverify,rfl,rfl⟩

theorem Canonical.forfeitBondTx_ok (h : ch.Canonical B) {offender fee : ℤ} {tower : Option PublicKey}
    (hf : ch.forfeitBondTx B offender tower fee = .ok (tx,utxos)) :
    ∃ i, i < ch.cfg.n ∧ 0 ≤ fee ∧ fee ≤ bondOf ch.cfg i ∧
      tx = (forfeitTxOf B ch i tower fee).setScriptSig 0 (forfeitUnlock B ch i tower fee) := by
  obtain ⟨i,hi,hfee,hmax,_,_,htx⟩ := h.forfeitBondTx_checked hf
  exact ⟨i,hi,hfee,hmax,htx⟩

/-- A settlement spends outputs of the channel, each once, and pays out their value. -/
structure PaysOut (B : Bitcoinx) (ch : Channel) (tx : Tx) : Prop where
  spends : ∀ o ∈ tx.outpoints, o.1 = ch.fundingTxid B ∧ o.2 < 1 + ch.cfg.n
  once : tx.outpoints.Nodup
  total : tx.totalOutputValue =
    (tx.outpoints.map fun o => ((channelOutputsOf B ch.cfg ch.keybook).getD o.2 ⟨0,[]⟩).value).sum

theorem PaysOut.congr (h : PaysOut B ch tx) (hs : tx'.stripped = tx.stripped) : PaysOut B ch tx' := by
  have hp := Tx.outpoints_congr hs
  refine ⟨by rw [hp]; exact h.spends,by rw [hp]; exact h.once,?_⟩
  rw [Tx.totalOutputValue,Tx.outputs_congr hs,hp]
  exact h.total

theorem paysOut_stateTxOf (hs : s.Conserving ch.cfg) : PaysOut B ch (stateTxOf B ch s) where
  spends o ho := by
    simp only [Tx.outpoints,stateTxOf,TxInput.outpoint,List.map_cons,List.map_nil,
      List.mem_singleton] at ho
    subst ho
    exact ⟨rfl,by omega⟩
  once := List.nodup_singleton _
  total := by
    rw [sum_stateTxOf hs]
    simp [Tx.outpoints,stateTxOf,TxInput.outpoint,channelOutputsOf]

theorem outpoints_closeTxOf : (closeTxOf B ch s).outpoints =
    (List.range (1 + ch.cfg.n)).map fun i => (ch.fundingTxid B,i) := by
  simp [Tx.outpoints,closeTxOf,TxInput.outpoint,Function.comp_def]

theorem paysOut_closeTxOf (hs : s.Conserving ch.cfg) : PaysOut B ch (closeTxOf B ch s) where
  spends o ho := by
    rw [outpoints_closeTxOf] at ho
    obtain ⟨i,hi,rfl⟩ := List.mem_map.mp ho
    exact ⟨rfl,List.mem_range.mp hi⟩
  once := by
    rw [outpoints_closeTxOf]
    exact List.nodup_range.map fun i j hij => congrArg Prod.snd hij
  total := by
    rw [sum_closeTxOf hs,outpoints_closeTxOf,List.map_map,Nat.add_comm,List.range_succ_eq_map,
      List.map_cons,List.sum_cons,List.map_map]
    have hb : ((List.range ch.cfg.n).map fun i => (bondOf ch.cfg i : ℤ)).sum = ch.cfg.bonds.sum := by
      rw [← sum_bondOf]
      refine Eq.trans ?_ (map_list_sum (Nat.castAddMonoidHom ℤ) _).symm
      simp [Function.comp_def]
    rw [← hb]
    congr 1
    refine congrArg List.sum (List.map_congr_left fun i hi => ?_)
    simp [channelOutputsOf,List.mem_range.mp hi]

theorem paysOut_forfeitTxOf {i : ℕ} {tower : Option PublicKey} {fee : ℤ} (hi : i < ch.cfg.n)
    (hfee : 0 ≤ fee) (hmax : fee ≤ bondOf ch.cfg i) : PaysOut B ch (forfeitTxOf B ch i tower fee) where
  spends o ho := by
    simp only [Tx.outpoints,forfeitTxOf,TxInput.outpoint,List.map_cons,List.map_nil,
      List.mem_singleton] at ho
    subst ho
    exact ⟨rfl,by dsimp only; omega⟩
  once := List.nodup_singleton _
  total := by
    have hb : (channelOutputsOf B ch.cfg ch.keybook)[1+i]? = some _ := channelOutputsOf_bond hi
    rw [sum_forfeitTxOf hi hfee hmax]
    simp [Tx.outpoints,forfeitTxOf,TxInput.outpoint,List.getD_eq_getElem?_getD,hb]

/-- Every settlement of a channel pays out what it spends. -/
theorem Settles.paysOut (h : ch.Canonical B) (hs : Settles B ch tx) : PaysOut B ch tx := by
  cases hs with
  | state hb =>
    obtain ⟨hc,_,rfl⟩ := h.buildStateTx_ok hb
    exact paysOut_stateTxOf hc
  | signedState hb =>
    obtain ⟨unsigned,hu,scriptSig,rfl⟩ := signStateTx_ok hb
    obtain ⟨hc,_,rfl⟩ := h.buildStateTx_ok hu
    exact (paysOut_stateTxOf hc).congr (Tx.stripped_setScriptSig _ _ _)
  | close hb =>
    obtain ⟨hc,rfl⟩ := h.buildCloseTx_ok hb
    exact paysOut_closeTxOf hc
  | cooperative hb =>
    obtain ⟨s,unsigned,hu,hstripped⟩ := cooperativeClose_ok hb
    obtain ⟨hc,rfl⟩ := h.buildCloseTx_ok hu
    exact (paysOut_closeTxOf hc).congr hstripped
  | forfeit hf =>
    obtain ⟨i,hi,hfee,hmax,rfl⟩ := h.forfeitBondTx_ok hf
    exact (paysOut_forfeitTxOf hi hfee hmax).congr (Tx.stripped_setScriptSig _ _ _)

end Settles
end Channel

/-- The value at every outpoint is that of the channel's funding output there. -/
def FundedBy (B : Bitcoinx) (value : Outpoint → ℤ) (ch : Channel) : Prop :=
  ∀ i out, i < 1 + ch.cfg.n → ch.fundingTx.outputs[i]? = some out →
    value (ch.fundingTxid B,i) = out.value

theorem Channel.PaysOut.total_eq {B : Bitcoinx} {ch : Channel} {tx : Tx} {value : Outpoint → ℤ}
    (hp : ch.PaysOut B tx) (h : ch.Canonical B) (hv : FundedBy B value ch) :
    tx.totalOutputValue = (tx.outpoints.map value).sum := by
  rw [hp.total]
  refine congrArg List.sum (List.map_congr_left fun o ho => ?_)
  obtain ⟨htx,hlt⟩ := hp.spends o ho
  have hlen : o.2 < (channelOutputsOf B ch.cfg ch.keybook).length := by
    rwa [length_channelOutputsOf]
  have hout : ch.fundingTx.outputs[o.2]? = some ((channelOutputsOf B ch.cfg ch.keybook).getD o.2 ⟨0,[]⟩) := by
    rw [h.output hlt,List.getD_eq_getElem _ _ hlen,List.getElem?_eq_getElem hlen]
  have hval := hv o.2 _ hlt hout
  rw [← hval,← htx]

/-- Disjoint lists without repetitions: the sums over them add up to the sum over all their
elements. -/
theorem sum_disjoint {α β : Type*} [DecidableEq β] (f : α → List β) (value : β → ℤ) {l : List α}
    (hn : ∀ a ∈ l, (f a).Nodup) (hd : l.Pairwise fun a b => (f a).Disjoint (f b)) :
    (l.map fun a => ((f a).map value).sum).sum = ∑ o ∈ (l.flatMap f).toFinset, value o := by
  have hnodup : (l.flatMap f).Nodup := List.nodup_flatMap.mpr ⟨hn,hd⟩
  rw [List.sum_toFinset _ hnodup,List.flatMap,List.map_flatten,List.sum_flatten]
  simp [Function.comp_def]

/-- Settlement conservation. A state transaction pays every party its quantised share in one
output, in party order; a cooperative close pays every party its share and its bond; a forfeiture
spends one bond, pays the tower first and the other parties after it. Each pays out exactly what it
spends, and so does every set of them without an input in common. -/
theorem settlement_conservation (B : Bitcoinx) :
    (∀ ch, Channel.Obtained B ch → ∀ s : State, s.Conserving ch.cfg → ∃ q, quantise s ch.cfg = .ok q ∧
      (s.version < finalSequence → ∃ tx utxos, ch.buildStateTx B s = .ok (tx,utxos) ∧
        tx.outpoints = [(ch.fundingTxid B,0)] ∧
        tx.outputs = paid B ch.keybook (Channel.enumerate q) ∧ tx.totalOutputValue = ch.cfg.S) ∧
      ∃ tx utxos, ch.buildCloseTx B s = .ok (tx,utxos) ∧
        tx.outpoints = (List.range (1 + ch.cfg.n)).map (fun i => (ch.fundingTxid B,i)) ∧
        tx.outputs = (List.range ch.cfg.n).map (fun i =>
          ⟨q.getD i 0 + bondOf ch.cfg i,partyScript B ch.keybook i⟩) ∧
        tx.totalOutputValue = ch.cfg.S + ch.cfg.bonds.sum) ∧
    (∀ ch, Channel.Obtained B ch → ch.fundingConfirmed = true → ∀ offender < ch.cfg.n,
      ∀ (tower : Option PublicKey) (fee : ℤ), 0 ≤ fee → fee ≤ bondOf ch.cfg offender →
      ∃ tx utxo shares, ch.forfeitBondTx B offender tower fee =
          (verifyAllInputs B tx [utxo]).map (fun _ => (tx,[utxo])) ∧
        tx.outpoints = [(ch.fundingTxid B,1+offender)] ∧ (∀ out ∈ tx.outputs, 0 < out.value) ∧
        tx.outputs = Channel.towerOutput B tower fee ++ shares ∧
        (shares.map TxOutput.scriptPubkey).Sublist
          ((others ch.cfg.n offender).map (partyScript B ch.keybook)) ∧
        tx.totalOutputValue = bondOf ch.cfg offender) ∧
    ∀ (value : Outpoint → ℤ) (txs : List (Channel × Tx)),
      (∀ p ∈ txs, p.1.Obtained B ∧ p.1.Settles B p.2 ∧ FundedBy B value p.1) →
      txs.Pairwise (fun p q => p.2.outpoints.Disjoint q.2.outpoints) →
      (txs.map fun p => p.2.totalOutputValue).sum =
        ∑ o ∈ (txs.flatMap fun p => p.2.outpoints).toFinset, value o := by
  refine ⟨fun ch hch s hs => ?_,fun ch hch hconf i hi tower fee hfee hmax => ?_,
    fun value txs htxs hd => ?_⟩
  · refine ⟨payouts s ch.cfg,quantise_eq hs,fun hv => ?_,?_⟩
    · exact ⟨_,_,hch.canonical.buildStateTx_eq hs hv,rfl,rfl,Channel.sum_stateTxOf hs⟩
    · exact ⟨_,_,hch.canonical.buildCloseTx_eq hs,Channel.outpoints_closeTxOf,rfl,
        Channel.sum_closeTxOf hs⟩
  · have heq := hch.canonical.forfeitBondTx_eq tower hconf hi hfee hmax
    exact ⟨_,_,_,heq,Tx.setScriptSig_outpoints _ _ _,Channel.forfeitTxOf_pos,rfl,
      Channel.paid_scripts _ _,Channel.sum_forfeitTxOf hi hfee hmax⟩
  · have hpay : ∀ p ∈ txs, p.1.PaysOut B p.2 := fun p hp =>
      (htxs p hp).2.1.paysOut (htxs p hp).1.canonical
    rw [← sum_disjoint _ value (fun p hp => (hpay p hp).once) hd]
    refine congrArg List.sum (List.map_congr_left fun p hp => ?_)
    exact (hpay p hp).total_eq (htxs p hp).1.canonical (htxs p hp).2.2

open Reference in
theorem settlement_conservation_sample : ∃ q tx utxos,
    quantise (sampleChannel anyone).state sampleConfig = .ok q ∧
    (sampleChannel anyone).buildStateTx (reference anyone)
      (sampleChannel anyone).state = .ok (tx,utxos) ∧ tx.totalOutputValue = 3 := by
  have hch := obtained_sampleChannel anyone
  obtain ⟨q,hq,hstate,_⟩ := (settlement_conservation (reference anyone)).1 _ hch _
    hch.canonical.conserving
  obtain ⟨tx,utxos,hb,_,_,hsum⟩ := hstate (by decide)
  exact ⟨q,tx,utxos,hq,hb,hsum⟩

end SubsatChannel
