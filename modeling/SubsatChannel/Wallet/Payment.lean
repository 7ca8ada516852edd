import SubsatChannel.Wallet.Balance
import SubsatChannel.Wallet.Spendable

/-! A payment from the wallet to the chain: what `pay_p2pkh` submits is accepted and lands. -/
namespace SubsatChannel
open Transition GreedyCover

/-- The wallets that `add_p2pkh` builds. -/
inductive WalletScripts.Registered (B : Bitcoinx) : WalletScripts → Prop
  | empty : WalletScripts.Registered B ⟨∅⟩
  | add {ws : WalletScripts} (h : WalletScripts.Registered B ws) (account index : ℕ) (priv : PrivateKey) :
      WalletScripts.Registered B (ws.addP2pkh B account index priv)

/-- Every script of a wallet is that of the key it is kept with. -/
theorem WalletScripts.Registered.own {B : Bitcoinx} {ws : WalletScripts}
    (h : WalletScripts.Registered B ws) {script : Script} {entry : ℕ × ℕ × PrivateKey} (hs : ws.keysFor script = some entry) :
    script = p2pkhScript B (B.publicKey entry.2.2) := by
  induction h generalizing entry with
  | empty => cases hs
  | @add ws h account index priv ih =>
    rw [WalletScripts.keysFor,WalletScripts.addP2pkh,Dict.get?_set] at hs
    split_ifs at hs with he
    · cases hs
      exact he.symm
    · exact ih hs

section Prepare
variable {B : Bitcoinx} {ws : WalletScripts} {targetPubkey changePubkey : PublicKey} {amount feePerByte : ℤ}
  {tx : Tx} {fee : ℤ}

/-- What a refresh finds, the wallet owns. -/
theorem WalletScripts.Registered.owned (h : WalletScripts.Registered B ws) {U : UtxoSet}
    {r : ScriptRows U} {u : WalletUtxo} (hu : u ∈ ws.refresh r) (hidx : u.vout < 0xFFFFFFFF) : Owned B U (u,ws.keyOf u) := by
  obtain ⟨entry,hentry⟩ := keysFor_of_mem_refresh hu
  obtain ⟨s,_,hrow⟩ := List.mem_flatMap.mp hu
  refine ⟨((r.mem_iff s u).mp hrow).1,?_,hidx⟩
  have hkey : ws.keyOf u = entry.2.2 := by
    rw [WalletScripts.keyOf,hentry]
    rfl
  exact (h.own hentry).trans (by rw [hkey])

/-- The payment of `pay_p2pkh`: the largest outputs that reach the amount and the headroom, with their
keys, spent for one output and the change. -/
theorem preparePayment_ok (ha : 0 ≤ amount) {utxos : List WalletUtxo}
    (hkeys : ∀ u ∈ utxos, ∃ entry, ws.keysFor u.scriptPubkey = some entry)
    (h : preparePayment B ws targetPubkey amount changePubkey feePerByte utxos = .ok (tx,fee)) :
    ∃ chosen : List WalletUtxo, ws.keyed chosen ≠ [] ∧ chosen.Subperm utxos ∧ (∀ u ∈ chosen, 0 < u.value) ∧
      buildSpend B (ws.keyed chosen) [⟨amount,p2pkhScript B targetPubkey⟩] changePubkey feePerByte
        defaultDustThreshold "specified" = .ok tx ∧
      fee = totalIn (ws.keyed chosen) - tx.totalOutputValue := by
  unfold preparePayment at h
  split_ifs at h with hne
  by_cases hex : ∃ k, Reaches (fun u => u.value) (amount + 1000) (sortedUtxos utxos) k
  · obtain ⟨k,hk⟩ := hex
    have hfound : ∀ u ∈ (sortedUtxos utxos).take k, ∃ entry, ws.keysFor u.scriptPubkey = some entry :=
      fun u hu => hkeys u ((sortedUtxos_perm utxos).mem_iff.mp (List.mem_of_mem_take hu))
    obtain ⟨hsome,hvalues⟩ := @keyed_selected ws amount utxos ha k hk
    have hout : ∀ o ∈ [(⟨p2pkhScript B targetPubkey,amount⟩ : FundingOutput)], 0 ≤ o.value := by
      simpa using ha
    rw [selectUtxos_of_reaches (by omega) hk] at h
    simp only [bind,Except.bind,withKeys_eq hfound,buildAndSignPayment_eq hsome hvalues hout,
      List.map_singleton,FundingOutput.txOutput] at h
    split at h
    · cases h
    · rename_i built hbuilt
      cases h
      have hsub : ((sortedUtxos utxos).take k).Subperm utxos :=
        (List.take_sublist k _).subperm.trans (sortedUtxos_perm utxos).subperm
      exact ⟨_,hsome,hsub,fun u hu => hk.needed_pos (sortedUtxos_descending utxos) u hu,hbuilt,rfl⟩
  · obtain ⟨e,he,_⟩ := selectUtxos_of_short (by omega) hex
    rw [he] at h
    cases h

end Prepare

section Block
variable {B : Bitcoinx} {T : Set Tx} {L : List Tx} {U : UtxoSet} {height k : ℕ} {coinbase t : Tx}
  {ws : WalletScripts}

/-- What outputs are worth to a wallet. -/
def WalletScripts.worthOf (ws : WalletScripts) (outs : List TxOutput) : ℤ := (outs.map ws.worth).sum

theorem createdBy_worth (f : Outpoint → TxOutput) (h : ∀ i (hi : i < t.outputs.length),
    f (B.txHash t,i) = t.outputs[i]) :
    (((UtxoSet.createdBy B t).map fun o => ws.worth (f o)).sum) = ws.worthOf t.outputs := by
  rw [UtxoSet.createdBy,List.map_map,WalletScripts.worthOf]
  refine congrArg List.sum (List.ext_getElem (by simp) fun i hi _ => ?_)
  have hlt : i < t.outputs.length := by simpa using hi
  simp [h i hlt]

/-- Where nothing of value is, nothing is worth anything. -/
theorem weightAt_worth_of_valueAt {o : Outpoint} (h : U.valueAt o = 0) :
    U.weightAt (fun e => ws.worth e.asTxOutput) o = 0 := by
  cases hl : U.lookup o with
  | none => exact Finmap.weightAt_of_none _ _ hl
  | some e =>
    rw [UtxoSet.valueAt,Finmap.weightAt_of_lookup _ _ hl] at h
    have hzero : e.asTxOutput.value = 0 := h
    rw [Finmap.weightAt_of_lookup _ _ hl]
    simp [WalletScripts.worth,hzero]

section Pair
variable (h : Assembled B T U (height+1) coinbase [t]) (hinj : Set.InjOn B.txHash T)
  (horigin : Originates B {t | t ∈ L} U) (hknown : ∀ t ∈ L, t ∈ T)
  (hsealed : ∀ t ∈ L, t.Rich → Sealed B {t | t ∈ L} U height t)

include h hinj

theorem Assembled.ne_coinbase : coinbase ≠ t ∧ B.txHash coinbase ≠ B.txHash t := by
  have hne : coinbase ≠ t := by
    rintro rfl
    have hnot := h.notCoinbase coinbase (List.mem_singleton_self _)
    rw [h.isCoinbase] at hnot
    cases hnot
  exact ⟨hne,fun he => hne (hinj (h.known _ (by simp)) (h.known t (by simp)) he)⟩

include horigin hknown hsealed

/-- An unspent output with a value was made by a transaction that is not in the block. -/
theorem Assembled.not_made {o : Outpoint} (hv : U.valueAt o ≠ 0) {s : Tx} (hs : s ∈ [coinbase,t]) :
    o ∉ UtxoSet.createdBy B s := by
  intro ho
  cases hl : U.lookup o with
  | none => exact hv (Finmap.weightAt_of_none _ _ hl)
  | some e =>
    rw [UtxoSet.valueAt,Finmap.weightAt_of_lookup _ _ hl] at hv
    obtain ⟨s',hs',hid,hout⟩ := horigin o e hl
    obtain rfl : s' = s :=
      hinj (hknown s' hs') (h.known s hs) (hid.trans (UtxoSet.mem_createdBy.mp ho).1)
    exact h.new (hsealed s' hs' ⟨_,List.mem_of_getElem? hout,hv⟩) hs

/-- A block with one transaction besides the coinbase, of which every input has a value: a wallet
loses what the transaction spends of it and gains what the two pay it. -/
theorem Assembled.weight_worth (hnodup : t.outpoints.Nodup) (hvalue : ∀ o ∈ t.outpoints, U.valueAt o ≠ 0) :
    (U.connectBlockUtxos B k [coinbase,t]).weight (fun e => ws.worth e.asTxOutput) +
        (t.outpoints.map (U.weightAt fun e => ws.worth e.asTxOutput)).sum =
      U.weight (fun e => ws.worth e.asTxOutput) + (ws.worthOf coinbase.outputs + ws.worthOf t.outputs) := by
  obtain ⟨hne,hid⟩ := h.ne_coinbase hinj
  have hmade : ∀ o, U.valueAt o ≠ 0 → ∀ s ∈ [coinbase,t], o ∉ UtxoSet.createdBy B s :=
    fun o hv s hs => h.not_made hinj horigin hknown hsealed hv hs
  have hspent : UtxoSet.spentBy B t = t.outpoints := h.spentBy_included (List.mem_singleton_self t)
  let made : Outpoint → TxOutput := fun o =>
    if o.1 = B.txHash t then t.outputs.getD o.2 ⟨0,[]⟩ else coinbase.outputs.getD o.2 ⟨0,[]⟩
  have hlookup : ∀ o, (U.connectBlockUtxos B k [coinbase,t]).lookup o =
      if o ∈ UtxoSet.createdBy B t then (t.outputs[o.2]?).map fun out => ⟨out.value,out.scriptPubkey,k⟩
      else if o ∈ t.outpoints then none
      else if o ∈ UtxoSet.createdBy B coinbase then
        (coinbase.outputs[o.2]?).map fun out => ⟨out.value,out.scriptPubkey,k⟩
      else U.lookup o := by
    intro o
    change ((U.applyTx B k coinbase).applyTx B k t).lookup o = _
    rw [UtxoSet.lookup_applyTx,UtxoSet.lookup_applyTx,h.spentBy_coinbase,hspent]
    simp only [List.not_mem_nil,if_false]
  have hput : ∀ o ∈ UtxoSet.createdBy B coinbase ++ UtxoSet.createdBy B t,
      (U.connectBlockUtxos B k [coinbase,t]).lookup o =
        some ⟨(made o).value,(made o).scriptPubkey,k⟩ := by
    intro o ho
    rw [hlookup]
    by_cases hot : o ∈ UtxoSet.createdBy B t
    · obtain ⟨h1,h2⟩ := UtxoSet.mem_createdBy.mp hot
      simp [hot,made,h1,h2]
    · have hoc : o ∈ UtxoSet.createdBy B coinbase := (List.mem_append.mp ho).resolve_right hot
      obtain ⟨h1,h2⟩ := UtxoSet.mem_createdBy.mp hoc
      have hfree : o ∉ t.outpoints := fun hin => hmade o (hvalue o hin) coinbase (by simp) hoc
      simp [hot,hoc,made,h1,h2,hid,hfree]
  have hins : (UtxoSet.createdBy B coinbase ++ UtxoSet.createdBy B t).Nodup := by
    have hpair : ([coinbase,t] : List Tx).Nodup := by simp [hne]
    simpa using nodup_created hinj hpair h.known
  have hfresh : ∀ o ∈ UtxoSet.createdBy B coinbase ++ UtxoSet.createdBy B t,
      U.weightAt (fun e => ws.worth e.asTxOutput) o = 0 := by
    intro o ho
    by_cases hv : U.valueAt o = 0
    · exact weightAt_worth_of_valueAt hv
    · exfalso
      rcases List.mem_append.mp ho with ho | ho
      · exact hmade o hv coinbase (by simp) ho
      · exact hmade o hv t (by simp) ho
  have hex := Finmap.weight_exchange (fun e : UtxoEntry => ws.worth e.asTxOutput) U hins hnodup hput
    (fun o ho hno => by
      rw [List.mem_append,not_or] at hno
      rw [hlookup,if_neg hno.2,if_pos ho])
    (fun o hno ho => by
      rw [List.mem_append,not_or] at hno
      rw [hlookup,if_neg hno.2,if_neg ho,if_neg hno.1]) hfresh
  rw [List.map_append,List.sum_append] at hex
  rw [hex]
  congr 2
  · exact createdBy_worth made fun i hi => by simp [made,hid,hi]
  · exact createdBy_worth made fun i hi => by simp [made,hi]

end Pair
end Block

section Worth
variable {v : WalletScripts} {outs : List TxOutput} {U : UtxoSet}

theorem worthOf_append (outs' : List TxOutput) :
    v.worthOf (outs ++ outs') = v.worthOf outs + v.worthOf outs' := by
  rw [WalletScripts.worthOf,List.map_append,List.sum_append]
  rfl

theorem worthOf_own (h : ∀ out ∈ outs, (v.keysFor out.scriptPubkey).isSome = true) :
    v.worthOf outs = (outs.map TxOutput.value).sum :=
  congrArg List.sum (List.map_congr_left fun out ho => by rw [WalletScripts.worth,if_pos (h out ho)])

theorem worthOf_foreign (h : ∀ out ∈ outs, v.keysFor out.scriptPubkey = none) : v.worthOf outs = 0 := by
  refine List.sum_eq_zero fun x hx => ?_
  obtain ⟨out,ho,rfl⟩ := List.mem_map.mp hx
  simp [WalletScripts.worth,h out ho]

theorem worth_spent {chosen : List WalletUtxo}
    (h : ∀ u ∈ chosen, U.lookup u.outpoint = some u.toUtxoEntry) :
    ((chosen.map WalletUtxo.outpoint).map (U.weightAt fun e => v.worth e.asTxOutput)).sum =
      v.worthOf (chosen.map fun u => u.asTxOutput) := by
  rw [WalletScripts.worthOf,List.map_map,List.map_map]
  exact congrArg List.sum (List.map_congr_left fun u hu => Finmap.weightAt_of_lookup _ _ (h u hu))

end Worth

section Amount
variable {B : Bitcoinx} {ws : WalletScripts} {targetPubkey changePubkey : PublicKey} {amount feePerByte : ℤ}

theorem nonneg_of_ensureAllWhole {vs : List ℤ} {u : Unit} (h : ensureAllWhole vs = .ok u) :
    ∀ x ∈ vs, 0 ≤ x := by
  induction vs with
  | nil => exact fun x hx => (List.not_mem_nil hx).elim
  | cons v vs ih =>
    have hv : 0 ≤ v := by
      by_contra hneg
      simp [ensureAllWhole,ensureWholeSatoshi,not_le.mp hneg] at h
    have hvs : ensureAllWhole vs = .ok u := by
      simpa [ensureAllWhole,ensureWholeSatoshi,not_lt.mpr hv] using h
    exact List.forall_mem_cons.mpr ⟨hv,ih hvs⟩

/-- A payment that is built has outputs that are not negative. -/
theorem buildAndSignPayment_nonneg {funder : List (WalletUtxo × PrivateKey)} {outputs : List FundingOutput}
    {dustThreshold : ℤ} {tx : Tx}
    (h : buildAndSignPayment B funder outputs changePubkey feePerByte dustThreshold = .ok tx) :
    ∀ o ∈ outputs, 0 ≤ o.value := by
  unfold buildAndSignPayment at h
  split_ifs at h
  cases hin : ensureAllWhole (funder.map fun p => p.1.value) with
  | error e =>
    simp only [hin,bind,Except.bind] at h
    cases h
  | ok u =>
    cases hout : ensureAllWhole (outputs.map FundingOutput.value) with
    | error e =>
      simp only [hin,hout,bind,Except.bind] at h
      cases h
    | ok u' => exact List.forall_mem_map.mp (nonneg_of_ensureAllWhole hout)

/-- The builder refuses a negative amount. -/
theorem amount_nonneg {utxos : List WalletUtxo} {p : Tx × ℤ}
    (h : preparePayment B ws targetPubkey amount changePubkey feePerByte utxos = .ok p) : 0 ≤ amount := by
  unfold preparePayment at h
  split_ifs at h
  cases hsel : selectUtxos utxos (amount + 1000) with
  | error e =>
    rw [hsel] at h
    cases h
  | ok selected =>
    cases hkeys : ws.withKeys selected with
    | error e =>
      simp only [hsel,hkeys,bind,Except.bind] at h
      cases h
    | ok keyed =>
      simp only [hsel,hkeys,bind,Except.bind] at h
      split at h
      · cases h
      · rename_i tx hbuilt
        exact buildAndSignPayment_nonneg hbuilt _ (List.mem_singleton_self _)

end Amount

section Run
variable {B : Bitcoinx} {T : Set Tx} {R : Set Bytes} {reward : ℤ} {towers : List Tower} {depth : ℕ}
  {L : List Tx} {n : EmbeddedNode}

/-- What a wallet finds after a run, it owns. -/
theorem WalletScripts.Registered.owns {ws : WalletScripts} (hws : WalletScripts.Registered B ws)
    (hM : Mining B T R {t | t ∈ L} n)
    (hcount : ∀ s ∈ T, s.outputs.length ≤ 0xFFFFFFFF) {r : ScriptRows n.utxos} {u : WalletUtxo}
    (hu : u ∈ ws.refresh r) : Owned B n.utxos (u,ws.keyOf u) := by
  refine hws.owned hu ?_
  obtain ⟨s,hs,_,hout⟩ := hM.origin _ _ (mem_refresh.mp hu).1
  exact lt_of_lt_of_le (List.getElem?_eq_some_iff.mp hout).1 (hcount s (hM.known hs))

/-- A block of a mempool with one transaction: the coinbase pays the reward and its fee. -/
theorem Mining.block_of_one (h : Mining B T R {t | t ∈ L} n)
    (hcb : ∀ value script height extra, B.isCoinbase (makeCoinbase value script height extra) = true)
    {tx : Tx} (hone : n.mempool.allTxs = [tx]) (hok : (validateTx B tx n.utxos).ok = true)
    {script : Script} {extra : Bytes} {timestamp : ℕ}
    (hc : MiningCall B T R n (.generateBlock script true extra timestamp))
    (hblock : (n.call B depth (.generateBlock script true extra timestamp)).2.hasBlock = true) :
    ∃ coinbase, coinbase.outputs = [⟨n.coinbaseReward + (validateTx B tx n.utxos).fee,script⟩] ∧
      Assembled B T n.utxos (n.height+1) coinbase [tx] ∧
      (n.call B depth (.generateBlock script true extra timestamp)).1.utxos =
        n.utxos.connectBlockUtxos B (n.height+1) [coinbase,tx] := by
  rcases n.generateBlock_cases B depth script true extra timestamp with
    ⟨e,_,he⟩ | ⟨raw,txs,ha,⟨hs,e,_,he⟩ | ⟨hs,hd,_,⟨e,_,he⟩ | ⟨rawBlock,_,he⟩⟩⟩
  · rw [he] at hblock
    cases hblock
  · rw [he] at hblock
    cases hblock
  · rw [he] at hblock
    cases hblock
  · obtain ⟨coinbase,rfl,hasm⟩ := h.assembled hcb ha (hc raw txs ha).2.2
    obtain ⟨tip,fees,_,rfl,htxs,_⟩ := n.assembleBlock_txs B ha
    rw [he]
    simp only [if_true,hone] at hasm htxs ⊢
    obtain rfl := (List.cons.inj htxs).1
    refine ⟨_,?_,hasm,rfl⟩
    simp [makeCoinbase,hok]

/-- What the payment spends and what it pays besides the requested output. -/
structure Balanced (B : Bitcoinx) (ws : WalletScripts) (target : TxOutput) (changePubkey : PublicKey)
    (chosen : List WalletUtxo) (tx : Tx) (fee : ℤ) (rest : List TxOutput) : Prop where
  spends : tx.outpoints = chosen.map WalletUtxo.outpoint
  pays : tx.outputs = target :: rest
  change : ∀ out ∈ rest, out.scriptPubkey = p2pkhScript B changePubkey
  fee_eq : fee = valueOf chosen - (target.value + (rest.map TxOutput.value).sum)
  fee_nonneg : 0 ≤ fee

theorem Accounted.balanced {ws : WalletScripts} {target : TxOutput} {changePubkey : PublicKey}
    {feePerByte dustThreshold : ℤ} {chosen : List WalletUtxo} {tx : Tx} (hfpb : 0 ≤ feePerByte)
    (h : Accounted B (ws.keyed chosen) [target] changePubkey feePerByte dustThreshold tx) :
    ∃ rest, Balanced B ws target changePubkey chosen tx
      (totalIn (ws.keyed chosen) - tx.totalOutputValue) rest := by
  obtain ⟨rest,dropped,houtputs,htotal,hrest⟩ := h.pays
  have hest : 0 ≤ estimatedFee B (ws.keyed chosen) [target] changePubkey feePerByte :=
    mul_nonneg (Int.natCast_nonneg _) hfpb
  refine ⟨rest,?_,houtputs,?_,?_,?_⟩
  · rw [h.spends,WalletScripts.keyed,List.map_map]
    rfl
  · rcases hrest with ⟨⟨v,_,rfl⟩,_⟩ | ⟨rfl,_⟩
    · simp
    · simp
  · rw [totalOutputValue_append tx rest houtputs,totalIn_keyed]
    simp
  · rw [htotal]
    rcases hrest with ⟨_,rfl⟩ | ⟨_,hdropped,_⟩
    · simpa using hest
    · exact add_nonneg hest hdropped

/-- What the block with the payment does to the balance of any wallet. -/
theorem Balanced.effect {ws v : WalletScripts} {target : TxOutput} {changePubkey : PublicKey}
    {chosen : List WalletUtxo} {tx coinbase : Tx} {fee : ℤ} {rest : List TxOutput} {U U' : UtxoSet}
    {script : Script} (h : Balanced B ws target changePubkey chosen tx fee rest)
    (hun : ∀ u ∈ chosen, U.lookup u.outpoint = some u.toUtxoEntry)
    (hcoin : coinbase.outputs = [⟨reward + fee,script⟩])
    (hw : U'.weight (fun e => v.worth e.asTxOutput) +
        (tx.outpoints.map (U.weightAt fun e => v.worth e.asTxOutput)).sum =
      U.weight (fun e => v.worth e.asTxOutput) + (v.worthOf coinbase.outputs + v.worthOf tx.outputs))
    (r : ScriptRows U) (r' : ScriptRows U') :
    v.confirmedBalance r' = v.confirmedBalance r + v.worthOf [target,⟨reward + fee,script⟩] +
      v.worthOf rest - v.worthOf (chosen.map fun u => u.asTxOutput) := by
  rw [h.spends,worth_spent hun,hcoin,h.pays] at hw
  rw [confirmedBalance_eq,confirmedBalance_eq]
  have hcons : ∀ outs, v.worthOf (target :: outs) = v.worthOf [target] + v.worthOf outs := fun outs =>
    @worthOf_append v [target] outs
  rw [hcons] at hw
  rw [hcons]
  omega

end Run

/-- A payment out of a reachable state with nothing waiting. Whatever the wallet manages to prepare,
the node accepts, and the next block moves the money: the wallet that pays and keeps the change is
out the amount and the fee, and any wallet with other scripts gains what the payment and the
coinbase of the block pay to it, and nothing else. -/
theorem payment_delivers {B : Bitcoinx} {T : Set Tx} {R : Set Bytes} {reward : ℤ} {towers : List Tower}
    {depth : ℕ} (hB : Idealised B) (hlim : SpendsWithin B) (hstd : StandardP2pkh B) (hnull : NullCoinbase B)
    (hinj : Set.InjOn B.txHash T) (hhash : Set.InjOn (headerHash B) R)
    (hcb : ∀ value script height extra, B.isCoinbase (makeCoinbase value script height extra) = true)
    (hR : (EmbeddedNode.init B reward towers).genesis ∈ R) (hseq : ∀ s ∈ T, s.Sequenced)
    (hcount : ∀ s ∈ T, s.outputs.length ≤ 0xFFFFFFFF) {ws : WalletScripts} (hws : WalletScripts.Registered B ws)
    {targetPubkey changePubkey : PublicKey} {amount feePerByte : ℤ} (hfpb : 0 ≤ feePerByte)
    {before : List RaceCall} (hc : Along (EmbeddedNode.raceCall B (depth+1)) (RaceAllowed B T R)
      (EmbeddedNode.init B reward towers) before) {n n₁ n₂ : EmbeddedNode}
    (hn : run (EmbeddedNode.raceCall B (depth+1)) (EmbeddedNode.init B reward towers) before = n)
    (hempty : n.mempool.allTxs = []) (r : ScriptRows n.utxos) {tx : Tx} {fee : ℤ}
    (hprep : preparePayment B ws targetPubkey amount changePubkey feePerByte (ws.refresh r) =
      .ok (tx,fee))
    (hsub : MiningCall B T R n (.submitTx tx)) (hn₁ : (n.call B (depth+1) (.submitTx tx)).1 = n₁)
    {script : Script} {extra : Bytes} {timestamp : ℕ}
    (hgen : MiningCall B T R n₁ (.generateBlock script true extra timestamp))
    (hn₂ : (n₁.call B (depth+1) (.generateBlock script true extra timestamp)).1 = n₂)
    (hblock : (n₁.call B (depth+1) (.generateBlock script true extra timestamp)).2.hasBlock = true) :
    0 ≤ fee ∧
    (∃ reason, payP2pkh B ws targetPubkey amount changePubkey feePerByte (depth+1) n r =
      some (n₁,.ok ⟨tx,fee,true,reason⟩)) ∧
    ∀ r₂ : ScriptRows n₂.utxos,
      ((ws.keysFor (p2pkhScript B changePubkey)).isSome = true →
        ws.confirmedBalance r₂ = ws.confirmedBalance r - (amount + fee) +
          ws.worthOf [⟨amount,p2pkhScript B targetPubkey⟩,⟨n.coinbaseReward + fee,script⟩]) ∧
      ∀ v : WalletScripts, (∀ s, (ws.keysFor s).isSome = true → v.keysFor s = none) →
        v.keysFor (p2pkhScript B changePubkey) = none →
        v.confirmedBalance r₂ = v.confirmedBalance r +
          v.worthOf [⟨amount,p2pkhScript B targetPubkey⟩,⟨n.coinbaseReward + fee,script⟩] := by
  obtain ⟨L,hM⟩ : ∃ L : List Tx, Mining B T R {t | t ∈ L} n :=
    ⟨_,hn ▸ (reflects_run hinj hhash hcb hR hc).1⟩
  have ha := amount_nonneg hprep
  have hkeys : ∀ u ∈ ws.refresh r, ∃ entry, ws.keysFor u.scriptPubkey = some entry :=
    fun u hu => keysFor_of_mem_refresh hu
  have hpay : payP2pkh B ws targetPubkey amount changePubkey feePerByte (depth+1) n r =
      (n.submitTx B (depth+1) tx).map fun out =>
        (out.1,out.2.map fun result => ⟨tx,fee,result.ok,result.reason⟩) := by
    rw [payP2pkh,hprep]
  obtain ⟨chosen,hne,hchosen,hpos,hbuilt,rfl⟩ := preparePayment_ok ha hkeys hprep
  have hfound : ∀ u ∈ chosen, u ∈ ws.refresh r := fun u hu => hchosen.subset hu
  have hun : ∀ u ∈ chosen, n.utxos.lookup u.outpoint = some u.toUtxoEntry := fun u hu =>
    (mem_refresh.mp (hfound u hu)).1
  have hown : ∀ p ∈ ws.keyed chosen, Owned B n.utxos p := by
    intro p hp
    obtain ⟨u,hu,rfl⟩ := List.mem_map.mp hp
    exact hws.owns hM hcount (hfound u hu)
  obtain ⟨hok,hfinal,hfee⟩ := buildSpend_valid hB hlim hstd hnull hne hown (by simpa using ha) hfpb hbuilt
  obtain ⟨rest,hbal⟩ := (buildSpend_accounted hbuilt).2.balanced hfpb
  -- the submission: the mempool then has the payment and nothing else
  have hopp : Unopposed n tx := ⟨by simp [hempty],by simp [hempty]⟩
  obtain ⟨m,res,hsubmit,hr,hmem,honly⟩ := hM.submit_settles depth hinj hseq hsub hfinal hok hopp
  have hnode : n₁ = { n with mempool := m } := by
    rw [← hn₁,EmbeddedNode.call,hsubmit]
  subst hnode
  have hM₁ : Mining B T R {t | t ∈ L} { n with mempool := m } := by
    obtain ⟨⟨m',out⟩,hadm,hp⟩ := Option.map_eq_some_iff.mp hsubmit
    cases hp
    exact hM.submit hsub hadm
  have hone : m.allTxs = [tx] := by
    refine List.perm_singleton.mp ((List.perm_ext_iff_of_nodup ?_ (List.nodup_singleton tx)).mpr
      fun s => ?_)
    · refine hM₁.consistent.allTxs_apart.imp fun hst he => ?_
      subst he
      exact hst.2 rfl
    · rw [List.mem_singleton]
      refine ⟨fun hs => ?_,fun hs => hs ▸ hmem⟩
      have hcase := honly s hs
      rw [hempty] at hcase
      exact hcase.resolve_right (List.not_mem_nil)
  -- the block
  obtain ⟨coinbase,hcoin,hasm,hutxos⟩ := hM₁.block_of_one hcb hone hok hgen hblock
  rw [hn₂] at hutxos
  have hnodup : tx.outpoints.Nodup := by
    rw [hbal.spends]
    obtain ⟨l,hperm,hl⟩ := hchosen
    refine List.Nodup.map_on (fun u hu u' hu' he => ?_) (hperm.nodup_iff.mp (nodup_refresh.sublist hl))
    have hentry := hun u hu
    rw [he,hun u' hu'] at hentry
    obtain ⟨e,txid,vout⟩ := u
    obtain ⟨e',txid',vout'⟩ := u'
    obtain ⟨rfl,rfl⟩ := Prod.mk.inj he
    cases hentry
    rfl
  have hvalue : ∀ o ∈ tx.outpoints, n.utxos.valueAt o ≠ 0 := by
    rw [hbal.spends]
    intro o ho
    obtain ⟨u,hu,rfl⟩ := List.mem_map.mp ho
    rw [UtxoSet.valueAt,Finmap.weightAt_of_lookup _ _ (hun u hu)]
    exact (hpos u hu).ne'
  refine ⟨hbal.fee_nonneg,⟨res.reason,?_⟩,fun r₂ => ?_⟩
  · rw [hpay,hsubmit,← hr]
    rfl
  have heffect : ∀ v : WalletScripts, v.confirmedBalance r₂ = v.confirmedBalance r +
      v.worthOf [⟨amount,p2pkhScript B targetPubkey⟩,⟨n.coinbaseReward +
        (totalIn (ws.keyed chosen) - tx.totalOutputValue),script⟩] + v.worthOf rest -
      v.worthOf (chosen.map fun u => u.asTxOutput) := by
    intro v
    refine hbal.effect hun (hfee ▸ hcoin) ?_ r r₂
    rw [hutxos]
    exact hasm.weight_worth hinj hM₁.origin hM₁.known hM₁.sealed hnodup hvalue
  refine ⟨fun hchange => ?_,fun v hapart hchange => ?_⟩
  · have hspent : ws.worthOf (chosen.map fun u => u.asTxOutput) = valueOf chosen := by
      rw [worthOf_own (List.forall_mem_map.mpr fun u hu => (mem_refresh.mp (hfound u hu)).2),List.map_map]
      rfl
    have hrest : ws.worthOf rest = (rest.map TxOutput.value).sum :=
      worthOf_own fun out ho => by rw [hbal.change out ho]; exact hchange
    have hfee' := hbal.fee_eq
    rw [heffect,hspent,hrest]
    dsimp only at hfee' ⊢
    omega
  · have hspent : v.worthOf (chosen.map fun u => u.asTxOutput) = 0 :=
      worthOf_foreign (List.forall_mem_map.mpr fun u hu => hapart _ (mem_refresh.mp (hfound u hu)).2)
    have hrest : v.worthOf rest = 0 :=
      worthOf_foreign fun out ho => by rw [hbal.change out ho]; exact hchange
    rw [heffect,hspent,hrest]
    omega

namespace Reference

theorem spendsWithin : SpendsWithin (reference anyone) := fun _ _ _ _ _ => rfl

theorem standardP2pkh (made : Bytes → Bytes → Bool) : StandardP2pkh (reference made) := fun _ => rfl

/-- What the miner has, and its payment of 100 satoshis. -/
def minerCoin : WalletUtxo := ⟨⟨5000,minerScript,1⟩,(reference anyone).txHash (makeCoinbase 5000 minerScript 1 []),0⟩

def minerPayment : Tx × ℤ :=
  (preparePayment (reference anyone) minerScripts (publicKey (sampleKey 2)) 100 (publicKey (sampleKey 1)) 1
    [minerCoin]).toOption.getD (⟨1,[],[],0⟩,0)

/-- The wallet it pays to. -/
def payeeScripts : WalletScripts := WalletScripts.addP2pkh (reference anyone) ⟨∅⟩ 0 1 (sampleKey 2)

def payCalls : List RaceCall :=
  minerCalls ++ [.node (.submitTx minerPayment.1),.node (.generateBlock trueScript true [] 2)]

abbrev payingNode : EmbeddedNode :=
  (minerNode.call (reference anyone) 1 (.submitTx minerPayment.1)).1

abbrev paidNode : EmbeddedNode :=
  (payingNode.call (reference anyone) 1 (.generateBlock trueScript true [] 2)).1

def payTxs : List Tx :=
  [makeCoinbase 5000 minerScript 1 [],minerPayment.1,makeCoinbase (5000 + minerPayment.2) trueScript 2 []]

def payHeaders : List Bytes := activeHeaders anyone paidNode

/-- One evaluation of the run gives all that is needed of it. -/
theorem pay_facts : SampleRun payTxs payHeaders payCalls ∧
    (∀ s ∈ payTxs, s.outputs.length ≤ 0xFFFFFFFF) ∧
    minerNode.utxos = Finmap.insert minerCoin.outpoint minerCoin.toUtxoEntry ∅ ∧
    (minerScripts.keysFor minerCoin.scriptPubkey).isSome = true ∧ minerNode.mempool.allTxs = [] ∧
    preparePayment (reference anyone) minerScripts (publicKey (sampleKey 2)) 100
      (publicKey (sampleKey 1)) 1 [minerCoin] = .ok (minerPayment.1,minerPayment.2) ∧
    (payingNode.call (reference anyone) 1 (.generateBlock trueScript true [] 2)).2.hasBlock = true ∧
    payeeScripts.keysFor minerScript = none ∧
    payeeScripts.worthOf [⟨100,p2pkhScript (reference anyone) (publicKey (sampleKey 2))⟩,
      ⟨minerNode.coinbaseReward + minerPayment.2,trueScript⟩] = 100 := by
  decide +kernel

theorem refresh_miner : minerScripts.refresh (someRows minerNode.utxos) = [minerCoin] := by
  obtain ⟨_,_,hutxos,hkey,_⟩ := pay_facts
  refine List.perm_singleton.mp ((List.perm_ext_iff_of_nodup nodup_refresh
    (List.nodup_singleton _)).mpr fun u => ?_)
  rw [mem_refresh,List.mem_singleton]
  constructor
  · rintro ⟨hu,_⟩
    by_cases ho : u.outpoint = minerCoin.outpoint
    · rw [hutxos,ho,Finmap.lookup_insert] at hu
      obtain ⟨e,txid,vout⟩ := u
      obtain ⟨rfl,rfl⟩ := Prod.mk.inj ho
      cases hu
      rfl
    · rw [hutxos,Finmap.lookup_insert_of_ne _ ho] at hu
      cases hu
  · rintro rfl
    rw [hutxos,Finmap.lookup_insert]
    exact ⟨rfl,hkey⟩

theorem miner_payee_apart (s : Script) (hs : (minerScripts.keysFor s).isSome = true) :
    payeeScripts.keysFor s = none := by
  have hminer : (if minerScript = s then some (0,0,sampleKey 1) else none).isSome = true := by
    rw [← hs,minerScripts,WalletScripts.keysFor,WalletScripts.addP2pkh,Dict.get?_set]
    rfl
  split_ifs at hminer with he
  · rw [← he]
    exact pay_facts.2.2.2.2.2.2.2.1
  · cases hminer

end Reference

open Reference in
/-- The wallet that the miner pays has 100 satoshis more. -/
theorem payment_delivers_sample : payeeScripts.confirmedBalance (someRows paidNode.utxos) =
    payeeScripts.confirmedBalance (someRows minerNode.utxos) + 100 := by
  obtain ⟨hrun,hcount,_,_,hempty,hprep,hblock,hother,hgain⟩ := pay_facts
  obtain ⟨hbefore,hsub,hgen,_⟩ := (along_append _ _ _ minerCalls _).mp hrun.allowed
  have hfound : preparePayment (reference anyone) minerScripts (publicKey (sampleKey 2)) 100
      (publicKey (sampleKey 1)) 1 (minerScripts.refresh (someRows minerNode.utxos)) =
        .ok (minerPayment.1,minerPayment.2) := by
    rw [refresh_miner]
    exact hprep
  have hcount' : ∀ s ∈ {t | t ∈ payTxs}, s.outputs.length ≤ 0xFFFFFFFF := hcount
  obtain ⟨_,_,hmoves⟩ := payment_delivers idealised spendsWithin (standardP2pkh anyone) (nullCoinbase anyone)
    hrun.txids hrun.headers (isCoinbase_makeCoinbase _) hrun.start hrun.sequenced hcount'
    (.add .empty 0 0 (sampleKey 1)) (by decide) hbefore rfl hempty (someRows minerNode.utxos) hfound
    hsub rfl hgen rfl hblock
  rw [((hmoves (someRows paidNode.utxos)).2 payeeScripts miner_payee_apart hother),hgain]

end SubsatChannel
