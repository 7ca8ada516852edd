import SubsatChannel.Lib.FinmapSum
import SubsatChannel.Node.Unspent
import SubsatChannel.Wallet.Send

/-! The balance a wallet shows: what the mined transactions pay to its scripts and none has spent. -/
namespace SubsatChannel
open Transition

/-- `confirmed_balance`, over what a refresh finds. -/
def WalletScripts.confirmedBalance (ws : WalletScripts) {U : UtxoSet} (r : ScriptRows U) : ℤ :=
  (((ws.refresh r).filter fun e => 0 ≤ e.height).map fun e => e.value).sum

/-- The satoshis of an output when the wallet has its script. -/
def WalletScripts.worth (ws : WalletScripts) (out : TxOutput) : ℤ :=
  if (ws.keysFor out.scriptPubkey).isSome then out.value else 0

/-- What a transaction has paid the wallet that is still unspent, by a list of mined transactions. -/
def unspentWorth (B : Bitcoinx) (L : List Tx) (ws : WalletScripts) (t : Tx) : ℤ :=
  ((List.range t.outputs.length).map fun i => ((ledgerOutput B L t i).map ws.worth).getD 0).sum

section Refresh
variable {ws : WalletScripts} {U : UtxoSet} {r : ScriptRows U}

theorem mem_refresh {u : WalletUtxo} : u ∈ ws.refresh r ↔
    U.lookup u.outpoint = some u.toUtxoEntry ∧ (ws.keysFor u.scriptPubkey).isSome = true := by
  rw [WalletScripts.refresh,List.mem_flatMap]
  constructor
  · rintro ⟨s,hs,hrow⟩
    obtain ⟨hu,rfl⟩ := (r.mem_iff s u).mp hrow
    obtain ⟨⟨_,entry⟩,hitem,rfl⟩ := List.mem_map.mp hs
    have hkey : ws.keysFor u.scriptPubkey = some entry := Dict.mem_items_iff.mp hitem
    exact ⟨hu,by rw [hkey]; rfl⟩
  · rintro ⟨hu,hkey⟩
    obtain ⟨entry,hentry⟩ := Option.isSome_iff_exists.mp hkey
    exact ⟨u.scriptPubkey,List.mem_map.mpr ⟨_,Dict.mem_items_iff.mpr hentry,rfl⟩,
      (r.mem_iff _ u).mpr ⟨hu,rfl⟩⟩

/-- A refresh finds no output twice. -/
theorem nodup_refresh : (ws.refresh r).Nodup := by
  refine List.nodup_flatMap.mpr ⟨fun s _ => r.nodup s,ws.byScript.nodup.imp fun {s s'} hne u hu hu' => ?_⟩
  exact hne (((r.mem_iff s u).mp hu).2.symm.trans ((r.mem_iff s' u).mp hu').2)

/-- The balance is the weight of the table at the scripts of the wallet. -/
theorem confirmedBalance_eq : ws.confirmedBalance r = U.weight fun e => ws.worth e.asTxOutput := by
  have hall : ((ws.refresh r).filter fun e => 0 ≤ e.height) = ws.refresh r :=
    List.filter_eq_self.mpr fun e _ => decide_eq_true (Nat.zero_le e.height)
  have hinj : Function.Injective fun u : WalletUtxo =>
      (⟨u.outpoint,u.toUtxoEntry⟩ : Sigma fun _ : Outpoint => UtxoEntry) := by
    rintro ⟨e,txid,vout⟩ ⟨e',txid',vout'⟩ he
    cases he
    rfl
  rw [WalletScripts.confirmedBalance,hall]
  refine Finmap.sum_map_eq_weight UtxoEntry.value U
    (p := fun e => (ws.keysFor e.scriptPubkey).isSome = true) hinj nodup_refresh fun s => ?_
  obtain ⟨⟨txid,vout⟩,e⟩ := s
  constructor
  · rintro ⟨u,hu,he⟩
    cases he
    exact mem_refresh.mp hu
  · intro h
    exact ⟨⟨e,txid,vout⟩,mem_refresh.mpr h,rfl⟩

end Refresh

section Ledger
variable {B : Bitcoinx} {T : Set Tx} {L : List Tx} {U : UtxoSet} {ws : WalletScripts}

/-- A transaction that pays nothing is worth nothing. -/
theorem unspentWorth_of_not_rich {t : Tx} (h : ¬ t.Rich) : unspentWorth B L ws t = 0 := by
  refine List.sum_eq_zero fun x hx => ?_
  obtain ⟨i,_,rfl⟩ := List.mem_map.mp hx
  cases hl : ledgerOutput B L t i with
  | none => rfl
  | some out =>
    have hout : out ∈ t.outputs := by
      rw [ledgerOutput] at hl
      split_ifs at hl
      exact List.mem_of_getElem? hl
    have hzero : out.value = 0 := by
      by_contra hne
      exact h ⟨out,hout,hne⟩
    simp [WalletScripts.worth,hzero]

theorem nodup_created (hinj : Set.InjOn B.txHash T) {l : List Tx} (hl : l.Nodup) (hT : ∀ t ∈ l, t ∈ T) :
    (l.flatMap (UtxoSet.createdBy B)).Nodup := by
  refine List.nodup_flatMap.mpr ⟨fun t _ => ?_,hl.imp_of_mem fun {s t} hs ht hne o hos hot => ?_⟩
  · refine List.Nodup.map (fun i j hij => ?_) List.nodup_range
    exact (Prod.mk.inj hij).2
  · have hid := (UtxoSet.mem_createdBy.mp hos).1.symm.trans (UtxoSet.mem_createdBy.mp hot).1
    exact hne (hinj (hT s hs) (hT t ht) hid)

/-- The weight of the table is what the mined transactions leave to the wallet. -/
theorem Reflects.weight_worth (h : Reflects B T L U) (hinj : Set.InjOn B.txHash T)
    (horigin : Originates B {t | t ∈ L} U) (hknown : ∀ t ∈ L, t ∈ T)
    (honce : ∀ t : Tx, t.Rich → L.count t ≤ 1) :
    U.weight (fun e => ws.worth e.asTxOutput) = (L.map (unspentWorth B L ws)).sum := by
  have hrich : ∀ t ∈ L.filter fun t => decide t.Rich, t ∈ T ∧ t.Rich := fun t ht => by
    obtain ⟨hL,hr⟩ := List.mem_filter.mp ht
    exact ⟨hknown t hL,of_decide_eq_true hr⟩
  have hnodup : (L.filter fun t => decide t.Rich).Nodup := by
    refine List.nodup_iff_count_le_one.mpr fun t => ?_
    by_cases hr : t.Rich
    · exact (List.filter_sublist.count_le t).trans (honce t hr)
    · rw [List.count_eq_zero_of_not_mem fun hm => hr (hrich t hm).2]
      exact Nat.zero_le 1
  -- only transactions that pay something have outputs with a weight
  have hcover : ∀ o e, U.lookup o = some e → ws.worth e.asTxOutput ≠ 0 →
      o ∈ ((L.filter fun t => decide t.Rich).flatMap (UtxoSet.createdBy B)).toFinset := by
    intro o e he hw
    obtain ⟨t,ht,hid,hout⟩ := horigin o e he
    have hr : t.Rich := ⟨_,List.mem_of_getElem? hout,fun hzero => hw (by simp [WalletScripts.worth,hzero])⟩
    rw [List.mem_toFinset,List.mem_flatMap]
    exact ⟨t,List.mem_filter.mpr ⟨ht,decide_eq_true hr⟩,
      UtxoSet.mem_createdBy.mpr ⟨hid.symm,(List.getElem?_eq_some_iff.mp hout).1⟩⟩
  have hat : ∀ t ∈ L.filter fun t => decide t.Rich, (((UtxoSet.createdBy B t).map
      (U.weightAt fun e => ws.worth e.asTxOutput)).sum : ℤ) = unspentWorth B L ws t := by
    intro t ht
    rw [UtxoSet.createdBy,List.map_map,unspentWorth]
    refine congrArg List.sum (List.map_congr_left fun i _ => ?_)
    rw [← h.agrees t (hrich t ht).1 (hrich t ht).2 i,Option.map_map]
    rfl
  have hdrop : ∀ l : List Tx, ((l.filter fun t => decide t.Rich).map (unspentWorth B L ws)).sum =
      (l.map (unspentWorth B L ws)).sum := by
    intro l
    induction l with
    | nil => rfl
    | cons t l ih =>
      by_cases hr : t.Rich
      · rw [List.filter_cons_of_pos (by simpa using hr),List.map_cons,List.sum_cons,ih]
        rfl
      · rw [List.filter_cons_of_neg (by simpa using hr),ih,List.map_cons,List.sum_cons,
          unspentWorth_of_not_rich hr,zero_add]
  rw [Finmap.weight_eq_sum _ U hcover,List.sum_toFinset _ (nodup_created hinj hnodup fun t ht =>
    (hrich t ht).1),← hdrop L,List.map_flatMap,List.flatMap_def,List.sum_flatten,
    List.map_map]
  exact congrArg List.sum (List.map_congr_left hat)

end Ledger

/-- After every run of submissions and mined blocks the balance that a wallet shows is the sum of what
the mined transactions paid to its scripts and no mined transaction has spent. The order in which the
database lists the rows plays no part. -/
theorem balance_exact {B : Bitcoinx} {T : Set Tx} {R : Set Bytes} {reward : ℤ} {towers : List Tower}
    {depth : ℕ} (hinj : Set.InjOn B.txHash T) (hhash : Set.InjOn (headerHash B) R)
    (hcb : ∀ value script height extra, B.isCoinbase (makeCoinbase value script height extra) = true)
    (hR : (EmbeddedNode.init B reward towers).genesis ∈ R) {calls : List RaceCall}
    (hc : Along (EmbeddedNode.raceCall B depth) (RaceAllowed B T R)
      (EmbeddedNode.init B reward towers) calls) (ws : WalletScripts)
    (r : ScriptRows (run (EmbeddedNode.raceCall B depth) (EmbeddedNode.init B reward towers)
      calls).utxos) :
    ws.confirmedBalance r =
      ((minedIn (trace (EmbeddedNode.raceCall B depth) (EmbeddedNode.init B reward towers) calls)).map
        (unspentWorth B (minedIn (trace (EmbeddedNode.raceCall B depth)
          (EmbeddedNode.init B reward towers) calls)) ws)).sum := by
  obtain ⟨hM,hr⟩ := reflects_run hinj hhash hcb hR hc
  have honce := (once_run hinj hhash hcb hR hc).2
  rw [confirmedBalance_eq]
  exact hr.weight_worth hinj hM.origin hM.known honce

namespace Reference

/-- Some answers of the database. -/
noncomputable def someRows (U : UtxoSet) : ScriptRows U where
  rows s := ((U.entries.filter fun x => x.2.scriptPubkey = s).map fun x =>
    (⟨x.2,x.1.1,x.1.2⟩ : WalletUtxo)).toList
  nodup s := by
    rw [← Multiset.coe_nodup,Multiset.coe_toList]
    refine Multiset.Nodup.map ?_ (U.nodup_entries.filter _)
    rintro ⟨⟨txid,vout⟩,e⟩ ⟨⟨txid',vout'⟩,e'⟩ he
    cases he
    rfl
  mem_iff s u := by
    rw [Multiset.mem_toList,Multiset.mem_map]
    constructor
    · rintro ⟨x,hx,rfl⟩
      obtain ⟨hin,hs⟩ := Multiset.mem_filter.mp hx
      exact ⟨(Finmap.mem_entries_iff U x).mp hin,hs⟩
    · rintro ⟨hu,hs⟩
      exact ⟨⟨u.outpoint,u.toUtxoEntry⟩,Multiset.mem_filter.mpr ⟨(Finmap.mem_entries_iff U _).mpr hu,hs⟩,rfl⟩

/-- A wallet that mines a block for itself. -/
def minerScripts : WalletScripts := WalletScripts.addP2pkh (reference anyone) ⟨∅⟩ 0 0 (sampleKey 1)

def minerScript : Script := p2pkhScript (reference anyone) (publicKey (sampleKey 1))
def minerCalls : List RaceCall := [.node (.generateBlock minerScript true [] 1)]
def minerTxs : List Tx := [makeCoinbase 5000 minerScript 1 []]

abbrev minerNode : EmbeddedNode :=
  run (EmbeddedNode.raceCall (reference anyone) 1) (sampleNode anyone []) minerCalls

def minerHeaders : List Bytes := activeHeaders anyone minerNode

end Reference

open Reference in
theorem balance_exact_sample : minerScripts.confirmedBalance (someRows minerNode.utxos) = 5000 := by
  have hrun : SampleRun minerTxs minerHeaders minerCalls := by decide +kernel
  refine (balance_exact hrun.txids hrun.headers (isCoinbase_makeCoinbase _) hrun.start hrun.allowed
    minerScripts _).trans ?_
  decide +kernel

end SubsatChannel
