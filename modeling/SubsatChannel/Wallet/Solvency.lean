import SubsatChannel.Wallet.Accounting
import SubsatChannel.Wallet.CoinSelection
import SubsatChannel.Wallet.Send
import SubsatChannel.Watchtower.Reactions

/-! When a wallet that could pay does pay. -/
namespace SubsatChannel
open GreedyCover

/-- The size of a length prefix. -/
def varintSize (n : ℕ) : ℕ :=
  if n < 0xFD then 1 else if n ≤ 0xFFFF then 3 else if n ≤ 0xFFFFFFFF then 5 else 9

/-- How `bitcoinx` serialises a transaction with unsigned inputs and P2PKH outputs: four bytes for the
version and for the lock time, two prefixed lists, and no script in an input. -/
def P2pkhSizes (B : Bitcoinx) : Prop :=
  ∀ tx : Tx, (∀ tin ∈ tx.inputs, tin.scriptSig = []) →
    (∀ tout ∈ tx.outputs, ∃ pk, tout.scriptPubkey = B.p2pkhScript pk) →
    (B.txToBytes tx).length = 8 + varintSize tx.inputs.length +
      (tx.inputs.map fun tin => tin.prevHash.length + 9).sum + varintSize tx.outputs.length +
      34 * tx.outputs.length

/-- The bytes for which a P2PKH payment with change is charged when it spends the given outputs. -/
def paymentSize (utxos : List WalletUtxo) : ℕ :=
  77 + varintSize utxos.length + (utxos.map fun u => u.txid.length + 9).sum + 108 * utxos.length

section Wallet
variable (B : Bitcoinx) (ws : WalletScripts) (targetPubkey : PublicKey) (amount : ℤ)
  (changePubkey : PublicKey) (feePerByte : ℤ)

/-- Some of the outputs cover the amount and the fee for spending them. -/
def Solvent (utxos : List WalletUtxo) : Prop :=
  ∃ chosen : List WalletUtxo, chosen ≠ [] ∧ chosen.Subperm utxos ∧
    Covered B (ws.keyed chosen) [⟨amount,p2pkhScript B targetPubkey⟩] changePubkey feePerByte

/-- `pay_p2pkh` selects inputs, builds the payment and does not raise. -/
def Pays (node : EmbeddedNode) (r : ScriptRows node.utxos) : Prop :=
  (∃ tx fee, preparePayment B ws targetPubkey amount changePubkey feePerByte (ws.refresh r) = .ok (tx,fee)) ∧
  ∀ depth node' out, payP2pkh B ws targetPubkey amount changePubkey feePerByte depth node r =
    some (node',out) → ∃ result, out = .ok result

end Wallet

/-- The numbers of a payment out of the chosen outputs fit their fields: the amount, the indices and the values
of the outputs, and what is left for the change. -/
structure PaymentFits (chosen : List WalletUtxo) (amount feePerByte : ℤ) : Prop where
  requested : amount < 2^63
  spent : ∀ u ∈ chosen, u.vout < 2^32 ∧ u.value < 2^63
  left : valueOf chosen < amount + paymentSize chosen * feePerByte + 2^63

/-- The largest outputs that just reach the amount and the headroom of 1000 satoshis also cover the amount
and the fee for spending them, and the payment out of them can be signed. -/
def HeadroomSuffices (utxos : List WalletUtxo) (amount feePerByte : ℤ) : Prop :=
  ∃ m < utxos.length, valueOf ((sortedUtxos utxos).take m) < amount + 1000 ∧
    amount + max 1000 (paymentSize ((sortedUtxos utxos).take (m+1)) * feePerByte) ≤
      valueOf ((sortedUtxos utxos).take (m+1)) ∧
    PaymentFits ((sortedUtxos utxos).take (m+1)) amount feePerByte

section Fee
variable {B : Bitcoinx} {ws : WalletScripts} {targetPubkey changePubkey : PublicKey} {amount feePerByte : ℤ}

theorem totalIn_keyed (utxos : List WalletUtxo) : totalIn (ws.keyed utxos) = valueOf utxos := by
  rw [totalIn,WalletScripts.keyed,List.map_map]
  rfl

theorem roughSize_p2pkh (hB : P2pkhSizes B) (utxos : List WalletUtxo) :
    roughSize B (ws.keyed utxos) [⟨amount,p2pkhScript B targetPubkey⟩] changePubkey = paymentSize utxos := by
  have hinputs : ∀ tin ∈ unsignedInputs (ws.keyed utxos), tin.scriptSig = [] := by
    intro tin htin
    obtain ⟨p,_,rfl⟩ := List.mem_map.mp htin
    rfl
  have houtputs : ∀ tout ∈ ([⟨amount,p2pkhScript B targetPubkey⟩,⟨0,p2pkhScript B changePubkey⟩] :
      List TxOutput), ∃ pk, tout.scriptPubkey = B.p2pkhScript pk := by
    intro tout htout
    cases List.mem_pair.mp htout with
    | inl h => exact ⟨targetPubkey,by rw [h]; rfl⟩
    | inr h => exact ⟨changePubkey,by rw [h]; rfl⟩
  have hlen : (ws.keyed utxos).length = utxos.length := List.length_map _
  have hcount : (unsignedInputs (ws.keyed utxos)).length = utxos.length := by
    rw [unsignedInputs,List.length_map,hlen]
  have hprev : ((unsignedInputs (ws.keyed utxos)).map fun tin => tin.prevHash.length + 9) =
      utxos.map fun u => u.txid.length + 9 := by
    rw [unsignedInputs,WalletScripts.keyed,List.map_map,List.map_map]
    rfl
  have htwo : varintSize 2 = 1 := rfl
  have hsize : (B.txToBytes ⟨1,unsignedInputs (ws.keyed utxos),
      [⟨amount,p2pkhScript B targetPubkey⟩,⟨0,p2pkhScript B changePubkey⟩],0⟩).length =
      8 + varintSize utxos.length + (utxos.map fun u => u.txid.length + 9).sum + varintSize 2 + 34 * 2 := by
    rw [hB _ hinputs houtputs]
    dsimp only
    rw [hprev,hcount]
    rfl
  rw [roughSize,Tx.size,provisionalTx,List.singleton_append,hsize,hlen,paymentSize,htwo]
  omega

/-- What it takes to cover a payment. -/
theorem covered_keyed_iff (hB : P2pkhSizes B) (utxos : List WalletUtxo) :
    Covered B (ws.keyed utxos) [⟨amount,p2pkhScript B targetPubkey⟩] changePubkey feePerByte ↔
      amount + paymentSize utxos * feePerByte ≤ valueOf utxos := by
  rw [Covered,estimatedFee,roughSize_p2pkh hB,totalIn_keyed,List.map_singleton,List.sum_singleton]

/-- What it takes for the numbers of a payment to fit. -/
theorem paymentFits_keyed_iff (hB : P2pkhSizes B) (utxos : List WalletUtxo) :
    (Estimable (ws.keyed utxos) [⟨amount,p2pkhScript B targetPubkey⟩] ∧
      Signable B (ws.keyed utxos) [⟨amount,p2pkhScript B targetPubkey⟩] changePubkey feePerByte
        defaultDustThreshold) ↔ PaymentFits utxos amount feePerByte := by
  have hvouts : (∀ p ∈ ws.keyed utxos, p.1.vout < 2^32) ↔ ∀ u ∈ utxos, u.vout < 2^32 := List.forall_mem_map
  have hvalues : (∀ p ∈ ws.keyed utxos, p.1.value < 2^63) ↔ ∀ u ∈ utxos, u.value < 2^63 := List.forall_mem_map
  have hmax : max defaultDustThreshold (2^63) = 2^63 := by decide
  constructor
  · rintro ⟨hest,hsign⟩
    have hleft := hsign.left
    rw [estimatedFee,roughSize_p2pkh hB,totalIn_keyed,List.map_singleton,List.sum_singleton,hmax] at hleft
    exact ⟨hest.values _ List.mem_cons_self,fun u hu => ⟨hvouts.mp hest.vouts u hu,hvalues.mp hsign.spent u hu⟩,
      hleft⟩
  · intro h
    refine ⟨⟨hvouts.mpr fun u hu => (h.spent u hu).1,?_⟩,hvalues.mpr fun u hu => (h.spent u hu).2,?_⟩
    · rw [List.forall_mem_singleton]
      exact h.requested
    · rw [estimatedFee,roughSize_p2pkh hB,totalIn_keyed,List.map_singleton,List.sum_singleton,hmax]
      exact h.left

end Fee

section Prepare
variable {B : Bitcoinx} {ws : WalletScripts} {targetPubkey changePubkey : PublicKey} {amount feePerByte : ℤ}
  {utxos : List WalletUtxo}

/-- The headroom suffices exactly when the selection covers the payment. -/
theorem headroomSuffices_iff (ha : 0 ≤ amount) : HeadroomSuffices utxos amount feePerByte ↔
    ∃ k, Reaches (fun u => u.value) (amount + 1000) (sortedUtxos utxos) k ∧
      amount + paymentSize ((sortedUtxos utxos).take k) * feePerByte ≤
        valueOf ((sortedUtxos utxos).take k) ∧
      PaymentFits ((sortedUtxos utxos).take k) amount feePerByte := by
  have hlen : (sortedUtxos utxos).length = utxos.length := (sortedUtxos_perm utxos).length_eq
  constructor
  · rintro ⟨m,hm,hlow,hmax,hfits⟩
    have hreach : amount + 1000 ≤ valueOf ((sortedUtxos utxos).take (m+1)) := by omega
    refine ⟨m+1,.of_step (sortedUtxos_descending utxos) (by omega) hlow hreach,?_,hfits⟩
    omega
  · rintro ⟨k,hk,hfee,hfits⟩
    obtain ⟨m,rfl⟩ := Nat.exists_eq_succ_of_ne_zero (hk.pos (by omega)).ne'
    have hin := hk.within
    have hreach : amount + 1000 ≤ valueOf ((sortedUtxos utxos).take (m+1)) := hk.covers
    refine ⟨m,by omega,hk.least m (Nat.lt_succ_self m),?_,hfits⟩
    rw [Nat.succ_eq_add_one] at hfee
    omega

/-- What is selected is not empty, and every output of it is worth something. -/
theorem keyed_selected (ha : 0 ≤ amount) {k : ℕ}
    (hk : Reaches (fun u => u.value) (amount + 1000) (sortedUtxos utxos) k) :
    ws.keyed ((sortedUtxos utxos).take k) ≠ [] ∧
      ∀ p ∈ ws.keyed ((sortedUtxos utxos).take k), 0 ≤ p.1.value := by
  constructor
  · apply List.ne_nil_of_length_pos
    rw [WalletScripts.keyed,List.length_map,List.length_take_of_le hk.within]
    exact hk.pos (by omega)
  · intro p hp
    obtain ⟨u,hu,rfl⟩ := List.mem_map.mp hp
    exact (hk.needed_pos (sortedUtxos_descending utxos) u hu).le

/-- Once the inputs are selected, the payment is built exactly when they cover it and its numbers fit. -/
theorem preparePayment_of_reaches (hB : PacksFields B) (hsize : P2pkhSizes B) (ha : 0 ≤ amount) (hne : utxos ≠ [])
    (hkeys : ∀ u ∈ utxos, ∃ entry, ws.keysFor u.scriptPubkey = some entry) {k : ℕ}
    (hk : Reaches (fun u => u.value) (amount + 1000) (sortedUtxos utxos) k) :
    (∃ tx fee, preparePayment B ws targetPubkey amount changePubkey feePerByte utxos = .ok (tx,fee)) ↔
      Covered B (ws.keyed ((sortedUtxos utxos).take k)) [⟨amount,p2pkhScript B targetPubkey⟩] changePubkey
        feePerByte ∧ PaymentFits ((sortedUtxos utxos).take k) amount feePerByte := by
  have hfound : ∀ u ∈ (sortedUtxos utxos).take k, ∃ entry, ws.keysFor u.scriptPubkey = some entry :=
    fun u hu => hkeys u ((sortedUtxos_perm utxos).mem_iff.mp (List.mem_of_mem_take hu))
  have hout : ∀ o ∈ [(⟨p2pkhScript B targetPubkey,amount⟩ : FundingOutput)], 0 ≤ o.value := by
    intro o ho
    rw [List.mem_singleton.mp ho]
    exact ha
  obtain ⟨hsome,hvalues⟩ := @keyed_selected ws amount utxos ha k hk
  have hbuilds := @buildSpend_ok_iff B (ws.keyed ((sortedUtxos utxos).take k))
    [⟨amount,p2pkhScript B targetPubkey⟩] changePubkey feePerByte defaultDustThreshold "specified" hB hsome hvalues
    (by rw [List.forall_mem_singleton]; exact ha)
  rw [paymentFits_keyed_iff hsize] at hbuilds
  rw [← hbuilds,preparePayment,if_neg hne,selectUtxos_of_reaches (by omega) hk]
  simp only [bind,Except.bind,withKeys_eq hfound,buildAndSignPayment_eq hsome hvalues hout,
    List.map_singleton,FundingOutput.txOutput]
  cases buildSpend B (ws.keyed ((sortedUtxos utxos).take k)) [⟨amount,p2pkhScript B targetPubkey⟩]
      changePubkey feePerByte defaultDustThreshold "specified" with
  | error e =>
    refine iff_of_false ?_ ?_
    · rintro ⟨_,_,⟨⟩⟩
    · rintro ⟨_,⟨⟩⟩
  | ok tx => exact iff_of_true ⟨_,_,rfl⟩ ⟨tx,rfl⟩

/-- The payment is built exactly when the headroom suffices. -/
theorem preparePayment_iff (hB : PacksFields B) (hsize : P2pkhSizes B) (ha : 0 ≤ amount)
    (hkeys : ∀ u ∈ utxos, ∃ entry, ws.keysFor u.scriptPubkey = some entry) :
    (∃ tx fee, preparePayment B ws targetPubkey amount changePubkey feePerByte utxos = .ok (tx,fee)) ↔
      HeadroomSuffices utxos amount feePerByte := by
  rw [headroomSuffices_iff ha]
  by_cases hne : utxos = []
  · refine iff_of_false ?_ ?_
    · rintro ⟨tx,fee,h⟩
      rw [preparePayment,if_pos hne] at h
      cases h
    · rintro ⟨k,hk,_⟩
      have hin := hk.within
      have hpos := hk.pos (by omega)
      rw [(sortedUtxos_perm utxos).length_eq,hne,List.length_nil] at hin
      omega
  · by_cases hex : ∃ k, Reaches (fun u => u.value) (amount + 1000) (sortedUtxos utxos) k
    · obtain ⟨k,hk⟩ := hex
      rw [preparePayment_of_reaches hB hsize ha hne hkeys hk,covered_keyed_iff hsize]
      constructor
      · intro h
        exact ⟨k,hk,h⟩
      · rintro ⟨j,hj,h⟩
        rwa [hk.unique hj]
    · refine iff_of_false ?_ fun ⟨k,hk,_⟩ => hex ⟨k,hk⟩
      obtain ⟨e,he,_⟩ := selectUtxos_of_short (by omega) hex
      rintro ⟨tx,fee,h⟩
      rw [preparePayment,if_neg hne,he] at h
      cases h

end Prepare

section Pay
variable {B : Bitcoinx} {ws : WalletScripts} {targetPubkey changePubkey : PublicKey} {amount feePerByte : ℤ}
  {node : EmbeddedNode}

/-- Submitting a transaction with inputs to a consistent mempool does not raise. -/
theorem submitTx_ok (hm : node.mempool.Consistent B) {depth : ℕ} {tx : Tx} (hne : tx.inputs ≠ [])
    {node' : EmbeddedNode} {out : Except Fault ValidationResult}
    (h : node.submitTx B depth tx = some (node',out)) : ∃ result, out = .ok result := by
  obtain ⟨r,hr,hout⟩ := Option.map_eq_some_iff.mp h
  cases depth with
  | zero => cases hr
  | succ depth =>
    cases admit_spec node.utxos depth hm tx with
    | inl hrefused =>
      obtain ⟨_,r',hok,hresult⟩ := hrefused
      obtain ⟨result,rfl⟩ := hok hne
      rw [hr] at hresult
      cases hresult
      cases hout
      exact ⟨result,rfl⟩
    | inr htaken =>
      obtain ⟨m,event,_,_,hresult⟩ := htaken
      rw [hr] at hresult
      obtain ⟨m',_,hpair⟩ := Option.map_eq_some_iff.mp hresult.symm
      cases hpair
      cases hout
      exact ⟨_,rfl⟩

/-- A prepared payment spends something. -/
theorem preparePayment_inputs {utxos : List WalletUtxo} {tx : Tx} {fee : ℤ}
    (h : preparePayment B ws targetPubkey amount changePubkey feePerByte utxos = .ok (tx,fee)) :
    tx.inputs ≠ [] := by
  rw [preparePayment] at h
  split_ifs at h
  obtain ⟨selected,_,h⟩ := bind_eq_ok.mp h
  obtain ⟨keyed,_,h⟩ := bind_eq_ok.mp h
  obtain ⟨built,hbuilt,h⟩ := bind_eq_ok.mp h
  cases h
  rw [buildAndSignPayment] at hbuilt
  split_ifs at hbuilt with hne
  obtain ⟨_,_,hbuilt⟩ := bind_eq_ok.mp hbuilt
  obtain ⟨_,_,hbuilt⟩ := bind_eq_ok.mp hbuilt
  have hspends := congrArg List.length (buildSpend_accounted hbuilt).2.spends
  rw [Tx.outpoints,List.length_map,List.length_map] at hspends
  intro hnil
  rw [hnil,List.length_nil] at hspends
  exact hne (List.eq_nil_of_length_eq_zero hspends.symm)

theorem pays_iff (hB : PacksFields B) (hsize : P2pkhSizes B) (hm : node.mempool.Consistent B) (ha : 0 ≤ amount)
    (r : ScriptRows node.utxos) : Pays B ws targetPubkey amount changePubkey feePerByte node r ↔
      HeadroomSuffices (ws.refresh r) amount feePerByte := by
  have hprep := @preparePayment_iff B ws targetPubkey changePubkey amount feePerByte (ws.refresh r) hB hsize ha
    fun u hu => keysFor_of_mem_refresh hu
  refine ⟨fun h => hprep.mp h.1,fun h => ⟨hprep.mpr h,fun depth node' out hpay => ?_⟩⟩
  obtain ⟨tx,fee,htx⟩ := hprep.mpr h
  rw [payP2pkh,htx] at hpay
  obtain ⟨s,hs,hout⟩ := Option.map_eq_some_iff.mp hpay
  obtain ⟨result,hresult⟩ := submitTx_ok hm (preparePayment_inputs htx) hs
  rw [hresult] at hout
  cases hout
  exact ⟨_,rfl⟩

/-- A solvent wallet pays exactly when the headroom of the selection is right for its outputs, as the fee is
not known when they are selected, and the numbers of the payment fit. -/
theorem solvent_pays_iff (hB : PacksFields B) (hsize : P2pkhSizes B) (hm : node.mempool.Consistent B) (ha : 0 ≤ amount)
    (r : ScriptRows node.utxos) :
    (Solvent B ws targetPubkey amount changePubkey feePerByte (ws.refresh r) →
      Pays B ws targetPubkey amount changePubkey feePerByte node r) ↔
    (Solvent B ws targetPubkey amount changePubkey feePerByte (ws.refresh r) →
      HeadroomSuffices (ws.refresh r) amount feePerByte) := by
  rw [pays_iff hB hsize hm ha r]

end Pay

namespace Reference

def varint (n : ℕ) : Bytes :=
  if n < 0xFD then [UInt8.ofNat n]
  else if n ≤ 0xFFFF then 0xFD :: LittleEndian.encode 2 n
  else if n ≤ 0xFFFFFFFF then 0xFE :: LittleEndian.encode 4 n
  else 0xFF :: LittleEndian.encode 8 n

theorem length_varint (n : ℕ) : (varint n).length = varintSize n := by
  unfold varint varintSize
  split_ifs <;> simp

def opByte : Ops → UInt8
  | .opN n => if n = 0 then 0 else UInt8.ofNat (0x50+n)
  | .opDup => 0x76
  | .opHash160 => 0xA9
  | .opEqualVerify => 0x88
  | .opCheckSig => 0xAC
  | .opCheckMultiSig => 0xAE
  | .opIf => 0x63
  | .opElse => 0x67
  | .opEndIf => 0x68
  | .opReturn => 0x6A

/-- The bytes of a script whose pushes are short. -/
def scriptBytes (script : Script) : Bytes :=
  script.flatMap fun item =>
    match item with
    | .op o => [opByte o]
    | .push data => UInt8.ofNat data.length :: data

def inputBytes (tin : TxInput) : Bytes :=
  tin.prevHash ++ LittleEndian.encode 4 tin.prevIdx ++ varint (scriptBytes tin.scriptSig).length ++
    scriptBytes tin.scriptSig ++ LittleEndian.encode 4 tin.sequence

def outputBytes (tout : TxOutput) : Bytes :=
  LittleEndian.encode 8 tout.value.toNat ++ varint (scriptBytes tout.scriptPubkey).length ++
    scriptBytes tout.scriptPubkey

def wireTx (t : Tx) : Bytes :=
  LittleEndian.encode 4 t.version ++ varint t.inputs.length ++ t.inputs.flatMap inputBytes ++
    varint t.outputs.length ++ t.outputs.flatMap outputBytes ++ LittleEndian.encode 4 t.locktime

/-- The stand-in with the wire format of transactions. -/
def wired : Bitcoinx := { reference anyone with txToBytes := wireTx }

theorem length_inputBytes {tin : TxInput} (h : tin.scriptSig = []) :
    (inputBytes tin).length = tin.prevHash.length + 9 := by
  simp [inputBytes,h,scriptBytes,length_varint,varintSize]

theorem length_outputBytes {tout : TxOutput} (h : ∃ pk, tout.scriptPubkey = wired.p2pkhScript pk) :
    (outputBytes tout).length = 34 := by
  obtain ⟨pk,hpk⟩ := h
  have hscript : (scriptBytes tout.scriptPubkey).length = 25 := by
    rw [hpk]
    simp [wired,reference,base,scriptBytes,hash20]
  simp [outputBytes,hscript,length_varint,varintSize]

theorem packsFields_wired : PacksFields wired := packsFields anyone

theorem p2pkhSizes_wired : P2pkhSizes wired := by
  intro t hin hout
  have hins : (t.inputs.flatMap inputBytes).length =
      (t.inputs.map fun tin => tin.prevHash.length + 9).sum := by
    rw [List.length_flatMap]
    exact congrArg List.sum (List.map_congr_left fun tin h => length_inputBytes (hin tin h))
  have houts : (t.outputs.flatMap outputBytes).length = 34 * t.outputs.length := by
    rw [List.length_flatMap,List.map_congr_left fun tout h => length_outputBytes (hout tout h),
      List.map_const',List.sum_replicate,smul_eq_mul,mul_comm]
  change (wireTx t).length = _
  simp only [wireTx,List.length_append,LittleEndian.encode_length,length_varint,hins,houts]
  omega

/-- A wallet with one key and one output of 1200 satoshis. -/
def smallCoin : WalletUtxo :=
  ⟨⟨1200,p2pkhScript wired (wired.publicKey (sampleKey 1)),1⟩,List.replicate 32 7,0⟩

def smallScripts : WalletScripts := WalletScripts.addP2pkh wired ⟨∅⟩ 0 0 (sampleKey 1)

def smallNode : EmbeddedNode :=
  let node := EmbeddedNode.init wired 5000 []
  { node with blockstore := node.blockstore.addUtxo smallCoin.outpoint smallCoin.toUtxoEntry }

def smallRows : ScriptRows smallNode.utxos where
  rows s := if s = smallCoin.scriptPubkey then [smallCoin] else []
  nodup s := by
    split_ifs
    · exact List.nodup_singleton _
    · exact List.nodup_nil
  mem_iff s u := by
    have hlookup : smallNode.utxos.lookup u.outpoint =
        if u.outpoint = smallCoin.outpoint then some smallCoin.toUtxoEntry else none := by
      have hutxos : smallNode.utxos = Finmap.insert smallCoin.outpoint smallCoin.toUtxoEntry ∅ := rfl
      rw [hutxos]
      split_ifs with h
      · rw [h]
        exact Finmap.lookup_insert _
      · exact Finmap.lookup_insert_of_ne _ h
    rw [hlookup]
    constructor
    · intro h
      split_ifs at h with hs
      · rw [List.mem_singleton.mp h,if_pos rfl]
        exact ⟨rfl,hs.symm⟩
      · cases h
    · rintro ⟨h,rfl⟩
      split_ifs at h with ho
      have hentry := Option.some.inj h
      have hu : u = smallCoin := by
        obtain ⟨entry,txid,vout⟩ := u
        obtain ⟨rfl,rfl⟩ := Prod.mk.inj ho
        cases hentry
        rfl
      rw [hu,if_pos rfl]
      exact List.mem_singleton_self _

theorem refresh_small : smallScripts.refresh smallRows = [smallCoin] := by
  rfl

theorem consistent_smallNode : smallNode.mempool.Consistent wired := Mempool.consistent_fresh _ _

end Reference

section Sample
open Reference

theorem solvent_pays_iff_sample :
    (Solvent wired smallScripts ⟨[2]⟩ 100 ⟨[3]⟩ 1 (smallScripts.refresh smallRows) →
      Pays wired smallScripts ⟨[2]⟩ 100 ⟨[3]⟩ 1 smallNode smallRows) ↔
    (Solvent wired smallScripts ⟨[2]⟩ 100 ⟨[3]⟩ 1 (smallScripts.refresh smallRows) →
      HeadroomSuffices (smallScripts.refresh smallRows) 100 1) :=
  solvent_pays_iff packsFields_wired p2pkhSizes_wired consistent_smallNode (by decide) smallRows

/-- An output of 1200 satoshis covers a payment of 900 and its fee of 227, but not the headroom. -/
theorem solvent_wallet_refuses :
    Solvent wired smallScripts ⟨[2]⟩ 900 ⟨[3]⟩ 1 (smallScripts.refresh smallRows) ∧
    ¬ Pays wired smallScripts ⟨[2]⟩ 900 ⟨[3]⟩ 1 smallNode smallRows := by
  constructor
  · refine ⟨[smallCoin],List.cons_ne_nil _ _,by rw [refresh_small],?_⟩
    rw [covered_keyed_iff p2pkhSizes_wired]
    decide
  · rw [pays_iff packsFields_wired p2pkhSizes_wired consistent_smallNode (by decide),refresh_small]
    rintro ⟨m,hm,hlow,hmax,_⟩
    obtain rfl : m = 0 := Nat.lt_one_iff.mp hm
    revert hmax
    decide

end Sample
end SubsatChannel
