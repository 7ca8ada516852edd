import SubsatChannel.Channel.Opened
import SubsatChannel.Wallet.Builder

/-! Where the satoshis of a wallet-built transaction go. -/
namespace SubsatChannel

/-- The estimated fee of a spend. -/
def estimatedFee (B : Bitcoinx) (funder : List (WalletUtxo × PrivateKey)) (outs : List TxOutput)
    (changePubkey : PublicKey) (feePerByte : ℤ) : ℤ :=
  roughSize B funder outs changePubkey * feePerByte

/-- The inputs cover the requested outputs and the estimated fee. -/
def Covered (B : Bitcoinx) (funder : List (WalletUtxo × PrivateKey)) (outs : List TxOutput)
    (changePubkey : PublicKey) (feePerByte : ℤ) : Prop :=
  (outs.map TxOutput.value).sum + estimatedFee B funder outs changePubkey feePerByte ≤ totalIn funder

/-- The outputs behind the requested ones, and what is left to the fee because it is too little for a
change output. -/
def ChangeOrDust (B : Bitcoinx) (changePubkey : PublicKey) (dustThreshold : ℤ) (rest : List TxOutput)
    (dropped : ℤ) : Prop :=
  (∃ v, dustThreshold ≤ v ∧ rest = [⟨v,p2pkhScript B changePubkey⟩]) ∧ dropped = 0 ∨
    rest = [] ∧ 0 ≤ dropped ∧ dropped < dustThreshold

/-- A transaction that spends the given outputs in their order and accounts for every satoshi of them. -/
structure Accounted (B : Bitcoinx) (funder : List (WalletUtxo × PrivateKey)) (outs : List TxOutput)
    (changePubkey : PublicKey) (feePerByte dustThreshold : ℤ) (tx : Tx) : Prop where
  spends : tx.outpoints = funder.map fun p => p.1.outpoint
  pays : ∃ rest dropped, tx.outputs = outs ++ rest ∧
    totalIn funder - tx.totalOutputValue =
      estimatedFee B funder outs changePubkey feePerByte + dropped ∧
    ChangeOrDust B changePubkey dustThreshold rest dropped

/-- The result of a builder: an accounted transaction, or its own error exactly when the inputs fall
short. -/
structure BuildsExactly (B : Bitcoinx) (funder : List (WalletUtxo × PrivateKey)) (outs : List TxOutput)
    (changePubkey : PublicKey) (feePerByte dustThreshold : ℤ) (r : Except Fault Tx) : Prop where
  accounted : ∀ tx, r = .ok tx → Accounted B funder outs changePubkey feePerByte dustThreshold tx
  raises : ∀ e, r = .error e → e.kind = .walletBuildError
  short : (∃ e, r = .error e) ↔ ¬ Covered B funder outs changePubkey feePerByte

/-- The output indices and the requested values fit their fields in a serialised transaction. -/
structure Estimable (funder : List (WalletUtxo × PrivateKey)) (outs : List TxOutput) : Prop where
  vouts : ∀ p ∈ funder, p.1.vout < 2^32
  values : ∀ o ∈ outs, o.value < 2^63

/-- What is spent fits into eight signed bytes, and so does what the inputs leave over for the change, if it is
paid out at all. -/
structure Signable (B : Bitcoinx) (funder : List (WalletUtxo × PrivateKey)) (outs : List TxOutput)
    (changePubkey : PublicKey) (feePerByte dustThreshold : ℤ) : Prop where
  spent : ∀ p ∈ funder, p.1.value < 2^63
  left : totalIn funder < (outs.map TxOutput.value).sum + estimatedFee B funder outs changePubkey feePerByte +
    max dustThreshold (2^63)

section Sign
variable {B : Bitcoinx} {funder : List (WalletUtxo × PrivateKey)} {tx tx' : Tx}

/-- Signing one input after the other: none is left, or the first can be signed and the others are. -/
theorem signFunderInputs_cons {i : ℕ} {u : WalletUtxo} {priv : PrivateKey}
    (h : signFunderInputs B i ((u,priv) :: funder) tx = .ok tx') :
    signFunderInputs B (i+1) funder { tx with
      inputs := tx.inputs.set i ⟨u.txid,u.vout,p2pkhUnlock (signInput B tx i u.value u.scriptPubkey priv)
        (B.publicKey priv),finalSequence⟩ } = .ok tx' := by
  rw [signFunderInputs] at h
  split_ifs at h
  exact h

theorem signFunderInputs_outputs {i : ℕ} (h : signFunderInputs B i funder tx = .ok tx') :
    tx'.outputs = tx.outputs := by
  induction funder generalizing i tx with
  | nil => cases h; rfl
  | cons p funder ih =>
    have hrest := ih (signFunderInputs_cons h)
    exact hrest

/-- Signing replaces each input by a spend of the same outpoint. -/
theorem signFunderInputs_outpoints {front : List Outpoint} {i : ℕ} (hi : front.length = i)
    (h : tx.outpoints = front ++ funder.map fun p => p.1.outpoint)
    (hsign : signFunderInputs B i funder tx = .ok tx') : tx'.outpoints = tx.outpoints := by
  induction funder generalizing front i tx with
  | nil => cases hsign; rfl
  | cons p funder ih =>
    obtain ⟨u,priv⟩ := p
    have hset : ∀ tin : TxInput, tin.outpoint = u.outpoint →
        ({ tx with inputs := tx.inputs.set i tin } : Tx).outpoints = tx.outpoints := by
      intro tin htin
      rw [Tx.outpoints,List.map_set,htin]
      change tx.outpoints.set i u.outpoint = tx.outpoints
      rw [h,← hi]
      simp
    have hnext : ({ tx with inputs := tx.inputs.set i ⟨u.txid,u.vout,
        p2pkhUnlock (signInput B tx i u.value u.scriptPubkey priv) (B.publicKey priv),finalSequence⟩ } :
        Tx).outpoints = (front ++ [u.outpoint]) ++ funder.map fun p => p.1.outpoint := by
      rw [hset _ rfl,h]
      simp
    have hlen : (front ++ [u.outpoint]).length = i+1 := by simp [hi]
    rw [ih hlen hnext (signFunderInputs_cons hsign),hset _ rfl]

/-- A signed input keeps the transaction in range. -/
theorem Tx.InRange.set (h : tx.InRange) (i : ℕ) {tin : TxInput} (hidx : tin.prevIdx < 2^32)
    (hseq : tin.sequence < 2^32) : ({ tx with inputs := tx.inputs.set i tin } : Tx).InRange where
  inputs t ht := by
    rcases List.mem_or_eq_of_mem_set ht with hold | rfl
    · exact h.inputs t hold
    · exact ⟨hidx,hseq⟩
  outputs := h.outputs
  locktime := h.locktime

/-- Signing a transaction whose numbers fit returns exactly when the spent values fit. -/
theorem signFunderInputs_ok_iff (hB : PacksFields B) {i : ℕ} (hv : tx.version = 1) (hr : tx.InRange)
    (hidx : ∀ p ∈ funder, p.1.vout < 2^32) :
    (∃ tx', signFunderInputs B i funder tx = .ok tx') ↔ ∀ p ∈ funder, fitsInt64 p.1.value = true := by
  induction funder generalizing i tx with
  | nil => exact iff_of_true ⟨tx,rfl⟩ (by simp)
  | cons p funder ih =>
    obtain ⟨u,priv⟩ := p
    have hpacks : B.packs tx = true := (hB tx hv).mpr hr
    rw [signFunderInputs,hpacks,Bool.true_and,List.forall_mem_cons]
    by_cases hfit : fitsInt64 u.value = true
    · have hnext := @Tx.InRange.set tx hr i ⟨u.txid,u.vout,p2pkhUnlock
        (signInput B tx i u.value u.scriptPubkey priv) (B.publicKey priv),finalSequence⟩
        (hidx _ List.mem_cons_self) finalSequence_lt
      rw [if_pos hfit,ih (by exact hv) hnext fun p hp => hidx p (List.mem_cons_of_mem _ hp)]
      exact (and_iff_right hfit).symm
    · rw [if_neg hfit]
      exact iff_of_false (by rintro ⟨_,⟨⟩⟩) fun h => hfit h.1

end Sign

section Build
variable {B : Bitcoinx} {funder : List (WalletUtxo × PrivateKey)} {outs : List TxOutput}
  {changePubkey : PublicKey} {feePerByte dustThreshold : ℤ} {what : String} {tx : Tx}

theorem totalOutputValue_append (t : Tx) (rest : List TxOutput) (h : t.outputs = outs ++ rest) :
    t.totalOutputValue = (outs.map TxOutput.value).sum + (rest.map TxOutput.value).sum := by
  rw [Tx.totalOutputValue,h,List.map_append,List.sum_append]

theorem unsigned_outpoints (outputs : List TxOutput) : (⟨1,unsignedInputs funder,outputs,0⟩ : Tx).outpoints =
    [] ++ funder.map fun p => p.1.outpoint := by
  simp [Tx.outpoints,unsignedInputs,TxInput.outpoint,WalletUtxo.outpoint,Function.comp_def]

/-- The outputs of what is signed: the requested ones, and the change unless it is dust. -/
def spendOutputs (B : Bitcoinx) (funder : List (WalletUtxo × PrivateKey)) (outs : List TxOutput)
    (changePubkey : PublicKey) (feePerByte dustThreshold : ℤ) : List TxOutput :=
  let change := totalIn funder - (outs.map TxOutput.value).sum -
    roughSize B funder outs changePubkey * feePerByte
  if change < dustThreshold then outs else outs ++ [⟨change,p2pkhScript B changePubkey⟩]

/-- The three ways to end: the estimate does not fit, the inputs fall short, or the inputs are signed. -/
theorem buildSpend_cases :
    (B.packs (provisionalTx B funder outs changePubkey) = false ∧
      buildSpend B funder outs changePubkey feePerByte dustThreshold what = .error ⟨.structError,""⟩) ∨
    (B.packs (provisionalTx B funder outs changePubkey) = true ∧
      ¬ Covered B funder outs changePubkey feePerByte ∧
      ∃ text, buildSpend B funder outs changePubkey feePerByte dustThreshold what =
        .error ⟨.walletBuildError,text⟩) ∨
    (B.packs (provisionalTx B funder outs changePubkey) = true ∧
      Covered B funder outs changePubkey feePerByte ∧
      buildSpend B funder outs changePubkey feePerByte dustThreshold what = signFunderInputs B 0 funder
        ⟨1,unsignedInputs funder,spendOutputs B funder outs changePubkey feePerByte dustThreshold,0⟩) := by
  have hcov : Covered B funder outs changePubkey feePerByte ↔
      ¬ totalIn funder - (outs.map TxOutput.value).sum -
        roughSize B funder outs changePubkey * feePerByte < 0 := by
    unfold Covered estimatedFee
    omega
  rw [buildSpend,hcov]
  cases hpacks : B.packs (provisionalTx B funder outs changePubkey) with
  | false => exact .inl ⟨rfl,rfl⟩
  | true =>
    rw [if_pos rfl]
    dsimp only
    by_cases hshort : totalIn funder - (outs.map TxOutput.value).sum -
        roughSize B funder outs changePubkey * feePerByte < 0
    · rw [if_pos hshort]
      exact .inr (.inl ⟨rfl,not_not.mpr hshort,_,rfl⟩)
    · rw [if_neg hshort]
      exact .inr (.inr ⟨rfl,hshort,rfl⟩)

/-- Whatever is built is covered and accounted for. -/
theorem buildSpend_accounted
    (h : buildSpend B funder outs changePubkey feePerByte dustThreshold what = .ok tx) :
    Covered B funder outs changePubkey feePerByte ∧
      Accounted B funder outs changePubkey feePerByte dustThreshold tx := by
  rcases @buildSpend_cases B funder outs changePubkey feePerByte dustThreshold what with
    ⟨_,he⟩ | ⟨_,_,text,he⟩ | ⟨_,hcovered,he⟩
  · rw [h] at he; cases he
  · rw [h] at he; cases he
  rw [h] at he
  have hsign := he.symm
  have hspends : tx.outpoints = funder.map fun p => p.1.outpoint := by
    have hnil : ([] : List Outpoint).length = 0 := rfl
    rw [signFunderInputs_outpoints hnil (unsigned_outpoints _) hsign,unsigned_outpoints,List.nil_append]
  have hout := signFunderInputs_outputs hsign
  dsimp only [spendOutputs] at hout
  have hcov := hcovered
  rw [Covered,estimatedFee] at hcov
  refine ⟨hcovered,hspends,?_⟩
  by_cases hdust : totalIn funder - (outs.map TxOutput.value).sum -
      roughSize B funder outs changePubkey * feePerByte < dustThreshold
  · rw [if_pos hdust] at hout
    have happ : tx.outputs = outs ++ [] := by rw [hout,List.append_nil]
    refine ⟨[],_,happ,?_,.inr ⟨rfl,(by omega : 0 ≤ totalIn funder - (outs.map TxOutput.value).sum -
      roughSize B funder outs changePubkey * feePerByte),hdust⟩⟩
    rw [totalOutputValue_append tx [] happ,List.map_nil,List.sum_nil,estimatedFee]
    omega
  · rw [if_neg hdust] at hout
    refine ⟨_,0,hout,?_,.inl ⟨⟨_,not_lt.mp hdust,rfl⟩,rfl⟩⟩
    rw [totalOutputValue_append tx _ hout,List.map_singleton,List.sum_singleton,estimatedFee]
    dsimp only
    omega

/-- The estimate fits when the indices and the values do. -/
theorem packs_provisionalTx (hB : PacksFields B) (houts : ∀ o ∈ outs, 0 ≤ o.value) :
    B.packs (provisionalTx B funder outs changePubkey) = true ↔ Estimable funder outs := by
  rw [hB _ rfl]
  constructor
  · intro h
    refine ⟨fun p hp => ?_,fun o ho => ?_⟩
    · exact (h.inputs _ (List.mem_map_of_mem hp)).1
    · exact (fitsInt64_iff_of_nonneg (houts o ho)).mp (h.outputs o (List.mem_append_left _ ho))
  · intro h
    refine ⟨fun tin htin => ?_,fun o ho => ?_,Nat.two_pow_pos 32⟩
    · obtain ⟨p,hp,rfl⟩ := List.mem_map.mp htin
      exact ⟨h.vouts p hp,finalSequence_lt⟩
    · rcases List.mem_append.mp ho with ho | ho
      · exact (fitsInt64_iff_of_nonneg (houts o ho)).mpr (h.values o ho)
      · rw [List.mem_singleton.mp ho]
        rfl

/-- What is signed is in range exactly when the estimate is and the change is small enough. -/
theorem inRange_spend (hest : Estimable funder outs) (houts : ∀ o ∈ outs, 0 ≤ o.value)
    (hcov : Covered B funder outs changePubkey feePerByte) :
    (⟨1,unsignedInputs funder,spendOutputs B funder outs changePubkey feePerByte dustThreshold,0⟩ : Tx).InRange ↔
      totalIn funder < (outs.map TxOutput.value).sum + estimatedFee B funder outs changePubkey feePerByte +
        max dustThreshold (2^63) := by
  have hins : ∀ tin ∈ unsignedInputs funder, tin.prevIdx < 2^32 ∧ tin.sequence < 2^32 := by
    intro tin htin
    obtain ⟨p,hp,rfl⟩ := List.mem_map.mp htin
    exact ⟨hest.vouts p hp,finalSequence_lt⟩
  have hfit : ∀ o ∈ outs, fitsInt64 o.value = true :=
    fun o ho => (fitsInt64_iff_of_nonneg (houts o ho)).mpr (hest.values o ho)
  rw [Covered] at hcov
  have hfee : estimatedFee B funder outs changePubkey feePerByte =
    roughSize B funder outs changePubkey * feePerByte := rfl
  have hiff : (⟨1,unsignedInputs funder,spendOutputs B funder outs changePubkey feePerByte dustThreshold,0⟩ :
      Tx).InRange ↔ ∀ o ∈ spendOutputs B funder outs changePubkey feePerByte dustThreshold,
        fitsInt64 o.value = true :=
    ⟨fun h => h.outputs,fun h => ⟨hins,h,Nat.two_pow_pos 32⟩⟩
  rw [hiff]
  dsimp only [spendOutputs]
  by_cases hdust : totalIn funder - (outs.map TxOutput.value).sum -
      roughSize B funder outs changePubkey * feePerByte < dustThreshold
  · rw [if_pos hdust]
    exact iff_of_true hfit (by omega)
  · rw [if_neg hdust,List.forall_mem_append,List.forall_mem_singleton]
    dsimp only
    rw [fitsInt64_iff_of_nonneg (by omega)]
    constructor
    · rintro ⟨_,hlt⟩
      omega
    · intro hlt
      exact ⟨hfit,by omega⟩

/-- A covered spend is built exactly when the numbers fit. -/
theorem buildSpend_ok_iff (hB : PacksFields B) (hne : funder ≠ []) (hvalues : ∀ p ∈ funder, 0 ≤ p.1.value)
    (houts : ∀ o ∈ outs, 0 ≤ o.value) :
    (∃ tx, buildSpend B funder outs changePubkey feePerByte dustThreshold what = .ok tx) ↔
      Covered B funder outs changePubkey feePerByte ∧ Estimable funder outs ∧
        Signable B funder outs changePubkey feePerByte dustThreshold := by
  rcases @buildSpend_cases B funder outs changePubkey feePerByte dustThreshold what with
    ⟨hpacks,he⟩ | ⟨_,hshort,text,he⟩ | ⟨hpacks,hcov,he⟩
  · rw [he]
    refine iff_of_false (by rintro ⟨_,⟨⟩⟩) fun h => ?_
    rw [(packs_provisionalTx hB houts).mpr h.2.1] at hpacks
    cases hpacks
  · rw [he]
    exact iff_of_false (by rintro ⟨_,⟨⟩⟩) fun h => hshort h.1
  · have hest := (packs_provisionalTx hB houts).mp hpacks
    have hspent : (∀ p ∈ funder, fitsInt64 p.1.value = true) ↔ ∀ p ∈ funder, p.1.value < 2^63 :=
      forall₂_congr fun p hp => fitsInt64_iff_of_nonneg (hvalues p hp)
    rw [he]
    by_cases hr : (⟨1,unsignedInputs funder,spendOutputs B funder outs changePubkey feePerByte dustThreshold,0⟩ :
        Tx).InRange
    · rw [signFunderInputs_ok_iff hB rfl hr hest.vouts,hspent]
      exact ⟨fun h => ⟨hcov,hest,h,(inRange_spend hest houts hcov).mp hr⟩,fun h => h.2.2.spent⟩
    · -- the first input cannot be signed
      refine iff_of_false ?_ fun h => hr ((inRange_spend hest houts hcov).mpr h.2.2.left)
      rintro ⟨tx,h⟩
      obtain ⟨⟨u,priv⟩,funder,rfl⟩ := List.exists_cons_of_ne_nil hne
      rw [signFunderInputs] at h
      split_ifs at h with hfirst
      exact hr ((hB _ rfl).mp (Bool.and_eq_true_iff.mp hfirst).1)

/-- A builder does what it should exactly when the estimate fits and, if the inputs cover the request, so does what is
signed. -/
theorem buildSpend_exact_iff (hB : PacksFields B) (hne : funder ≠ []) (hvalues : ∀ p ∈ funder, 0 ≤ p.1.value)
    (houts : ∀ o ∈ outs, 0 ≤ o.value) :
    BuildsExactly B funder outs changePubkey feePerByte dustThreshold
        (buildSpend B funder outs changePubkey feePerByte dustThreshold what) ↔
      Estimable funder outs ∧ (Covered B funder outs changePubkey feePerByte →
        Signable B funder outs changePubkey feePerByte dustThreshold) := by
  have hok := @buildSpend_ok_iff B funder outs changePubkey feePerByte dustThreshold what hB hne hvalues houts
  constructor
  · intro h
    have hest : Estimable funder outs := by
      rw [← @packs_provisionalTx B funder outs changePubkey hB houts]
      rcases @buildSpend_cases B funder outs changePubkey feePerByte dustThreshold what with
        ⟨_,he⟩ | ⟨hpacks,_⟩ | ⟨hpacks,_⟩
      · cases h.raises _ he
      · exact hpacks
      · exact hpacks
    refine ⟨hest,fun hcov => ?_⟩
    cases hres : buildSpend B funder outs changePubkey feePerByte dustThreshold what with
    | error e => exact absurd hcov (h.short.mp ⟨e,hres⟩)
    | ok tx => exact (hok.mp ⟨tx,hres⟩).2.2
  · rintro ⟨hest,hsign⟩
    refine ⟨fun tx h => (buildSpend_accounted h).2,fun e he => ?_,?_⟩
    · rcases @buildSpend_cases B funder outs changePubkey feePerByte dustThreshold what with
        ⟨hpacks,_⟩ | ⟨_,_,text,he'⟩ | ⟨_,hcov,_⟩
      · rw [(packs_provisionalTx hB houts).mpr hest] at hpacks
        cases hpacks
      · rw [he] at he'
        cases he'
        rfl
      · obtain ⟨tx,htx⟩ := hok.mpr ⟨hcov,hest,hsign hcov⟩
        rw [he] at htx
        cases htx
    · constructor
      · rintro ⟨e,he⟩ hcov
        obtain ⟨tx,htx⟩ := hok.mpr ⟨hcov,hest,hsign hcov⟩
        rw [he] at htx
        cases htx
      · intro hshort
        cases hres : buildSpend B funder outs changePubkey feePerByte dustThreshold what with
        | error e => exact ⟨e,rfl⟩
        | ok tx => exact absurd (hok.mp ⟨tx,hres⟩).1 hshort

theorem buildAndSignPayment_eq {outputs : List FundingOutput} (hne : funder ≠ [])
    (hvalues : ∀ p ∈ funder, 0 ≤ p.1.value) (houts : ∀ o ∈ outputs, 0 ≤ o.value) :
    buildAndSignPayment B funder outputs changePubkey feePerByte dustThreshold =
      buildSpend B funder (outputs.map FundingOutput.txOutput) changePubkey feePerByte dustThreshold
        "specified" := by
  rw [buildAndSignPayment,if_neg hne,ensureAllWhole_of_nonneg (List.forall_mem_map.mpr hvalues),
    ensureAllWhole_of_nonneg (List.forall_mem_map.mpr houts)]
  rfl

theorem buildChannelFundingTx_eq {cfg : ChannelConfig} {kb : KeyBook} (hne : funder ≠ [])
    (hvalues : ∀ p ∈ funder, 0 ≤ p.1.value) (hkeys : kb.n = cfg.n) :
    buildChannelFundingTx B funder cfg kb changePubkey feePerByte =
      buildSpend B funder (channelOutputsOf B cfg kb) changePubkey feePerByte defaultDustThreshold
        "channel funding" := by
  rw [buildChannelFundingTx,if_neg hne,ensureAllWhole_of_nonneg (List.forall_mem_map.mpr hvalues),
    buildChannelOutputs_eq hkeys]
  rfl

end Build

theorem channelOutputsOf_nonneg {B : Bitcoinx} {cfg : ChannelConfig} {kb : KeyBook} :
    ∀ out ∈ channelOutputsOf B cfg kb, 0 ≤ out.value := by
  intro out ho
  rcases List.mem_cons.mp ho with rfl | ho
  · exact Int.natCast_nonneg _
  · obtain ⟨i,_,rfl⟩ := List.mem_map.mp ho
    exact Int.natCast_nonneg _

/-- The transactions that the wallet builds spend the given outputs in order, pay what is requested in
order and keep back the change, and are refused exactly when the inputs fall short; this holds exactly when the
numbers that are packed fit their fields. The channel layer accepts every funding transaction. -/
theorem wallet_txs_accounted_iff {B : Bitcoinx} (hB : PacksFields B) {funder : List (WalletUtxo × PrivateKey)}
    {changePubkey : PublicKey} {feePerByte : ℤ} (hne : funder ≠ [])
    (hvalues : ∀ p ∈ funder, 0 ≤ p.1.value) :
    (∀ outputs dustThreshold, (∀ o ∈ outputs, 0 ≤ o.value) →
      (BuildsExactly B funder (outputs.map FundingOutput.txOutput) changePubkey feePerByte dustThreshold
        (buildAndSignPayment B funder outputs changePubkey feePerByte dustThreshold) ↔
      Estimable funder (outputs.map FundingOutput.txOutput) ∧
        (Covered B funder (outputs.map FundingOutput.txOutput) changePubkey feePerByte →
          Signable B funder (outputs.map FundingOutput.txOutput) changePubkey feePerByte dustThreshold))) ∧
    ∀ (cfg : ChannelConfig) (kb : KeyBook), kb.n = cfg.n → ∃ outs,
      buildChannelOutputs B cfg kb = .ok outs ∧
      (BuildsExactly B funder outs changePubkey feePerByte defaultDustThreshold
        (buildChannelFundingTx B funder cfg kb changePubkey feePerByte) ↔
      Estimable funder outs ∧ (Covered B funder outs changePubkey feePerByte →
        Signable B funder outs changePubkey feePerByte defaultDustThreshold)) ∧
      ∀ tx, buildChannelFundingTx B funder cfg kb changePubkey feePerByte = .ok tx →
        ∀ parentUtxos, ∃ ch, Channel.fromFundingTx B cfg kb tx parentUtxos = .ok ch := by
  constructor
  · intro outputs dustThreshold houts
    rw [buildAndSignPayment_eq hne hvalues houts]
    exact buildSpend_exact_iff hB hne hvalues (List.forall_mem_map.mpr houts)
  · intro cfg kb hkeys
    refine ⟨_,buildChannelOutputs_eq hkeys,?_,fun tx htx parentUtxos => ?_⟩
    · rw [buildChannelFundingTx_eq hne hvalues hkeys]
      exact buildSpend_exact_iff hB hne hvalues channelOutputsOf_nonneg
    · rw [buildChannelFundingTx_eq hne hvalues hkeys] at htx
      obtain ⟨rest,_,hout,_⟩ := (buildSpend_accounted htx).2.pays
      have hfront : tx.outputs.take (1 + cfg.n) = channelOutputsOf B cfg kb := by
        rw [hout,← length_channelOutputsOf,List.take_left]
      exact ⟨_,(Channel.fromFundingTx_eq hkeys hfront _).trans (Channel.wrapFunding_eq hkeys _ _)⟩

section Sample
open Reference

/-- Two outputs of a wallet, of 9000 and 4000 satoshis. -/
def sampleFunder : List (WalletUtxo × PrivateKey) :=
  [(⟨⟨9000,p2pkhScript (reference anyone) ((reference anyone).publicKey (sampleKey 1)),1⟩,
      List.replicate 32 7,0⟩,sampleKey 1),
    (⟨⟨4000,p2pkhScript (reference anyone) ((reference anyone).publicKey (sampleKey 2)),2⟩,
      List.replicate 32 8,1⟩,sampleKey 2)]

theorem wallet_txs_accounted_iff_sample :
    BuildsExactly (reference anyone) sampleFunder [⟨2500,trueScript⟩] ⟨[2]⟩ 1 1
      (buildAndSignPayment (reference anyone) sampleFunder [⟨trueScript,2500⟩] ⟨[2]⟩ 1 1) := by
  have h := @wallet_txs_accounted_iff (reference anyone) (packsFields anyone) sampleFunder ⟨[2]⟩ 1 (by decide)
    (by decide)
  refine (h.1 [⟨trueScript,2500⟩] 1 (by decide)).mpr ⟨⟨by decide,by decide⟩,fun hcov => ⟨by decide,?_⟩⟩
  have hin : totalIn sampleFunder = 13000 := by decide
  have hfee : 0 ≤ estimatedFee (reference anyone) sampleFunder [⟨2500,trueScript⟩] ⟨[2]⟩ 1 := by
    rw [estimatedFee]
    omega
  simp only [List.map_singleton,FundingOutput.txOutput,List.sum_singleton,hin]
  omega

/-- A payment of `2^63` is neither built nor refused as one that the inputs do not cover. -/
theorem oversized_payment_raises :
    buildAndSignPayment (reference anyone) sampleFunder [⟨trueScript,2^63⟩] ⟨[2]⟩ 1 1 = .error ⟨.structError,""⟩ ∧
    ¬ BuildsExactly (reference anyone) sampleFunder [⟨2^63,trueScript⟩] ⟨[2]⟩ 1 1
      (buildAndSignPayment (reference anyone) sampleFunder [⟨trueScript,2^63⟩] ⟨[2]⟩ 1 1) := by
  have hraise : buildAndSignPayment (reference anyone) sampleFunder [⟨trueScript,2^63⟩] ⟨[2]⟩ 1 1 =
      .error ⟨.structError,""⟩ := by
    rw [buildAndSignPayment_eq (by decide) (by decide) (by decide)]
    rcases @buildSpend_cases (reference anyone) sampleFunder [⟨2^63,trueScript⟩] ⟨[2]⟩ 1 1 "specified" with
      ⟨_,h⟩ | ⟨hpacks,_⟩ | ⟨hpacks,_⟩
    · exact h
    all_goals
      have hest := (packs_provisionalTx (packsFields anyone) (by decide)).mp hpacks
      exact absurd (hest.values _ List.mem_cons_self) (by decide)
  refine ⟨hraise,fun h => ?_⟩
  cases h.raises _ hraise

end Sample
end SubsatChannel
