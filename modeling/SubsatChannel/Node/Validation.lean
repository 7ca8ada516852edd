import SubsatChannel.Verify
import SubsatChannel.Node.BlockStore

/-! Validation of a transaction against the unspent outputs. -/
namespace SubsatChannel

/-- The result of validating a transaction. -/
structure ValidationResult where
  ok : Bool
  reason : String
  inputsValue : ℤ
  outputsValue : ℤ
  spentInputs : List (Outpoint × TxOutput)
  deriving DecidableEq, Repr

namespace ValidationResult

def fee (r : ValidationResult) : ℤ := r.inputsValue - r.outputsValue

/-- A rejection; the sums keep their defaults. -/
def reject (reason : String) : ValidationResult := ⟨false,reason,0,0,[]⟩

/-- An acceptance that reports no sums. -/
def accept (reason : String) : ValidationResult := ⟨true,reason,0,0,[]⟩

end ValidationResult

/-- Sum the output values, unless one of them is negative. -/
def outputsTotal : List TxOutput → ℤ → Option ℤ
  | [], total => some total
  | o :: outs, total => if o.value < 0 then none else outputsTotal outs (total + o.value)

/-- Resolve and verify the inputs from `idx` on, summing what they spend. -/
def inputsTotal (B : Bitcoinx) (tx : Tx) (U : UtxoSet) :
    ℕ → List TxInput → ℤ → List (Outpoint × TxOutput) →
    Except String (ℤ × List (Outpoint × TxOutput))
  | _, [], total, spent => .ok (total,spent)
  | idx, tin :: ins, total, spent =>
    match U.lookup tin.outpoint with
    | none => .error s!"input {idx}: UTXO not found"
    | some entry =>
      match verifySpend B tx idx entry.asTxOutput with
      | .error (.rejected e) => .error s!"input {idx}: script rejected: {e}"
      | .error (.interpreter e) => .error s!"input {idx}: interpreter error: {e}"
      | .ok () => inputsTotal B tx U (idx+1) ins (total + entry.value)
          (spent ++ [(tin.outpoint,entry.asTxOutput)])

/-- A transaction without inputs has no result: `is_coinbase` raises on it, and the callers raise in its
place. Here it stands as a rejection. -/
def validateTxWith (B : Bitcoinx) (allowCoinbase : Bool) (tx : Tx) (U : UtxoSet) :
    ValidationResult :=
  if tx.inputs = [] then .reject "list index out of range"
  else if B.isCoinbase tx then
    if allowCoinbase then
      match outputsTotal tx.outputs 0 with
      | none => .reject "non-integer/negative output value"
      | some totalOut => ⟨true,"coinbase",totalOut,totalOut,[]⟩
    else .reject "coinbase tx not accepted to mempool"
  else
    match outputsTotal tx.outputs 0 with
    | none => .reject "non-integer/negative output value"
    | some totalOut =>
      match inputsTotal B tx U 0 tx.inputs 0 [] with
      | .error reason => .reject reason
      | .ok (totalIn,spent) =>
        if totalIn < totalOut then .reject s!"sum inputs {totalIn} < sum outputs {totalOut}"
        else ⟨true,"ok",totalIn,totalOut,spent⟩

/-- Validation as every caller in the package asks for it: no coinbase is accepted. -/
def validateTx (B : Bitcoinx) (tx : Tx) (U : UtxoSet) : ValidationResult :=
  validateTxWith B false tx U

theorem outputsTotal_eq_some_iff {outs : List TxOutput} {total s : ℤ} :
    outputsTotal outs total = some s ↔
      (∀ o ∈ outs, 0 ≤ o.value) ∧ s = total + (outs.map TxOutput.value).sum := by
  induction outs generalizing total with
  | nil => simp [outputsTotal,eq_comm]
  | cons o outs ih =>
    simp only [outputsTotal,List.mem_cons,forall_eq_or_imp,List.map_cons,List.sum_cons]
    split_ifs with h
    · simp [h]
    · rw [ih,add_assoc]
      simp [not_lt.mp h]

/-- Every input from `idx` on refers to an unspent output that the interpreter lets it spend. -/
def InputsVerify (B : Bitcoinx) (tx : Tx) (U : UtxoSet) : ℕ → List TxInput → Prop
  | _, [] => True
  | idx, tin :: ins => (∃ e, U.lookup tin.outpoint = some e ∧
      verifySpend B tx idx e.asTxOutput = .ok ()) ∧ InputsVerify B tx U (idx+1) ins

theorem inputsTotal_ok_iff {B : Bitcoinx} {tx : Tx} {U : UtxoSet} {idx : ℕ} {ins : List TxInput}
    {total s : ℤ} {spent : List (Outpoint × TxOutput)} :
    (∃ spent', inputsTotal B tx U idx ins total spent = .ok (s,spent')) ↔
      InputsVerify B tx U idx ins ∧
      s = total + ((ins.map TxInput.outpoint).map U.valueAt).sum := by
  induction ins generalizing idx total spent with
  | nil => simp [inputsTotal,InputsVerify,eq_comm]
  | cons tin ins ih =>
    simp only [inputsTotal,InputsVerify,List.map_cons,List.sum_cons]
    cases hl : U.lookup tin.outpoint with
    | none => simp
    | some e =>
      have hv : U.valueAt tin.outpoint = e.value := Finmap.weightAt_of_lookup _ _ hl
      cases hs : verifySpend B tx idx e.asTxOutput with
      | error f => cases f <;> simp [hs]
      | ok u => simp [hs,ih,hv,add_assoc]

/-- What an accepted transaction satisfies, and what its fee is. -/
theorem validateTx_ok_iff {B : Bitcoinx} {tx : Tx} {U : UtxoSet} :
    (validateTx B tx U).ok = true ↔
      B.isCoinbase tx = false ∧ (∀ o ∈ tx.outputs, 0 ≤ o.value) ∧
      InputsVerify B tx U 0 tx.inputs ∧ tx.totalOutputValue ≤ (tx.outpoints.map U.valueAt).sum ∧
      tx.inputs ≠ [] := by
  unfold validateTx validateTxWith
  by_cases hne : tx.inputs = []
  · simp [ValidationResult.reject,hne]
  rw [if_neg hne]
  cases hb : B.isCoinbase tx with
  | true => simp [ValidationResult.reject]
  | false =>
    cases ho : outputsTotal tx.outputs 0 with
    | none =>
      have hn : ¬ ∀ o ∈ tx.outputs, 0 ≤ o.value := fun h => by
        rw [outputsTotal_eq_some_iff.mpr ⟨h,rfl⟩] at ho
        cases ho
      simp [ValidationResult.reject,hn]
    | some totalOut =>
      obtain ⟨hpos,hout⟩ := outputsTotal_eq_some_iff.mp ho
      cases hi : inputsTotal B tx U 0 tx.inputs 0 [] with
      | error reason =>
        have hn : ¬ InputsVerify B tx U 0 tx.inputs := fun h => by
          have hx : ∃ sp, inputsTotal B tx U 0 tx.inputs 0 [] = .ok (_,sp) :=
            inputsTotal_ok_iff.mpr ⟨h,rfl⟩
          simp [hi] at hx
        simp [ValidationResult.reject,hn]
      | ok r =>
        obtain ⟨totalIn,spent⟩ := r
        obtain ⟨hin,hsum⟩ := inputsTotal_ok_iff.mp ⟨spent,hi⟩
        have he : tx.totalOutputValue ≤ (tx.outpoints.map U.valueAt).sum ↔ ¬ totalIn < totalOut := by
          rw [hsum,hout,not_lt,Tx.totalOutputValue,Tx.outpoints]
          simp
        by_cases hlt : totalIn < totalOut
        · simp [ValidationResult.reject,he,hlt]
        · simpa [he,hlt,hin,hne] using hpos

theorem InputsVerify.present {B : Bitcoinx} {tx : Tx} {U : UtxoSet} {idx : ℕ} {ins : List TxInput}
    (h : InputsVerify B tx U idx ins) : ∀ tin ∈ ins, ∃ e, U.lookup tin.outpoint = some e := by
  induction ins generalizing idx with
  | nil => simp
  | cons tin ins ih =>
    intro t ht
    rcases List.mem_cons.mp ht with rfl | ht
    · obtain ⟨⟨e,he,_⟩,_⟩ := h
      exact ⟨e,he⟩
    · exact ih h.2 t ht

/-- An accepted transaction spends outputs that are in the set. -/
theorem validateTx_present {B : Bitcoinx} {tx : Tx} {U : UtxoSet}
    (h : (validateTx B tx U).ok = true) : ∀ o ∈ tx.outpoints, ∃ e, U.lookup o = some e := by
  intro o ho
  obtain ⟨tin,ht,rfl⟩ := List.mem_map.mp ho
  exact (validateTx_ok_iff.mp h).2.2.1.present tin ht

theorem inputsTotal_congr {B : Bitcoinx} {tx : Tx} {U V : UtxoSet} {idx : ℕ} {ins : List TxInput}
    {total : ℤ} {spent : List (Outpoint × TxOutput)}
    (h : ∀ tin ∈ ins, (U.lookup tin.outpoint).map UtxoEntry.asTxOutput =
      (V.lookup tin.outpoint).map UtxoEntry.asTxOutput) :
    inputsTotal B tx U idx ins total spent = inputsTotal B tx V idx ins total spent := by
  induction ins generalizing idx total spent with
  | nil => rfl
  | cons tin ins ih =>
    have ht := h tin (by simp)
    have hi : ∀ (i : ℕ) (t : ℤ) (s : List (Outpoint × TxOutput)),
        inputsTotal B tx U i ins t s = inputsTotal B tx V i ins t s :=
      fun _ _ _ => ih (fun t ht => h t (by simp [ht]))
    cases hu : U.lookup tin.outpoint with
    | none =>
      cases hv : V.lookup tin.outpoint with
      | none => simp [inputsTotal,hu,hv]
      | some f => simp [hu,hv] at ht
    | some e =>
      cases hv : V.lookup tin.outpoint with
      | none => simp [hu,hv] at ht
      | some f =>
        simp only [hu,hv,Option.map_some,Option.some.injEq] at ht
        have hval : e.value = f.value := congrArg TxOutput.value ht
        simp only [inputsTotal,hu,hv,ht,hval,hi]

/-- Validation reads only the value and the script of the outputs the transaction spends. -/
theorem validateTx_congr {B : Bitcoinx} {tx : Tx} {U V : UtxoSet}
    (h : ∀ o ∈ tx.outpoints, (U.lookup o).map UtxoEntry.asTxOutput =
      (V.lookup o).map UtxoEntry.asTxOutput) : validateTx B tx U = validateTx B tx V := by
  have hi : inputsTotal B tx U 0 tx.inputs 0 [] = inputsTotal B tx V 0 tx.inputs 0 [] :=
    inputsTotal_congr fun tin ht => h _ (List.mem_map_of_mem ht)
  simp only [validateTx,validateTxWith,hi]

theorem validateTx_fee {B : Bitcoinx} {tx : Tx} {U : UtxoSet}
    (h : (validateTx B tx U).ok = true) :
    (validateTx B tx U).fee = (tx.outpoints.map U.valueAt).sum - tx.totalOutputValue := by
  obtain ⟨hb,hpos,hin,_,hne⟩ := validateTx_ok_iff.mp h
  obtain ⟨spent,hi⟩ : ∃ sp, inputsTotal B tx U 0 tx.inputs 0 [] = .ok (_,sp) :=
    inputsTotal_ok_iff.mpr ⟨hin,rfl⟩
  have ho : outputsTotal tx.outputs 0 = some (0 + tx.totalOutputValue) :=
    outputsTotal_eq_some_iff.mpr ⟨hpos,rfl⟩
  unfold validateTx validateTxWith at h ⊢
  simp only [if_neg hne,hb,ho,hi,Bool.false_eq_true,if_false,zero_add] at h ⊢
  split_ifs at h ⊢ with hlt
  · simp [ValidationResult.reject] at h
  · rfl

end SubsatChannel
