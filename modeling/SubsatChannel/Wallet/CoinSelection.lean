import SubsatChannel.Lib.GreedyCover
import SubsatChannel.Wallet.Builder

/-! Coin selection takes the first of the sorted outputs that reach the target, and no fewer would do. -/
namespace SubsatChannel
open GreedyCover

/-- What a list of unspent outputs is worth. -/
def valueOf (utxos : List WalletUtxo) : ℤ := worth (fun u => u.value) utxos

/-- A selection that reaches the target, the largest outputs first and as few of them as possible. -/
structure MinimalSelection (utxos : List WalletUtxo) (targetValue : ℤ) (selected : List WalletUtxo) :
    Prop where
  sub : selected.Subperm utxos
  ordered : selected.Pairwise fun u v => v.value ≤ u.value
  reaches : targetValue ≤ valueOf selected
  needed : valueOf selected.dropLast < targetValue
  minimal : ∀ other : List WalletUtxo, other.Subperm utxos → other.length < selected.length →
    valueOf other < targetValue

/-- What `select_utxos` owes its callers. -/
structure SelectsMinimal (utxos : List WalletUtxo) (targetValue : ℤ)
    (r : Except Fault (List WalletUtxo)) : Prop where
  raises : (∃ e, r = .error e) ↔ valueOf utxos < targetValue
  kind : ∀ e, r = .error e → e.kind = .walletBuildError
  selects : ∀ selected, r = .ok selected → MinimalSelection utxos targetValue selected

section Sorted
variable (utxos : List WalletUtxo)

instance totalLargerFirst : Std.Total LargerFirst := ⟨fun u v => le_total v.value u.value⟩
instance transLargerFirst : IsTrans WalletUtxo LargerFirst := ⟨fun _ _ _ huv hvw => le_trans hvw huv⟩

theorem sortedUtxos_perm : (sortedUtxos utxos).Perm utxos := List.perm_insertionSort _ _

theorem sortedUtxos_descending : Descending (fun u => u.value) (sortedUtxos utxos) :=
  List.pairwise_insertionSort LargerFirst utxos

end Sorted

section Loop
variable {targetValue acc : ℤ} {us selected : List WalletUtxo} {k : ℕ}

/-- The loop stops at the first element with which the target is reached. -/
theorem selectLoop_of_reaches (hneed : 0 < targetValue - acc)
    (h : Reaches (fun u => u.value) (targetValue - acc) us k) :
    selectLoop targetValue us selected acc = .ok (selected ++ us.take k) := by
  induction us generalizing selected acc k with
  | nil =>
    have hk := h.within
    have hpos := h.pos hneed
    rw [List.length_nil] at hk
    omega
  | cons u us ih =>
    rw [selectLoop]
    by_cases hu : targetValue ≤ acc + u.value
    · have hone : k = 1 := h.unique (.one hneed (by omega))
      rw [if_pos hu,hone,List.take_succ_cons,List.take_zero]
    · obtain ⟨j,rfl⟩ := Nat.exists_eq_succ_of_ne_zero (h.pos hneed).ne'
      have hrest := (Reaches.succ_iff hneed).mp h
      rw [sub_sub] at hrest
      rw [if_neg hu,ih (by omega) hrest,List.take_succ_cons,List.append_assoc]
      rfl

/-- When all elements together fall short, the loop ends in the error. -/
theorem selectLoop_of_short (hneed : 0 < targetValue - acc)
    (h : ¬ ∃ k, Reaches (fun u => u.value) (targetValue - acc) us k) :
    ∃ e, selectLoop targetValue us selected acc = .error e ∧ e.kind = .walletBuildError := by
  induction us generalizing selected acc with
  | nil => exact ⟨_,rfl,rfl⟩
  | cons u us ih =>
    have hu : ¬ targetValue ≤ acc + u.value := fun hu => h ⟨1,.one hneed (by omega)⟩
    rw [selectLoop,if_neg hu]
    refine ih (by omega) ?_
    rintro ⟨k,hk⟩
    rw [← sub_sub] at hk
    exact h ⟨k+1,(Reaches.succ_iff hneed).mpr hk⟩

end Loop

section Select
variable {utxos : List WalletUtxo} {targetValue : ℤ} {k : ℕ}

theorem selectUtxos_of_reaches (ht : 0 < targetValue)
    (h : Reaches (fun u => u.value) targetValue (sortedUtxos utxos) k) :
    selectUtxos utxos targetValue = .ok ((sortedUtxos utxos).take k) := by
  rw [selectUtxos,if_neg (not_lt.mpr ht.le)]
  exact selectLoop_of_reaches (by rwa [sub_zero]) (by rwa [sub_zero])

theorem selectUtxos_of_short (ht : 0 < targetValue)
    (h : ¬ ∃ k, Reaches (fun u => u.value) targetValue (sortedUtxos utxos) k) :
    ∃ e, selectUtxos utxos targetValue = .error e ∧ e.kind = .walletBuildError := by
  rw [selectUtxos,if_neg (not_lt.mpr ht.le)]
  exact selectLoop_of_short (by rwa [sub_zero]) (by rwa [sub_zero])

/-- The first of the sorted outputs that reach the target are a minimal selection. -/
theorem minimalSelection_take (ht : 0 < targetValue)
    (h : Reaches (fun u => u.value) targetValue (sortedUtxos utxos) k) :
    MinimalSelection utxos targetValue ((sortedUtxos utxos).take k) := by
  have hperm := sortedUtxos_perm utxos
  have hdesc := sortedUtxos_descending utxos
  have hlen : ((sortedUtxos utxos).take k).length = k := List.length_take_of_le h.within
  constructor
  · exact (List.take_sublist k _).subperm.trans hperm.subperm
  · exact hdesc.sublist (List.take_sublist k _)
  · exact h.covers
  · have hpos := h.pos ht
    rw [List.dropLast_eq_take,hlen,List.take_take,Nat.min_eq_left (by omega)]
    exact h.least (k-1) (by omega)
  · intro other hother hlt
    rw [hlen] at hlt
    exact h.minimal hdesc (hother.trans hperm.symm.subperm) hlt

/-- Some of the sorted outputs reach the target exactly when all of them together do. -/
theorem exists_reaches_sortedUtxos (hvalues : ∀ u ∈ utxos, 0 ≤ u.value) :
    (∃ k, Reaches (fun u => u.value) targetValue (sortedUtxos utxos) k) ↔ targetValue ≤ valueOf utxos := by
  have hperm := sortedUtxos_perm utxos
  rw [exists_reaches_iff fun u hu => hvalues u (hperm.mem_iff.mp hu),worth_perm hperm]
  rfl

/-- Coin selection is sound, complete and minimal. -/
theorem selectUtxos_minimal (hvalues : ∀ u ∈ utxos, 0 ≤ u.value) (ht : 0 < targetValue) :
    SelectsMinimal utxos targetValue (selectUtxos utxos targetValue) := by
  have hall := @exists_reaches_sortedUtxos utxos targetValue hvalues
  by_cases hex : ∃ k, Reaches (fun u => u.value) targetValue (sortedUtxos utxos) k
  · obtain ⟨k,hk⟩ := hex
    rw [selectUtxos_of_reaches ht hk]
    constructor
    · exact iff_of_false (by rintro ⟨_,⟨⟩⟩) (not_lt.mpr (hall.mp ⟨k,hk⟩))
    · intro e he
      cases he
    · intro selected hsel
      cases hsel
      exact minimalSelection_take ht hk
  · obtain ⟨e,he,hkind⟩ := selectUtxos_of_short ht hex
    rw [he]
    constructor
    · exact iff_of_true ⟨e,rfl⟩ (not_le.mp fun h => hex (hall.mpr h))
    · intro e' he'
      cases he'
      exact hkind
    · intro selected hsel
      cases hsel

end Select

/-- Outputs of 10, 50, 30 and 1 satoshis. -/
def sampleCoins : List WalletUtxo :=
  [⟨⟨10,[],0⟩,[],0⟩,⟨⟨50,[],0⟩,[],1⟩,⟨⟨30,[],0⟩,[],2⟩,⟨⟨1,[],0⟩,[],3⟩]

theorem selectUtxos_minimal_sample : SelectsMinimal sampleCoins 60 (selectUtxos sampleCoins 60) :=
  selectUtxos_minimal (by decide) (by decide)

example : selectUtxos sampleCoins 60 = .ok [⟨⟨50,[],0⟩,[],1⟩,⟨⟨30,[],0⟩,[],2⟩] := by decide

end SubsatChannel
