import Mathlib
import SubsatChannel.Bitcoinx
import SubsatChannel.Lib.FinmapWeight

/-! Stored blocks and the set of unspent outputs. -/
namespace SubsatChannel

/-- A row of the `utxos` table without its key `(txid, vout)`. -/
structure UtxoEntry where
  value : ℤ
  scriptPubkey : Script
  height : ℕ
  deriving DecidableEq, Repr

def UtxoEntry.asTxOutput (e : UtxoEntry) : TxOutput := ⟨e.value,e.scriptPubkey⟩

/-- The `utxos` table: its primary key is the outpoint. -/
abbrev UtxoSet := Finmap fun _ : Outpoint => UtxoEntry

namespace UtxoSet

/-- `INSERT OR REPLACE` of the outputs from index `i` on. -/
def addOutputs (txid : Bytes) (height : ℕ) : ℕ → List TxOutput → UtxoSet → UtxoSet
  | _, [], U => U
  | i, tout :: outs, U =>
    addOutputs txid height (i+1) outs (U.insert (txid,i) ⟨tout.value,tout.scriptPubkey,height⟩)

/-- Spend a transaction's inputs, unless it is a coinbase, then add its outputs. -/
def applyTx (B : Bitcoinx) (height : ℕ) (U : UtxoSet) (tx : Tx) : UtxoSet :=
  addOutputs (B.txHash tx) height 0 tx.outputs
    (if B.isCoinbase tx then U else U.eraseAll tx.outpoints)

def connectBlockUtxos (B : Bitcoinx) (U : UtxoSet) (height : ℕ) (txs : List Tx) : UtxoSet :=
  txs.foldl (applyTx B height) U

/-- The satoshis held by the whole set. -/
def total (U : UtxoSet) : ℤ := U.weight UtxoEntry.value

/-- The satoshis held at an outpoint; zero when it is not in the set. -/
def valueAt (U : UtxoSet) (o : Outpoint) : ℤ := U.weightAt UtxoEntry.value o

theorem lookup_addOutputs (txid : Bytes) (height i : ℕ) (outs : List TxOutput) (U : UtxoSet)
    (o : Outpoint) : (addOutputs txid height i outs U).lookup o =
      if o.1 = txid ∧ i ≤ o.2 ∧ o.2 < i + outs.length then
        (outs[o.2-i]?).map fun t => ⟨t.value,t.scriptPubkey,height⟩
      else U.lookup o := by
  induction outs generalizing i U with
  | nil =>
    rw [if_neg (by simp)]
    rfl
  | cons tout outs ih =>
    obtain ⟨t,v⟩ := o
    rw [addOutputs,ih]
    by_cases ht : t = txid
    · subst ht
      rcases Nat.lt_trichotomy v i with hv | rfl | hv
      · rw [if_neg (by simp; omega),if_neg (by simp; omega),
          Finmap.lookup_insert_of_ne _ (by simp; omega)]
      · rw [if_neg (by simp),if_pos (by simp),Finmap.lookup_insert]
        simp
      · have hs : v-i = (v-(i+1))+1 := by omega
        by_cases hin : v < i+1+outs.length
        · rw [if_pos ⟨rfl,by simp; omega,hin⟩,if_pos ⟨rfl,by simp; omega,by simp; omega⟩,hs]
          simp
        · rw [if_neg (by simp; omega),if_neg (by simp; omega),
            Finmap.lookup_insert_of_ne _ (by simp; omega)]
    · rw [if_neg (by simp [ht]),if_neg (by simp [ht]),
        Finmap.lookup_insert_of_ne _ (by simp [ht])]

/-- The outpoints a transaction creates. -/
def createdBy (B : Bitcoinx) (tx : Tx) : List Outpoint :=
  (List.range tx.outputs.length).map fun i => (B.txHash tx,i)

theorem mem_createdBy {B : Bitcoinx} {tx : Tx} {o : Outpoint} :
    o ∈ createdBy B tx ↔ o.1 = B.txHash tx ∧ o.2 < tx.outputs.length := by
  obtain ⟨t,v⟩ := o
  simp only [createdBy,List.mem_map,List.mem_range,Prod.mk.injEq]
  constructor
  · rintro ⟨i,hi,rfl,rfl⟩; exact ⟨rfl,hi⟩
  · rintro ⟨rfl,hi⟩; exact ⟨v,hi,rfl,rfl⟩

/-- The outpoints a transaction spends when it is connected. -/
def spentBy (B : Bitcoinx) (tx : Tx) : List Outpoint :=
  if B.isCoinbase tx then [] else tx.outpoints

/-- What one transaction does to the entry at an outpoint. -/
theorem lookup_applyTx (B : Bitcoinx) (height : ℕ) (U : UtxoSet) (tx : Tx) (o : Outpoint) :
    (applyTx B height U tx).lookup o =
      if o ∈ createdBy B tx then
        (tx.outputs[o.2]?).map fun t => ⟨t.value,t.scriptPubkey,height⟩
      else if o ∈ spentBy B tx then none else U.lookup o := by
  rw [applyTx,lookup_addOutputs]
  by_cases hc : o ∈ createdBy B tx
  · have h := mem_createdBy.mp hc
    rw [if_pos ⟨h.1,by omega,by omega⟩,if_pos hc,Nat.sub_zero]
  · have h : ¬ (o.1 = B.txHash tx ∧ 0 ≤ o.2 ∧ o.2 < 0 + tx.outputs.length) := by
      rw [mem_createdBy] at hc
      simpa using hc
    rw [if_neg h,if_neg hc]
    cases hb : B.isCoinbase tx <;> simp [spentBy,hb,Finmap.lookup_eraseAll]

end UtxoSet

/-- The blocks table (height and raw block by hash) and the unspent outputs. -/
structure BlockStore where
  blocks : Finmap fun _ : Bytes => ℕ × Bytes
  utxos : UtxoSet

namespace BlockStore

def storeBlock (s : BlockStore) (hash : Bytes) (height : ℕ) (raw : Bytes) : BlockStore :=
  { s with blocks := s.blocks.insert hash (height,raw) }

def getBlock (s : BlockStore) (hash : Bytes) : Option Bytes := (s.blocks.lookup hash).map Prod.snd

theorem getBlock_storeBlock (s : BlockStore) (hash : Bytes) (height : ℕ) (raw : Bytes) :
    (s.storeBlock hash height raw).getBlock hash = some raw := by
  simp [getBlock,storeBlock]

theorem getBlock_storeBlock_of_ne {s : BlockStore} {hash x : Bytes} {height : ℕ} {raw : Bytes} (hx : x ≠ hash) :
    (s.storeBlock hash height raw).getBlock x = s.getBlock x := by
  rw [getBlock,storeBlock,Finmap.lookup_insert_of_ne _ hx]
  rfl

def addUtxo (s : BlockStore) (o : Outpoint) (e : UtxoEntry) : BlockStore :=
  { s with utxos := s.utxos.insert o e }

def getUtxo (s : BlockStore) (o : Outpoint) : Option UtxoEntry := s.utxos.lookup o

/-- Remove an entry and return it. -/
def spendUtxo (s : BlockStore) (o : Outpoint) : BlockStore × Option UtxoEntry :=
  match s.getUtxo o with
  | none => (s,none)
  | some e => ({ s with utxos := s.utxos.erase o },some e)

def connectBlockUtxos (B : Bitcoinx) (s : BlockStore) (height : ℕ) (txs : List Tx) : BlockStore :=
  { s with utxos := s.utxos.connectBlockUtxos B height txs }

end BlockStore
end SubsatChannel
