import SubsatChannel.Lib.Dict
import SubsatChannel.Channel.Config

/-! The durable store: one row for each channel and one for each stored version of its state. A row
holds the values that its JSON and hex texts encode. -/
namespace SubsatChannel

/-- The object in `cfg_json`. -/
structure ConfigDoc where
  n : ℤ
  k : ℤ
  S : ℤ
  bonds : List ℤ
  L0 : ℤ
  delta : ℤ
  deriving DecidableEq, Repr

/-- A row of `channel_meta`. -/
structure ChannelMeta where
  cfgJson : ConfigDoc
  keysHex : List Bytes
  fundingTxHex : Bytes
  fundingConfirmed : Bool
  parentValue : ℤ
  deriving DecidableEq, Repr

/-- The object in `state_json`. -/
structure StateDoc where
  balances : List ℤ
  version : ℤ
  deriving DecidableEq, Repr

structure SystemStore where
  channelMeta : Dict Bytes ChannelMeta
  channelStates : Dict (Bytes × ℕ) StateDoc

namespace SystemStore

def fresh : SystemStore := ⟨∅,∅⟩

def putChannelMeta (store : SystemStore) (channelId : Bytes) (row : ChannelMeta) : SystemStore :=
  { store with channelMeta := store.channelMeta.set channelId row }

def getChannelMeta (store : SystemStore) (channelId : Bytes) : Option ChannelMeta :=
  store.channelMeta.get? channelId

def putChannelState (store : SystemStore) (channelId : Bytes) (version : ℕ) (doc : StateDoc) :
    SystemStore :=
  { store with channelStates := store.channelStates.set (channelId,version) doc }

/-- The stored versions of a channel's state. -/
def stateRows (store : SystemStore) (channelId : Bytes) : List (ℕ × StateDoc) :=
  store.channelStates.items.filterMap fun row => if row.1.1 = channelId then some (row.1.2,row.2) else none

/-- The row with the largest version. -/
def getLatestChannelState (store : SystemStore) (channelId : Bytes) : Option (ℕ × StateDoc) :=
  (store.stateRows channelId).argmax Prod.fst

/-- All the store holds about a channel: its row and every version of its state. -/
def rows (store : SystemStore) (channelId : Bytes) : Option ChannelMeta × (ℕ → Option StateDoc) :=
  (store.getChannelMeta channelId,fun version => store.channelStates.get? (channelId,version))

variable (store : SystemStore) {c d : Bytes}

@[simp] theorem rows_putChannelMeta (row : ChannelMeta) :
    (store.putChannelMeta c row).rows c = (some row,(store.rows c).2) := by
  simp [rows,putChannelMeta,getChannelMeta]

@[simp] theorem rows_putChannelState (version : ℕ) (doc : StateDoc) :
    (store.putChannelState c version doc).rows c =
      ((store.rows c).1,Function.update (store.rows c).2 version (some doc)) := by
  refine Prod.ext rfl (funext fun v => ?_)
  simp [rows,putChannelState,Dict.get?_set,Function.update_apply,eq_comm]

theorem rows_putChannelMeta_of_ne (h : c ≠ d) (row : ChannelMeta) :
    (store.putChannelMeta c row).rows d = store.rows d := by
  simp [rows,putChannelMeta,getChannelMeta,Dict.get?_set,h]

theorem rows_putChannelState_of_ne (h : c ≠ d) (version : ℕ) (doc : StateDoc) :
    (store.putChannelState c version doc).rows d = store.rows d := by
  simp [rows,putChannelState,getChannelMeta,Dict.get?_set,h]

theorem mem_stateRows {version : ℕ} {doc : StateDoc} :
    (version,doc) ∈ store.stateRows c ↔ (store.rows c).2 version = some doc := by
  simp only [stateRows,List.mem_filterMap,Prod.exists,rows,← Dict.mem_items_iff]
  constructor
  · rintro ⟨d,v,e,hmem,h⟩
    split_ifs at h with hd
    simp only [Option.some.injEq,Prod.mk.injEq] at h
    obtain ⟨rfl,rfl⟩ := h
    exact hd ▸ hmem
  · intro hmem
    exact ⟨c,version,doc,hmem,if_pos rfl⟩

/-- The latest state is the stored one above which there is none. -/
theorem getLatestChannelState_eq_some {version : ℕ} {doc : StateDoc} :
    store.getLatestChannelState c = some (version,doc) ↔ (store.rows c).2 version = some doc ∧
      ∀ v d, (store.rows c).2 v = some d → v ≤ version := by
  constructor
  · intro h
    have hmem := List.argmax_mem (Option.mem_def.mpr h)
    refine ⟨store.mem_stateRows.mp hmem,fun v d hd => ?_⟩
    exact List.le_of_mem_argmax (store.mem_stateRows.mpr hd) (Option.mem_def.mpr h)
  · rintro ⟨hdoc,hmax⟩
    cases h : store.getLatestChannelState c with
    | none =>
      have hnil : store.stateRows c = [] := List.argmax_eq_none.mp h
      have hmem := store.mem_stateRows.mpr hdoc
      rw [hnil] at hmem
      cases hmem
    | some p =>
      obtain ⟨v,d⟩ := p
      have hd := store.mem_stateRows.mp (List.argmax_mem (Option.mem_def.mpr h))
      have hle : version ≤ v :=
        List.le_of_mem_argmax (store.mem_stateRows.mpr hdoc) (Option.mem_def.mpr h)
      obtain rfl : v = version := le_antisymm (hmax v d hd) hle
      rw [hdoc] at hd
      cases hd
      rfl

/-- Writing a channel's row keeps its latest state. -/
theorem getLatestChannelState_putChannelMeta (row : ChannelMeta) :
    (store.putChannelMeta c row).getLatestChannelState d = store.getLatestChannelState d := rfl

theorem rows_fresh : fresh.rows c = (none,fun _ => none) := rfl

end SystemStore
end SubsatChannel
