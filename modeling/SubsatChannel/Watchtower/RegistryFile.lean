import SubsatChannel.Lib.WriteThrough
import SubsatChannel.Reference
import SubsatChannel.Watchtower.Registry

/-! The file of a registry: a watcher that is started again knows what it knew. -/

namespace Dict
variable {κ ν μ : Type*} [DecidableEq κ]

/-- `{k: v for k, v in items}` -/
def ofItems (l : List (κ × ν)) : Dict κ ν := l.foldl (fun d p => d.set p.1 p.2) ∅

theorem foldl_set_items {l : List (κ × ν)} {d : Dict κ ν}
    (h : ((d.items ++ l).map Prod.fst).Nodup) :
    (l.foldl (fun d p => d.set p.1 p.2) d).items = d.items ++ l := by
  induction l generalizing d with
  | nil => simp
  | cons p l ih =>
    obtain ⟨k,v⟩ := p
    have hfresh : d.get? k = none := by
      rw [get?_eq_none_iff]
      intro hk
      rw [List.map_append] at h
      exact List.disjoint_of_nodup_append h hk (by simp)
    have hset := items_set_of_fresh hfresh v
    rw [List.foldl_cons,ih (by rwa [hset,List.append_assoc,List.singleton_append]),hset,List.append_assoc,
      List.singleton_append]

theorem items_ofItems {l : List (κ × ν)} (h : (l.map Prod.fst).Nodup) : (ofItems l).items = l :=
  foldl_set_items h

theorem ofItems_items (d : Dict κ ν) : ofItems d.items = d := by
  have hitems := items_ofItems d.nodup
  obtain ⟨l,hl⟩ := d
  cases hof : ofItems l with
  | mk l' hl' =>
    dsimp only at hitems
    rw [hof] at hitems
    cases hitems
    rfl

end Dict

namespace SubsatChannel
open Transition WriteThrough

/-- What texts are read with: `bytes.fromhex`, and `int` where its result is not negative. They read what
`bytes.hex` and the digits of a number write. -/
structure TextReaders where
  fromHex : String → Option Bytes
  int : String → Option ℕ
  fromHex_hex : ∀ bs, fromHex (hex bs) = some bs
  int_repr : ∀ n, int (Nat.repr n) = some n

/-- An entry of the file. The owners are strings there, and of the horizon it has the text of the number. -/
structure RecordDoc where
  channelId : String
  currentStateTxHex : String
  forfeitTxHexByOwner : Dict String String
  horizon : String

/-- The entry that `_save` writes for a record. -/
def WatchRecord.doc (r : WatchRecord) : RecordDoc :=
  ⟨hex r.channelId,r.currentStateTxHex,
    .ofItems (r.forfeitTxHexByOwner.items.map fun p => (Nat.repr p.1,p.2)),Nat.repr r.horizon⟩

/-- The record that `_load` makes of an entry, unless a text in it cannot be read. -/
def RecordDoc.record (T : TextReaders) (d : RecordDoc) : Option WatchRecord := do
  let channelId ← T.fromHex d.channelId
  let items ← d.forfeitTxHexByOwner.items.mapM fun p => (T.int p.1).map fun owner => (owner,p.2)
  let horizon ← T.int d.horizon
  some ⟨channelId,d.currentStateTxHex,.ofItems items,horizon⟩

namespace Registry

def update (r : Registry) (record : WatchRecord) : Registry :=
  ⟨r.records.set record.channelId record⟩

def all (r : Registry) : List WatchRecord := r.records.values

/-- `__len__` -/
def len (r : Registry) : ℕ := r.records.items.length

/-- `_save`: what the file holds afterwards. -/
def save (r : Registry) : List RecordDoc := r.records.values.map WatchRecord.doc

/-- `_load` -/
def load (T : TextReaders) (docs : List RecordDoc) : Option Registry :=
  (docs.mapM (RecordDoc.record T)).map fun records => records.foldl register new

/-- `open` on a path: the file is read when there is one. -/
def openFile (T : TextReaders) : Option (List RecordDoc) → Option Registry
  | none => some new
  | some docs => load T docs

end Registry

inductive RegistryCall
  | register (record : WatchRecord)
  | update (record : WatchRecord)
  | get (channelId : Bytes)
  | all
  | len

inductive RegistryAnswer
  | done
  | record (r : Option WatchRecord)
  | records (rs : List WatchRecord)
  | count (n : ℕ)

/-- The methods of a registry, without its file. -/
def Registry.call (r : Registry) : RegistryCall → Registry × RegistryAnswer
  | .register record => (r.register record,.done)
  | .update record => (r.update record,.done)
  | .get channelId => (r,.record (r.get channelId))
  | .all => (r,.records r.all)
  | .len => (r,.count r.len)

/-- Does the call save? -/
def RegistryCall.saves : RegistryCall → Bool
  | .register _ | .update _ => true
  | _ => false

/-- The methods of a registry with a file; `none` is a process that opens the file again. -/
abbrev fileCall (T : TextReaders) : Registry × Option (List RecordDoc) → Option RegistryCall →
    (Registry × Option (List RecordDoc)) × Option RegistryAnswer :=
  durable Registry.call RegistryCall.saves (fun r => some r.save) (Registry.openFile T)

/-- Reading what was written gives the record back. -/
theorem WatchRecord.record_doc (T : TextReaders) (r : WatchRecord) : r.doc.record T = some r := by
  have hitems : (Dict.ofItems (r.forfeitTxHexByOwner.items.map fun p => (Nat.repr p.1,p.2))).items =
      r.forfeitTxHexByOwner.items.map fun p => (Nat.repr p.1,p.2) := by
    refine Dict.items_ofItems ?_
    rw [List.map_map]
    have hinj : Function.Injective Nat.repr := fun m n h => Nat.repr_injective h
    have h := r.forfeitTxHexByOwner.nodup.map hinj
    rwa [List.map_map] at h
  have howners : ∀ l : List (ℕ × String), (l.map fun p => (Nat.repr p.1,p.2)).mapM
      (fun p => (T.int p.1).map fun owner => (owner,p.2)) = some l := by
    intro l
    induction l with
    | nil => rfl
    | cons p l ih => simp [ih,T.int_repr]
  rw [RecordDoc.record,doc]
  simp only [T.fromHex_hex,T.int_repr,hitems,howners,bind,Option.bind,Dict.ofItems_items]

namespace Registry

/-- Every record is kept under the id it carries. -/
def Keyed (r : Registry) : Prop := ∀ p ∈ r.records.items, p.2.channelId = p.1

theorem keyed_new : new.Keyed := fun _ h => by cases h

theorem Keyed.register {r : Registry} (h : r.Keyed) (record : WatchRecord) : (r.register record).Keyed := by
  rintro ⟨k,v⟩ hkv
  rw [Dict.mem_items_iff] at hkv
  change (r.records.set record.channelId record).get? k = some v at hkv
  rw [Dict.get?_set] at hkv
  split_ifs at hkv with hk
  · cases hkv
    exact hk
  · exact h (k,v) (Dict.mem_items_iff.mpr hkv)

theorem Keyed.call {r : Registry} (h : r.Keyed) (c : RegistryCall) : (r.call c).1.Keyed := by
  cases c with
  | register record => exact h.register record
  | update record => exact h.register record
  | get channelId => exact h
  | all => exact h
  | len => exact h

/-- Whatever a file holds, a registry that was loaded from it keeps its records so. -/
theorem keyed_openFile {T : TextReaders} {file : Option (List RecordDoc)} {r : Registry}
    (h : openFile T file = some r) :
    r.Keyed := by
  cases file with
  | none =>
    obtain rfl := Option.some.inj h
    exact keyed_new
  | some docs =>
    obtain ⟨records,_,rfl⟩ := Option.map_eq_some_iff.mp h
    have hfold : ∀ (l : List WatchRecord) (r : Registry), r.Keyed → (l.foldl register r).Keyed := by
      intro l
      induction l with
      | nil => exact fun r h => h
      | cons a l ih => exact fun r h => ih _ (h.register a)
    exact hfold records new keyed_new

/-- What `_save` writes is loaded as the registry it was, in the same order. -/
theorem Keyed.load_save (T : TextReaders) {r : Registry} (h : r.Keyed) : load T r.save = some r := by
  have hrecords : r.save.mapM (RecordDoc.record T) = some r.records.values := by
    rw [save]
    generalize r.records.values = l
    induction l with
    | nil => rfl
    | cons a l ih => simp [ih,a.record_doc T]
  have hpairs : r.records.values.map (fun v => (v.channelId,v)) = r.records.items := by
    rw [Dict.values,List.map_map]
    conv_rhs => rw [← List.map_id r.records.items]
    refine List.map_congr_left fun p hp => ?_
    rw [Function.comp_apply,h p hp]
    rfl
  have hfold : ∀ (l : List WatchRecord) (d : Dict Bytes WatchRecord),
      l.foldl Registry.register ⟨d⟩ = ⟨(l.map fun v => (v.channelId,v)).foldl (fun d p => d.set p.1 p.2) d⟩ := by
    intro l
    induction l with
    | nil => exact fun d => rfl
    | cons a l ih => exact fun d => ih _
  rw [load,hrecords,Option.map_some,new,hfold,hpairs]
  exact congrArg some (congrArg Registry.mk (Dict.ofItems_items r.records))

end Registry

/-- The records that a list of calls registers, in order. -/
def RegistryCall.registered : RegistryCall → Option WatchRecord
  | .register record | .update record => some record
  | _ => none

theorem get_call (r : Registry) (call : RegistryCall) (c : Bytes) : (r.call call).1.get c =
    (call.registered.toList.find? fun v => v.channelId = c).or (r.get c) := by
  have hset : ∀ record : WatchRecord, (r.register record).get c =
      ([record].find? fun v => v.channelId = c).or (r.get c) := by
    intro record
    change (r.records.set record.channelId record).get? c = _
    rw [Dict.get?_set]
    by_cases hc : record.channelId = c <;> simp [hc,Registry.get]
  cases call with
  | register record => exact hset record
  | update record => exact hset record
  | get channelId => rfl
  | all => rfl
  | len => rfl

/-- A registry finds the record that was registered last for a channel. -/
theorem get_run (r : Registry) (calls : List RegistryCall) (c : Bytes) :
    (run Registry.call r calls).get c =
      (((calls.filterMap RegistryCall.registered).reverse.find? fun v => v.channelId = c).or (r.get c)) := by
  induction calls generalizing r with
  | nil => rfl
  | cons call calls ih =>
    rw [run_cons,ih,get_call,← Option.or_assoc,← List.find?_append]
    cases hreg : call.registered with
    | none => simp [hreg]
    | some record => simp [hreg]

/-- A registry that was opened on a file, or where none is yet, through any calls and any restarts: every
answer is the one that a registry which is never restarted gives, the order of the records included;
`get` finds what was registered last for the channel, or else what the file had for it; and the file, read
at any time, gives the registry. -/
theorem registry_survives {T : TextReaders} {file : Option (List RecordDoc)} {r : Registry}
    (hopen : Registry.openFile T file = some r) (calls : List (Option RegistryCall)) :
    answers (trace (fileCall T) (r,file) calls) =
      (trace Registry.call r (calls.filterMap id)).map (fun x => x.2.2) ∧
    (∀ c, (run (fileCall T) (r,file) calls).1.get c =
      ((((calls.filterMap id).filterMap RegistryCall.registered).reverse.find? fun v =>
        v.channelId = c).or (r.get c))) ∧
    Registry.openFile T (run (fileCall T) (r,file) calls).2 = some (run (fileCall T) (r,file) calls).1 := by
  have hread : ∀ r : Registry, r.Keyed → Registry.openFile T (some r.save) = some r := fun r h => h.load_save T
  have hsame : ∀ (r : Registry) (c : RegistryCall), c.saves = false → (r.call c).1 = r := by
    intro r c hc
    cases c with
    | register record => cases hc
    | update record => cases hc
    | get channelId => rfl
    | all => rfl
    | len => rfl
  obtain ⟨hrun,hans,_,hfile⟩ := durable_run hread (fun r c h => h.call c) hsame
    (Registry.keyed_openFile hopen) hopen calls
  refine ⟨hans,fun c => ?_,hfile⟩
  rw [hrun,get_run]

namespace Reference

/-- The readers that know the texts which are written, and no others. -/
def textReaders : TextReaders where
  fromHex s := unhex s.toList
  int := String.toNat?
  fromHex_hex := unhex_hex
  int_repr n := by simp

def firstRecord : WatchRecord := ⟨[1],"aa",(∅ : Dict ℕ String).set 12 "bb",7⟩
def secondRecord : WatchRecord := ⟨[2],"cc",∅,8⟩

end Reference

open Reference in
/-- Two records and a change to the first, with a restart after each. -/
theorem registry_survives_sample : answers (trace (fileCall textReaders) (Registry.new,none)
      [some (.register secondRecord),none,some (.register firstRecord),none,
        some (.update { firstRecord with horizon := 9 }),none,some (.get [1]),some .all]) =
    [.done,.done,.done,.record (some { firstRecord with horizon := 9 }),
      .records [secondRecord,{ firstRecord with horizon := 9 }]] := by
  rw [(@registry_survives textReaders none Registry.new rfl _).1]
  rfl

end SubsatChannel
