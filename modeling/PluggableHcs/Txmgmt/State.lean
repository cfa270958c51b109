import Mathlib.Data.List.AList
import Mathlib.Data.List.Lex
import PluggableHcs.Lib.Reading
import PluggableHcs.Lib.Tables

namespace PluggableHcs.Txmgmt
open Readings Tables Option

abbrev Bytes := List UInt8

instance : LawfulBEq Bytes := inferInstanceAs (LawfulBEq (List UInt8))

/-- Strings are compared byte by byte. -/
instance byteOrder : LinearOrder UInt8 where
  le_refl := UInt8.le_refl
  le_trans _ _ _ := UInt8.le_trans
  le_antisymm _ _ := UInt8.le_antisymm
  le_total := UInt8.le_total
  lt_iff_le_not_ge a b := by
    rw [UInt8.not_le]
    exact ⟨fun h => ⟨UInt8.le_of_lt h,h⟩,And.right⟩
  toDecidableLE := inferInstance
  toDecidableEq := inferInstance
  toDecidableLT := inferInstance
  min_def _ _ := rfl
  max_def _ _ := rfl
  compare_eq_compareOfLessAndEq _ _ := rfl

structure Height where
  blockNum : Nat
  txNum : Nat
deriving DecidableEq

structure MetadataEntry where
  name : Bytes
  value : Bytes
deriving DecidableEq

/-- The metadata is kept as the entries that were serialized. No bytes stand for nil, so a value
without bytes is a delete. -/
structure VersionedValue where
  value : Bytes
  metadata : List MetadataEntry
  version : Height
deriving DecidableEq

def VersionedValue.isDelete (vv : VersionedValue) : Bool := vv.value.isEmpty

theorem VersionedValue.is_delete_iff {vv : VersionedValue} : vv.isDelete = true ↔ vv.value = [] :=
  List.isEmpty_iff

inductive Space where
  | pub (ns : Bytes)
  | hashed (ns coll : Bytes)
  | pvt (ns coll : Bytes)
deriving DecidableEq

namespace Space

def ns : Space → Bytes
  | pub ns | hashed ns _ | pvt ns _ => ns

end Space

/-- Causes of a crash. -/
inductive Cause where
  | nilValue
  | nilVersion
  | nilHelper
  | nilMap
  | indexOutOfRange
deriving DecidableEq

inductive Failure where
  | database
  | hashMismatch (ns coll publicHash pvtdataHash : Bytes)
  | unmarshal
  | panic (cause : Cause)
deriving DecidableEq

/-- What the state is for: values by space and key. -/
abbrev State := Space → Bytes → Option VersionedValue

/-- The state database. What it holds has a value, and the namespaces that ever used metadata are
known. -/
structure Db where
  contents : Space → Table Bytes VersionedValue
  metadataEverUsedFor : Bytes → Bool
  bulkOptimizable : Bool
  valued : (contents s).get k = some vv → vv.value ≠ []
  hinted : (contents s).get k = some vv → vv.metadata ≠ [] → metadataEverUsedFor s.ns = true

namespace Db

theorem empty_valued (h : (.empty : Table Bytes VersionedValue).get k = some vv) : vv.value ≠ [] :=
  nomatch h

theorem empty_hinted (h : (.empty : Table Bytes VersionedValue).get k = some vv) :
    vv.metadata ≠ [] → us = true := nomatch h

def state (db : Db) : State := fun s k => (db.contents s).get k

def getState (db : Db) (s : Space) (k : Bytes) : Reading Failure (Option VersionedValue) :=
  read (db.state s k)

/-- Where versions are loaded in bulk before a block is validated, they come from the cache. -/
def getVersion (db : Db) (s : Space) (k : Bytes) : Reading Failure (Option Height) :=
  let version := (db.state s k).map VersionedValue.version
  if db.bulkOptimizable then pure version else read version

def getStateMetadata (db : Db) (s : Space) (k : Bytes) : Reading Failure (List MetadataEntry) :=
  if db.metadataEverUsedFor s.ns then do
    match ← db.getState s k with
    | none => pure []
    | some vv => pure vv.metadata
  else pure []

theorem get_version_result {db : Db} :
    (db.getVersion s k).result = .ok ((db.state s k).map VersionedValue.version) := by
  unfold getVersion
  split <;> rfl

theorem get_state_metadata_result {db : Db} :
    (db.getStateMetadata s k).result = .ok ((db.state s k).elim [] VersionedValue.metadata) := by
  unfold getStateMetadata
  split
  · rw [getState,result_bind_ok (result_read _)]
    cases db.state s k <;> rfl
  rename_i hu
  cases h : db.state s k with
  | none => rfl
  | some vv =>
    by_cases hm : vv.metadata = []
    · exact congrArg _ hm.symm
    · exact absurd (db.hinted h hm) hu

end Db

/-- Updates by space, deletes included. -/
abbrev Batch := AList fun _ : Space => Table Bytes VersionedValue

namespace Batch

section
variable (b : Batch)

def updates (s : Space) : Table Bytes VersionedValue := (b.lookup s).getD .empty

def get (s : Space) (k : Bytes) : Option VersionedValue := (b.updates s).get k

def update (s : Space) (k : Bytes) (vv : VersionedValue) : Batch :=
  b.insert s ((b.updates s).insert k vv)

def putValAndMetadata (s : Space) (k value : Bytes) (metadata : List MetadataEntry)
    (version : Height) : Reading Failure Batch :=
  if value = [] then raise (.panic .nilValue) else pure (b.update s k ⟨value,metadata,version⟩)

def delete (s : Space) (k : Bytes) (version : Height) : Batch :=
  b.update s k ⟨[],[],version⟩

@[simp] theorem get_nil : get (∅ : Batch) s k = none := rfl

theorem get_update {b : Batch} :
    (b.update s k vv).get s' k' = if s' = s ∧ k' = k then some vv else b.get s' k' := by
  unfold update get updates
  by_cases hs : s' = s
  · subst hs
    rw [AList.lookup_insert,getD_some,Table.get_insert]
    simp
  · rw [AList.lookup_insert_ne hs,if_neg fun h => hs h.1]

def apply (state : State) : State := fun s k =>
  match b.get s k with
  | none => state s k
  | some vv => if vv.value = [] then none else some vv

theorem apply_none {b : Batch} (h : b.get s k = none) : b.apply state s k = state s k := by
  rw [apply,h]

theorem apply_some {b : Batch} (h : b.get s k = some vv) :
    b.apply state s k = if vv.value = [] then none else some vv := by
  rw [apply,h]

theorem apply_or {b b' : Batch} {c : Bool} (h : b'.get s k = (b.get s k).or
      (if c then some ⟨[],[],ver⟩ else none)) :
    b'.apply state s k = match b.get s k with
      | some vv => if vv.value = [] then none else some vv
      | none => if c then none else state s k := by
  rw [apply,h]
  cases b.get s k with
  | some vv => rfl
  | none => cases c <;> rfl

def usesMetadata (ns : Bytes) : Bool :=
  b.entries.any fun e => e.1.ns = ns && e.2.entries.any fun u => !u.2.metadata.isEmpty

end

theorem uses_metadata {b : Batch} (h : b.get s k = some vv) (hm : vv.metadata ≠ []) :
    b.usesMetadata s.ns = true := by
  unfold get updates at h
  cases hl : b.lookup s with
  | none =>
    rw [hl,getD_none,Table.get_empty] at h
    cases h
  | some ta =>
    rw [hl,getD_some] at h
    refine List.any_eq_true.mpr ⟨⟨s,ta⟩,AList.mem_lookup_iff.mp hl,?_⟩
    rw [decide_eq_true rfl,Bool.true_and]
    refine List.any_eq_true.mpr ⟨(k,vv),Table.get_eq_some.mp h,?_⟩
    simpa using hm

end Batch

/-- The last entry of a key, which may be a delete of the batch. -/
def latest (b : Batch) (db : Db) (s : Space) (k : Bytes) : Option VersionedValue :=
  (b.get s k).or (db.state s k)

theorem apply_eq_latest :
    b.apply db.state s k = (latest b db s k).filter fun vv => !vv.isDelete := by
  unfold latest
  cases hb : b.get s k with
  | some vv => simp [Batch.apply_some hb,Option.filter,VersionedValue.isDelete]
  | none =>
    rw [Batch.apply_none hb,none_or]
    cases hd : db.state s k with
    | none => rfl
    | some vv =>
      have := db.valued hd
      simp [Option.filter,VersionedValue.isDelete,this]

/-- The batch is asked before the database is. -/
def retrieveLatest (b : Batch) (db : Db) (s : Space) (k : Bytes) :
    Reading Failure (Option VersionedValue) :=
  match b.get s k with
  | some vv => pure (some vv)
  | none => db.getState s k

theorem retrieve_latest_result : (retrieveLatest b db s k).result = .ok (latest b db s k) := by
  unfold retrieveLatest latest
  cases b.get s k <;> rfl

def Db.applyUpdates (db : Db) (b : Batch) : Db where
  contents s := ((db.contents s).overlaid (b.updates s)).filter fun e => !e.2.isDelete
  metadataEverUsedFor ns := db.metadataEverUsedFor ns || b.usesMetadata ns
  bulkOptimizable := db.bulkOptimizable
  valued := by
    intro s k vv h
    rw [Table.get_filter,filter_eq_some_iff] at h
    simpa [VersionedValue.isDelete] using h.2
  hinted := by
    intro s k vv h hm
    rw [Table.get_filter,filter_eq_some_iff,Table.get_overlaid,or_eq_some_iff] at h
    rw [Bool.or_eq_true]
    rcases h.1 with hu | ⟨_,hd⟩
    · exact .inr (Batch.uses_metadata hu hm)
    · exact .inl (db.hinted hd hm)

theorem Db.apply_updates_state {db : Db} : (db.applyUpdates b).state = b.apply db.state := by
  funext s k
  rw [apply_eq_latest,state,applyUpdates,Table.get_filter,Table.get_overlaid]
  rfl

def Db.initial (bulkOptimizable : Bool) : Db where
  contents _ := .empty
  metadataEverUsedFor _ := false
  bulkOptimizable := bulkOptimizable
  valued := Db.empty_valued
  hinted := Db.empty_hinted

def emptyDb : Db := .initial false

end PluggableHcs.Txmgmt
