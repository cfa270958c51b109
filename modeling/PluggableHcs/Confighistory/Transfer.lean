import PluggableHcs.Lib.Batches
import PluggableHcs.Snapshot.File

namespace PluggableHcs.Confighistory
open Digits List Batches Snapshot
open Txmgmt (Bytes)

def nsStartKey : Bytes := [115,108,115,99,99,0]

/-- The entries of a ledger. All of them are of the one namespace. -/
structure Db where
  entries : AList fun _ : Bytes => Bytes
  ns : ∀ k ∈ entries, nsStartKey <+: k

structure Dir where
  data : Option Bytes
  metadata : Option Bytes

def snapshotFileFormat : UInt8 := 1

def rawFile (bytes : Bytes) : Bytes := snapshotFileFormat :: bytes

/-- The entries of a namespace. The end key is the start key with the next higher byte in the end. -/
def getNamespaceIterator (entries : AList fun _ : Bytes => Bytes) : List (Bytes × Bytes) :=
  (entries.entries.filter fun e => nsStartKey.isPrefixOf e.1).map fun e => (e.1,e.2)

/-- The files are created with the first entry. -/
def exportConfigHistory (entries : AList fun _ : Bytes => Bytes) : Dir :=
  match getNamespaceIterator entries with
  | [] => ⟨none,none⟩
  | es => ⟨some (rawFile (es.flatMap fun e => encodeBytes e.1 ++ encodeBytes e.2)),
      some (rawFile (varint es.length))⟩

inductive ImportError where
  | historyExists
  | noSuchFile
  | malformed
deriving DecidableEq

def importConfigsBatchSize : Nat := 1024 * 1024

/-- The size is not reset when a batch is written. -/
def importEntries : Nat → FileReader → Nat → List (Op Bytes Bytes) → (AList fun _ : Bytes => Bytes) →
    Except ImportError (AList fun _ : Bytes => Bytes)
  | 0,_,_,batch,db => .ok (write db batch)
  | n + 1,r,currentBatchSize,batch,db =>
    match r.decodeBytes with
    | none => .error .malformed
    | some (key,r) =>
      match r.decodeBytes with
      | none => .error .malformed
      | some (val,r) =>
        let batch := batch ++ [(key,some val)]
        let size := currentBatchSize + (key.length + val.length)
        if importConfigsBatchSize ≤ size then importEntries n r size [] (write db batch)
        else importEntries n r size batch db

/-- The numbers say how much the calls of Read on the data file deliver. -/
def importConfigHistory (limits : List Nat) (db : AList fun _ : Bytes => Bytes) (dir : Dir) :
    Except ImportError (AList fun _ : Bytes => Bytes) :=
  if db.entries ≠ [] then .error .historyExists
  else
    match dir.metadata.bind fun file => openFile file snapshotFileFormat [] with
    | none => .error .noSuchFile
    | some configMetadata =>
      match configMetadata.decodeUVarInt with
      | none => .error .malformed
      | some (numCollectionConfigs,_) =>
        match dir.data.bind fun file => openFile file snapshotFileFormat limits with
        | none => .error .noSuchFile
        | some r => importEntries numCollectionConfigs r 0 [] db

def ops (es : List (Bytes × Bytes)) : List (Op Bytes Bytes) := es.map fun e => (e.1,some e.2)

/-- What is in the data file. -/
def fileValues (es : List (Bytes × Bytes)) : List (Value Empty) :=
  es.flatMap fun e => [.bytes e.1,.bytes e.2]

def Dir.ReadsBack (dir : Dir) (limits : List Nat) (es : List (Bytes × Bytes)) : Prop :=
  ∃ file ∈ dir.data, ∃ r ∈ openFile file snapshotFileFormat limits,
    r.ReadsBack noMessages (fileValues es)

theorem file_values (es : List (Bytes × Bytes)) : (fileValues es).flatMap noMessages.encode =
    es.flatMap fun e => encodeBytes e.1 ++ encodeBytes e.2 := by
  simp [fileValues,flatMap_assoc,ProtoCodec.encode]

theorem file_sizes (es : List (Bytes × Bytes)) : (fileValues es).map noMessages.size =
    es.flatMap fun e => [e.1.length,e.2.length] := by
  simp [fileValues,map_flatMap,ProtoCodec.size]

theorem import_entries {es : List (Bytes × Bytes)} {r : FileReader}
    (hr : r.rest = es.flatMap fun e => encodeBytes e.1 ++ encodeBytes e.2)
    (sized : ∀ e ∈ es, e.1.length < 2 ^ 63 ∧ e.2.length < 2 ^ 63)
    (delivers : Delivers r.limits (es.flatMap fun e => [e.1.length,e.2.length])) (size : Nat)
    (batch : List (Op Bytes Bytes)) (db : AList fun _ : Bytes => Bytes) :
    importEntries es.length r size batch db = .ok (write db (batch ++ ops es)) := by
  induction es generalizing r size batch db with
  | nil =>
    rw [ops,map_nil,append_nil]
    rfl
  | cons e es ih =>
    rw [flatMap_cons,append_assoc] at hr
    obtain ⟨he,hes⟩ := forall_mem_cons.mp sized
    rw [flatMap_cons,cons_append,cons_append,nil_append] at delivers
    obtain ⟨hd,delivers⟩ := delivers_cons.mp delivers
    obtain ⟨hd',hds⟩ := delivers_cons.mp delivers
    obtain ⟨key,r₁,hke,hl,hre,hkey⟩ := decode_bytes hr he.1
    obtain rfl := hkey hd
    rw [← hl] at hd' hds
    obtain ⟨val,r₂,hv,hl',hre',hval⟩ := decode_bytes (hre.mpr hd) he.2
    obtain rfl := hval hd'
    rw [← hl'] at hds
    have hih := ih (hre'.mpr hd') hes hds
    have ho : batch ++ ops (e :: es) = (batch ++ [(e.1,some e.2)]) ++ ops es := by
      rw [append_assoc]
      rfl
    rw [length_cons,importEntries,hke]
    dsimp only
    rw [hv]
    dsimp only
    split
    · rw [hih,nil_append,ho,← write_append]
    · rw [hih,ho]

theorem export_entries (db : Db) : getNamespaceIterator db.entries =
    db.entries.entries.map fun e => (e.1,e.2) := by
  rw [getNamespaceIterator,filter_eq_self.mpr]
  intro e he
  exact isPrefixOf_iff_prefix.mpr (db.ns e.1 (AList.mem_keys.mpr (mem_map_of_mem he)))

theorem lookup_written (t : AList fun _ : Bytes => Bytes) (k : Bytes) :
    (write ∅ (ops (t.entries.map fun e => (e.1,e.2)))).lookup k = t.lookup k := by
  rw [ops,map_map]
  cases h : t.lookup k with
  | some a => exact lookup_write_entries h
  | none =>
    rw [lookup_write_other,AList.lookup_empty]
    intro o ho hk
    obtain ⟨e,he,rfl⟩ := mem_map.mp ho
    exact AList.lookup_eq_none.mp h (hk ▸ AList.mem_keys.mpr (mem_map_of_mem (f := Sigma.fst) he))

theorem open_raw_file (bs : Bytes) (ls : List Nat) :
    openFile (rawFile bs) snapshotFileFormat ls = some ⟨bs,[],ls⟩ :=
  open_file _ bs ls

theorem export_files (h : getNamespaceIterator entries = es) (hne : es ≠ []) :
    exportConfigHistory entries =
      ⟨some (rawFile (es.flatMap fun e => encodeBytes e.1 ++ encodeBytes e.2)),
        some (rawFile (varint es.length))⟩ := by
  rw [exportConfigHistory,h]
  cases es with
  | nil => exact absurd rfl hne
  | cons e es => rfl

theorem export_nothing (h : getNamespaceIterator entries = []) :
    exportConfigHistory entries = ⟨none,none⟩ := by
  rw [exportConfigHistory,h]

theorem import_files {es : List (Bytes × Bytes)} (count : es.length < 2 ^ 64)
    (sized : ∀ e ∈ es, e.1.length < 2 ^ 63 ∧ e.2.length < 2 ^ 63)
    (delivers : Delivers limits (es.flatMap fun e => [e.1.length,e.2.length])) :
    importConfigHistory limits ∅
      ⟨some (rawFile (es.flatMap fun e => encodeBytes e.1 ++ encodeBytes e.2)),
        some (rawFile (varint es.length))⟩ = .ok (write ∅ (ops es)) := by
  have hn := decode_uvarint (r := ⟨varint es.length,[],[]⟩) (append_nil _).symm count
  rw [importConfigHistory,if_neg (fun h => h rfl)]
  dsimp only [Option.bind]
  rw [open_raw_file]
  dsimp only
  rw [hn]
  dsimp only
  rw [open_raw_file]
  exact import_entries rfl sized delivers 0 [] ∅

theorem files_read_back {es : List (Bytes × Bytes)}
    (sized : ∀ e ∈ es, e.1.length < 2 ^ 63 ∧ e.2.length < 2 ^ 63) :
    Dir.ReadsBack ⟨some (rawFile (es.flatMap fun e => encodeBytes e.1 ++ encodeBytes e.2)),metadata⟩
      limits es ↔ Delivers limits (es.flatMap fun e => [e.1.length,e.2.length]) := by
  have values : ∀ v ∈ fileValues es, noMessages.Sized v := by
    intro v hv
    obtain ⟨e,he,hv⟩ := mem_flatMap.mp hv
    rcases mem_pair.mp hv with rfl | rfl
    · exact (sized e he).1
    · exact (sized e he).2
  have hb := reads_back_iff (r := ⟨_,[],limits⟩) (file_values es).symm values
  rw [file_sizes] at hb
  rw [← hb]
  constructor
  · rintro ⟨file,hf,r,hr,h⟩
    cases hf
    rw [open_raw_file] at hr
    cases hr
    exact h
  · exact fun h => ⟨_,rfl,_,open_raw_file _ _,h⟩

/-- What is exported is imported, and the data file read back, just when there is anything and each
call of Read delivers what it is asked for. -/
theorem transfer_round_trip (db : Db) (limits : List Nat)
    (sized : ∀ e ∈ db.entries.entries, e.1.length < 2 ^ 63 ∧ e.2.length < 2 ^ 63)
    (count : db.entries.entries.length < 2 ^ 64) :
    let imports := ∃ imported,
      importConfigHistory limits ∅ (exportConfigHistory db.entries) = .ok imported ∧
      ∀ k, imported.lookup k = db.entries.lookup k
    let es := db.entries.entries.map fun e => (e.1,e.2)
    (imports → es ≠ []) ∧
    (imports ∧ (exportConfigHistory db.entries).ReadsBack limits es ↔
      es ≠ [] ∧ Delivers limits (es.flatMap fun e => [e.1.length,e.2.length])) := by
  intro imports es
  have hsized : ∀ e ∈ es, e.1.length < 2 ^ 63 ∧ e.2.length < 2 ^ 63 := forall_mem_map.mpr sized
  have hcount : es.length < 2 ^ 64 := by rwa [length_map]
  have hne : imports → es ≠ [] := by
    rintro ⟨imported,hi,_⟩ hnil
    rw [export_nothing ((export_entries db).trans hnil)] at hi
    cases hi
  refine ⟨hne,?_⟩
  constructor
  · rintro ⟨hi,hb⟩
    rw [export_files (export_entries db) (hne hi),files_read_back hsized] at hb
    exact ⟨hne hi,hb⟩
  · rintro ⟨hn,hd⟩
    have he := export_files (export_entries db) hn
    refine ⟨⟨_,?_,lookup_written db.entries⟩,?_⟩
    · rw [he]
      exact import_files hcount hsized hd
    · rw [he,files_read_back hsized]
      exact hd

def sampleDb : Db where
  entries := AList.insert (nsStartKey ++ [7]) [8,9] (AList.insert (nsStartKey ++ [9,9]) [5] ∅)
  ns k h := by
    rcases (AList.mem_insert _).mp h with rfl | h
    · exact prefix_append _ _
    rcases (AList.mem_insert _).mp h with rfl | h
    · exact prefix_append _ _
    · cases h

theorem sample_transfer : ∃ imported,
    importConfigHistory [7,2,8,1] ∅ (exportConfigHistory sampleDb.entries) = .ok imported ∧
      ∀ k, imported.lookup k = sampleDb.entries.lookup k :=
  ((transfer_round_trip sampleDb [7,2,8,1] (by decide) (by decide)).2.mpr (by decide)).1

/-- Without entries no file is written, and none is found. -/
theorem empty_not_imported :
    importConfigHistory [] ∅ (exportConfigHistory ∅) = .error .noSuchFile :=
  rfl

end PluggableHcs.Confighistory
