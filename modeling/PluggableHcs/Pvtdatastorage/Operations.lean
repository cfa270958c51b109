import PluggableHcs.Pvtdatastorage.Queries

namespace PluggableHcs.Pvtdatastorage
open Batches Runs Txmgmt List AList Transition StoreDb
open MissingDataKey (item nsCollBlk)

section
variable (p : BTLPolicy) (maxBatchSize : Nat)

def StoreDb.takeMissing (db : StoreDb) (entries : UpdateEntries) (e : DataEntry)
    (expiry : Option ExpiryEntry) : UpdateEntries :=
  match (entries.missing.lookup e.1.nsCollBlk).or (db.missing.lookup ⟨e.1.nsCollBlk,true⟩) with
  | none => entries
  | some bitmap => entries.add e.1 e.2 expiry bitmap

/-- One item of CommitPvtDataOfOldBlocks, with nobody else at work. -/
def StoreDb.takeOldItem (db : StoreDb) (entries : UpdateEntries) (e : DataEntry) : UpdateEntries :=
  let expiryKey := expiryKeyOf p e.1.nsCollBlk
  if expiryKey.expiringBlk = maxUint64 then db.takeMissing entries e none
  else
    match (entries.expiry.lookup expiryKey).or (db.expiry.lookup expiryKey) with
    | none => entries
    | some d => db.takeMissing entries e (some (expiryKey,d))

def StoreDb.commitPvtDataOfOldBlocks (db : StoreDb) (dataEntries : List DataEntry) : StoreDb :=
  db.writeBatch (dataEntries.foldl (db.takeOldItem p) .empty).batch

/-- A conversion: what is written, and the batch that is not yet. -/
structure Conversion where
  db : StoreDb
  batch : UpdateBatch

def Conversion.convert (c : Conversion) : Task → Conversion
  | .convert key bitmap =>
    let batch := { c.batch with
      missing := c.batch.missing ++ [(⟨key,false⟩,none),(⟨key,true⟩,some bitmap)] }
    if maxBatchSize < batch.len then ⟨c.db.writeBatch batch,{}⟩ else ⟨c.db,batch⟩
  | .scan _ _ _ | .endEvent _ => c

def Conversion.task (c : Conversion) : Task → Conversion
  | .scan maxBlkNum ns coll =>
    (c.db.ineligible maxBlkNum ns coll).foldl (Conversion.convert maxBatchSize) c
  | .convert key bitmap => c.convert maxBatchSize (.convert key bitmap)
  | .endEvent blkNum =>
    { c with batch := { c.batch with collElg := c.batch.collElg ++ [(blkNum,none)] } }

def StoreDb.processCollElgEvents (db : StoreDb) : StoreDb :=
  let c := db.collElgTasks.foldl (Conversion.task maxBatchSize) ⟨db,{}⟩
  c.db.writeBatch c.batch

end

/-- The store between two operations. -/
structure PvtStore where
  db : StoreDb
  lastCommittedBlock : Option Nat

open PvtStore

def PvtStore.nextBlockNum (s : PvtStore) : Nat :=
  match s.lastCommittedBlock with
  | none => 0
  | some b => b + 1

inductive PvtStoreOp where
  | commit (blockNum : Nat) (pvtData : List TxPvtData)
      (missingPvtData : List (Nat × List MissingPvtData))
  | processCollsEligibilityEnabled (committingBlk : Nat) (colls : List (Bytes × Bytes))
  | commitPvtDataOfOldBlocks (blocksPvtData : List (Nat × List TxPvtData))
  | purge (maxBlkNum : Nat)
  | processCollElgEvents

def oldEntries (blocksPvtData : List (Nat × List TxPvtData)) : List DataEntry :=
  blocksPvtData.flatMap fun b => prepareDataEntries b.1 b.2

/-- A purge runs up to a block that is committed. -/
def PvtStore.next (conf : Conf) (s : PvtStore) : PvtStoreOp → Option PvtStore
  | .commit blockNum pvtData missingPvtData =>
    if blockNum = s.nextBlockNum then
      some ⟨s.db.writeBatch
        (prepareStoreEntries (conf.expiryLookup []) blockNum pvtData missingPvtData),some blockNum⟩
    else none
  | .processCollsEligibilityEnabled committingBlk colls =>
    some { s with db := s.db.writeBatch { collElg := [(committingBlk,some colls)] } }
  | .commitPvtDataOfOldBlocks blocksPvtData =>
    some { s with
      db := s.db.commitPvtDataOfOldBlocks conf.btlPolicy (oldEntries blocksPvtData) }
  | .purge maxBlkNum =>
    if maxBlkNum < s.nextBlockNum then some { s with db := s.db.purgeExpiredData maxBlkNum }
    else none
  | .processCollElgEvents => some { s with db := s.db.processCollElgEvents conf.maxBatchSize }

def PvtStore.initial : PvtStore := ⟨⟨∅,∅,∅,∅⟩,none⟩

section
open Relation

theorem found_step {p : BTLPolicy} (db : StoreDb) (e : DataEntry) (expiry : Option ExpiryEntry)
    (todo : List DataEntry) (entries : UpdateEntries) :
    (Reconciler.found e expiry todo entries).step p db false =
      some ({},.reading todo (db.takeMissing entries e expiry)) := by
  simp only [Reconciler.step,takeMissing]
  cases (entries.missing.lookup e.1.nsCollBlk).or (db.missing.lookup ⟨e.1.nsCollBlk,true⟩) <;> rfl

/-- With nobody else at work the reconciler takes the items as `takeOldItem` does. -/
theorem reconciler_takes (p : BTLPolicy) (db : StoreDb) (todo : List DataEntry)
    (entries : UpdateEntries) :
    ReflTransGen (fun r r' => Reconciler.step p db false r = some ({},r')) (.reading todo entries)
      (.reading [] (todo.foldl (db.takeOldItem p) entries)) := by
  induction todo generalizing entries with
  | nil => exact .refl
  | cons e todo ih =>
    refine .trans ?_ (ih _)
    unfold takeOldItem
    dsimp only
    split
    · rename_i hm
      refine .head ?_ (.single (found_step db e none todo entries))
      simp [Reconciler.step,hm]
    rename_i hm
    split
    · rename_i hn
      exact .single (by simp [Reconciler.step,hm,hn])
    · rename_i d hd
      refine .head ?_ (.single (found_step db e (some (_,d)) todo entries))
      simp [Reconciler.step,hm,hd]

variable {maxBatchSize : Nat}

/-- The converter goes on, and wakes up before anybody else takes the lock. -/
inductive Converter.Alone (maxBatchSize : Nat) : StoreDb × Converter → StoreDb × Converter → Prop
  | step {db : StoreDb} (h : c.step maxBatchSize db = some (b,d)) :
      Alone maxBatchSize (db,c) (db.writeBatch b,d)
  | wake {db : StoreDb} : Alone maxBatchSize (db,.sleeping tasks) (db,.converting tasks {})

theorem converter_convert (tasks : List Task) (c : Conversion) (key : NsCollBlk)
    (bitmap : List Nat) : ReflTransGen (Converter.Alone maxBatchSize)
      (c.db,.converting (.convert key bitmap :: tasks) c.batch)
      ((c.convert maxBatchSize (.convert key bitmap)).db,
        .converting tasks (c.convert maxBatchSize (.convert key bitmap)).batch) := by
  unfold Conversion.convert
  dsimp only
  split
  · rename_i hlt
    refine .head (.step (d := .sleeping tasks) ?_) (.single .wake)
    simp only [Converter.step,hlt,if_true]
  · rename_i hlt
    refine .single (.step (b := {}) ?_)
    simp only [Converter.step,hlt,if_false]

theorem converter_scanned (tasks : List Task) (c : Conversion)
    (l : List (MissingDataKey × List Nat)) : ReflTransGen (Converter.Alone maxBatchSize)
      (c.db,.converting (l.map (fun e => .convert e.1.nsCollBlk e.2) ++ tasks) c.batch)
      (((l.map fun e => .convert e.1.nsCollBlk e.2).foldl (Conversion.convert maxBatchSize) c).db,
        .converting tasks ((l.map fun e => .convert e.1.nsCollBlk e.2).foldl
          (Conversion.convert maxBatchSize) c).batch) := by
  induction l generalizing c with
  | nil => exact .refl
  | cons e l ih => exact (converter_convert _ c e.1.nsCollBlk e.2).trans (ih _)

/-- With nobody else at work the converter does the tasks as `Conversion.task` does. -/
theorem converter_tasks (tasks : List Task) (c : Conversion) :
    ReflTransGen (Converter.Alone maxBatchSize) (c.db,.converting tasks c.batch)
      ((tasks.foldl (Conversion.task maxBatchSize) c).db,
        .converting [] (tasks.foldl (Conversion.task maxBatchSize) c).batch) := by
  induction tasks generalizing c with
  | nil => exact .refl
  | cons t tasks ih =>
    refine .trans ?_ (ih _)
    cases t with
    | scan m ns coll => exact .head (.step (b := {}) rfl) (converter_scanned tasks c _)
    | convert key bitmap => exact converter_convert tasks c key bitmap
    | endEvent blkNum => exact .single (.step (b := {}) rfl)

end

end PluggableHcs.Pvtdatastorage
