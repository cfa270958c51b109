import Mathlib.Data.List.Sort
import PluggableHcs.Lib.Batches
import PluggableHcs.Lib.Runs
import PluggableHcs.Txmgmt.PurgeMgr

namespace PluggableHcs.Pvtdatastorage
open Batches Runs Txmgmt

instance : LawfulBEq (Bytes × Bytes) := inferInstance

structure NsCollBlk where
  ns : Bytes
  coll : Bytes
  blkNum : Nat
deriving DecidableEq

structure DataKey where
  nsCollBlk : NsCollBlk
  txNum : Nat
deriving DecidableEq

structure MissingDataKey where
  nsCollBlk : NsCollBlk
  isEligible : Bool
deriving DecidableEq

structure ExpiryKey where
  expiringBlk : Nat
  committingBlk : Nat
deriving DecidableEq

/-- The nested maps of an expiry entry, as lists. -/
structure ExpiryData where
  present : List (Bytes × Bytes × Nat)
  missing : List (Bytes × Bytes)
deriving DecidableEq

namespace ExpiryData

def empty : ExpiryData := ⟨[],[]⟩

def addPresentData (d : ExpiryData) (ns coll : Bytes) (txNum : Nat) : ExpiryData :=
  { d with present := d.present ++ [(ns,coll,txNum)] }

def addMissingData (d : ExpiryData) (ns coll : Bytes) : ExpiryData :=
  { d with missing := d.missing.insert (ns,coll) }

end ExpiryData

structure TxPvtData where
  seqInBlock : Nat
  writeSet : List (Bytes × List (Bytes × Bytes))

structure MissingPvtData where
  ns : Bytes
  coll : Bytes
  isEligible : Bool

/-- The four families of keys of the store. A bitmap is the list of the transactions that are set. -/
structure StoreDb where
  data : AList fun _ : DataKey => Bytes
  missing : AList fun _ : MissingDataKey => List Nat
  expiry : AList fun _ : ExpiryKey => ExpiryData
  collElg : AList fun _ : Nat => List (Bytes × Bytes)

structure UpdateBatch where
  data : List (Op DataKey Bytes) := []
  missing : List (Op MissingDataKey (List Nat)) := []
  expiry : List (Op ExpiryKey ExpiryData) := []
  collElg : List (Op Nat (List (Bytes × Bytes))) := []

def UpdateBatch.len (b : UpdateBatch) : Nat :=
  (b.data.map Prod.fst).eraseDups.length + (b.missing.map Prod.fst).eraseDups.length +
    (b.expiry.map Prod.fst).eraseDups.length + (b.collElg.map Prod.fst).eraseDups.length

def StoreDb.writeBatch (db : StoreDb) (b : UpdateBatch) : StoreDb where
  data := write db.data b.data
  missing := write db.missing b.missing
  expiry := write db.expiry b.expiry
  collElg := write db.collElg b.collElg

def prepareDataEntries (blockNum : Nat) (pvtData : List TxPvtData) : List (DataKey × Bytes) :=
  pvtData.flatMap fun tx => tx.writeSet.flatMap fun ns => ns.2.map fun coll =>
    (⟨⟨ns.1,coll.1,blockNum⟩,tx.seqInBlock⟩,coll.2)

def prepareMissingDataEntries (committingBlk : Nat)
    (missingPvtData : List (Nat × List MissingPvtData)) :
    AList fun _ : MissingDataKey => List Nat :=
  (missingPvtData.flatMap fun tx => tx.2.map (tx.1,·)).foldl
    (fun m e =>
      let key : MissingDataKey := ⟨⟨e.2.ns,e.2.coll,committingBlk⟩,e.2.isEligible⟩
      m.insert key (((m.lookup key).getD []).insert e.1)) ∅

/-- The outcome of GetExpiringBlock; none where it fails. -/
abbrev ExpiryLookup := NsCollBlk → Option Nat

section
variable (get : ExpiryLookup)

def prepareExpiryEntry (key : NsCollBlk) (add : ExpiryData → ExpiryData)
    (mapByExpiringBlk : AList fun _ : Nat => ExpiryData) : AList fun _ : Nat => ExpiryData :=
  match get key with
  | none => mapByExpiringBlk
  | some expiringBlk =>
    if expiringBlk = maxUint64 then mapByExpiringBlk
    else mapByExpiringBlk.insert expiringBlk
      (add ((mapByExpiringBlk.lookup expiringBlk).getD .empty))

def prepareExpiryEntriesForPresentData (m : AList fun _ : Nat => ExpiryData) (key : DataKey) :
    AList fun _ : Nat => ExpiryData :=
  prepareExpiryEntry get key.nsCollBlk
    (·.addPresentData key.nsCollBlk.ns key.nsCollBlk.coll key.txNum) m

def prepareExpiryEntriesForMissingData (m : AList fun _ : Nat => ExpiryData)
    (key : MissingDataKey) :
    AList fun _ : Nat => ExpiryData :=
  prepareExpiryEntry get key.nsCollBlk (·.addMissingData key.nsCollBlk.ns key.nsCollBlk.coll) m

def prepareExpiryEntries (dataKeys : List DataKey)
    (missingDataKeys : List MissingDataKey) : AList fun _ : Nat => ExpiryData :=
  missingDataKeys.foldl (prepareExpiryEntriesForMissingData get)
    (dataKeys.foldl (prepareExpiryEntriesForPresentData get) ∅)

def prepareStoreEntries (blockNum : Nat) (pvtData : List TxPvtData)
    (missingPvtData : List (Nat × List MissingPvtData)) : UpdateBatch where
  data := (prepareDataEntries blockNum pvtData).map fun e => (e.1,some e.2)
  missing := (prepareMissingDataEntries blockNum missingPvtData).entries.map
    fun e => (e.1,some e.2)
  expiry := (prepareExpiryEntries get ((prepareDataEntries blockNum pvtData).map Prod.fst)
    (prepareMissingDataEntries blockNum missingPvtData).keys).entries.map
      fun e => (⟨e.1,blockNum⟩,some e.2)

end

abbrev ExpiryKey.le (a b : ExpiryKey) : Prop :=
  a.expiringBlk < b.expiringBlk ∨ a.expiringBlk = b.expiringBlk ∧ a.committingBlk ≤ b.committingBlk

abbrev ExpiryEntry := ExpiryKey × ExpiryData

def StoreDb.retrieveExpiryEntries (db : StoreDb) (maxBlkNum : Nat) : List ExpiryEntry :=
  ((db.expiry.entries.map fun e => (e.1,e.2)).filter fun e =>
    e.1.expiringBlk ≤ maxBlkNum).insertionSort fun a b => a.1.le b.1

def ExpiryEntry.dataKeys (e : ExpiryEntry) : List DataKey :=
  e.2.present.map fun p => ⟨⟨p.1,p.2.1,e.1.committingBlk⟩,p.2.2⟩

def ExpiryEntry.missingDataKeys (e : ExpiryEntry) : List MissingDataKey :=
  e.2.missing.flatMap fun p =>
    [⟨⟨p.1,p.2,e.1.committingBlk⟩,true⟩,⟨⟨p.1,p.2,e.1.committingBlk⟩,false⟩]

def purgeBatch (done : List ExpiryEntry) : UpdateBatch where
  data := (done.flatMap ExpiryEntry.dataKeys).map (·,none)
  missing := (done.flatMap ExpiryEntry.missingDataKeys).map (·,none)
  expiry := done.map fun e => (e.1,none)

def StoreDb.purgeRest (db : StoreDb) (done : List ExpiryEntry) : List ExpiryEntry → StoreDb
  | [] => db
  | e :: todo => (db.writeBatch (purgeBatch (done ++ [e]))).purgeRest (done ++ [e]) todo

def StoreDb.purgeExpiredData (db : StoreDb) (maxBlkNum : Nat) : StoreDb :=
  db.purgeRest [] (db.retrieveExpiryEntries maxBlkNum)

inductive Task where
  /-- The ineligible entries of a collection are to be read. -/
  | scan (maxBlkNum : Nat) (ns coll : Bytes)
  | convert (key : NsCollBlk) (bitmap : List Nat)
  | endEvent (blkNum : Nat)

/-- The events, most recent first. The scan ends before the key of block 0. -/
def StoreDb.collElgTasks (db : StoreDb) : List Task :=
  (((db.collElg.entries.map fun e => (e.1,e.2)).filter fun e => 0 < e.1).insertionSort
    fun a b => b.1 ≤ a.1).flatMap fun e =>
      (e.2.map fun c => .scan e.1 c.1 c.2) ++ [.endEvent e.1]

/-- The ineligible entries of a collection up to a block, most recent first. The scan ends before
the key of block 0. -/
def StoreDb.ineligible (db : StoreDb) (maxBlkNum : Nat) (ns coll : Bytes) : List Task :=
  (((db.missing.entries.map fun e => (e.1,e.2)).filter fun e =>
    !e.1.isEligible && e.1.nsCollBlk.ns = ns && e.1.nsCollBlk.coll = coll &&
      0 < e.1.nsCollBlk.blkNum && e.1.nsCollBlk.blkNum ≤ maxBlkNum).insertionSort
        fun a b => b.1.nsCollBlk.blkNum ≤ a.1.nsCollBlk.blkNum).map
          fun e => .convert e.1.nsCollBlk e.2

inductive Converter where
  | idle
  | converting (tasks : List Task) (batch : UpdateBatch)
  | sleeping (tasks : List Task)

/-- A step under the lock: what it writes, and how it goes on. -/
def Converter.step (maxBatchSize : Nat) (db : StoreDb) :
    Converter → Option (UpdateBatch × Converter)
  | .converting (.scan m ns coll :: tasks) batch =>
    some ({},.converting (db.ineligible m ns coll ++ tasks) batch)
  | .converting (.convert key bitmap :: tasks) batch =>
    let batch := { batch with
      missing := batch.missing ++ [(⟨key,false⟩,none),(⟨key,true⟩,some bitmap)] }
    if maxBatchSize < batch.len then some (batch,.sleeping tasks)
    else some ({},.converting tasks batch)
  | .converting (.endEvent blkNum :: tasks) batch =>
    some ({},.converting tasks { batch with collElg := batch.collElg ++ [(blkNum,none)] })
  | .converting [] batch => some (batch,.idle)
  | .idle | .sleeping _ => none

def Converter.holdsLock : Converter → Bool
  | .converting _ _ => true
  | .idle | .sleeping _ => false

structure UpdateEntries where
  data : AList fun _ : DataKey => Bytes
  expiry : AList fun _ : ExpiryKey => ExpiryData
  missing : AList fun _ : NsCollBlk => List Nat

namespace UpdateEntries

def empty : UpdateEntries := ⟨∅,∅,∅⟩

def addPresent (entries : UpdateEntries) (key : DataKey) : Option ExpiryEntry → AList fun _ :
    ExpiryKey => ExpiryData
  | none => entries.expiry
  | some e => entries.expiry.insert e.1
    (e.2.addPresentData key.nsCollBlk.ns key.nsCollBlk.coll key.txNum)

/-- addDataEntry, updateAndAddExpiryEntry and updateAndAddMissingDataEntry. -/
def add (entries : UpdateEntries) (key : DataKey) (value : Bytes) (expiry : Option ExpiryEntry)
    (bitmap : List Nat) : UpdateEntries where
  data := entries.data.insert key value
  expiry := entries.addPresent key expiry
  missing := entries.missing.insert key.nsCollBlk (bitmap.filter (· ≠ key.txNum))

def batch (entries : UpdateEntries) : UpdateBatch where
  data := entries.data.entries.map fun e => (e.1,some e.2)
  expiry := entries.expiry.entries.map fun e => (e.1,some e.2)
  missing := entries.missing.entries.map fun e =>
    (⟨e.1,true⟩,if e.2 = [] then none else some e.2)

end UpdateEntries

inductive Reconciler where
  | idle
  | reading (todo : List (DataKey × Bytes)) (entries : UpdateEntries)
  /-- The expiry data of the head are read, and none is needed where it never expires. -/
  | found (head : DataKey × Bytes) (expiry : Option ExpiryEntry) (todo : List (DataKey × Bytes))
      (entries : UpdateEntries)

def expiryKeyOf (p : BTLPolicy) (key : NsCollBlk) : ExpiryKey :=
  ⟨p.getExpiringBlock key.ns key.coll key.blkNum,key.blkNum⟩

def Reconciler.step (p : BTLPolicy) (db : StoreDb) (fails : Bool) :
    Reconciler → Option (UpdateBatch × Reconciler)
  | .idle => none
  | .reading [] entries => some (entries.batch,.idle)
  | .reading ((key,value) :: todo) entries =>
    let expiryKey := expiryKeyOf p key.nsCollBlk
    if fails then some ({},.idle)
    else if expiryKey.expiringBlk = maxUint64 then some ({},.found (key,value) none todo entries)
    else
      match (entries.expiry.lookup expiryKey).or (db.expiry.lookup expiryKey) with
      | none => some ({},.reading todo entries)
      | some d => some ({},.found (key,value) (some (expiryKey,d)) todo entries)
  | .found (key,value) expiry todo entries =>
    match (entries.missing.lookup key.nsCollBlk).or (db.missing.lookup ⟨key.nsCollBlk,true⟩) with
    | none => some ({},.reading todo entries)
    | some bitmap => some ({},.reading todo (entries.add key value expiry bitmap))

structure Conf where
  btlPolicy : BTLPolicy
  purgeInterval : Nat
  maxBatchSize : Nat

/-- The store with its three background actors. -/
structure Store where
  db : StoreDb
  lastCommittedBlock : Option Nat
  /-- The blocks for which a purger was launched and has not taken the lock. -/
  launched : List Nat
  purgerLock : Bool
  /-- The purger with the lock: the entries it has deleted, and those it has still to delete. -/
  purger : Option (List ExpiryEntry × List ExpiryEntry)
  converter : Converter
  reconciler : Reconciler

def Store.initial : Store := ⟨⟨∅,∅,∅,∅⟩,none,[],false,none,.idle,.idle⟩

def Store.nextBlockNum (s : Store) : Nat :=
  match s.lastCommittedBlock with
  | none => 0
  | some b => b + 1

inductive StoreEvent where
  /-- Commit; GetExpiringBlock fails for the collections of `fails`. -/
  | commit (blockNum : Nat) (pvtData : List TxPvtData)
      (missingPvtData : List (Nat × List MissingPvtData)) (fails : List (Bytes × Bytes))
  /-- ProcessCollsEligibilityEnabled. -/
  | eligible (committingBlk : Nat) (colls : List (Bytes × Bytes))
  | purge (maxBlkNum : Nat)
  | purgeNext
  | processCollElgEvents
  | convertNext
  | wake
  /-- CommitPvtDataOfOldBlocks. -/
  | commitPvtDataOfOldBlocks (blocksPvtData : List (Nat × List TxPvtData))
  | reconcileNext (fails : Bool)

def Conf.expiryLookup (conf : Conf) (fails : List (Bytes × Bytes)) : ExpiryLookup := fun key =>
  if (key.ns,key.coll) ∈ fails then none
  else some (conf.btlPolicy.getExpiringBlock key.ns key.coll key.blkNum)

def Store.next (conf : Conf) (s : Store) : StoreEvent → Option Store
  | .commit blockNum pvtData missingPvtData fails =>
    if blockNum = s.nextBlockNum then
      some { s with
        db := s.db.writeBatch
          (prepareStoreEntries (conf.expiryLookup fails) blockNum pvtData missingPvtData)
        lastCommittedBlock := some blockNum
        launched :=
          if blockNum % conf.purgeInterval = 0 then s.launched ++ [blockNum] else s.launched }
    else none
  | .eligible committingBlk colls =>
    some { s with db := s.db.writeBatch { collElg := [(committingBlk,some colls)] } }
  | .purge maxBlkNum =>
    if maxBlkNum ∈ s.launched ∧ s.purgerLock = false then
      some { s with
        launched := s.launched.erase maxBlkNum
        purgerLock := true
        purger := some ([],s.db.retrieveExpiryEntries maxBlkNum) }
    else none
  | .purgeNext =>
    match s.purger with
    | none => none
    | some (_,[]) => some { s with purgerLock := false, purger := none }
    | some (done,e :: todo) =>
      some { s with
        db := s.db.writeBatch (purgeBatch (done ++ [e]))
        purger := some (done ++ [e],todo) }
  | .processCollElgEvents =>
    match s.converter with
    | .idle =>
      if s.purgerLock = false then
        some { s with purgerLock := true, converter := .converting s.db.collElgTasks {} }
      else none
    | _ => none
  | .convertNext =>
    match s.converter.step conf.maxBatchSize s.db with
    | none => none
    | some (batch,converter) =>
      some { s with
        db := s.db.writeBatch batch
        purgerLock := converter.holdsLock
        converter := converter }
  | .wake =>
    match s.converter with
    | .sleeping tasks =>
      if s.purgerLock = false then
        some { s with purgerLock := true, converter := .converting tasks {} }
      else none
    | _ => none
  | .commitPvtDataOfOldBlocks blocksPvtData =>
    match s.reconciler with
    | .idle =>
      some { s with
        reconciler := .reading
          (blocksPvtData.flatMap fun b => prepareDataEntries b.1 b.2) .empty }
    | _ => none
  | .reconcileNext fails =>
    match s.reconciler.step conf.btlPolicy s.db fails with
    | none => none
    | some (batch,reconciler) =>
      some { s with db := s.db.writeBatch batch, reconciler := reconciler }

end PluggableHcs.Pvtdatastorage
