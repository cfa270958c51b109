import PluggableHcs.Lib.Merkle
import PluggableHcs.Txmgmt.State

namespace PluggableHcs.Txmgmt

structure KVRead where
  key : Bytes
  version : Option Height
deriving DecidableEq

structure KVWrite where
  key : Bytes
  isDelete : Bool
  value : Bytes
deriving DecidableEq

structure KVMetadataWrite where
  key : Bytes
  entries : List MetadataEntry
deriving DecidableEq

/-- The hashes are of any kind, so that the trees which are hashed can take their place. -/
structure MerkleSummary (η : Type) where
  maxDegree : Nat
  maxLevel : Nat
  maxLevelHashes : List η
deriving DecidableEq

abbrev QueryReadsMerkleSummary := MerkleSummary Bytes

inductive ReadsInfo where
  | none
  | rawReads (kvReads : List KVRead)
  | readsMerkleHashes (summary : QueryReadsMerkleSummary)
deriving DecidableEq

structure RangeQueryInfo where
  startKey : Bytes
  endKey : Bytes
  itrExhausted : Bool
  readsInfo : ReadsInfo
deriving DecidableEq

structure KVRWSet where
  reads : List KVRead
  rangeQueriesInfo : List RangeQueryInfo
  writes : List KVWrite
  metadataWrites : List KVMetadataWrite
deriving DecidableEq

structure KVReadHash where
  keyHash : Bytes
  version : Option Height
deriving DecidableEq

structure KVWriteHash where
  keyHash : Bytes
  isDelete : Bool
  valueHash : Bytes
deriving DecidableEq

structure KVMetadataWriteHash where
  keyHash : Bytes
  entries : List MetadataEntry
deriving DecidableEq

structure HashedRWSet where
  hashedReads : List KVReadHash
  hashedWrites : List KVWriteHash
  metadataWrites : List KVMetadataWriteHash
deriving DecidableEq

structure CollHashedRwSet where
  collectionName : Bytes
  hashedRwSet : HashedRWSet
  pvtRwSetHash : Bytes
deriving DecidableEq

structure NsRwSet where
  nameSpace : Bytes
  kvRwSet : KVRWSet
  collHashedRwSets : List CollHashedRwSet
deriving DecidableEq

/-- A read/write set as it was decoded. -/
structure TxRwSet where
  nsRwSets : List NsRwSet
deriving DecidableEq

def KVWriteHash.toWrite (w : KVWriteHash) : KVWrite := ⟨w.keyHash,w.isDelete,w.valueHash⟩

def KVMetadataWriteHash.toWrite (w : KVMetadataWriteHash) : KVMetadataWrite :=
  ⟨w.keyHash,w.entries⟩

def KVReadHash.toRead (r : KVReadHash) : KVRead := ⟨r.keyHash,r.version⟩

/-- What a read/write set says, with the space of each item. -/
structure Access (α : Type) where
  space : Space
  item : α

namespace TxRwSet

def accesses {α : Type} (pub : KVRWSet → List α) (hashed : HashedRWSet → List α)
    (rwset : TxRwSet) : List (Access α) :=
  rwset.nsRwSets.flatMap fun n =>
    (pub n.kvRwSet).map (⟨.pub n.nameSpace,·⟩) ++
    n.collHashedRwSets.flatMap fun c =>
      (hashed c.hashedRwSet).map (⟨.hashed n.nameSpace c.collectionName,·⟩)

def reads : TxRwSet → List (Access KVRead) :=
  accesses KVRWSet.reads fun h => h.hashedReads.map KVReadHash.toRead

def writes : TxRwSet → List (Access KVWrite) :=
  accesses KVRWSet.writes fun h => h.hashedWrites.map KVWriteHash.toWrite

def metadataWrites : TxRwSet → List (Access KVMetadataWrite) :=
  accesses KVRWSet.metadataWrites fun h => h.metadataWrites.map KVMetadataWriteHash.toWrite

def rangeQueries (rwset : TxRwSet) : List (Bytes × RangeQueryInfo) :=
  rwset.nsRwSets.flatMap fun n => n.kvRwSet.rangeQueriesInfo.map (n.nameSpace,·)

end TxRwSet
end PluggableHcs.Txmgmt
