import Mathlib.Data.List.Induction
import PluggableHcs.Blkstorage.Serialization
import PluggableHcs.Lib.Tables

namespace PluggableHcs.Blkstorage
open Digits List Tables
open Txmgmt (Bytes)

inductive Fault where
  | unexpectedEndOfBlockfile
  | undecodableLength
  | noSuchFile
  | seekError
  | malformedBlock
  | notFoundInIndex
  | nilValue
  | attrNotIndexed
  | snapshotWithoutIndex
  | beforeSnapshot
  | unexpectedBlockNumber
  | unexpectedPreviousHash
  | panics
deriving DecidableEq

structure FileLocPointer where
  fileSuffixNum : Nat
  loc : LocPointer
deriving DecidableEq

def newFileLocationPointer (fileSuffixNum beginningOffset : Nat) (relativeLP : LocPointer) :
    FileLocPointer :=
  ⟨fileSuffixNum,beginningOffset + relativeLP.offset,relativeLP.bytesLength⟩

structure BlockIdxInfo where
  blockNum : Nat
  blockHash : Bytes
  flp : FileLocPointer
  txOffsets : List TxIndexInfo
  metadata : List Bytes
deriving DecidableEq

inductive IndexableAttr where
  | blockNum
  | blockHash
  | txID
  | blockNumTranNum
deriving DecidableEq

structure TxIDIndexValue where
  blkLocation : FileLocPointer
  txLocation : FileLocPointer
  txValidationCode : UInt8
deriving DecidableEq

/-- The entries under transaction ids. One that was imported has no value. -/
abbrev TxIDIndex := Table Bytes (Option TxIDIndexValue)

def txIDIdxKeyPrefix : UInt8 := 116

def txIDStartKey (txID : Bytes) : Bytes := txIDIdxKeyPrefix :: (ordered txID.length ++ txID)

def constructTxIDKey (txID : Bytes) (blkNum txNum : Nat) : Bytes :=
  txIDStartKey txID ++ (ordered blkNum ++ ordered txNum)

/-- What is put for a transaction. -/
structure Occurrence where
  txID : Bytes
  blkNum : Nat
  txNum : Nat
  value : Option TxIDIndexValue

namespace Occurrence

def key (o : Occurrence) : Bytes := constructTxIDKey o.txID o.blkNum o.txNum

def entry (o : Occurrence) : Bytes × Option TxIDIndexValue := (o.key,o.value)

end Occurrence

def putAll (db : TxIDIndex) (os : List Occurrence) : TxIDIndex :=
  os.foldl (fun db o => db.insert o.key o.value) db

/-- The batches that were written, the newest first. A later one overwrites an earlier one. -/
structure BlockIndex where
  lastBlockIndexed : Option Nat
  entries : List BlockIdxInfo
  txIDs : TxIDIndex
deriving DecidableEq

section
variable (attrsToIndex : List IndexableAttr)

def BlockIdxInfo.txsfltr (info : BlockIdxInfo) : Bytes := info.metadata.getD 2 []

def BlockIdxInfo.occurrences (info : BlockIdxInfo) : List Occurrence :=
  if .txID ∈ attrsToIndex then
    info.txOffsets.zipIdx.map fun e => ⟨e.1.txID,info.blockNum,e.2,some ⟨info.flp,
      newFileLocationPointer info.flp.fileSuffixNum info.flp.loc.offset e.1.loc,
      info.txsfltr.getD e.2 0⟩⟩
  else []

def BlockIndex.put (index : BlockIndex) (info : BlockIdxInfo) : BlockIndex :=
  ⟨some info.blockNum,info :: index.entries,putAll index.txIDs (info.occurrences attrsToIndex)⟩

/-- There is a filter, and a flag in it for each transaction that is indexed by its id. -/
def Flagged (transactions : Nat) (metadata : List Bytes) : Prop :=
  ∃ txsfltr ∈ metadata[2]?, .txID ∈ attrsToIndex → transactions ≤ txsfltr.length
deriving Decidable

/-- The access to the filter or to a flag that is not there panics. -/
def BlockIndex.indexBlock (index : BlockIndex) (info : BlockIdxInfo) : Except Fault BlockIndex :=
  if attrsToIndex = [] then .ok index
  else if Flagged attrsToIndex info.txOffsets.length info.metadata then
    .ok (index.put attrsToIndex info)
  else .error .panics

def BlockIndex.lookup {α : Type} (index : BlockIndex) (attr : IndexableAttr)
    (value : BlockIdxInfo → Option α) : Except Fault α :=
  if attr ∈ attrsToIndex then
    match index.entries.findSome? value with
    | some a => .ok a
    | none => .error .notFoundInIndex
  else .error .attrNotIndexed

def BlockIndex.getBlockLocByBlockNum (index : BlockIndex) (blockNum : Nat) :
    Except Fault FileLocPointer :=
  index.lookup attrsToIndex .blockNum fun i => if i.blockNum = blockNum then some i.flp else none

def BlockIndex.getBlockLocByHash (index : BlockIndex) (blockHash : Bytes) :
    Except Fault FileLocPointer :=
  index.lookup attrsToIndex .blockHash fun i => if i.blockHash = blockHash then some i.flp else none

def BlockIndex.getTXLocByBlockNumTranNum (index : BlockIndex) (blockNum tranNum : Nat) :
    Except Fault FileLocPointer :=
  index.lookup attrsToIndex .blockNumTranNum fun i =>
    if i.blockNum = blockNum then
      i.txOffsets[tranNum]?.map fun tx =>
        newFileLocationPointer i.flp.fileSuffixNum i.flp.loc.offset tx.loc
    else none

def inRange (start stop : Bytes) (e : Bytes × Option TxIDIndexValue) : Bool :=
  ¬ e.1 < start ∧ e.1 < stop

def BlockIndex.getTxIDVal (index : BlockIndex) (txID : Bytes) : Except Fault TxIDIndexValue :=
  if .txID ∈ attrsToIndex then
    match (index.txIDs.entries.filter
        (inRange (txIDStartKey txID) (txIDStartKey txID ++ [0xff]))).head? with
    | none => .error .notFoundInIndex
    | some (_,none) => .error .nilValue
    | some (_,some v) => .ok v
  else .error .attrNotIndexed

end

def importedFrom (lastBlockNum i : Nat) (ids : List Bytes) : List Occurrence :=
  (ids.zipIdx i).map fun e => ⟨e.1,lastBlockNum,e.2,none⟩

/-- The index after the ids of a snapshot are imported, with the savepoint. -/
def importedIndex (lastBlockNum : Nat) (ids : List Bytes) : BlockIndex :=
  ⟨some lastBlockNum,[],putAll Table.empty (importedFrom lastBlockNum 0 ids)⟩

/-- What comes earlier in the chain. -/
def Occurrence.Earlier (o o' : Occurrence) : Prop :=
  o.blkNum < o'.blkNum ∨ o.blkNum = o'.blkNum ∧ o.txNum < o'.txNum

/-- Numbers that the code can hold. -/
def Occurrence.Fits (o : Occurrence) : Prop :=
  o.txID.length < 2 ^ 64 ∧ o.blkNum < 2 ^ 64 ∧ o.txNum < 2 ^ 64
deriving Decidable

variable {o o' : Occurrence} {os : List Occurrence} {id : Bytes}

theorem Occurrence.Fits.in_range (hf : o.Fits) (hi : id.length < 2 ^ 64) :
    inRange (txIDStartKey id) (txIDStartKey id ++ [0xff]) o.entry = true ↔ o.txID = id := by
  rw [inRange,decide_eq_true_eq]
  constructor
  · rintro ⟨hle,hlt⟩
    obtain ⟨r,hr⟩ := starts_of_between hle hlt
    rw [Occurrence.entry,Occurrence.key,constructTxIDKey,txIDStartKey,txIDStartKey,cons_append,
      cons_append,append_assoc,append_assoc] at hr
    obtain ⟨hl,hid⟩ := ordered_append_inj hf.1 hi (List.cons.inj hr).2
    exact (append_inj hid hl).1
  · rintro rfl
    obtain ⟨c,cs,ho,hc⟩ := ordered_head hf.2.1
    rw [Occurrence.entry,Occurrence.key,constructTxIDKey,ho,cons_append]
    exact between_of_starts _ (Nat.lt_of_le_of_lt hc (by decide)) _

theorem Occurrence.Earlier.key_lt (h : o.Earlier o') (hf : o.Fits) (hf' : o'.Fits)
    (hi : o.txID = o'.txID) : o.key < o'.key := by
  have ht := ordered_lt hf.2.2 hf'.2.2 [] []
  rw [append_nil,append_nil] at ht
  rw [Occurrence.key,Occurrence.key,constructTxIDKey,constructTxIDKey,hi]
  refine append_left_lt ?_
  rw [ordered_lt hf.2.1 hf'.2.1,ht]
  exact h.imp id fun h => ⟨h.1,.inl h.2⟩

theorem Occurrence.Earlier.key_ne (h : o.Earlier o') (hf : o.Fits) (hf' : o'.Fits) :
    o.key ≠ o'.key := by
  intro heq
  have hr := (hf'.in_range hf'.1).mpr rfl
  have hr' : inRange (txIDStartKey o'.txID) (txIDStartKey o'.txID ++ [0xff]) o.entry = true := by
    rw [inRange,Occurrence.entry,heq]
    exact hr
  have hlt := h.key_lt hf hf' ((hf.in_range hf'.1).mp hr')
  rw [heq] at hlt
  exact lt_irrefl _ hlt

/-- Occurrences in the order of the chain. -/
structure InOrder (os : List Occurrence) : Prop where
  fits : ∀ o ∈ os, o.Fits
  sorted : os.Pairwise Occurrence.Earlier

theorem mem_put_all (h : InOrder os) :
    e ∈ (putAll Table.empty os).entries ↔ ∃ o ∈ os, o.entry = e := by
  induction os using List.reverseRecOn with
  | nil => simp [putAll,Table.empty]
  | append_singleton os o ih =>
    obtain ⟨hs,_,hl⟩ := pairwise_append.mp h.sorted
    have hin : InOrder os := ⟨fun o' ho' => h.fits o' (mem_append_left _ ho'),hs⟩
    rw [putAll,foldl_append,foldl_cons,foldl_nil,Table.insert,Table.overlaid]
    rw [mem_overlay (Table.ordered _) (pairwise_singleton _ _),mem_singleton]
    have hih := ih hin
    rw [putAll] at hih
    rw [hih]
    constructor
    · rintro (rfl | ⟨⟨o',ho',heq⟩,_⟩)
      · exact ⟨o,mem_append_right _ mem_cons_self,rfl⟩
      · exact ⟨o',mem_append_left _ ho',heq⟩
    rintro ⟨o',ho',rfl⟩
    rcases mem_append.mp ho' with ho' | ho'
    · refine .inr ⟨⟨o',ho',rfl⟩,fun u hu heq => ?_⟩
      rw [mem_singleton.mp hu] at heq
      have he := hl o' ho' o mem_cons_self
      exact he.key_ne (hin.fits o' ho') (h.fits o (mem_append_right _ mem_cons_self))
        heq.symm
    · rw [mem_singleton.mp ho']
      exact .inl rfl

theorem InOrder.in_range (h : InOrder os) (hi : id.length < 2 ^ 64) :
    (putAll Table.empty os).entries.filter
      (inRange (txIDStartKey id) (txIDStartKey id ++ [0xff])) =
      (os.filter fun o => o.txID = id).map Occurrence.entry := by
  refine ordered_ext ((putAll Table.empty os).ordered.filter _) ?_ fun e => ?_
  · refine pairwise_map.mpr ((h.sorted.filter _).imp_of_mem fun ha hb he => ?_)
    obtain ⟨ha,hai⟩ := mem_filter.mp ha
    obtain ⟨hb,hbi⟩ := mem_filter.mp hb
    exact he.key_lt (h.fits _ ha) (h.fits _ hb)
      ((of_decide_eq_true hai).trans (of_decide_eq_true hbi).symm)
  · rw [mem_filter,mem_put_all h,mem_map]
    constructor
    · rintro ⟨⟨o,ho,rfl⟩,hr⟩
      have hid := ((h.fits o ho).in_range hi).mp hr
      exact ⟨o,mem_filter.mpr ⟨ho,decide_eq_true hid⟩,rfl⟩
    rintro ⟨o,ho,rfl⟩
    obtain ⟨ho,hid⟩ := mem_filter.mp ho
    exact ⟨⟨o,ho,rfl⟩,((h.fits o ho).in_range hi).mpr (of_decide_eq_true hid)⟩

/-- The answer for the first occurrence. -/
def answer : Option Occurrence → Except Fault TxIDIndexValue
  | none => .error .notFoundInIndex
  | some o => o.value.elim (.error .nilValue) .ok

variable {attrs : List IndexableAttr} {index : BlockIndex}

theorem InOrder.get_val (h : InOrder os) (hx : index.txIDs = putAll Table.empty os)
    (ha : .txID ∈ attrs) (hi : id.length < 2 ^ 64) :
    index.getTxIDVal attrs id = answer (os.find? fun o => o.txID = id) := by
  rw [BlockIndex.getTxIDVal,if_pos ha,hx,h.in_range hi,head?_map,head?_filter]
  cases os.find? fun o => o.txID = id with
  | none => rfl
  | some o => cases hv : o.value <;> simp [answer,Occurrence.entry,hv]

theorem put_all_append (db : TxIDIndex) (os os' : List Occurrence) :
    putAll db (os ++ os') = putAll (putAll db os) os' :=
  foldl_append

theorem foldl_put (index : BlockIndex) (infos : List BlockIdxInfo) :
    infos.foldl (BlockIndex.put attrs) index =
      ⟨(infos.getLast?.map BlockIdxInfo.blockNum).or index.lastBlockIndexed,
        infos.reverse ++ index.entries,
        putAll index.txIDs (infos.flatMap (BlockIdxInfo.occurrences attrs))⟩ := by
  induction infos using List.reverseRecOn with
  | nil => rfl
  | append_singleton infos info ih =>
    rw [foldl_append,ih,flatMap_append,put_all_append,reverse_append,getLast?_append]
    simp [BlockIndex.put]

theorem zip_idx_sorted (l : List α) (k : Nat) : (l.zipIdx k).Pairwise fun a b => a.2 < b.2 := by
  induction l generalizing k with
  | nil => exact .nil
  | cons a l ih =>
    rw [zipIdx_cons]
    exact pairwise_cons.mpr ⟨fun e he => Nat.lt_of_succ_le (le_snd_of_mem_zipIdx he),ih _⟩

theorem occurrence_blk_num {info : BlockIdxInfo} (h : o ∈ info.occurrences attrs) :
    o.blkNum = info.blockNum := by
  rw [BlockIdxInfo.occurrences] at h
  split at h
  · obtain ⟨e,_,rfl⟩ := mem_map.mp h
    rfl
  · cases h

/-- The ids of a snapshot come before the blocks behind it. -/
theorem occurrences_in_order {infos : List BlockIdxInfo} {imported : List Occurrence}
    (him : InOrder imported) (hb : ∀ o ∈ imported, ∀ info ∈ infos, o.blkNum < info.blockNum)
    (sorted : infos.Pairwise fun i j => i.blockNum < j.blockNum)
    (fits : ∀ o ∈ infos.flatMap (BlockIdxInfo.occurrences attrs), o.Fits) :
    InOrder (imported ++ infos.flatMap (BlockIdxInfo.occurrences attrs)) := by
  refine ⟨?_,pairwise_append.mpr ⟨him.sorted,pairwise_flatMap.mpr ⟨?_,?_⟩,?_⟩⟩
  · intro o ho
    exact (mem_append.mp ho).elim (him.fits o) (fits o)
  · intro info _
    rw [BlockIdxInfo.occurrences]
    split
    · exact pairwise_map.mpr ((zip_idx_sorted _ 0).imp fun hlt => .inr ⟨rfl,hlt⟩)
    · exact .nil
  · refine sorted.imp fun hlt o ho o' ho' => .inl ?_
    rw [occurrence_blk_num ho,occurrence_blk_num ho']
    exact hlt
  · intro o ho o' ho'
    obtain ⟨info,hi,ho'⟩ := mem_flatMap.mp ho'
    left
    rw [occurrence_blk_num ho']
    exact hb o ho info hi

theorem imported_in_order {ids : List Bytes} (hl : last < 2 ^ 64) (hn : ids.length < 2 ^ 64)
    (sized : ∀ x ∈ ids, x.length < 2 ^ 64) : InOrder (importedFrom last 0 ids) := by
  refine ⟨?_,pairwise_map.mpr ((zip_idx_sorted _ 0).imp fun hlt => .inr ⟨rfl,hlt⟩)⟩
  intro o ho
  obtain ⟨e,he,rfl⟩ := mem_map.mp ho
  have hi := snd_lt_of_mem_zipIdx he
  exact ⟨sized e.1 (fst_mem_of_mem_zipIdx he),hl,by dsimp only; omega⟩

end PluggableHcs.Blkstorage
