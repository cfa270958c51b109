import Mathlib.Data.List.Count
import PluggableHcs.Txmgmt.BatchPreparer

namespace PluggableHcs.Kvledger
open Txmgmt List Option Outcomes

/-- Private data of a block from another peer. The write sets are those of a map, in the order in
which it is gone through. -/
structure ReconciledPvtdata where
  blockNum : Nat
  writeSets : List TxPvtData

structure PvtdataHashMismatch where
  blockNum : Nat
  txNum : Nat
  nameSpace : Bytes
  collection : Bytes
  expectedHash : Bytes
deriving DecidableEq

structure NsColl where
  ns : Bytes
  coll : Bytes
deriving DecidableEq

/-- Only the first entry of the namespace counts, and in it only the first of the collection. -/
def getPvtDataHash (rwset : TxRwSet) (ns coll : Bytes) : Bytes :=
  (rwset.nsRwSets.find? fun n => n.nameSpace = ns).elim [] fun n =>
    (n.collHashedRwSets.find? fun c => c.collectionName = coll).elim [] CollHashedRwSet.pvtRwSetHash

section
variable {ε : Type} (computeSHA256 : Bytes → Bytes)
  (retrieveRwsetForTx : Nat → Nat → Except ε TxRwSet)

section
variable (rwset : TxRwSet) (blkNum txNum : Nat)

def findInvalidNsPvtData (ns : Bytes) :
    List CollectionPvtReadWriteSet → List PvtdataHashMismatch × List NsColl
  | [] => ([],[])
  | c :: cs =>
    let rest := findInvalidNsPvtData ns cs
    let rwsetHash := getPvtDataHash rwset ns c.collectionName
    if rwsetHash = [] then (rest.1,⟨ns,c.collectionName⟩ :: rest.2)
    else if computeSHA256 c.rwset ≠ rwsetHash then
      (⟨blkNum,txNum,ns,c.collectionName,rwsetHash⟩ :: rest.1,⟨ns,c.collectionName⟩ :: rest.2)
    else rest

end

def removeCollFromNsPvtWriteSet (collName : Bytes) (cs : List CollectionPvtReadWriteSet) :
    List CollectionPvtReadWriteSet :=
  cs.eraseP fun c => c.collectionName = collName

/-- The first entry of the namespace is the one that is looked at. -/
def removeCollFromTxPvtReadWriteSet (d : NsColl) : List NsPvtReadWriteSet → List NsPvtReadWriteSet
  | [] => []
  | n :: rest =>
    if n.nameSpace ≠ d.ns then n :: removeCollFromTxPvtReadWriteSet d rest
    else
      let cs := removeCollFromNsPvtWriteSet d.coll n.collectionPvtRwset
      if cs.isEmpty then rest else ⟨n.nameSpace,cs⟩ :: rest

def removeAll (ds : List NsColl) (ws : List NsPvtReadWriteSet) : List NsPvtReadWriteSet :=
  ds.foldl (fun ws d => removeCollFromTxPvtReadWriteSet d ws) ws

def findValidAndInvalidTxPvtData (rwset : TxRwSet) (blkNum : Nat) (p : TxPvtData) :
    Option TxPvtData × List PvtdataHashMismatch :=
  let found := p.writeSet.map fun n =>
    findInvalidNsPvtData computeSHA256 rwset blkNum p.seqInBlock n.nameSpace n.collectionPvtRwset
  let left := removeAll (found.flatMap Prod.snd) p.writeSet
  (if left.isEmpty then none else some ⟨p.seqInBlock,left⟩,found.flatMap Prod.fst)

def findValidAndInvalidPvtdata (blkNum : Nat) :
    List TxPvtData → Except ε (List TxPvtData × List PvtdataHashMismatch)
  | [] => .ok ([],[])
  | p :: ps => do
    let rwset ← retrieveRwsetForTx blkNum p.seqInBlock
    let out := findValidAndInvalidTxPvtData computeSHA256 rwset blkNum p
    let rest ← findValidAndInvalidPvtdata blkNum ps
    pure (out.1.toList ++ rest.1,out.2 ++ rest.2)

/-- Later data of a block take the place of earlier ones. -/
def addValidAndInvalidPvtData :
    List ReconciledPvtdata → (AList fun _ : Nat => List TxPvtData) → List PvtdataHashMismatch →
    Except ε ((AList fun _ : Nat => List TxPvtData) × List PvtdataHashMismatch)
  | [],valid,invalid => .ok (valid,invalid)
  | d :: ds,valid,invalid => do
    let out ← findValidAndInvalidPvtdata computeSHA256 retrieveRwsetForTx d.blockNum d.writeSets
    addValidAndInvalidPvtData ds (if out.1.isEmpty then valid else valid.insert d.blockNum out.1)
      (invalid ++ out.2)

def constructValidAndInvalidPvtData (reconciledPvtdata : List ReconciledPvtdata) :
    Except ε ((AList fun _ : Nat => List TxPvtData) × List PvtdataHashMismatch) :=
  addValidAndInvalidPvtData computeSHA256 retrieveRwsetForTx reconciledPvtdata ∅ []

end

section
variable {d : NsColl} {ws : List NsPvtReadWriteSet}

def nsCollections (ws : List NsPvtReadWriteSet) : List (Bytes × CollectionPvtReadWriteSet) :=
  ws.flatMap fun n => n.collectionPvtRwset.map (n.nameSpace,·)

def nameOf (e : Bytes × CollectionPvtReadWriteSet) : NsColl := ⟨e.1,e.2.collectionName⟩

def target (d : NsColl) (ws : List NsPvtReadWriteSet) :
    Option (Bytes × CollectionPvtReadWriteSet) :=
  (ws.find? fun n => n.nameSpace = d.ns).bind fun n =>
    (n.collectionPvtRwset.find? fun c => c.collectionName = d.coll).map (n.nameSpace,·)

theorem erase_perm (p : CollectionPvtReadWriteSet → Bool) (cs : List CollectionPvtReadWriteSet) :
    cs.Perm ((cs.find? p).toList ++ cs.eraseP p) := by
  induction cs with
  | nil => exact .nil
  | cons c cs ih =>
    by_cases hc : p c = true
    · rw [List.find?_cons_of_pos hc,eraseP_cons_of_pos hc]
      exact .refl _
    · rw [List.find?_cons_of_neg hc,eraseP_cons_of_neg hc]
      exact (ih.cons c).trans perm_middle.symm

theorem remove_perm (d : NsColl) (ws : List NsPvtReadWriteSet) : (nsCollections ws).Perm
      ((target d ws).toList ++ nsCollections (removeCollFromTxPvtReadWriteSet d ws)) := by
  induction ws with
  | nil => exact .nil
  | cons n ws ih =>
    unfold removeCollFromTxPvtReadWriteSet target
    by_cases hn : n.nameSpace = d.ns
    · have hh : nsCollections (if (removeCollFromNsPvtWriteSet d.coll n.collectionPvtRwset).isEmpty
          then ws else ⟨n.nameSpace,removeCollFromNsPvtWriteSet d.coll n.collectionPvtRwset⟩ :: ws) =
          (removeCollFromNsPvtWriteSet d.coll n.collectionPvtRwset).map (n.nameSpace,·) ++
            nsCollections ws := by
        split
        · rename_i he
          rw [List.isEmpty_iff.mp he]
          rfl
        · rfl
      rw [if_neg (not_not.mpr hn),List.find?_cons_of_pos (by simpa using hn),hh,bind_some]
      have hp := (erase_perm (fun c => c.collectionName = d.coll) n.collectionPvtRwset).map
        (fun c => (n.nameSpace,c))
      rw [map_append] at hp
      have := hp.append_right (nsCollections ws)
      rw [append_assoc,← toList_map] at this
      exact this
    · rw [if_pos hn,List.find?_cons_of_neg (by simpa using hn)]
      refine (ih.append_left (n.collectionPvtRwset.map (n.nameSpace,·))).trans ?_
      rw [← append_assoc]
      refine (perm_append_comm.append_right _).trans ?_
      rw [append_assoc]
      exact .refl _

variable (authentic : Bytes × CollectionPvtReadWriteSet → Bool)

def removesMismatches : List NsColl → List NsPvtReadWriteSet → Bool
  | [],_ => true
  | d :: ds,ws =>
    (target d ws).any (fun e => !authentic e) &&
      removesMismatches ds (removeCollFromTxPvtReadWriteSet d ws)

variable {authentic} {ds : List NsColl}

theorem remove_count (p : Bytes × CollectionPvtReadWriteSet → Bool) (d : NsColl)
    (ws : List NsPvtReadWriteSet) :
    (nsCollections ws).countP p = (if (target d ws).any p then 1 else 0) +
      (nsCollections (removeCollFromTxPvtReadWriteSet d ws)).countP p := by
  rw [(remove_perm d ws).countP_eq,countP_append]
  congr 1
  cases target d ws with
  | none => rfl
  | some e => simp [countP_singleton]

theorem remove_all_count (p : Bytes × CollectionPvtReadWriteSet → Bool) (ds : List NsColl)
    (ws : List NsPvtReadWriteSet) :
    (nsCollections ws).countP p ≤ (nsCollections (removeAll ds ws)).countP p + ds.length := by
  induction ds generalizing ws with
  | nil => exact Nat.le_refl _
  | cons d ds ih =>
    have hs := remove_count p d ws
    have hr := ih (removeCollFromTxPvtReadWriteSet d ws)
    rw [show removeAll (d :: ds) ws = removeAll ds (removeCollFromTxPvtReadWriteSet d ws) from rfl,
      length_cons]
    split at hs <;> omega

theorem removes_iff (hl : ds.length = (nsCollections ws).countP fun e => !authentic e) :
    (∀ e ∈ nsCollections (removeAll ds ws), authentic e = true) ↔
      removesMismatches authentic ds ws = true := by
  induction ds generalizing ws with
  | nil =>
    have hn := countP_eq_zero.mp hl.symm
    simp only [removesMismatches,iff_true]
    intro e he
    simpa using hn e he
  | cons d ds ih =>
    have hs := remove_count (fun e => !authentic e) d ws
    rw [length_cons] at hl
    cases ht : (target d ws).any fun e => !authentic e with
    | true =>
      rw [ht,if_pos rfl] at hs
      rw [removesMismatches,ht,Bool.true_and]
      have hl' : ds.length = (nsCollections (removeCollFromTxPvtReadWriteSet d ws)).countP
          fun e => !authentic e := by omega
      exact ih hl'
    | false =>
      rw [ht,if_neg Bool.false_ne_true] at hs
      rw [removesMismatches,ht,Bool.false_and]
      refine ⟨fun ha => ?_,fun h => absurd h Bool.false_ne_true⟩
      have hc := remove_all_count (fun e => !authentic e) ds
        (removeCollFromTxPvtReadWriteSet d ws)
      have hz : (nsCollections (removeAll ds (removeCollFromTxPvtReadWriteSet d ws))).countP
          (fun e => !authentic e) = 0 := by
        refine countP_eq_zero.mpr fun e he => ?_
        simpa using ha e he
      omega

theorem removes_keeps (h : removesMismatches authentic ds ws = true) (he : e ∈ nsCollections ws)
    (hg : authentic e = true) : e ∈ nsCollections (removeAll ds ws) := by
  induction ds generalizing ws with
  | nil => exact he
  | cons d ds ih =>
    rw [removesMismatches,Bool.and_eq_true] at h
    refine ih h.2 ?_
    rcases mem_append.mp ((remove_perm d ws).mem_iff.mp he) with ht | hl
    · rw [mem_toList.mp ht] at h
      simp [hg] at h
    · exact hl

theorem remove_all_subset (he : e ∈ nsCollections (removeAll ds ws)) : e ∈ nsCollections ws := by
  induction ds generalizing ws with
  | nil => exact he
  | cons d ds ih => exact (remove_perm d ws).mem_iff.mpr (mem_append_right _ (ih he))

theorem removes_some (hl : ds.length = (nsCollections ws).countP fun e => !authentic e)
    (he : e ∈ nsCollections ws) (hg : authentic e = true) : removeAll ds ws ≠ [] := by
  intro hn
  have hc := remove_all_count (fun _ => true) ds ws
  have hb : (fun e => decide ¬ authentic e = true) = fun e => !authentic e := by
    funext e
    cases authentic e <;> rfl
  have hs : (nsCollections ws).length = (nsCollections ws).countP authentic +
      (nsCollections ws).countP fun e => !authentic e := by
    rw [length_eq_countP_add_countP authentic,hb]
  have hp : 0 < (nsCollections ws).countP authentic := countP_pos_iff.mpr ⟨e,he,hg⟩
  rw [hn,countP_true] at hc
  have hem : (nsCollections []).length = 0 := rfl
  omega

theorem target_distinct (ha : (ws.map NsPvtReadWriteSet.nameSpace).Nodup)
    (hs : ((nsCollections ws).map nameOf).Nodup) (he : e ∈ nsCollections ws) :
    target (nameOf e) ws = some e := by
  obtain ⟨n,hn,c,hc,rfl⟩ : ∃ n ∈ ws, ∃ c ∈ n.collectionPvtRwset, (n.nameSpace,c) = e := by
    obtain ⟨n,hn,he⟩ := mem_flatMap.mp he
    obtain ⟨c,hc,rfl⟩ := List.mem_map.mp he
    exact ⟨n,hn,c,hc,rfl⟩
  have hf : ws.find? (fun n' => n'.nameSpace = n.nameSpace) = some n := by
    obtain ⟨n',hn'⟩ : ∃ n', ws.find? (fun n' => n'.nameSpace = n.nameSpace) = some n' :=
      isSome_iff_exists.mp (List.find?_isSome.mpr ⟨n,hn,by simp⟩)
    have hna : n'.nameSpace = n.nameSpace := by simpa using List.find?_some hn'
    rw [hn',inj_on_of_nodup_map ha (mem_of_find?_eq_some hn') hn hna]
  have hco : n.collectionPvtRwset.find? (fun c' => c'.collectionName = c.collectionName) = some c := by
    obtain ⟨c',hc'⟩ : ∃ c', n.collectionPvtRwset.find?
        (fun c' => c'.collectionName = c.collectionName) = some c' :=
      isSome_iff_exists.mp (List.find?_isSome.mpr ⟨c,hc,by simp⟩)
    have hna : c'.collectionName = c.collectionName := by simpa using List.find?_some hc'
    have hm : ∀ c ∈ n.collectionPvtRwset, (n.nameSpace,c) ∈ nsCollections ws := fun c hc =>
      mem_flatMap.mpr ⟨n,hn,List.mem_map_of_mem hc⟩
    have heq := inj_on_of_nodup_map hs (hm c' (mem_of_find?_eq_some hc'))
      (hm c hc) (congrArg (NsColl.mk n.nameSpace) hna)
    rw [hc',(Prod.mk.inj heq).2]
  rw [target,nameOf,hf,bind_some,hco,map_some]

theorem remove_names (d : NsColl) (ws : List NsPvtReadWriteSet) :
    ((removeCollFromTxPvtReadWriteSet d ws).map NsPvtReadWriteSet.nameSpace).Sublist
      (ws.map NsPvtReadWriteSet.nameSpace) := by
  induction ws with
  | nil => exact .slnil
  | cons n ws ih =>
    rw [removeCollFromTxPvtReadWriteSet]
    split
    · exact ih.cons_cons _
    dsimp only
    split
    · exact sublist_cons_self _ _
    · exact .refl _

theorem removes_distinct (ha : (ws.map NsPvtReadWriteSet.nameSpace).Nodup)
    (hc : ((nsCollections ws).map nameOf).Nodup) (hs : es ⊆ nsCollections ws)
    (hn : (es.map nameOf).Nodup) (hb : ∀ e ∈ es, authentic e = false) :
    removesMismatches authentic (es.map nameOf) ws = true := by
  induction es generalizing ws with
  | nil => rfl
  | cons e es ih =>
    obtain ⟨he,hn⟩ := nodup_cons.mp hn
    obtain ⟨hba,hb⟩ := forall_mem_cons.mp hb
    obtain ⟨hsu,hs⟩ := cons_subset.mp hs
    have ht := target_distinct ha hc hsu
    have hp := remove_perm (nameOf e) ws
    rw [ht,toList_some] at hp
    rw [map_cons,removesMismatches,ht,Bool.and_eq_true]
    refine ⟨by simp [hba],ih (ha.sublist (remove_names _ _)) ?_ ?_ hn hb⟩
    · have := (hp.map nameOf).nodup_iff.mp hc
      exact (nodup_cons.mp this).2
    intro e' he'
    rcases mem_cons.mp (hp.mem_iff.mp (hs he')) with rfl | hl
    · exact absurd (List.mem_map_of_mem he') he
    · exact hl

end

section
variable {ε : Type} {computeSHA256 : Bytes → Bytes}
  {retrieveRwsetForTx : Nat → Nat → Except ε TxRwSet}
  {rwset : TxRwSet}

def authentic (computeSHA256 : Bytes → Bytes) (rwset : TxRwSet)
    (e : Bytes × CollectionPvtReadWriteSet) : Bool :=
  getPvtDataHash rwset e.1 e.2.collectionName ≠ [] &&
    computeSHA256 e.2.rwset = getPvtDataHash rwset e.1 e.2.collectionName

def mismatched (computeSHA256 : Bytes → Bytes) (rwset : TxRwSet)
    (e : Bytes × CollectionPvtReadWriteSet) : Bool :=
  getPvtDataHash rwset e.1 e.2.collectionName ≠ [] &&
    computeSHA256 e.2.rwset ≠ getPvtDataHash rwset e.1 e.2.collectionName

def mismatchOf (rwset : TxRwSet) (blkNum txNum : Nat) (e : Bytes × CollectionPvtReadWriteSet) :
    PvtdataHashMismatch :=
  ⟨blkNum,txNum,e.1,e.2.collectionName,getPvtDataHash rwset e.1 e.2.collectionName⟩

theorem find_invalid_ns (bn tn : Nat) (ns : Bytes) (cs : List CollectionPvtReadWriteSet) :
    findInvalidNsPvtData computeSHA256 rwset bn tn ns cs =
      (((cs.map (ns,·)).filter (mismatched computeSHA256 rwset)).map (mismatchOf rwset bn tn),
        ((cs.map (ns,·)).filter fun e => !authentic computeSHA256 rwset e).map nameOf) := by
  induction cs with
  | nil => rfl
  | cons c cs ih =>
    rw [findInvalidNsPvtData,ih,map_cons,filter_cons,filter_cons]
    dsimp only [authentic,mismatched]
    by_cases hn : getPvtDataHash rwset ns c.collectionName = []
    · simp [hn,nameOf]
    by_cases hh : computeSHA256 c.rwset = getPvtDataHash rwset ns c.collectionName
    · simp [hn,hh]
    · simp [hn,hh,nameOf,mismatchOf]

def toDelete (computeSHA256 : Bytes → Bytes) (rwset : TxRwSet) (p : TxPvtData) : List NsColl :=
  ((nsCollections p.writeSet).filter fun e => !authentic computeSHA256 rwset e).map nameOf

theorem find_tx (bn : Nat) (p : TxPvtData) : findValidAndInvalidTxPvtData computeSHA256 rwset bn p =
      (if (removeAll (toDelete computeSHA256 rwset p) p.writeSet).isEmpty then none
        else some ⟨p.seqInBlock,removeAll (toDelete computeSHA256 rwset p) p.writeSet⟩,
      ((nsCollections p.writeSet).filter (mismatched computeSHA256 rwset)).map
        (mismatchOf rwset bn p.seqInBlock)) := by
  have hd : (p.writeSet.map fun n => findInvalidNsPvtData computeSHA256 rwset bn p.seqInBlock
      n.nameSpace n.collectionPvtRwset).flatMap Prod.snd = toDelete computeSHA256 rwset p := by
    simp only [find_invalid_ns,toDelete,nsCollections,flatMap_map,filter_flatMap,map_flatMap]
  have hm : (p.writeSet.map fun n => findInvalidNsPvtData computeSHA256 rwset bn
      p.seqInBlock n.nameSpace n.collectionPvtRwset).flatMap Prod.fst =
      ((nsCollections p.writeSet).filter (mismatched computeSHA256 rwset)).map
        (mismatchOf rwset bn p.seqInBlock) := by
    simp only [find_invalid_ns,nsCollections,flatMap_map,filter_flatMap,map_flatMap]
  rw [findValidAndInvalidTxPvtData,hd,hm]

theorem to_delete_length (p : TxPvtData) : (toDelete computeSHA256 rwset p).length =
    (nsCollections p.writeSet).countP fun e => !authentic computeSHA256 rwset e := by
  rw [toDelete,length_map,countP_eq_length_filter]

theorem find_block
    (h : findValidAndInvalidPvtdata computeSHA256 retrieveRwsetForTx blkNum ps = .ok out) :
    (∀ p ∈ ps, ∃ rwset, retrieveRwsetForTx blkNum p.seqInBlock = .ok rwset) ∧
    (∀ q, q ∈ out.1 ↔ ∃ p ∈ ps, ∃ rwset, retrieveRwsetForTx blkNum p.seqInBlock = .ok rwset ∧
      (findValidAndInvalidTxPvtData computeSHA256 rwset blkNum p).1 = some q) ∧
    ∀ m, m ∈ out.2 ↔ ∃ p ∈ ps, ∃ rwset, retrieveRwsetForTx blkNum p.seqInBlock = .ok rwset ∧
      m ∈ (findValidAndInvalidTxPvtData computeSHA256 rwset blkNum p).2 := by
  induction ps generalizing out with
  | nil =>
    cases h
    exact ⟨forall_mem_nil _,by simp,by simp⟩
  | cons p ps ih =>
    obtain ⟨rwset,hw,h⟩ := bind_ok.mp h
    obtain ⟨re,hr,h⟩ := bind_ok.mp h
    cases h
    obtain ⟨ha,hv,hi⟩ := ih hr
    refine ⟨forall_mem_cons.mpr ⟨⟨rwset,hw⟩,ha⟩,fun q => ?_,fun m => ?_⟩
    · rw [mem_append,hv,exists_mem_cons_iff]
      simp [hw]
    · rw [mem_append,hi,exists_mem_cons_iff]
      simp [hw]

section
variable (computeSHA256 : Bytes → Bytes) (retrieveRwsetForTx : Nat → Nat → Except ε TxRwSet)

def leaves (d : ReconciledPvtdata) : Bool :=
  match findValidAndInvalidPvtdata computeSHA256 retrieveRwsetForTx d.blockNum d.writeSets with
  | .error _ => false
  | .ok out => !out.1.isEmpty

def winner (blkNum : Nat) : List ReconciledPvtdata → Option ReconciledPvtdata
  | [] => none
  | d :: ds => (winner blkNum ds).or
      (if d.blockNum = blkNum ∧ leaves computeSHA256 retrieveRwsetForTx d = true then some d else none)

end

theorem winner_mem
    (h : winner computeSHA256 retrieveRwsetForTx blkNum ds = some w) : w ∈ ds ∧ w.blockNum = blkNum := by
  induction ds with
  | nil => cases h
  | cons d ds ih =>
    rw [winner,or_eq_some_iff] at h
    rcases h with h | ⟨_,h⟩
    · exact ⟨mem_cons_of_mem _ (ih h).1,(ih h).2⟩
    split at h
    · rename_i hh
      cases h
      exact ⟨mem_cons_self,hh.1⟩
    · cases h

variable {va v' : AList fun _ : Nat => List TxPvtData}
  {iv invalid' : List PvtdataHashMismatch}

theorem leaves_iff (ho : findValidAndInvalidPvtdata computeSHA256 retrieveRwsetForTx d.blockNum
    d.writeSets = .ok out) :
    leaves computeSHA256 retrieveRwsetForTx d = true ↔ out.1 ≠ [] := by
  rw [leaves,ho]
  simp

variable
  (h : addValidAndInvalidPvtData computeSHA256 retrieveRwsetForTx ds va iv = .ok (v',invalid'))
include h

theorem add_lookup (bn : Nat) :
    (∃ w ∈ ds, winner computeSHA256 retrieveRwsetForTx bn ds = some w ∧ w.blockNum = bn ∧
      ∃ o, findValidAndInvalidPvtdata computeSHA256 retrieveRwsetForTx bn w.writeSets = .ok o ∧
        v'.lookup bn = some o.1) ∨
    winner computeSHA256 retrieveRwsetForTx bn ds = none ∧
      v'.lookup bn = va.lookup bn ∧ ∀ d ∈ ds, d.blockNum = bn →
      ∃ o, findValidAndInvalidPvtdata computeSHA256 retrieveRwsetForTx bn d.writeSets = .ok o ∧
        o.1 = [] := by
  induction ds generalizing va iv with
  | nil =>
    cases h
    exact .inr ⟨rfl,rfl,forall_mem_nil _⟩
  | cons d ds ih =>
    obtain ⟨o,ho,h⟩ := bind_ok.mp h
    rcases ih h with ⟨w,hw,hwi,hb,hlk⟩ | ⟨hwi,hlk,hn⟩
    · refine .inl ⟨w,mem_cons_of_mem _ hw,?_,hb,hlk⟩
      rw [winner,hwi,some_or]
    by_cases hh : d.blockNum = bn ∧ leaves computeSHA256 retrieveRwsetForTx d = true
    · obtain ⟨rfl,hl⟩ := hh
      refine .inl ⟨d,mem_cons_self,?_,rfl,o,ho,?_⟩
      · rw [winner,hwi,none_or,if_pos ⟨rfl,hl⟩]
      have hs : ¬ o.1.isEmpty = true := by
        rw [List.isEmpty_iff]
        exact (leaves_iff ho).mp hl
      rw [hlk,if_neg hs,AList.lookup_insert]
    · refine .inr ⟨?_,?_,forall_mem_cons.mpr ⟨?_,hn⟩⟩
      · rw [winner,hwi,none_or,if_neg hh]
      · rw [hlk]
        split
        · rfl
        rename_i hs
        rw [AList.lookup_insert_ne]
        rintro rfl
        rw [List.isEmpty_iff] at hs
        exact hh ⟨rfl,(leaves_iff ho).mpr hs⟩
      · rintro rfl
        refine ⟨o,ho,?_⟩
        by_contra hs
        exact hh ⟨rfl,(leaves_iff ho).mpr hs⟩

theorem add_reports :
    iv ⊆ invalid' ∧ ∀ d ∈ ds, ∃ o, findValidAndInvalidPvtdata computeSHA256 retrieveRwsetForTx
      d.blockNum d.writeSets = .ok o ∧ o.2 ⊆ invalid' := by
  induction ds generalizing va iv with
  | nil =>
    cases h
    exact ⟨List.Subset.refl _,forall_mem_nil _⟩
  | cons d ds ih =>
    obtain ⟨o,ho,h⟩ := bind_ok.mp h
    obtain ⟨hs,ha⟩ := ih h
    have hb := append_subset.mp hs
    exact ⟨hb.1,forall_mem_cons.mpr ⟨⟨o,ho,hb.2⟩,ha⟩⟩

end

variable {ε : Type} (computeSHA256 : Bytes → Bytes)
  (retrieveRwsetForTx : Nat → Nat → Except ε TxRwSet)

def Holds (ps : List TxPvtData) (txNum : Nat) (e : Bytes × CollectionPvtReadWriteSet) : Prop :=
  ∃ p ∈ ps, p.seqInBlock = txNum ∧ e ∈ nsCollections p.writeSet

def Received (data : List ReconciledPvtdata) (blkNum txNum : Nat)
    (e : Bytes × CollectionPvtReadWriteSet) : Prop :=
  ∃ d ∈ data, d.blockNum = blkNum ∧ Holds d.writeSets txNum e

def Kept (valid : AList fun _ : Nat => List TxPvtData) (blkNum txNum : Nat)
    (e : Bytes × CollectionPvtReadWriteSet) : Prop :=
  ∃ ps, valid.lookup blkNum = some ps ∧ Holds ps txNum e

structure HashChecked (data : List ReconciledPvtdata) (valid : AList fun _ : Nat => List TxPvtData)
    (mismatches : List PvtdataHashMismatch) : Prop where
  kept : ∀ blkNum txNum e, Kept valid blkNum txNum e → ∃ rwset,
    retrieveRwsetForTx blkNum txNum = .ok rwset ∧ authentic computeSHA256 rwset e = true
  complete : ∀ blkNum txNum e rwset, Received data blkNum txNum e →
    retrieveRwsetForTx blkNum txNum = .ok rwset → authentic computeSHA256 rwset e = true →
    Kept valid blkNum txNum e
  reported : ∀ blkNum txNum e rwset, Received data blkNum txNum e →
    retrieveRwsetForTx blkNum txNum = .ok rwset → mismatched computeSHA256 rwset e = true →
    mismatchOf rwset blkNum txNum e ∈ mismatches

/-- In the data that count for a block every removal by name takes away a write set that is not
authentic, and nothing authentic is in other data of the block only. -/
def NamesTell (data : List ReconciledPvtdata) : Prop :=
  ∀ blkNum w, winner computeSHA256 retrieveRwsetForTx blkNum data = some w →
    (∀ p ∈ w.writeSets, ∀ rwset, retrieveRwsetForTx blkNum p.seqInBlock = .ok rwset →
      removesMismatches (authentic computeSHA256 rwset) (toDelete computeSHA256 rwset p)
        p.writeSet = true) ∧
    ∀ txNum e rwset, Received data blkNum txNum e → retrieveRwsetForTx blkNum txNum = .ok rwset →
      authentic computeSHA256 rwset e = true → Holds w.writeSets txNum e

variable {computeSHA256 retrieveRwsetForTx} {data : List ReconciledPvtdata}
  {valid : AList fun _ : Nat => List TxPvtData} {mismatches : List PvtdataHashMismatch}

theorem holds_left
    (ho : findValidAndInvalidPvtdata computeSHA256 retrieveRwsetForTx blkNum ps = .ok out) :
    Holds out.1 txNum e ↔ ∃ p ∈ ps, ∃ rt, retrieveRwsetForTx blkNum txNum = .ok rt ∧
      p.seqInBlock = txNum ∧
      e ∈ nsCollections (removeAll (toDelete computeSHA256 rt p) p.writeSet) := by
  obtain ⟨_,hv,_⟩ := find_block ho
  constructor
  · rintro ⟨q,hq,rfl,he⟩
    obtain ⟨p,hp,rt,hr,htx⟩ := (hv q).mp hq
    rw [find_tx] at htx
    split at htx
    · cases htx
    · cases htx
      exact ⟨p,hp,rt,hr,rfl,he⟩
  · rintro ⟨p,hp,rt,hr,rfl,he⟩
    have hl : ¬ (removeAll (toDelete computeSHA256 rt p) p.writeSet).isEmpty = true := by
      intro hem
      rw [List.isEmpty_iff.mp hem] at he
      cases he
    refine ⟨⟨p.seqInBlock,removeAll (toDelete computeSHA256 rt p) p.writeSet⟩,
      (hv _).mpr ⟨p,hp,rt,hr,?_⟩,rfl,he⟩
    rw [find_tx,if_neg hl]

section
variable
  (h : constructValidAndInvalidPvtData computeSHA256 retrieveRwsetForTx data = .ok (valid,mismatches))
  (hr : Received data blkNum txNum e) (h1 : retrieveRwsetForTx blkNum txNum = .ok rwset)
include h hr h1

theorem check_reports (hb : mismatched computeSHA256 rwset e = true) :
    mismatchOf rwset blkNum txNum e ∈ mismatches := by
  obtain ⟨d,hd,rfl,p,hp,rfl,he⟩ := hr
  obtain ⟨out,ho,hs⟩ := (add_reports h).2 d hd
  refine hs (((find_block ho).2.2 _).mpr ⟨p,hp,rwset,h1,?_⟩)
  rw [find_tx]
  exact List.mem_map_of_mem (mem_filter.mpr ⟨he,hb⟩)

theorem winner_exists (hg : authentic computeSHA256 rwset e = true) :
    winner computeSHA256 retrieveRwsetForTx blkNum data ≠ none := by
  intro hno
  obtain ⟨d,hd,rfl,p,hp,rfl,he⟩ := hr
  rcases add_lookup h d.blockNum with ⟨w,_,hw,_⟩ | ⟨_,_,hem⟩
  · rw [hno] at hw
    cases hw
  obtain ⟨out,ho,hn⟩ := hem d hd rfl
  have hl := removes_some (to_delete_length p) he hg
  have hm := ((find_block ho).2.1 ⟨p.seqInBlock,_⟩).mpr ⟨p,hp,rwset,h1,by
    rw [find_tx,if_neg (fun hem => hl (List.isEmpty_iff.mp hem))]⟩
  rw [hn] at hm
  cases hm

end

@[mk_iff]
structure Distinct (data : List ReconciledPvtdata) : Prop where
  blocks : (data.map ReconciledPvtdata.blockNum).Nodup
  namespaces : ∀ d ∈ data, ∀ p ∈ d.writeSets, (p.writeSet.map NsPvtReadWriteSet.nameSpace).Nodup
  collections : ∀ d ∈ data, ∀ p ∈ d.writeSets, ((nsCollections p.writeSet).map nameOf).Nodup

instance : Decidable (Distinct data) := decidable_of_iff' _ (distinct_iff data)

theorem Distinct.names_tell (h : Distinct data) :
    NamesTell computeSHA256 retrieveRwsetForTx data := by
  intro bn w hw
  obtain ⟨hm,rfl⟩ := winner_mem hw
  refine ⟨fun p hp rt _ => ?_,?_⟩
  · refine removes_distinct (h.namespaces w hm p hp) (h.collections w hm p hp)
      filter_sublist.subset ?_ fun e he => ?_
    · exact (h.collections w hm p hp).sublist (filter_sublist.map nameOf)
    · simpa using (mem_filter.mp he).2
  rintro tn e rt ⟨d,hd,hb,hh⟩ _ _
  have heq : d = w := inj_on_of_nodup_map h.blocks hd hm hb
  exact heq ▸ hh

/-- The check leaves exactly what is authentic if and only if names tell what has to go. -/
theorem hash_check_exact
    (h : constructValidAndInvalidPvtData computeSHA256 retrieveRwsetForTx data =
      .ok (valid,mismatches)) :
    HashChecked computeSHA256 retrieveRwsetForTx data valid mismatches ↔
      NamesTell computeSHA256 retrieveRwsetForTx data := by
  constructor
  · intro hc bn w hw
    rcases add_lookup h bn with ⟨w',_,hwi,rfl,out,ho,hlk⟩ | ⟨hn,_⟩
    · obtain rfl := Option.some.inj (hwi.symm.trans hw)
      refine ⟨fun p hp rt hr => ?_,fun tn e rt h1 hr hg => ?_⟩
      · rw [← removes_iff (to_delete_length p)]
        intro e he
        obtain ⟨r',h',hg⟩ := hc.kept _ p.seqInBlock e
          ⟨out.1,hlk,(holds_left ho).mpr ⟨p,hp,rt,hr,rfl,he⟩⟩
        obtain rfl := Except.ok.inj (hr.symm.trans h')
        exact hg
      · obtain ⟨ps,hps,hh⟩ := hc.complete _ tn e rt h1 hr hg
        obtain rfl := Option.some.inj (hlk.symm.trans hps)
        obtain ⟨p,hp,r',_,hs,he⟩ := (holds_left ho).mp hh
        exact ⟨p,hp,hs,remove_all_subset he⟩
    · rw [hn] at hw
      cases hw
  · intro ht
    refine ⟨fun bn tn e hk => ?_,fun bn tn e rt h1 hr hg => ?_,fun bn tn e rt => check_reports h⟩
    · obtain ⟨ps,hps,hh⟩ := hk
      rcases add_lookup h bn with ⟨w,_,hwi,_,out,ho,hlk⟩ | ⟨_,hlk,_⟩
      · obtain rfl := Option.some.inj (hlk.symm.trans hps)
        obtain ⟨p,hp,rt,hr,rfl,he⟩ := (holds_left ho).mp hh
        have ha := (removes_iff (to_delete_length p)).mpr ((ht _ w hwi).1 p hp rt hr)
        exact ⟨rt,hr,ha e he⟩
      · rw [hlk] at hps
        cases hps
    · rcases add_lookup h bn with ⟨w,_,hwi,_,out,ho,hlk⟩ | ⟨hn,_⟩
      · obtain ⟨p,hp,rfl,he⟩ := (ht _ w hwi).2 tn e rt h1 hr hg
        have hst := removes_keeps ((ht _ w hwi).1 p hp rt hr) he hg
        exact ⟨out.1,hlk,(holds_left ho).mpr ⟨p,hp,rt,hr,rfl,hst⟩⟩
      · exact absurd hn (winner_exists h h1 hr hg)

def sampleStore (blkNum txNum : Nat) : Except Unit TxRwSet :=
  if blkNum ≤ 1 ∧ txNum = 0 then .ok ⟨[⟨[97],⟨[],[],[],[]⟩,[⟨[99],⟨[],[],[]⟩,[7,1]⟩]⟩]⟩ else .error ()

def sampleCheck (data : List ReconciledPvtdata) :
    Except Unit ((AList fun _ : Nat => List TxPvtData) × List PvtdataHashMismatch) :=
  constructValidAndInvalidPvtData (7 :: ·) sampleStore data

def sampleData : List ReconciledPvtdata :=
  [⟨0,[⟨0,[⟨[97],[⟨[98],[1]⟩,⟨[99],[1]⟩]⟩]⟩]⟩,⟨1,[⟨0,[⟨[97],[⟨[99],[2]⟩]⟩]⟩]⟩]

theorem sample_hash_check : ∃ out, sampleCheck sampleData = .ok out ∧
    HashChecked (7 :: ·) sampleStore sampleData out.1 out.2 ∧ out.2 = [⟨1,0,[97],[99],[7,1]⟩] := by
  have hok := ok_value_eq (e := sampleCheck sampleData) rfl
  have hd : Distinct sampleData := by decide
  exact ⟨_,hok,(hash_check_exact hok).mpr hd.names_tell,rfl⟩

def repeatedCollection : List ReconciledPvtdata :=
  [⟨0,[⟨0,[⟨[97],[⟨[99],[1]⟩,⟨[99],[2]⟩]⟩]⟩]⟩]

def repeatedBlock : List ReconciledPvtdata :=
  [⟨0,[⟨0,[⟨[97],[⟨[99],[1]⟩]⟩]⟩]⟩,⟨0,[⟨0,[⟨[97],[]⟩]⟩]⟩]

/-- The forged write set stays and the authentic one goes. Authentic data are lost to later data of their
block. -/
theorem repeated_names_mislead :
    (∃ out, sampleCheck repeatedCollection = .ok out ∧ Kept out.1 0 0 ([97],⟨[99],[2]⟩) ∧
      ¬ HashChecked (7 :: ·) sampleStore repeatedCollection out.1 out.2) ∧
    ∃ out, sampleCheck repeatedBlock = .ok out ∧ out.2 = [] ∧
      ¬ HashChecked (7 :: ·) sampleStore repeatedBlock out.1 out.2 := by
  have hf : Kept (Outcomes.okValue (sampleCheck repeatedCollection) rfl).1 0 0
      ([97],⟨[99],[2]⟩) :=
    ⟨_,rfl,_,mem_cons_self,rfl,mem_cons_self⟩
  refine ⟨⟨_,ok_value_eq rfl,hf,fun h => ?_⟩,⟨_,ok_value_eq rfl,rfl,fun h => ?_⟩⟩
  · obtain ⟨rt,hr,hg⟩ := h.kept _ _ _ hf
    cases hr
    exact absurd hg (by decide)
  obtain ⟨ps,hps,p,hp,_,he⟩ := h.complete 0 0 ([97],⟨[99],[1]⟩) _
    ⟨_,mem_cons_self,rfl,_,mem_cons_self,rfl,mem_cons_self⟩ rfl rfl
  cases hps
  rw [mem_singleton.mp hp] at he
  cases he

end PluggableHcs.Kvledger
