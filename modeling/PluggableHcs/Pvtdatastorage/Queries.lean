import Mathlib.Data.Finset.Card
import PluggableHcs.Pvtdatastorage.Expiry

namespace PluggableHcs.Pvtdatastorage
open Batches Txmgmt List Option AList

abbrev DataEntry := DataKey × Bytes

abbrev DataKey.le (a b : DataKey) : Prop :=
  a.txNum < b.txNum ∨ a.txNum = b.txNum ∧ (a.nsCollBlk.ns < b.nsCollBlk.ns ∨
    a.nsCollBlk.ns = b.nsCollBlk.ns ∧ a.nsCollBlk.coll ≤ b.nsCollBlk.coll)

def StoreDb.dataEntries (db : StoreDb) (blockNum : Nat) : List DataEntry :=
  ((db.data.entries.map fun e => (e.1,e.2)).filter fun e =>
    e.1.nsCollBlk.blkNum = blockNum).insertionSort fun a b => a.1.le b.1

abbrev PvtNsCollFilter := Bytes → Bytes → Bool

/-- A nil filter passes everything. -/
def passesFilter (key : DataKey) (filter : Option PvtNsCollFilter) : Bool :=
  match filter with
  | none => true
  | some has => has key.nsCollBlk.ns key.nsCollBlk.coll

def isExpired (p : BTLPolicy) (key : NsCollBlk) (latestBlkNum : Nat) : Bool :=
  p.getExpiringBlock key.ns key.coll key.blkNum ≤ latestBlkNum

/-- The write set of a transaction while its collections come in. There is no current namespace
before the first one. -/
structure TxPvtdataAssembler where
  txNum : Nat
  txWset : List (Bytes × List (Bytes × Bytes))
  currentNsWSet : Option (Bytes × List (Bytes × Bytes))

namespace TxPvtdataAssembler

def new (txNum : Nat) : TxPvtdataAssembler := ⟨txNum,[],none⟩

def add (a : TxPvtdataAssembler) (ns : Bytes) (collPvtWset : Bytes × Bytes) : TxPvtdataAssembler :=
  match a.currentNsWSet with
  | none => { a with currentNsWSet := some (ns,[collPvtWset]) }
  | some (current,colls) =>
    if current ≠ ns then
      { a with
        txWset := a.txWset ++ [(current,colls)]
        currentNsWSet := some (ns,[collPvtWset]) }
    else { a with currentNsWSet := some (current,colls ++ [collPvtWset]) }

def getTxPvtdata (a : TxPvtdataAssembler) : TxPvtData :=
  ⟨a.txNum,a.txWset ++ a.currentNsWSet.toList⟩

end TxPvtdataAssembler

def assemblePvtdata : List DataEntry → Option TxPvtdataAssembler → List TxPvtData → List TxPvtData
  | [],current,blockPvtdata => blockPvtdata ++ (current.map (·.getTxPvtdata)).toList
  | (key,value) :: rest,none,blockPvtdata =>
    assemblePvtdata rest
      (some ((TxPvtdataAssembler.new key.txNum).add key.nsCollBlk.ns (key.nsCollBlk.coll,value)))
      blockPvtdata
  | (key,value) :: rest,some a,blockPvtdata =>
    if key.txNum ≠ a.txNum then
      assemblePvtdata rest
        (some ((TxPvtdataAssembler.new key.txNum).add key.nsCollBlk.ns (key.nsCollBlk.coll,value)))
        (blockPvtdata ++ [a.getTxPvtdata])
    else assemblePvtdata rest (some (a.add key.nsCollBlk.ns (key.nsCollBlk.coll,value))) blockPvtdata

/-- There is no result for an empty store and for a block after the last one. -/
def StoreDb.getPvtDataByBlockNum (p : BTLPolicy) (db : StoreDb) (lastCommittedBlock : Option Nat)
    (blockNum : Nat) (filter : Option PvtNsCollFilter) : Option (List TxPvtData) :=
  match lastCommittedBlock with
  | none => none
  | some last =>
    if last < blockNum then none
    else some (assemblePvtdata ((db.dataEntries blockNum).filter fun e =>
      !isExpired p e.1.nsCollBlk last && passesFilter e.1 filter) none [])

structure MissingPvtDataInfo where
  blkNum : Nat
  txNum : Nat
  ns : Bytes
  coll : Bytes
deriving DecidableEq

/-- The eligible entries up to a block, most recent first. The scan ends before the keys of
block 0. -/
def StoreDb.eligibleMissing (db : StoreDb) (maxBlkNum : Nat) : List (NsCollBlk × List Nat) :=
  (((db.missing.entries.map fun e => (e.1,e.2)).filter fun e => e.1.isEligible &&
    0 < e.1.nsCollBlk.blkNum && e.1.nsCollBlk.blkNum ≤ maxBlkNum).map
      fun e => (e.1.nsCollBlk,e.2)).insertionSort fun a b => b.1.blkNum ≤ a.1.blkNum

def missingInfo (e : NsCollBlk × List Nat) : List MissingPvtDataInfo :=
  e.2.map fun t => ⟨e.1.blkNum,t,e.1.ns,e.1.coll⟩

/-- The blocks are counted as they first occur, and the entries of the last one are still added. -/
def collectMissing (p : BTLPolicy) (lastCommittedBlock maxBlock : Nat) :
    List (NsCollBlk × List Nat) → List MissingPvtDataInfo → Nat → Bool → Nat →
      List MissingPvtDataInfo
  | [],info,_,_,_ => info
  | e :: rest,info,numberOfBlockProcessed,isMaxBlockLimitReached,lastProcessedBlock =>
    if isMaxBlockLimitReached && e.1.blkNum != lastProcessedBlock then info
    else if isExpired p e.1 lastCommittedBlock then
      collectMissing p lastCommittedBlock maxBlock rest info numberOfBlockProcessed
        isMaxBlockLimitReached lastProcessedBlock
    else if info.any (·.blkNum == e.1.blkNum) then
      collectMissing p lastCommittedBlock maxBlock rest (info ++ missingInfo e)
        numberOfBlockProcessed isMaxBlockLimitReached lastProcessedBlock
    else if numberOfBlockProcessed + 1 = maxBlock then
      collectMissing p lastCommittedBlock maxBlock rest (info ++ missingInfo e)
        (numberOfBlockProcessed + 1) true e.1.blkNum
    else
      collectMissing p lastCommittedBlock maxBlock rest (info ++ missingInfo e)
        (numberOfBlockProcessed + 1) isMaxBlockLimitReached lastProcessedBlock

def StoreDb.getMissingPvtDataInfoForMostRecentBlocks (p : BTLPolicy) (db : StoreDb)
    (lastCommittedBlock : Option Nat) (maxBlock : Nat) : List MissingPvtDataInfo :=
  if maxBlock < 1 then []
  else
    let last := lastCommittedBlock.getD 0
    collectMissing p last maxBlock (db.eligibleMissing last) [] 0 false 0

theorem data_entries_append (b : Nat) (r r' : List TxPvtData) :
    prepareDataEntries b (r ++ r') = prepareDataEntries b r ++ prepareDataEntries b r' :=
  flatMap_append

theorem add_entries (b : Nat) (a : TxPvtdataAssembler) (ns co va : Bytes) :
    prepareDataEntries b [(a.add ns (co,va)).getTxPvtdata] =
      prepareDataEntries b [a.getTxPvtdata] ++ [(⟨⟨ns,co,b⟩,a.txNum⟩,va)] := by
  obtain ⟨tn,tw,cu⟩ := a
  cases cu with
  | none => simp [prepareDataEntries,TxPvtdataAssembler.add,TxPvtdataAssembler.getTxPvtdata]
  | some c =>
    obtain ⟨n',cs⟩ := c
    by_cases h : n' = ns
    · subst h
      simp [prepareDataEntries,TxPvtdataAssembler.add,TxPvtdataAssembler.getTxPvtdata]
    · simp [prepareDataEntries,TxPvtdataAssembler.add,TxPvtdataAssembler.getTxPvtdata,h]

theorem new_entries (b tn : Nat) (ns co va : Bytes) :
    prepareDataEntries b [((TxPvtdataAssembler.new tn).add ns (co,va)).getTxPvtdata] =
      [(⟨⟨ns,co,b⟩,tn⟩,va)] :=
  add_entries b _ ns co va

theorem assemble_entries (hl : ∀ e ∈ l, e.1.nsCollBlk.blkNum = b)
    (cu : Option TxPvtdataAssembler) (o : List TxPvtData) :
    prepareDataEntries b (assemblePvtdata l cu o) =
      prepareDataEntries b (o ++ (cu.map (·.getTxPvtdata)).toList) ++ l := by
  induction l generalizing cu o with
  | nil => simp [assemblePvtdata]
  | cons e l ih =>
    obtain ⟨⟨⟨ns,co,bl⟩,tn⟩,va⟩ := e
    obtain ⟨hb,hl⟩ := forall_mem_cons.mp hl
    obtain rfl : bl = b := hb
    cases cu with
    | none =>
      rw [assemblePvtdata,ih hl]
      simp only [map_some,toList_some,map_none,toList_none,
        data_entries_append,new_entries,append_nil,append_assoc,singleton_append]
    | some a =>
      rw [assemblePvtdata]
      split
      · rw [ih hl,map_some,toList_some,data_entries_append _ (o ++ _),new_entries,append_assoc]
        rfl
      rename_i htx
      have htx : tn = a.txNum := not_not.mp htx
      rw [ih hl]
      simp only [map_some,toList_some,data_entries_append,add_entries,
        append_assoc,singleton_append,htx]

structure InOrder (r : List TxPvtData) : Prop where
  txs : (r.map TxPvtData.seqInBlock).Pairwise (· < ·)
  namespaces : ∀ tx ∈ r, (tx.writeSet.map Prod.fst).Pairwise (· < ·)

def TxPvtdataAssembler.Before (a : TxPvtdataAssembler) (k : DataKey) : Prop :=
  a.txNum < k.txNum ∨ a.txNum = k.txNum ∧ ∀ c ∈ a.currentNsWSet, c.1 ≤ k.nsCollBlk.ns

theorem InOrder.snoc (h : InOrder r) (hl : ∀ t ∈ r, t.seqInBlock < tx.seqInBlock)
    (hns : (tx.writeSet.map Prod.fst).Pairwise (· < ·)) : InOrder (r ++ [tx]) := by
  constructor
  · rw [map_append,pairwise_append]
    refine ⟨h.txs,pairwise_singleton _ _,?_⟩
    intro s hs s' hs'
    obtain ⟨t,ht,rfl⟩ := List.mem_map.mp hs
    rw [map_singleton,mem_singleton] at hs'
    rw [hs']
    exact hl t ht
  · intro t ht
    rcases mem_append.mp ht with ht | ht
    · exact h.namespaces t ht
    · rw [mem_singleton.mp ht]
      exact hns

theorem add_seq (a : TxPvtdataAssembler) (ns : Bytes) (w : Bytes × Bytes) :
    (a.add ns w).txNum = a.txNum := by
  unfold TxPvtdataAssembler.add
  split
  · rfl
  · split <;> rfl

theorem add_current (a : TxPvtdataAssembler) (ns : Bytes) (w : Bytes × Bytes) :
    ∃ cs, (a.add ns w).currentNsWSet = some (ns,cs) := by
  unfold TxPvtdataAssembler.add
  split
  · exact ⟨_,rfl⟩
  split
  · exact ⟨_,rfl⟩
  rename_i heq
  rw [not_not.mp heq]
  exact ⟨_,rfl⟩

theorem add_before {a : TxPvtdataAssembler} {k k' : DataKey} (htx : a.txNum = k.txNum)
    (hle : k.le k') : (a.add k.nsCollBlk.ns w).Before k' := by
  obtain ⟨cs,hcu⟩ := add_current a k.nsCollBlk.ns w
  rcases hle with hlt | ⟨heq,hns⟩
  · exact .inl (by rw [add_seq,htx]; exact hlt)
  refine .inr ⟨(add_seq a _ w).trans (htx.trans heq),fun c hc => ?_⟩
  cases hcu.symm.trans hc
  rcases hns with hns | ⟨hns,_⟩
  · exact hns.le
  · exact hns.le

theorem add_namespaces {a : TxPvtdataAssembler} (ns : Bytes) (w : Bytes × Bytes)
    (h : (a.getTxPvtdata.writeSet.map Prod.fst).Pairwise (· < ·))
    (hc : a.currentNsWSet = some c) (hle : c.1 ≤ ns) :
    ((a.add ns w).getTxPvtdata.writeSet.map Prod.fst).Pairwise (· < ·) := by
  obtain ⟨tn,tw,cu⟩ := a
  obtain ⟨n',cs⟩ := c
  cases hc
  simp only [TxPvtdataAssembler.getTxPvtdata,toList_some,map_append,
    map_singleton,pairwise_append] at h
  obtain ⟨hd,_,hl⟩ := h
  unfold TxPvtdataAssembler.add
  dsimp only
  split
  · rename_i hne
    have hlt : n' < ns := lt_of_le_of_ne hle hne
    simp only [TxPvtdataAssembler.getTxPvtdata,toList_some,map_append,map_singleton,pairwise_append]
    refine ⟨⟨hd,pairwise_singleton _ _,hl⟩,pairwise_singleton _ _,?_⟩
    intro m hm m' hm'
    rw [mem_singleton.mp hm']
    rcases mem_append.mp hm with hm | hm
    · exact (hl m hm n' mem_cons_self).trans hlt
    · rw [mem_singleton.mp hm]
      exact hlt
  · simp only [TxPvtdataAssembler.getTxPvtdata,toList_some,map_append,map_singleton,pairwise_append]
    exact ⟨hd,pairwise_singleton _ _,hl⟩

theorem new_namespaces (tn : Nat) (ns : Bytes) (w : Bytes × Bytes) :
    ((((TxPvtdataAssembler.new tn).add ns w).getTxPvtdata).writeSet.map Prod.fst).Pairwise
      (· < ·) :=
  pairwise_singleton _ _

theorem assemble_order {l : List DataEntry} (hl : l.Pairwise fun a b => a.1.le b.1)
    {cu : Option TxPvtdataAssembler} {out : List TxPvtData}
    (ho : InOrder (out ++ (cu.map (·.getTxPvtdata)).toList))
    (hf : cu = none → out = [])
    (hcu : ∀ a, cu = some a → a.currentNsWSet ≠ none ∧ ∀ e ∈ l, a.Before e.1) :
    InOrder (assemblePvtdata l cu out) := by
  induction l generalizing cu out with
  | nil => exact ho
  | cons e l ih =>
    obtain ⟨k,va⟩ := e
    obtain ⟨hk,hl⟩ := pairwise_cons.mp hl
    have hn : ∀ (a : TxPvtdataAssembler) w, a.txNum = k.txNum →
        ∀ a' : TxPvtdataAssembler, some (a.add k.nsCollBlk.ns w) = some a' →
        a'.currentNsWSet ≠ none ∧ ∀ e ∈ l, a'.Before e.1 := by
      intro a w htx a' heq
      cases heq
      obtain ⟨cs,ha⟩ := add_current a k.nsCollBlk.ns w
      exact ⟨by rw [ha]; exact some_ne_none _,fun e he => add_before htx (hk e he)⟩
    cases cu with
    | none =>
      rw [assemblePvtdata]
      refine ih hl ?_ (fun h => nomatch h) (hn _ _ rfl)
      rw [hf rfl]
      refine ⟨pairwise_singleton _ _,fun tx htx => ?_⟩
      rw [mem_singleton.mp htx]
      exact new_namespaces _ _ _
    | some a =>
      obtain ⟨hso,hb⟩ := hcu a rfl
      have hk' := hb _ mem_cons_self
      have hea : ∀ t ∈ out, t.seqInBlock < a.txNum := by
        intro t ht
        have hts := ho.txs
        rw [map_append,pairwise_append] at hts
        exact hts.2.2 _ (List.mem_map.mpr ⟨t,ht,rfl⟩) _ mem_cons_self
      rw [assemblePvtdata]
      split
      · rename_i hne
        have hlt : a.txNum < k.txNum := by
          rcases hk' with hlt | ⟨heq,_⟩
          · exact hlt
          · exact absurd heq.symm hne
        refine ih hl ?_ (fun h => nomatch h) (hn _ _ rfl)
        refine InOrder.snoc ho ?_ (new_namespaces _ _ _)
        intro t ht
        rcases mem_append.mp ht with ht | ht
        · exact (hea t ht).trans hlt
        · rw [mem_singleton.mp ht]
          exact hlt
      · rename_i heq
        have htx : a.txNum = k.txNum := (not_not.mp heq).symm
        obtain ⟨c,hc⟩ := ne_none_iff_exists'.mp hso
        have hle : c.1 ≤ k.nsCollBlk.ns := by
          rcases hk' with hlt | ⟨_,hle⟩
          · exact absurd htx hlt.ne
          · exact hle c hc
        refine ih hl ?_ (fun h => nomatch h) (hn _ _ htx)
        have hi : InOrder out := by
          have hts := ho.txs
          rw [map_append,pairwise_append] at hts
          exact ⟨hts.1,fun tx htx => ho.namespaces tx (mem_append_left _ htx)⟩
        have hns := ho.namespaces a.getTxPvtdata (mem_append_right _ mem_cons_self)
        refine hi.snoc ?_ (add_namespaces _ _ hns hc hle)
        intro t ht
        have hs : (a.add k.nsCollBlk.ns (k.nsCollBlk.coll,va)).getTxPvtdata.seqInBlock =
          a.txNum := add_seq _ _ _
        rw [hs]
        exact hea t ht

section
variable {db : StoreDb}

theorem data_key_total (a b : DataKey) : a.le b ∨ b.le a := by
  rcases lt_trichotomy a.txNum b.txNum with h | h | h
  · exact .inl (.inl h)
  · rcases lt_trichotomy a.nsCollBlk.ns b.nsCollBlk.ns with h' | h' | h'
    · exact .inl (.inr ⟨h,.inl h'⟩)
    · rcases le_total a.nsCollBlk.coll b.nsCollBlk.coll with hle | hle
      · exact .inl (.inr ⟨h,.inr ⟨h',hle⟩⟩)
      · exact .inr (.inr ⟨h.symm,.inr ⟨h'.symm,hle⟩⟩)
    · exact .inr (.inr ⟨h.symm,.inl h'⟩)
  · exact .inr (.inl h)

theorem data_key_trans {a b c : DataKey} (hab : a.le b) (hbc : b.le c) : a.le c := by
  rcases hab with hab | ⟨hab,hab'⟩
  · rcases hbc with hbc | ⟨hbc,_⟩
    · exact .inl (hab.trans hbc)
    · exact .inl (hbc ▸ hab)
  rcases hbc with hbc | ⟨hbc,hbc'⟩
  · exact .inl (hab ▸ hbc)
  refine .inr ⟨hab.trans hbc,?_⟩
  rcases hab' with hab' | ⟨hab',hc⟩
  · rcases hbc' with hbc' | ⟨hbc',_⟩
    · exact .inl (hab'.trans hbc')
    · exact .inl (hbc' ▸ hab')
  rcases hbc' with hbc' | ⟨hbc',hc'⟩
  · exact .inl (hab' ▸ hbc')
  · exact .inr ⟨hab'.trans hbc',hc.trans hc'⟩

theorem mem_data_entries :
    e ∈ db.dataEntries b ↔ db.data.lookup e.1 = some e.2 ∧ e.1.nsCollBlk.blkNum = b := by
  unfold StoreDb.dataEntries
  rw [mem_insertionSort,mem_filter,List.mem_map]
  constructor
  · rintro ⟨⟨d,hd,rfl⟩,hb⟩
    exact ⟨mem_lookup_iff.mpr hd,of_decide_eq_true hb⟩
  · rintro ⟨hlk,hb⟩
    exact ⟨⟨⟨e.1,e.2⟩,mem_lookup_iff.mp hlk,rfl⟩,decide_eq_true hb⟩

theorem data_entries_sorted (db : StoreDb) (b : Nat) :
    (db.dataEntries b).Pairwise fun a b => a.1.le b.1 := by
  have ht : Std.Total fun a b : DataEntry => a.1.le b.1 := ⟨fun a b => data_key_total a.1 b.1⟩
  have htr : IsTrans DataEntry fun a b => a.1.le b.1 := ⟨fun _ _ _ => data_key_trans⟩
  exact pairwise_insertionSort _ _

theorem get_pvt_data_entries (p : BTLPolicy) (db : StoreDb) (f : Option PvtNsCollFilter)
    (hb : b ≤ last) :
    ∃ r, db.getPvtDataByBlockNum p (some last) b f = some r ∧ InOrder r ∧
      ∀ k v, (k,v) ∈ prepareDataEntries b r ↔ k.nsCollBlk.blkNum = b ∧
        db.data.lookup k = some v ∧ isExpired p k.nsCollBlk last = false ∧
        passesFilter k f = true := by
  unfold StoreDb.getPvtDataByBlockNum
  dsimp only
  rw [if_neg (Nat.not_lt.mpr hb)]
  refine ⟨_,rfl,?_,fun k v => ?_⟩
  · refine assemble_order ((data_entries_sorted db b).filter _)
      ⟨List.Pairwise.nil,fun tx htx => (nomatch htx)⟩ (fun _ => rfl) (fun a ha => nomatch ha)
  rw [assemble_entries fun e he => (mem_data_entries.mp (mem_filter.mp he).1).2]
  have hn : prepareDataEntries b ([] ++
      ((none : Option TxPvtdataAssembler).map (·.getTxPvtdata)).toList) = [] := rfl
  rw [hn,nil_append,mem_filter,mem_data_entries]
  simp only [Bool.and_eq_true,Bool.not_eq_true']
  constructor
  · rintro ⟨⟨hlk,hbl⟩,hex,hps⟩
    exact ⟨hbl,hlk,hex,hps⟩
  · rintro ⟨hbl,hlk,hex,hps⟩
    exact ⟨⟨hlk,hbl⟩,hex,hps⟩

theorem mem_eligible_missing : e ∈ db.eligibleMissing last ↔
      db.missing.lookup ⟨e.1,true⟩ = some e.2 ∧ 0 < e.1.blkNum ∧ e.1.blkNum ≤ last := by
  unfold StoreDb.eligibleMissing
  rw [mem_insertionSort,List.mem_map]
  constructor
  · rintro ⟨⟨⟨ke,ie⟩,bi⟩,hm,rfl⟩
    obtain ⟨hm,hc⟩ := mem_filter.mp hm
    obtain ⟨⟨k',b'⟩,hd,heq⟩ := List.mem_map.mp hm
    cases heq
    simp only [Bool.and_eq_true,decide_eq_true_eq] at hc
    obtain ⟨⟨he,hp⟩,hle⟩ := hc
    refine ⟨?_,hp,hle⟩
    rw [← he]
    exact mem_lookup_iff.mpr hd
  · rintro ⟨hlk,hp,hle⟩
    refine ⟨(⟨e.1,true⟩,e.2),mem_filter.mpr ⟨?_,?_⟩,rfl⟩
    · exact List.mem_map.mpr ⟨⟨⟨e.1,true⟩,e.2⟩,mem_lookup_iff.mp hlk,rfl⟩
    · simp [hp,hle]

theorem eligible_missing_sorted (db : StoreDb) (l : Nat) :
    (db.eligibleMissing l).Pairwise fun a b => b.1.blkNum ≤ a.1.blkNum := by
  exact pairwise_insertionSort _ _

end

variable (p : BTLPolicy) (last : Nat)

def liveBlocks (l : List (NsCollBlk × List Nat)) : Finset Nat :=
  ((l.filter fun e => !isExpired p e.1 last).map fun e => e.1.blkNum).toFinset

variable {p last}

theorem mem_live_blocks : b ∈ liveBlocks p last l ↔
    ∃ e ∈ l, isExpired p e.1 last = false ∧ e.1.blkNum = b := by
  unfold liveBlocks
  simp [and_assoc]

/-- Where the loop stands: the blocks it has counted are at or above all that is left. -/
structure Counted (maxBlock : Nat) (seen : Finset Nat) (rest : List (NsCollBlk × List Nat))
    (info : List MissingPvtDataInfo) (processed : Nat) (reached : Bool) (lastProcessed : Nat) :
    Prop where
  listed : ∀ b, b ∈ seen ↔ ∃ i ∈ info, i.blkNum = b
  count : processed = seen.card
  above : ∀ b ∈ seen, ∀ e ∈ rest, e.1.blkNum ≤ b
  atMost : seen.card ≤ maxBlock
  limit : reached = true ↔ seen.card = maxBlock
  lowest : reached = true → lastProcessed ∈ seen ∧ ∀ b ∈ seen, lastProcessed ≤ b

theorem Counted.skip (h : Counted mb se (e :: rest) info pr reached lb) :
    Counted mb se rest info pr reached lb where
  listed := h.listed
  count := h.count
  above b hb e' he' := h.above b hb e' (mem_cons_of_mem _ he')
  atMost := h.atMost
  limit := h.limit
  lowest := h.lowest

def Recent (maxBlock : Nat) (blocks : Finset Nat) (b : Nat) : Prop :=
  (blocks.filter (b < ·)).card < maxBlock

theorem mem_missing_info : i ∈ missingInfo e ↔ e.1 = ⟨i.ns,i.coll,i.blkNum⟩ ∧ i.txNum ∈ e.2 := by
  obtain ⟨⟨ns,co,bl⟩,bi⟩ := e
  obtain ⟨b',t,n',c'⟩ := i
  unfold missingInfo
  rw [List.mem_map]
  constructor
  · rintro ⟨t',ht',heq⟩
    cases heq
    exact ⟨rfl,ht'⟩
  rintro ⟨heq,ht⟩
  cases heq
  exact ⟨t,ht,rfl⟩

theorem info_insert {se : Finset Nat} {io : List MissingPvtDataInfo}
    {e : NsCollBlk × List Nat} (hin : ∀ b, b ∈ se ↔ ∃ i ∈ io, i.blkNum = b)
    (hbi : e.2 ≠ []) (b : Nat) : b ∈ insert e.1.blkNum se ↔
      ∃ i ∈ io ++ missingInfo e, MissingPvtDataInfo.blkNum i = b := by
  rw [Finset.mem_insert,hin]
  constructor
  · rintro (rfl | ⟨i,hi,hb⟩)
    · obtain ⟨t,ht⟩ := exists_mem_of_ne_nil _ hbi
      exact ⟨⟨e.1.blkNum,t,e.1.ns,e.1.coll⟩,mem_append_right _ (mem_missing_info.mpr ⟨rfl,ht⟩),rfl⟩
    · exact ⟨i,mem_append_left _ hi,hb⟩
  rintro ⟨i,hi,hb⟩
  rcases mem_append.mp hi with hi | hi
  · exact .inr ⟨i,hi,hb⟩
  obtain ⟨heq,_⟩ := mem_missing_info.mp hi
  rw [heq]
  exact .inl hb.symm

theorem live_blocks_cons (hl : isExpired p e.1 last = false)
    (rest : List (NsCollBlk × List Nat)) (se : Finset Nat) :
    se ∪ liveBlocks p last (e :: rest) = insert e.1.blkNum se ∪ liveBlocks p last rest := by
  ext b
  simp only [Finset.mem_union,mem_live_blocks,Finset.mem_insert,mem_cons,exists_eq_or_imp,
    hl,true_and]
  constructor
  · rintro (h | rfl | h)
    · exact .inl (.inr h)
    · exact .inl (.inl rfl)
    · exact .inr h
  rintro ((rfl | h) | h)
  · exact .inr (.inl rfl)
  · exact .inl h
  · exact .inr (.inr h)

section
variable (h : Counted maxBlock seen (e :: rest) info processed reached lastProcessed)
include h

theorem Counted.any_iff : info.any (·.blkNum == e.1.blkNum) = true ↔ e.1.blkNum ∈ seen := by
  rw [h.listed,List.any_eq_true]
  simp only [beq_iff_eq]

variable (hg : ¬ (reached && e.1.blkNum != lastProcessed) = true)
include hg

/-- A new block comes only while there are fewer than wanted. -/
theorem Counted.not_reached (hs : e.1.blkNum ∉ seen) : reached ≠ true := by
  intro hr
  have hne : e.1.blkNum ≠ lastProcessed := fun heq => hs (heq ▸ (h.lowest hr).1)
  exact hg (by simp [hr,hne])

theorem Counted.card_lt (hs : e.1.blkNum ∉ seen) : seen.card < maxBlock :=
  lt_of_le_of_ne h.atMost fun hc => h.not_reached hg hs (h.limit.mpr hc)

variable (hd : ∀ e' ∈ rest, e'.1.blkNum ≤ e.1.blkNum)
include hd

theorem Counted.recent : Recent maxBlock (seen ∪ liveBlocks p last (e :: rest)) e.1.blkNum := by
  have hsu : (seen ∪ liveBlocks p last (e :: rest)).filter (e.1.blkNum < ·) ⊆
      seen.erase e.1.blkNum := by
    intro b hb
    obtain ⟨hm,hlt⟩ := Finset.mem_filter.mp hb
    rcases Finset.mem_union.mp hm with hm | hm
    · exact Finset.mem_erase.mpr ⟨hlt.ne',hm⟩
    obtain ⟨e',he',_,rfl⟩ := mem_live_blocks.mp hm
    rcases mem_cons.mp he' with rfl | he'
    · exact absurd hlt (lt_irrefl _)
    · exact absurd (hd e' he') (Nat.not_le.mpr hlt)
  refine (Finset.card_le_card hsu).trans_lt ?_
  by_cases hs : e.1.blkNum ∈ seen
  · have hc := Finset.card_erase_lt_of_mem hs
    have hle := h.atMost
    omega
  rw [Finset.erase_eq_of_notMem hs]
  exact h.card_lt hg hs

omit hg in
theorem Counted.above_insert : ∀ b ∈ insert e.1.blkNum seen, ∀ e' ∈ rest, e'.1.blkNum ≤ b := by
  intro b hb e' he'
  rcases Finset.mem_insert.mp hb with rfl | hb
  · exact hd e' he'
  · exact h.above b hb e' (mem_cons_of_mem _ he')

omit hg in
theorem Counted.again (hb : e.2 ≠ []) (hs : e.1.blkNum ∈ seen) : Counted maxBlock
    (insert e.1.blkNum seen) rest (info ++ missingInfo e) processed reached lastProcessed := by
  have hi := Finset.insert_eq_of_mem hs
  refine ⟨info_insert h.listed hb,?_,h.above_insert hd,?_,?_,?_⟩ <;> rw [hi]
  exacts [h.count,h.atMost,h.limit,h.lowest]

/-- The limit is reached with the block, which is then the last, or not yet. -/
theorem Counted.added (hb : e.2 ≠ []) (hs : e.1.blkNum ∉ seen)
    (hr : reached' = true ↔ processed + 1 = maxBlock)
    (hl : reached' = true → lastProcessed' = e.1.blkNum) : Counted maxBlock
      (insert e.1.blkNum seen) rest (info ++ missingInfo e) (processed + 1) reached'
        lastProcessed' := by
  have hc := Finset.card_insert_of_notMem hs
  have hp := h.count
  have hlt := h.card_lt hg hs
  refine ⟨info_insert h.listed hb,by omega,h.above_insert hd,by omega,by rw [hr]; omega,?_⟩
  intro hre
  rw [hl hre]
  refine ⟨Finset.mem_insert_self _ _,fun b hb => ?_⟩
  rcases Finset.mem_insert.mp hb with rfl | hb
  · exact le_rfl
  · exact h.above b hb e mem_cons_self

omit hg in
theorem Counted.stops (bs : Finset Nat)
    (hs : (reached && e.1.blkNum != lastProcessed) = true) (he' : e' ∈ e :: rest) :
    ¬ Recent maxBlock (seen ∪ bs) e'.1.blkNum := by
  simp only [Bool.and_eq_true,bne_iff_ne] at hs
  obtain ⟨hr,hne⟩ := hs
  obtain ⟨hm,hl⟩ := h.lowest hr
  have hlt : e.1.blkNum < lastProcessed :=
    lt_of_le_of_ne (h.above _ hm e mem_cons_self) hne
  have hle : e'.1.blkNum ≤ e.1.blkNum := by
    rcases mem_cons.mp he' with rfl | he'
    · exact le_rfl
    · exact hd e' he'
  have hsu : seen ⊆ (seen ∪ bs).filter (e'.1.blkNum < ·) := by
    intro b hb
    exact Finset.mem_filter.mpr ⟨Finset.mem_union_left _ hb,hle.trans_lt (hlt.trans_le (hl b hb))⟩
  have hc := Finset.card_le_card hsu
  rw [h.limit.mp hr] at hc
  exact Nat.not_lt.mpr hc

end

def Reported (p : BTLPolicy) (last maxBlock : Nat) (blocks : Finset Nat)
    (l : List (NsCollBlk × List Nat)) (i : MissingPvtDataInfo) : Prop :=
  ∃ e ∈ l, isExpired p e.1 last = false ∧ i ∈ missingInfo e ∧ Recent maxBlock blocks e.1.blkNum

theorem reported_cons {i : MissingPvtDataInfo} : Reported p last maxBlock bs (e :: rest) i ↔
    (isExpired p e.1 last = false ∧ i ∈ missingInfo e ∧ Recent maxBlock bs e.1.blkNum) ∨
      Reported p last maxBlock bs rest i := by
  simp [Reported]

/-- What is collected are the entries, not expired, of the most recent blocks that have any. -/
theorem collect_missing {l : List (NsCollBlk × List Nat)}
    (hl : l.Pairwise fun a b => b.1.blkNum ≤ a.1.blkNum) (hbi : ∀ e ∈ l, e.2 ≠ [])
    (h : Counted maxBlock seen l info processed reached lastProcessed) (i : MissingPvtDataInfo) :
    i ∈ collectMissing p last maxBlock l info processed reached lastProcessed ↔
      i ∈ info ∨ Reported p last maxBlock (seen ∪ liveBlocks p last l) l i := by
  induction l generalizing seen info processed reached lastProcessed with
  | nil => simp [collectMissing,Reported]
  | cons e rest ih =>
    obtain ⟨hd,hr⟩ := pairwise_cons.mp hl
    obtain ⟨hb,hbi⟩ := forall_mem_cons.mp hbi
    rw [collectMissing]
    split
    · rename_i hs
      refine (or_iff_left ?_).symm
      rintro ⟨e',he',_,_,hre⟩
      exact h.stops hd _ hs he' hre
    rename_i hg
    split
    · rename_i hex
      have hbs : liveBlocks p last (e :: rest) = liveBlocks p last rest := by
        unfold liveBlocks
        rw [filter_cons_of_neg (by simp [hex])]
      rw [ih hr hbi h.skip,hbs,reported_cons]
      simp [hex]
    rename_i hex
    have hli : isExpired p e.1 last = false := Bool.eq_false_iff.mpr hex
    have hre : Recent maxBlock (seen ∪ liveBlocks p last (e :: rest)) e.1.blkNum :=
      h.recent hg hd
    rw [live_blocks_cons hli] at hre
    -- whatever the counters become, the entry is added and the rest follows
    have had : ∀ {n r k}, Counted maxBlock (insert e.1.blkNum seen) rest
        (info ++ missingInfo e) n r k →
        (i ∈ collectMissing p last maxBlock rest (info ++ missingInfo e) n r k ↔
          i ∈ info ∨ Reported p last maxBlock (seen ∪ liveBlocks p last (e :: rest))
            (e :: rest) i) := by
      intro n r k hc
      rw [ih hr hbi hc,live_blocks_cons hli,reported_cons,mem_append]
      simp only [hli,hre,true_and,and_true]
      exact or_assoc
    split
    · rename_i hs
      exact had (h.again hd hb (h.any_iff.mp hs))
    rename_i hs
    have hs := fun hm => hs (h.any_iff.mpr hm)
    split
    · rename_i hlast
      exact had (h.added hg hd hb hs (iff_of_true rfl hlast) fun _ => rfl)
    · rename_i hmore
      have hn := h.not_reached hg hs
      exact had (h.added hg hd hb hs (iff_of_false hn hmore) fun hre => absurd hre hn)

theorem get_missing_entries {db : StoreDb}
    (hbi : ∀ k bi, db.missing.lookup k = some bi → bi ≠ []) (hm : 0 < mb)
    (i : MissingPvtDataInfo) :
    i ∈ db.getMissingPvtDataInfoForMostRecentBlocks p (some last) mb ↔
      (0 < i.blkNum ∧ i.blkNum ≤ last ∧ isExpired p ⟨i.ns,i.coll,i.blkNum⟩ last = false ∧
        ∃ bi, db.missing.lookup ⟨⟨i.ns,i.coll,i.blkNum⟩,true⟩ = some bi ∧ i.txNum ∈ bi) ∧
      Recent mb (liveBlocks p last (db.eligibleMissing last)) i.blkNum := by
  unfold StoreDb.getMissingPvtDataInfoForMostRecentBlocks
  rw [if_neg (by omega)]
  dsimp only [getD_some]
  have hc : Counted mb ∅ (db.eligibleMissing last) [] 0 false 0 := by
    refine ⟨by simp,rfl,fun b hb => (nomatch hb),Nat.zero_le _,?_,fun hr => (nomatch hr)⟩
    exact iff_of_false Bool.false_ne_true (by rw [Finset.card_empty]; omega)
  rw [collect_missing (eligible_missing_sorted db last)
    (fun e he => hbi _ _ (mem_eligible_missing.mp he).1) hc,Finset.empty_union]
  constructor
  · rintro (hi | ⟨e,he,hl,hi,hre⟩)
    · nomatch hi
    obtain ⟨hlk,hp,hle⟩ := mem_eligible_missing.mp he
    obtain ⟨heq,ht⟩ := mem_missing_info.mp hi
    rw [heq] at hlk hp hle hl hre
    exact ⟨⟨hp,hle,hl,e.2,hlk,ht⟩,hre⟩
  · rintro ⟨⟨hp,hle,hl,bi,hlk,ht⟩,hre⟩
    exact .inr ⟨(⟨i.ns,i.coll,i.blkNum⟩,bi),mem_eligible_missing.mpr ⟨hlk,hp,hle⟩,hl,
      mem_missing_info.mpr ⟨rfl,ht⟩,hre⟩

end PluggableHcs.Pvtdatastorage
