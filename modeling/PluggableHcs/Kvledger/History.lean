import PluggableHcs.Lib.Digits
import PluggableHcs.Txmgmt.PrivateState

namespace PluggableHcs.Kvledger
open Txmgmt Tables Runs List Option Ledger NsRwSet

def heightToBytes (h : Height) : Bytes := Digits.ordered h.blockNum ++ Digits.ordered h.txNum

def compositeKeySep : Bytes := [0]

def savePointKey : Bytes := [115]

def emptyValue : Bytes := []

structure RangeScan where
  startKey : Bytes
  endKey : Bytes

def constructRangeScan (ns key : Bytes) : RangeScan :=
  let k := ns ++ compositeKeySep ++ (Digits.ordered key.length ++ (key ++ compositeKeySep))
  ⟨k,k ++ [0xff]⟩

def constructDataKey (ns key : Bytes) (blocknum trannum : Nat) : Bytes :=
  ns ++ compositeKeySep ++ (Digits.ordered key.length ++ (key ++ compositeKeySep)) ++
    (Digits.ordered blocknum ++ Digits.ordered trannum)

/-- A key that does not start as it has to is decoded as it is. -/
def RangeScan.decodeBlockNumTranNum (r : RangeScan) (dataKey : Bytes) : Option (Nat × Nat) := do
  let blockNumTranNumBytes :=
    if r.startKey.isPrefixOf dataKey then dataKey.drop r.startKey.length else dataKey
  let (blockNum,blockBytesConsumed) ← Digits.decodeOrdered blockNumTranNumBytes
  let (tranNum,tranBytesConsumed) ← Digits.decodeOrdered (blockNumTranNumBytes.drop blockBytesConsumed)
  if blockBytesConsumed + tranBytesConsumed ≠ blockNumTranNumBytes.length then none
  else some (blockNum,tranNum)

abbrev HistoryDb := Table Bytes Bytes

namespace HistoryDb

/-- A record for each write of each valid transaction, and the savepoint. -/
def dataKeys (blk : Block) (codes : List TxValidationCode) : List Bytes :=
  (blk.txs.zip codes).flatMap fun e =>
    if e.2 = .valid then
      e.1.rwset.nsRwSets.flatMap fun n => n.kvRwSet.writes.map fun w =>
        constructDataKey n.nameSpace w.key blk.num e.1.indexInBlock
    else []

def commit (db : HistoryDb) (numTxs : Nat) (blk : Block) (codes : List TxValidationCode) :
    HistoryDb :=
  ((dataKeys blk codes).foldl (fun db k => Table.insert db k emptyValue) db).insert savePointKey
    (heightToBytes ⟨blk.num,numTxs⟩)

end HistoryDb

structure KeyModification where
  height : Height
  value : Bytes
  isDelete : Bool
deriving DecidableEq

/-- The first write of the key in the first entry of the namespace. -/
def getKeyModificationFromTran (rwset : TxRwSet) (ns key : Bytes) : Option (Bool × Bytes) :=
  (rwset.nsRwSets.find? fun n => n.nameSpace = ns).bind fun n =>
    (n.kvRwSet.writes.find? fun w => w.key = key).map fun w => (w.isDelete,w.value)

/-- The block store finds a block by its number, which is its place. -/
def retrieveTxByBlockNumTranNum (blocks : List (Block × List TxValidationCode))
    (blockNum tranNum : Nat) :
    Option TxRwSet :=
  blocks[blockNum]?.bind fun b =>
    (b.1.txs.find? fun tx => tx.indexInBlock = tranNum).map Transaction.rwset

/-- The results from the newest to the oldest, or nothing if one of them is an error. -/
def getHistoryForKey (history : HistoryDb) (blocks : List (Block × List TxValidationCode))
    (ns key : Bytes) : Option (List KeyModification) :=
  let rangeScan := constructRangeScan ns key
  let found := history.entries.filter fun e =>
    ¬ e.1 < rangeScan.startKey ∧ e.1 < rangeScan.endKey
  found.reverse.mapM fun e => do
    let (blockNum,tranNum) ← rangeScan.decodeBlockNumTranNum e.1
    let rwset ← retrieveTxByBlockNumTranNum blocks blockNum tranNum
    let (isDelete,value) ← getKeyModificationFromTran rwset ns key
    pure ⟨⟨blockNum,tranNum⟩,value,isDelete⟩

structure HistoryLedger where
  ledger : Ledger
  history : HistoryDb

section
variable (x : Primitives) (btlPolicy : BTLPolicy)

/-- The history follows the state. -/
def HistoryLedger.next (h : HistoryLedger) (e : LedgerEvent) : Option HistoryLedger :=
  (h.ledger.next x btlPolicy e).map fun l =>
    ⟨l,match e with
      | .commit blk _ _ => l.blocks.getLast?.elim h.history fun b =>
          h.history.commit blk.results.length b.1 b.2
      | .reconcile _ => h.history⟩

def HistoryLedger.initial (bulkOptimizable : Bool) : HistoryLedger :=
  ⟨Ledger.initial bulkOptimizable,.empty⟩

end

section

theorem split_at_sep {a b r s : Bytes} (ha : 0 ∉ a) (hb : 0 ∉ b) (h : a ++ 0 :: r = b ++ 0 :: s) :
    a = b ∧ r = s := by
  induction a generalizing b with
  | nil =>
    cases b with
    | nil => exact ⟨rfl,(List.cons.inj h).2⟩
    | cons c b => exact absurd ((List.cons.inj h).1 ▸ mem_cons_self) hb
  | cons c a ih =>
    cases b with
    | nil => exact absurd ((List.cons.inj h).1 ▸ mem_cons_self) ha
    | cons d b =>
      obtain ⟨rfl,ht⟩ := List.cons.inj h
      obtain ⟨rfl,hrs⟩ := ih (fun hm => ha (mem_cons_of_mem _ hm))
        (fun hm => hb (mem_cons_of_mem _ hm)) ht
      exact ⟨rfl,hrs⟩

variable {ns n' key k' : Bytes}

theorem data_key_eq (ns key : Bytes) (b t : Nat) : constructDataKey ns key b t =
    (constructRangeScan ns key).startKey ++ (Digits.ordered b ++ Digits.ordered t) := rfl

theorem range_scan_exact (hns : 0 ∉ ns) (hns' : 0 ∉ n') (hk : key.length < 2 ^ 64)
    (hk' : k'.length < 2 ^ 64) (hb : b < 2 ^ 64) :
    ¬ constructDataKey n' k' b t < (constructRangeScan ns key).startKey ∧
      constructDataKey n' k' b t < (constructRangeScan ns key).endKey ↔ n' = ns ∧ k' = key := by
  constructor
  · rintro ⟨hle,hlt⟩
    obtain ⟨r,hr⟩ := Digits.starts_of_between hle hlt
    rw [constructDataKey,constructRangeScan] at hr
    simp only [compositeKeySep,append_assoc,cons_append,nil_append] at hr
    obtain ⟨rfl,hre⟩ := split_at_sep hns' hns hr
    obtain ⟨hl,hke⟩ := Digits.ordered_append_inj hk' hk hre
    exact ⟨rfl,(append_inj hke hl).1⟩
  · rintro ⟨rfl,rfl⟩
    obtain ⟨c,cs,ho,hc⟩ := Digits.ordered_head hb
    rw [data_key_eq,ho,cons_append]
    refine Digits.between_of_starts _ ?_ _
    exact Nat.lt_of_le_of_lt hc (by decide)

theorem savepoint_out_of_range : ¬ (¬ savePointKey < (constructRangeScan ns key).startKey ∧
    savePointKey < (constructRangeScan ns key).endKey) := by
  rintro ⟨hle,hlt⟩
  obtain ⟨r,hr⟩ := Digits.starts_of_between hle hlt
  have hl := congrArg List.length hr
  simp only [constructRangeScan,compositeKeySep,savePointKey,length_append,length_cons,
    length_nil] at hl
  omega

theorem data_key_not_savepoint : constructDataKey ns key b t ≠ savePointKey := by
  intro h
  have hl := congrArg List.length h
  simp only [constructDataKey,compositeKeySep,savePointKey,length_append,length_cons,
    length_nil] at hl
  omega

def Earlier (h h' : Height) : Prop :=
  h.blockNum < h'.blockNum ∨ h.blockNum = h'.blockNum ∧ h.txNum < h'.txNum

def FitsWord (h : Height) : Prop := h.blockNum < 2 ^ 64 ∧ h.txNum < 2 ^ 64

theorem data_key_lt {h h' : Height} (hf : FitsWord h) (f' : FitsWord h') (hlt : Earlier h h') :
    constructDataKey ns key h.blockNum h.txNum < constructDataKey ns key h'.blockNum h'.txNum := by
  have htx := Digits.ordered_lt hf.2 f'.2 [] []
  rw [append_nil,append_nil] at htx
  refine append_left_lt ?_
  rw [Digits.ordered_lt hf.1 f'.1,htx]
  exact hlt.imp id fun hlt => ⟨hlt.1,.inl hlt.2⟩

theorem decode_data_key {h : Height} (hf : FitsWord h) :
    (constructRangeScan ns key).decodeBlockNumTranNum
      (constructDataKey ns key h.blockNum h.txNum) = some (h.blockNum,h.txNum) := by
  have hl := Digits.decode_ordered hf.2 []
  rw [append_nil] at hl
  rw [RangeScan.decodeBlockNumTranNum,data_key_eq,if_pos (by simp)]
  simp [Digits.decode_ordered hf.1,hl]

end

variable {ns key : Bytes} {x : Primitives} {btlPolicy : BTLPolicy}

theorem find_unique {α β : Type} [DecidableEq β] {f : α → β} {l : List α} {a : α}
    (hn : (l.map f).Nodup) (ha : a ∈ l) : (l.find? fun b => f b = f a) = some a := by
  induction l with
  | nil => cases ha
  | cons b l ih =>
    obtain ⟨hb,hl⟩ := nodup_cons.mp hn
    rcases mem_cons.mp ha with rfl | ha'
    · rw [List.find?_cons_of_pos (by simp)]
    have hne : f b ≠ f a := fun heq => hb (heq ▸ List.mem_map_of_mem ha')
    rw [List.find?_cons_of_neg (by simpa using hne)]
    exact ih hl ha'

theorem values_at_public (rt : TxRwSet) : rt.valuesAt (.pub ns) key =
    rt.nsRwSets.flatMap fun n => if n.nameSpace = ns then
      n.kvRwSet.writes.filterMap fun w => if w.key = key then some (w.isDelete,w.value) else none
    else [] := by
  rw [TxRwSet.valuesAt,TxRwSet.writes,TxRwSet.accesses,filterMap_flatMap]
  congr 1
  funext n
  have hh : (n.collHashedRwSets.flatMap fun c => (c.hashedRwSet.hashedWrites.map
      KVWriteHash.toWrite).map (Access.mk (.hashed n.nameSpace c.collectionName))).filterMap
      (fun a => if a.space = .pub ns ∧ a.item.key = key then some (a.item.isDelete,a.item.value)
        else none) = [] := by
    rw [filterMap_eq_nil_iff]
    intro a ha
    obtain ⟨c,_,ha⟩ := mem_flatMap.mp ha
    obtain ⟨w,_,rfl⟩ := List.mem_map.mp ha
    exact if_neg fun h => Space.noConfusion h.1
  rw [filterMap_append,hh,append_nil,filterMap_map]
  by_cases hns : n.nameSpace = ns
  · rw [if_pos hns]
    congr 1
    funext w
    simp [hns]
  rw [if_neg hns,filterMap_eq_nil_iff]
  intro w _
  exact if_neg fun h => hns (Space.pub.inj h.1)

theorem values_at_ne_nil {rt : TxRwSet} : rt.valuesAt (.pub ns) key ≠ [] ↔
    ∃ n ∈ rt.nsRwSets, n.nameSpace = ns ∧ ∃ w ∈ n.kvRwSet.writes, w.key = key := by
  rw [values_at_public,Ne,flatMap_eq_nil_iff]
  constructor
  · intro h
    by_contra hno
    refine h fun n hn => ?_
    split
    · rename_i hns
      rw [filterMap_eq_nil_iff]
      intro w hw
      exact if_neg fun hk => hno ⟨n,hn,hns,w,hw,hk⟩
    · rfl
  · rintro ⟨n,hn,rfl,w,hw,rfl⟩ h
    have hni := h n hn
    rw [if_pos rfl,filterMap_eq_nil_iff] at hni
    exact absurd (hni w hw) (by simp)

theorem head_filter_map {α β : Type} (l : List α) (p : α → Prop) [DecidablePred p] (f : α → β) :
    (l.filterMap fun a => if p a then some (f a) else none).head? = (l.find? fun a => p a).map f := by
  induction l with
  | nil => rfl
  | cons a l ih =>
    by_cases h : p a
    · simp [h]
    · simpa [h] using ih

theorem key_modification_exact {rt : TxRwSet} (hd : (rt.nsRwSets.map nameSpace).Nodup) :
    getKeyModificationFromTran rt ns key = (rt.valuesAt (.pub ns) key).head? := by
  rw [values_at_public,getKeyModificationFromTran]
  generalize rt.nsRwSets = sets at hd
  induction sets with
  | nil => rfl
  | cons n rest ih =>
    obtain ⟨hn,hr⟩ := nodup_cons.mp hd
    rw [flatMap_cons]
    by_cases hns : n.nameSpace = ns
    · have hni : (rest.flatMap fun n => if n.nameSpace = ns then n.kvRwSet.writes.filterMap fun w =>
          if w.key = key then some (w.isDelete,w.value) else none else []) = [] := by
        rw [flatMap_eq_nil_iff]
        intro n' hn'
        refine if_neg fun hns' => hn ?_
        rw [hns,← hns']
        exact List.mem_map_of_mem hn'
      rw [hni,append_nil,if_pos hns,List.find?_cons_of_pos (by simpa using hns),bind_some]
      exact (head_filter_map _ _ _).symm
    · rw [if_neg hns,nil_append,List.find?_cons_of_neg (by simpa using hns)]
      exact ih hr

section

theorem committed_append (bs : List (Block × List TxValidationCode))
    (b : Block × List TxValidationCode) (m m' : LockBasedTxMgr) :
    committed ⟨bs ++ [b],m⟩ = committed ⟨bs,m'⟩ ++ committed ⟨[b],m⟩ :=
  flatMap_append

/-- Blocks are numbered one after the other, and so are their transactions. -/
structure Numbered (l : Ledger) : Prop where
  nums : ∀ i (b : Block × List TxValidationCode), l.blocks[i]? = some b → b.1.num = i
  below : ∀ c ∈ l.committed, c.1.blockNum < l.blocks.length
  increasing : l.committed.Pairwise fun a b => Earlier a.1 b.1

theorem pairwise_zip {α β : Type} {R : α → α → Prop} {l : List α} (h : l.Pairwise R) (m : List β) :
    (l.zip m).Pairwise fun a b => R a.1 b.1 := by
  induction l generalizing m with
  | nil => exact .nil
  | cons a l ih =>
    obtain ⟨ha,hl⟩ := pairwise_cons.mp h
    cases m with
    | nil => exact .nil
    | cons b m => exact .cons (fun e he => ha e.1 (of_mem_zip he).1) (ih hl m)

theorem block_increasing (bl : Block) (cs : List TxValidationCode) (m : LockBasedTxMgr) :
    (committed ⟨[(bl,cs)],m⟩).Pairwise fun a b => Earlier a.1 b.1 := by
  rw [committed,flatMap_singleton,pairwise_filterMap]
  refine (pairwise_zip (pairwise_map.mp bl.indexed) cs).imp ?_
  intro a b hlt c hc d hd
  split at hc
  · split at hd
    · cases hc
      cases hd
      exact .inr ⟨rfl,hlt⟩
    · cases hd
  · cases hc

variable {l : Ledger}

theorem Numbered.next {l' : Ledger} (hu : Numbered l)
    (h : l.next x btlPolicy e = some l') : Numbered l' := by
  cases next_step h with
  | reconcile => exact ⟨hu.nums,hu.below,hu.increasing⟩
  | @commit bl _ _ _ cs _ next pr =>
    have hbe : ∀ c ∈ committed ⟨[(preprocessProtoBlock x bl,cs)],l.txmgr⟩,
        c.1.blockNum = l.blocks.length := by
      rintro ⟨ve,rt⟩ hc
      obtain ⟨b,hb,tx,_,rfl,_⟩ := mem_committed.mp hc
      obtain rfl := mem_singleton.mp hb
      exact next
    refine ⟨?_,?_,?_⟩
    · intro i b hb
      rw [List.getElem?_append] at hb
      split at hb
      · exact hu.nums i b hb
      rw [List.getElem?_singleton] at hb
      split at hb
      · cases hb
        exact next.trans (by omega)
      · cases hb
    · intro c hc
      rw [length_append]
      rw [committed_append _ _ _ l.txmgr] at hc
      rcases mem_append.mp hc with ho | hn
      · exact Nat.lt_succ_of_lt (hu.below c ho)
      · exact (hbe c hn).trans_lt (Nat.lt_succ_self _)
    · rw [committed_append _ _ _ l.txmgr]
      refine pairwise_append.mpr ⟨hu.increasing,block_increasing _ _ _,?_⟩
      intro a ha b hb
      exact .inl ((hbe b hb).symm ▸ hu.below a ha)

theorem Numbered.retrieve (hu : Numbered l) (hc : c ∈ l.committed) :
    retrieveTxByBlockNumTranNum l.blocks c.1.blockNum c.1.txNum = some c.2 := by
  obtain ⟨b,hb,tx,htx,hv,hr⟩ := mem_committed.mp hc
  obtain ⟨i,hi⟩ := List.getElem?_of_mem hb
  have hn : (b.1.txs.map Transaction.indexInBlock).Nodup := b.1.indexed.imp Nat.ne_of_lt
  rw [hv,hr,retrieveTxByBlockNumTranNum,hu.nums i b hi,hi,bind_some,
    find_unique hn (of_mem_zip htx).1]
  rfl

end

theorem get_inserts {ks : List Bytes} {db : HistoryDb} :
    (ks.foldl (fun db k => Table.insert db k emptyValue) db).get k =
      if k ∈ ks then some emptyValue else db.get k := by
  induction ks generalizing db with
  | nil => rfl
  | cons k' ks ih =>
    rw [foldl_cons,ih,Table.get_insert]
    by_cases hks : k ∈ ks
    · rw [if_pos hks,if_pos (mem_cons_of_mem _ hks)]
    rw [if_neg hks]
    by_cases hk : k = k'
    · rw [if_pos hk,if_pos (hk ▸ mem_cons_self)]
    · rw [if_neg hk,if_neg fun hm => (mem_cons.mp hm).elim hk hks]

def IsRecord (k : Bytes) (c : Height × TxRwSet) : Prop :=
  ∃ n ∈ c.2.nsRwSets, ∃ w ∈ n.kvRwSet.writes,
    k = constructDataKey n.nameSpace w.key c.1.blockNum c.1.txNum

theorem mem_data_keys {bl : Block} {cs : List TxValidationCode} (m : LockBasedTxMgr) :
    k ∈ HistoryDb.dataKeys bl cs ↔ ∃ c ∈ committed ⟨[(bl,cs)],m⟩, IsRecord k c := by
  constructor
  · intro h
    obtain ⟨⟨tx,co⟩,htx,h⟩ := mem_flatMap.mp h
    split at h
    · rename_i hv
      obtain rfl : co = .valid := hv
      obtain ⟨n,hn,h⟩ := mem_flatMap.mp h
      obtain ⟨w,hw,rfl⟩ := List.mem_map.mp h
      exact ⟨_,mem_committed.mpr ⟨_,mem_singleton_self _,tx,htx,rfl,rfl⟩,n,hn,w,hw,rfl⟩
    · cases h
  · rintro ⟨⟨ve,rt⟩,hc,n,hn,w,hw,rfl⟩
    obtain ⟨b,hb,tx,htx,rfl,rfl⟩ := mem_committed.mp hc
    obtain rfl := mem_singleton.mp hb
    refine mem_flatMap.mpr ⟨_,htx,?_⟩
    exact mem_flatMap.mpr ⟨n,hn,List.mem_map.mpr ⟨w,hw,rfl⟩⟩

def HistoryLedger.Recorded (h : HistoryLedger) : Prop :=
  ∀ k, k ≠ savePointKey → ∀ v, h.history.get k = some v ↔
    v = emptyValue ∧ ∃ c ∈ h.ledger.committed, IsRecord k c

theorem HistoryLedger.Recorded.next {h h' : HistoryLedger} (hr : h.Recorded)
    (hn : h.next x btlPolicy e = some h') : h'.Recorded := by
  obtain ⟨l,hl,rfl⟩ := map_eq_some_iff.mp hn
  cases next_step hl with
  | reconcile => exact hr
  | @commit bl _ _ _ cs _ next pr =>
    intro k hk v
    dsimp only
    rw [List.getLast?_append,List.getLast?_singleton,some_or,elim_some,
      HistoryDb.commit,Table.get_insert,if_neg hk,get_inserts,committed_append _ _ _ h.ledger.txmgr]
    simp only [mem_append,or_and_right,exists_or]
    rw [← mem_data_keys]
    by_cases hm : k ∈ HistoryDb.dataKeys (preprocessProtoBlock x bl) cs
    · simp [hm,eq_comm]
    · rw [if_neg hm,hr k hk v]
      simp [hm]

def modifications (cs : List (Height × TxRwSet)) (ns key : Bytes) : List KeyModification :=
  cs.filterMap fun c => (c.2.valuesAt (.pub ns) key).head?.map fun w => ⟨c.1,w.2,w.1⟩

theorem modifications_append (cs c' : List (Height × TxRwSet)) :
    modifications (cs ++ c') ns key = modifications cs ns key ++ modifications c' ns key :=
  filterMap_append

def KeyModification.current (m : KeyModification) : Option Bytes :=
  if m.isDelete then none else some m.value

def currentAfter (before : Option Bytes) (ms : List KeyModification) : Option Bytes :=
  ms.getLast?.elim before KeyModification.current

theorem current_after_append (be : Option Bytes) (ms ms' : List KeyModification) :
    currentAfter be (ms ++ ms') = currentAfter (currentAfter be ms) ms' := by
  rw [currentAfter,currentAfter,currentAfter,List.getLast?_append]
  cases ms'.getLast? <;> rfl

theorem apply_value (rt : TxRwSet) (ve : Height) (se : State) :
    (rt.apply ve se (.pub ns) key).map VersionedValue.value =
      currentAfter ((se (.pub ns) key).map VersionedValue.value)
        (modifications [(ve,rt)] ns key) := by
  rw [TxRwSet.apply,modifications,filterMap_cons,filterMap_nil]
  rcases (rt.valuesAt (.pub ns) key).head? with _ | ⟨_ | _,va⟩ <;>
    rcases (rt.metadataAt (.pub ns) key).head? with _ | entries <;>
    simp [writeTo,currentAfter,KeyModification.current,Function.comp_def]

theorem state_after_value (bl : Block) (cs : List TxValidationCode) (se : State)
    (m : LockBasedTxMgr) :
    (stateAfter bl.num se (bl.txs.zip cs) (.pub ns) key).map VersionedValue.value =
      currentAfter ((se (.pub ns) key).map VersionedValue.value)
        (modifications (committed ⟨[(bl,cs)],m⟩) ns key) := by
  rw [committed,flatMap_singleton]
  induction bl.txs.zip cs generalizing se with
  | nil => rfl
  | cons e ts ih =>
    rw [stateAfter,foldl_cons,filterMap_cons]
    refine (ih _).trans ?_
    by_cases hv : e.2 = .valid
    · rw [if_pos hv,if_pos hv,apply_value,← current_after_append,← modifications_append]
      rfl
    · rw [if_neg hv,if_neg hv]

theorem commit_public {m : LockBasedTxMgr} {u : UpdateBatch} (ha : u.Apart) (nu : Nat) :
    (m.commit x btlPolicy nu u).db.state (.pub ns) key =
      u.pubAndHashUpdates.apply m.db.state (.pub ns) key := by
  have hk : (Space.pub ns).collKey key = none := rfl
  rw [LockBasedTxMgr.commit]
  rw [(ha.expired _).state,if_pos hk,Batch.apply,Batch.apply,add_expired_other _ _ rfl]

@[mk_iff]
structure Plain (rwset : TxRwSet) : Prop where
  once : rwset.WritesOnce
  named : rwset.CollectionsNamed
  separable : ∀ n ∈ rwset.nsRwSets, 0 ∉ n.nameSpace

instance : Decidable (Plain rwset) := decidable_of_iff' _ (plain_iff rwset)

def Latest (l : Ledger) : Prop :=
  (∀ c ∈ l.committed, Plain c.2) → ∀ ns key,
    (l.txmgr.db.state (.pub ns) key).map VersionedValue.value =
      currentAfter none (modifications l.committed ns key)

theorem Latest.next {l' : Ledger} (hl : Latest l) (h : l.next x btlPolicy e = some l') :
    Latest l' := by
  cases next_step h with
  | reconcile re =>
    intro pl ns key
    obtain ⟨ws,pu,_,hf,_,hdb⟩ := reconcile_ok re
    rw [hdb,hf.other_state rfl]
    exact hl pl ns key
  | @commit bl _ _ _ cs u next pr =>
    intro pl ns key
    rw [committed_append _ _ _ l.txmgr] at pl
    have ho := hl (fun c hc => pl c (mem_append_left _ hc)) ns key
    have hva : ∀ p ∈ (preprocessProtoBlock x bl).txs.zip cs, p.2 = .valid → Plain p.1.rwset := by
      rintro ⟨tx,co⟩ hp rfl
      exact pl _ (mem_append_right _
        (mem_committed.mpr ⟨_,mem_singleton_self _,tx,hp,rfl,rfl⟩))
    obtain ⟨t,hvi⟩ := prepare_batch_validated (preparer_ok pr).1
    obtain ⟨_,hst⟩ := hvi.valid_state (fun p hp hv => (hva p hp hv).named.writes)
      (fun p hp hv => (hva p hp hv).once) (fun s k vv hg => nomatch hg)
    rw [commit_public (preparer_prepared pr).apart,hst,state_after_value,
      committed_append _ _ _ l.txmgr,modifications_append,current_after_append]
    exact congrArg (currentAfter · _) ho

theorem map_m_filter_map {α β γ : Type} {l : List α} {a : α → β} {f : β → Option γ}
    {g : α → Option γ}
    (h : ∀ c ∈ l, f (a c) = g c ∧ g c ≠ none) : (l.map a).mapM f = some (l.filterMap g) := by
  induction l with
  | nil => rfl
  | cons c l ih =>
    obtain ⟨⟨hc,hs⟩,hl⟩ := forall_mem_cons.mp h
    obtain ⟨b,hb⟩ := ne_none_iff_exists'.mp hs
    rw [map_cons,mapM_cons,hc,hb,ih hl,filterMap_cons,hb]
    rfl

structure Sized (l : Ledger) : Prop where
  heights : ∀ c ∈ l.committed, FitsWord c.1
  keys : ∀ c ∈ l.committed, ∀ n ∈ c.2.nsRwSets, ∀ w ∈ n.kvRwSet.writes, w.key.length < 2 ^ 64

def writers (l : Ledger) (ns key : Bytes) : List (Height × TxRwSet) :=
  l.committed.filter fun c => c.2.valuesAt (.pub ns) key ≠ []

theorem mem_writers : c ∈ writers l ns key ↔ c ∈ l.committed ∧ c.2.valuesAt (.pub ns) key ≠ [] := by
  rw [writers,mem_filter,decide_eq_true_iff]

theorem modifications_writers (l : Ledger) :
    modifications (writers l ns key) ns key = modifications l.committed ns key := by
  rw [modifications,modifications,writers,filterMap_filter]
  congr 1
  funext c
  by_cases h : c.2.valuesAt (.pub ns) key = []
  · simp [h]
  · simp [h]

section
variable {h : HistoryLedger} (nu : Numbered h.ledger) (re : h.Recorded)
  (pl : ∀ c ∈ h.ledger.committed, Plain c.2) (si : Sized h.ledger)
include nu re pl si

theorem found_records (hns : 0 ∉ ns) (hke : key.length < 2 ^ 64) :
    (h.history.entries.filter fun e => ¬ e.1 < (constructRangeScan ns key).startKey ∧
      e.1 < (constructRangeScan ns key).endKey) =
    (writers h.ledger ns key).map fun c =>
      (constructDataKey ns key c.1.blockNum c.1.txNum,emptyValue) := by
  refine Tables.ordered_ext (h.history.ordered.filter _) ?_ ?_
  · rw [Ordered,pairwise_map]
    refine (nu.increasing.filter _).imp_of_mem ?_
    intro a b ha hb hlt
    exact data_key_lt (si.heights a (mem_writers.mp ha).1) (si.heights b (mem_writers.mp hb).1) hlt
  rintro ⟨k,v⟩
  rw [mem_filter,decide_eq_true_iff,← Table.get_eq_some,List.mem_map]
  constructor
  · rintro ⟨hg,hr⟩
    have hk : k ≠ savePointKey := by
      rintro rfl
      exact savepoint_out_of_range hr
    obtain ⟨rfl,c,hc,n,hn,w,hw,rfl⟩ := (re k hk v).mp hg
    obtain ⟨rfl,rfl⟩ := (range_scan_exact hns ((pl c hc).separable n hn) hke
      (si.keys c hc n hn w hw) (si.heights c hc).1).mp hr
    exact ⟨c,mem_writers.mpr ⟨hc,values_at_ne_nil.mpr ⟨n,hn,rfl,w,hw,rfl⟩⟩,rfl⟩
  · rintro ⟨c,hc,heq⟩
    cases heq
    obtain ⟨hco,hvs⟩ := mem_writers.mp hc
    obtain ⟨n,hn,rfl,w,hw,rfl⟩ := values_at_ne_nil.mp hvs
    exact ⟨(re _ data_key_not_savepoint _).mpr ⟨rfl,c,hco,n,hn,w,hw,rfl⟩,
      (range_scan_exact hns hns hke hke (si.heights c hco).1).mpr ⟨rfl,rfl⟩⟩

theorem history_exact (hd : ∀ c ∈ h.ledger.committed, (c.2.nsRwSets.map nameSpace).Nodup)
    (hns : 0 ∉ ns) (hk : key.length < 2 ^ 64) :
    getHistoryForKey h.history h.ledger.blocks ns key =
      some (modifications h.ledger.committed ns key).reverse := by
  rw [getHistoryForKey]
  rw [found_records nu re pl si hns hk,← map_reverse,
    ← modifications_writers,modifications,← filterMap_reverse]
  refine map_m_filter_map fun c hc => ?_
  obtain ⟨hc,hvs⟩ := mem_writers.mp (mem_reverse.mp hc)
  obtain ⟨w,hw⟩ : ∃ w, (c.2.valuesAt (.pub ns) key).head? = some w :=
    ne_none_iff_exists'.mp fun hn => hvs (List.head?_eq_none_iff.mp hn)
  rw [decode_data_key (si.heights c hc)]
  dsimp only [bind_eq_bind,bind_some]
  rw [nu.retrieve hc,bind_some,key_modification_exact (hd c hc),hw]
  exact ⟨rfl,some_ne_none _⟩

end

theorem modifications_decreasing (hn : Numbered l) :
    (modifications l.committed ns key).reverse.Pairwise fun a b => Earlier b.height a.height := by
  rw [pairwise_reverse,modifications,pairwise_filterMap]
  refine hn.increasing.imp ?_
  intro a b hlt c hc d hd
  obtain ⟨_,_,rfl⟩ := map_eq_some_iff.mp hc
  obtain ⟨_,_,rfl⟩ := map_eq_some_iff.mp hd
  exact hlt

theorem mem_modifications {cs : List (Height × TxRwSet)} (hp : ∀ c ∈ cs, Plain c.2) :
    m ∈ modifications cs ns key ↔
      ∃ rt, (m.height,rt) ∈ cs ∧ rt.valuesAt (.pub ns) key = [(m.isDelete,m.value)] := by
  rw [modifications,mem_filterMap]
  constructor
  · rintro ⟨c,hc,h⟩
    obtain ⟨w,hw,rfl⟩ := map_eq_some_iff.mp h
    refine ⟨c.2,hc,?_⟩
    rw [(hp c hc).once.values_at,hw]
    rfl
  · rintro ⟨rt,hc,h⟩
    refine ⟨_,hc,?_⟩
    rw [h]
    rfl

/-- If write sets write a key once, name their collections and have namespaces that can be told
apart, the history of a key is its writes from the newest on, and the newest is its state. -/
theorem history_agrees_with_state
    (run : Run (fun h e h' => h.next x btlPolicy e = some h') (HistoryLedger.initial bulkOptimizable)
      es h)
    (distinct : ∀ c ∈ h.ledger.committed, (c.2.nsRwSets.map nameSpace).Nodup)
    (sized : Sized h.ledger) (plain : ∀ c ∈ h.ledger.committed, Plain c.2) (hns : 0 ∉ ns)
    (hkey : key.length < 2 ^ 64) :
    ∃ mods, getHistoryForKey h.history h.ledger.blocks ns key = some mods ∧
      (∀ m, m ∈ mods ↔ ∃ rwset, (m.height,rwset) ∈ h.ledger.committed ∧
        rwset.valuesAt (.pub ns) key = [(m.isDelete,m.value)]) ∧
      (∀ c ∈ h.ledger.committed, (c.2.valuesAt (.pub ns) key).length ≤ 1) ∧
      mods.Pairwise (fun a b => Earlier b.height a.height) ∧
      (h.ledger.txmgr.db.state (.pub ns) key).map VersionedValue.value =
        mods.head?.bind KeyModification.current := by
  have hi : Numbered h.ledger ∧ h.Recorded ∧ Latest h.ledger := by
    refine (run.invariant (I := fun h => Numbered h.ledger ∧ h.Recorded ∧ Latest h.ledger) ?_ ?_).1
    · rintro s e t ⟨nu,re,la⟩ hn
      obtain ⟨l,hl,rfl⟩ := map_eq_some_iff.mp hn
      exact ⟨nu.next hl,re.next hn,la.next hl⟩
    refine ⟨⟨?_,?_,.nil⟩,?_,fun _ _ _ => rfl⟩
    · intro i b h
      cases h
    · intro c h
      cases h
    intro k _ v
    constructor
    · intro h
      cases h
    · rintro ⟨_,c,h,_⟩
      cases h
  obtain ⟨nu,re,la⟩ := hi
  refine ⟨_,history_exact nu re plain sized distinct hns hkey,?_,?_,modifications_decreasing nu,?_⟩
  · intro m
    rw [mem_reverse,mem_modifications plain]
  · intro c hc
    rw [(plain c hc).once.values_at]
    exact length_toList_le
  · rw [la plain,List.head?_reverse,currentAfter]
    cases (modifications h.ledger.committed ns key).getLast? <;> rfl

def historyRwSet (writes : List KVWrite) : TxRwSet := ⟨[⟨[97],⟨[],[],writes,[]⟩,[]⟩]⟩

def historyEvents : List LedgerEvent :=
  [.commit ⟨0,[some (historyRwSet [⟨[1],false,[5]⟩]),some (historyRwSet [⟨[2],false,[6]⟩])]⟩
    (fun _ => none) true,
   .commit ⟨1,[some (historyRwSet [⟨[1],false,[7]⟩]),some (historyRwSet [⟨[1],true,[]⟩])]⟩
    (fun _ => none) true]

def historyTrace : Option (HistoryLedger × List (Transition HistoryLedger LedgerEvent)) :=
  trace (fun h e => h.next samplePrimitives sampleBtl e) (HistoryLedger.initial false) historyEvents

theorem sample_history : ∃ out, historyTrace = some out ∧
    getHistoryForKey out.1.history out.1.ledger.blocks [97] [1] =
      some [⟨⟨1,1⟩,[],true⟩,⟨⟨1,0⟩,[7],false⟩,⟨⟨0,0⟩,[5],false⟩] ∧
    (out.1.ledger.txmgr.db.state (.pub [97]) [1]).map VersionedValue.value = none := by
  have hd : ∀ c ∈ (historyTrace.get rfl).1.ledger.committed,
      (c.2.nsRwSets.map nameSpace).Nodup := by decide
  have hh : ∀ c ∈ (historyTrace.get rfl).1.ledger.committed,
      c.1.blockNum < 2 ^ 64 ∧ c.1.txNum < 2 ^ 64 := by decide
  have hk : ∀ c ∈ (historyTrace.get rfl).1.ledger.committed, ∀ n ∈ c.2.nsRwSets,
      ∀ w ∈ n.kvRwSet.writes, w.key.length < 2 ^ 64 := by decide
  have hp : ∀ c ∈ (historyTrace.get rfl).1.ledger.committed, Plain c.2 := by decide
  have hs : getHistoryForKey (historyTrace.get rfl).1.history
      (historyTrace.get rfl).1.ledger.blocks [97] [1] =
      some [⟨⟨1,1⟩,[],true⟩,⟨⟨1,0⟩,[7],false⟩,⟨⟨0,0⟩,[5],false⟩] := by decide
  obtain ⟨ms,hm,_,_,_,hst⟩ := history_agrees_with_state (trace_get_run rfl) hd
    ⟨hh,hk⟩ hp (show 0 ∉ ([97] : Bytes) by decide)
    (show ([1] : Bytes).length < 2 ^ 64 by decide)
  refine ⟨historyTrace.get rfl,(some_get rfl).symm,hs,hst.trans ?_⟩
  rw [← Option.some.inj (hs.symm.trans hm)]
  rfl

/-- The second transaction writes the key twice. -/
def repeatedEvents : List LedgerEvent :=
  [.commit ⟨0,[some (historyRwSet [⟨[1],false,[5]⟩])]⟩ (fun _ => none) true,
   .commit ⟨1,[some (historyRwSet [⟨[1],false,[6]⟩,⟨[1],false,[7]⟩])]⟩ (fun _ => none) true]

def repeatedTrace : Option (HistoryLedger × List (Transition HistoryLedger LedgerEvent)) :=
  trace (fun h e => h.next samplePrimitives sampleBtl e) (HistoryLedger.initial false) repeatedEvents

/-- The history has the first of two writes, and the state has neither. -/
theorem repeated_write_history : ∃ out, repeatedTrace = some out ∧
    (∀ c ∈ out.1.ledger.committed, (c.2.nsRwSets.map nameSpace).Nodup) ∧
    getHistoryForKey out.1.history out.1.ledger.blocks [97] [1] =
      some [⟨⟨1,0⟩,[6],false⟩,⟨⟨0,0⟩,[5],false⟩] ∧
    (out.1.ledger.txmgr.db.state (.pub [97]) [1]).map VersionedValue.value = some [5] :=
  ⟨repeatedTrace.get rfl,(some_get rfl).symm,by decide,by decide,rfl⟩

end PluggableHcs.Kvledger
