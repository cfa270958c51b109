import Mathlib.Algebra.Group.Nat.Defs
import PluggableHcs.Txmgmt.BatchPreparer

namespace PluggableHcs.Txmgmt
open Tables List Option Table

def maxUint64 : Nat := 2 ^ 64 - 1

/-- The blocks to live that are configured for each collection. -/
structure BTLPolicy where
  blockToLive : Bytes → Bytes → UInt64

namespace BTLPolicy

/-- Without blocks to live the data live for good. -/
def getBTL (p : BTLPolicy) (ns coll : Bytes) : Nat :=
  if 0 < (p.blockToLive ns coll).toNat then (p.blockToLive ns coll).toNat else maxUint64

def getExpiringBlock (p : BTLPolicy) (ns coll : Bytes) (committingBlock : Nat) : Nat :=
  let expiryBlk := (committingBlock + p.getBTL ns coll + 1) % 2 ^ 64
  if expiryBlk ≤ committingBlock then maxUint64 else expiryBlk

theorem get_btl_le (p : BTLPolicy) (ns co : Bytes) : p.getBTL ns co ≤ maxUint64 := by
  unfold getBTL maxUint64
  have := (p.blockToLive ns co).toNat_lt
  split <;> omega

theorem get_expiring_block (p : BTLPolicy) (ns co : Bytes) (h : b < 2 ^ 64) :
    p.getExpiringBlock ns co b = min (b + p.getBTL ns co + 1) maxUint64 := by
  have hle := p.get_btl_le ns co
  unfold getExpiringBlock
  unfold maxUint64 at hle ⊢
  dsimp only
  split <;> omega

end BTLPolicy

structure HashedCompositeKey where
  ns : Bytes
  coll : Bytes
  keyHash : Bytes
deriving DecidableEq

def HashedCompositeKey.space (k : HashedCompositeKey) : Space := .hashed k.ns k.coll

def Space.hashedKey (s : Space) (keyHash : Bytes) : Option HashedCompositeKey :=
  match s with
  | .hashed ns coll => some ⟨ns,coll,keyHash⟩
  | .pub _ | .pvt _ _ => none

theorem hashed_key_iff {k : HashedCompositeKey} :
    s.hashedKey key = some k ↔ k.space = s ∧ k.keyHash = key := by
  obtain ⟨ns,co,k'⟩ := k
  cases s <;> simp [Space.hashedKey,HashedCompositeKey.space,eq_comm,and_assoc]

def CollKey.hashed (x : Primitives) (k : CollKey) : HashedCompositeKey :=
  ⟨k.ns,k.coll,x.computeHash k.key⟩

def Batch.toCompositeKeyMap (b : Batch) : List (Space × Bytes × VersionedValue) :=
  b.entries.flatMap fun e => e.2.entries.map fun u => (e.1,u.1,u.2)

theorem mem_composite_key_map {b : Batch} :
    (s,k,vv) ∈ b.toCompositeKeyMap ↔ b.get s k = some vv := by
  unfold Batch.toCompositeKeyMap Batch.get Batch.updates
  simp only [mem_flatMap,List.mem_map,Prod.mk.injEq]
  constructor
  · rintro ⟨e,he,u,hu,rfl,rfl,rfl⟩
    rw [AList.mem_lookup_iff.mpr he,getD_some]
    exact get_eq_some.mpr hu
  · intro h
    cases hl : b.lookup s with
    | none =>
      rw [hl,getD_none,get_empty] at h
      cases h
    | some ta =>
      rw [hl,getD_some] at h
      exact ⟨⟨s,ta⟩,AList.mem_lookup_iff.mp hl,(k,vv),get_eq_some.mp h,rfl,rfl,rfl⟩

def Batch.pvtKeys (b : Batch) : List (CollKey × VersionedValue) :=
  b.toCompositeKeyMap.filterMap fun e => (e.1.collKey e.2.1).map (·,e.2.2)

def Batch.hashedKeys (b : Batch) : List (HashedCompositeKey × VersionedValue) :=
  b.toCompositeKeyMap.filterMap fun e => (e.1.hashedKey e.2.1).map (·,e.2.2)

theorem mem_pvt_keys {b : Batch} {k : CollKey} :
    (k,vv) ∈ b.pvtKeys ↔ b.get k.space k.key = some vv := by
  rw [Batch.pvtKeys,mem_filterMap,← mem_composite_key_map]
  constructor
  · rintro ⟨⟨s,ke,v'⟩,hm,heq⟩
    obtain ⟨k',hk',heq⟩ := map_eq_some_iff.mp heq
    obtain ⟨rfl,rfl⟩ := Prod.mk.inj heq
    obtain ⟨rfl,rfl⟩ := coll_key_iff.mp hk'
    exact hm
  · intro hm
    refine ⟨_,hm,?_⟩
    rfl

theorem mem_hashed_keys {b : Batch} {k : HashedCompositeKey} :
    (k,vv) ∈ b.hashedKeys ↔ b.get k.space k.keyHash = some vv := by
  rw [Batch.hashedKeys,mem_filterMap,← mem_composite_key_map]
  constructor
  · rintro ⟨⟨s,ke,v'⟩,hm,heq⟩
    obtain ⟨k',hk',heq⟩ := map_eq_some_iff.mp heq
    obtain ⟨rfl,rfl⟩ := Prod.mk.inj heq
    obtain ⟨rfl,rfl⟩ := hashed_key_iff.mp hk'
    exact hm
  · intro hm
    exact ⟨_,hm,rfl⟩

/-- A key and its hash in the schedule. The key is empty where only the hash is known. -/
structure PvtdataKey where
  ns : Bytes
  coll : Bytes
  key : Bytes
  hash : Bytes
deriving DecidableEq

def PvtdataKey.hashed (p : PvtdataKey) : HashedCompositeKey := ⟨p.ns,p.coll,p.hash⟩

structure ExpiryInfoKey where
  committingBlk : Nat
  expiryBlk : Nat
deriving DecidableEq

section
variable (x : Primitives) (btlPolicy : BTLPolicy)

abbrev ScheduleEntries := AList fun _ : ExpiryInfoKey => List PvtdataKey

def expiryInfoKey (p : PvtdataKey) (vv : VersionedValue) : Option ExpiryInfoKey :=
  let committingBlk := vv.version.blockNum
  let expiryBlk := btlPolicy.getExpiringBlock p.ns p.coll committingBlk
  if vv.isDelete || decide (expiryBlk = maxUint64) then none else some ⟨committingBlk,expiryBlk⟩

def ScheduleEntries.add (entries : ScheduleEntries) (u : PvtdataKey × VersionedValue) :
    ScheduleEntries :=
  match expiryInfoKey btlPolicy u.1 u.2 with
  | none => entries
  | some k => entries.insert k ((entries.lookup k).getD [] ++ [u.1])

def expiryScheduleOf (us : List (PvtdataKey × VersionedValue)) : ScheduleEntries :=
  us.foldl (ScheduleEntries.add btlPolicy) ∅

def pvtScheduled (pvtUpdates : Batch) : List (PvtdataKey × VersionedValue) :=
  pvtUpdates.pvtKeys.map fun u => (⟨u.1.ns,u.1.coll,u.1.key,x.computeHash u.1.key⟩,u.2)

/-- The hashes of the private keys are left out of those that are added on their own. -/
def hashScheduled (pvtUpdates hashedUpdates : Batch) : List (PvtdataKey × VersionedValue) :=
  (hashedUpdates.hashedKeys.filter fun u =>
    decide (u.1 ∉ pvtUpdates.pvtKeys.map fun p => p.1.hashed x)).map
      fun u => (⟨u.1.ns,u.1.coll,[],u.1.keyHash⟩,u.2)

def buildExpirySchedule (pvtUpdates hashedUpdates : Batch) : ScheduleEntries :=
  expiryScheduleOf btlPolicy (pvtScheduled x pvtUpdates ++ hashScheduled x pvtUpdates hashedUpdates)

end

/-- The schedule by the block of the expiry and then by that of the commit. -/
abbrev ExpiryKeeper := Table Nat (Table Nat (List PvtdataKey))

namespace ExpiryKeeper

variable (ek : ExpiryKeeper)

def put (e : (_ : ExpiryInfoKey) × List PvtdataKey) : ExpiryKeeper :=
  insert ek e.1.expiryBlk
    (((get ek e.1.expiryBlk).getD .empty).insert e.1.committingBlk e.2)

def clear (k : ExpiryInfoKey) : ExpiryKeeper :=
  insert ek k.expiryBlk
    (((get ek k.expiryBlk).getD .empty).filter fun e => e.1 != k.committingBlk)

def update (toTrack : ScheduleEntries) (toClear : List ExpiryInfoKey) : ExpiryKeeper :=
  toClear.foldl clear (toTrack.entries.foldl put ek)

def retrieve (expiringAtBlk : Nat) : List (Nat × List PvtdataKey) :=
  ((get ek expiringAtBlk).getD .empty).entries

def retrieveByExpiryKey (k : ExpiryInfoKey) : Option (List PvtdataKey) :=
  (get ek k.expiryBlk).bind fun t => t.get k.committingBlk

end ExpiryKeeper

structure KeyAndVersion where
  key : Bytes
  committingBlock : Nat
  purgeKeyOnly : Bool
deriving DecidableEq

structure Workingset where
  toPurge : AList fun _ : HashedCompositeKey => KeyAndVersion
  toClearFromSchedule : List ExpiryInfoKey
  expiringBlk : Nat

section
variable (x : Primitives) (btlPolicy : BTLPolicy)

/-- The last entry of a hash stays. -/
def transformToExpiryInfoMap (infos : List (Nat × List PvtdataKey)) :
    AList fun _ : HashedCompositeKey => KeyAndVersion :=
  (infos.flatMap fun i => i.2.map (i.1,·)).foldl
    (fun m e => m.insert e.2.hashed ⟨e.2.key,e.1,false⟩) ∅

def sameVersion (vv : Option VersionedValue) (blockNum : Nat) : Bool :=
  vv.any fun vv => vv.version.blockNum == blockNum

/-- Whether a key that is due is still as it was committed, or its private value at least. -/
def evaluateEntry (db : Db) (k : HashedCompositeKey) (kv : KeyAndVersion) : Option KeyAndVersion :=
  if sameVersion (db.state k.space k.keyHash) kv.committingBlock then some kv
  else if kv.key ≠ [] && sameVersion (db.state (.pvt k.ns k.coll) kv.key) kv.committingBlock then
    some { kv with purgeKeyOnly := true }
  else none

/-- The second half of prepareWorkingsetFor, in which the database is read. -/
def evaluateWorkingset (db : Db) (expiryInfo : List (Nat × List PvtdataKey)) (expiringAtBlk : Nat) :
    Workingset :=
  let toPurge := transformToExpiryInfoMap expiryInfo
  { toPurge := ⟨Maps.keep (evaluateEntry db) toPurge.entries,Maps.keep_keys.nodup toPurge.nodupKeys⟩
    toClearFromSchedule := toPurge.entries.map fun e => ⟨e.2.committingBlock,expiringAtBlk⟩
    expiringBlk := expiringAtBlk }

def prepareWorkingsetFor (db : Db) (ek : ExpiryKeeper) (expiringAtBlk : Nat) : Workingset :=
  evaluateWorkingset db (ek.retrieve expiringAtBlk) expiringAtBlk

def expireHash (ver : Height) (hashedUpdates : Batch)
    (e : (_ : HashedCompositeKey) × KeyAndVersion) :
    Batch :=
  if (hashedUpdates.get e.1.space e.1.keyHash).isNone && !e.2.purgeKeyOnly then
    hashedUpdates.delete e.1.space e.1.keyHash ver
  else hashedUpdates

def expireKey (ver : Height) (pvtUpdates : Batch) (e : (_ : HashedCompositeKey) × KeyAndVersion) :
    Batch :=
  if e.2.key ≠ [] && (pvtUpdates.get (.pvt e.1.ns e.1.coll) e.2.key).isNone then
    pvtUpdates.delete (.pvt e.1.ns e.1.coll) e.2.key ver
  else pvtUpdates

/-- What is due is deleted unless the block updates it. -/
def addExpiredEntriesToUpdateBatch (ws : Workingset) (u : UpdateBatch) : UpdateBatch :=
  let expiringTxVersion : Height := ⟨ws.expiringBlk,maxUint64⟩
  { pubAndHashUpdates := ws.toPurge.entries.foldl (expireHash expiringTxVersion) u.pubAndHashUpdates
    pvtUpdates := ws.toPurge.entries.foldl (expireKey expiringTxVersion) u.pvtUpdates }

def addMissingPvtData (toPurge : AList fun _ : HashedCompositeKey => KeyAndVersion) (k : CollKey) :
    AList fun _ : HashedCompositeKey => KeyAndVersion :=
  match toPurge.lookup (k.hashed x) with
  | none => toPurge
  | some kv =>
    if kv.purgeKeyOnly then toPurge.erase (k.hashed x)
    else toPurge.insert (k.hashed x) { kv with key := k.key }

def addMissingPvtDataToWorkingSet (ws : Workingset) (pvtKeys : List CollKey) : Workingset :=
  { ws with toPurge := pvtKeys.foldl (addMissingPvtData x) ws.toPurge }

/-- Entries of old blocks are appended to those that are there. Where there are none, the map of the
decoded record is nil. -/
def appendToSchedule (ek : ExpiryKeeper) :
    List ((_ : ExpiryInfoKey) × List PvtdataKey) → Except Failure ScheduleEntries
  | [] => .ok ∅
  | e :: rest =>
    match (ek.retrieveByExpiryKey e.1).getD [] with
    | [] => .error (.panic .nilMap)
    | keys => (appendToSchedule ek rest).map fun toTrack => toTrack.insert e.1 (keys ++ e.2)

def updateExpiryInfoOfPvtDataOfOldBlocks (ek : ExpiryKeeper) (ws : Option Workingset)
    (pvtUpdates : Batch) : Except Failure (ExpiryKeeper × Option Workingset) := do
  let toAdd := expiryScheduleOf btlPolicy (pvtScheduled x pvtUpdates)
  let toTrack ← appendToSchedule ek toAdd.entries
  let ws' := ws.map fun ws => addMissingPvtDataToWorkingSet x ws (pvtUpdates.pvtKeys.map Prod.fst)
  pure (ek.update toTrack [],ws')

end

variable {ve : Height} {b : Batch}

def Workingset.purgesHash (ws : Workingset) (k : HashedCompositeKey) : Bool :=
  (ws.toPurge.lookup k).any fun kv => !kv.purgeKeyOnly

def namesKey (s : Space) (key : Bytes) (e : (_ : HashedCompositeKey) × KeyAndVersion) : Bool :=
  decide (s.collKey key = some ⟨e.1.ns,e.1.coll,e.2.key⟩ ∧ e.2.key ≠ [])

def Workingset.purgesKey (ws : Workingset) (k : CollKey) : Bool :=
  ws.toPurge.entries.any (namesKey k.space k.key)

theorem expire_hash_get (e : (_ : HashedCompositeKey) × KeyAndVersion) (s : Space) (ke : Bytes) :
    (expireHash ve b e).get s ke = (b.get s ke).or
      (if s.hashedKey ke = some e.1 ∧ e.2.purgeKeyOnly = false then some ⟨[],[],ve⟩ else none) := by
  unfold expireHash
  by_cases hk : s.hashedKey ke = some e.1
  · obtain ⟨rfl,rfl⟩ := hashed_key_iff.mp hk
    cases hg : b.get e.1.space e.1.keyHash <;> cases ho : e.2.purgeKeyOnly <;>
      simp [Batch.delete,Batch.get_update,hg,hk]
  · have hne : ¬ (s = e.1.space ∧ ke = e.1.keyHash) := fun h =>
      hk (hashed_key_iff.mpr ⟨h.1.symm,h.2.symm⟩)
    have hn : ¬ (s.hashedKey ke = some e.1 ∧ e.2.purgeKeyOnly = false) := fun h => hk h.1
    rw [if_neg hn,or_none]
    split
    · rw [Batch.delete,Batch.get_update,if_neg hne]
    · rfl

theorem expire_hashes_get {l : List ((_ : HashedCompositeKey) × KeyAndVersion)} (hl : l.NodupKeys)
    (s : Space) (ke : Bytes) :
    (l.foldl (expireHash ve) b).get s ke = (b.get s ke).or
      (((s.hashedKey ke).bind fun k => l.dlookup k).bind fun kv =>
        if kv.purgeKeyOnly = false then some ⟨[],[],ve⟩ else none) := by
  induction l generalizing b with
  | nil =>
    cases s.hashedKey ke <;> simp
  | cons e l ih =>
    obtain ⟨he,hl⟩ := nodupKeys_cons.mp hl
    rw [foldl_cons,ih hl,expire_hash_get,Option.or_assoc]
    congr 1
    cases hke : s.hashedKey ke with
    | none => simp
    | some k =>
      by_cases hk : k = e.1
      · subst hk
        rw [bind_some,bind_some,dlookup_eq_none.mpr he,dlookup_cons_eq]
        simp
      · rw [bind_some,bind_some,dlookup_cons_ne _ _ hk]
        simp [hk]

theorem expire_key_get (e : (_ : HashedCompositeKey) × KeyAndVersion) (s : Space) (ke : Bytes) :
    (expireKey ve b e).get s ke =
      (b.get s ke).or (if namesKey s ke e then some ⟨[],[],ve⟩ else none) := by
  unfold expireKey namesKey
  by_cases hk : s.collKey ke = some ⟨e.1.ns,e.1.coll,e.2.key⟩
  · obtain ⟨rfl,rfl⟩ := coll_key_iff.mp hk
    unfold CollKey.space at hk ⊢
    by_cases he : e.2.key = []
    · simp [he]
    · cases hg : b.get (.pvt e.1.ns e.1.coll) e.2.key <;>
        simp [Batch.delete,Batch.get_update,hg,hk,he]
  · have hne : ¬ (s = .pvt e.1.ns e.1.coll ∧ ke = e.2.key) := fun h =>
      hk (coll_key_iff.mpr ⟨h.1.symm,h.2.symm⟩)
    have hn : ¬ (s.collKey ke = some ⟨e.1.ns,e.1.coll,e.2.key⟩ ∧ e.2.key ≠ []) := fun h =>
      hk h.1
    rw [decide_eq_false hn,if_neg Bool.false_ne_true,or_none]
    split
    · rw [Batch.delete,Batch.get_update,if_neg hne]
    · rfl

theorem expire_keys_get (l : List ((_ : HashedCompositeKey) × KeyAndVersion)) (s : Space)
    (ke : Bytes) :
    (l.foldl (expireKey ve) b).get s ke =
      (b.get s ke).or (if l.any (namesKey s ke) then some ⟨[],[],ve⟩ else none) := by
  induction l generalizing b with
  | nil => simp
  | cons e l ih =>
    rw [foldl_cons,ih,expire_key_get,Option.or_assoc,any_cons]
    congr 1
    cases namesKey s ke e <;> rfl

theorem add_expired_hash (ws : Workingset) (u : UpdateBatch) (k : HashedCompositeKey) :
    (addExpiredEntriesToUpdateBatch ws u).pubAndHashUpdates.get k.space k.keyHash =
      (u.pubAndHashUpdates.get k.space k.keyHash).or
        (if ws.purgesHash k then some ⟨[],[],⟨ws.expiringBlk,maxUint64⟩⟩ else none) := by
  rw [addExpiredEntriesToUpdateBatch,expire_hashes_get ws.toPurge.nodupKeys,
    hashed_key_iff.mpr ⟨rfl,rfl⟩,bind_some,Workingset.purgesHash]
  congr 1
  have hlk : ws.toPurge.entries.dlookup k = ws.toPurge.lookup k := rfl
  rw [hlk]
  cases ws.toPurge.lookup k with
  | none => rfl
  | some kv => cases hkv : kv.purgeKeyOnly <;> simp [hkv]

theorem add_expired_other (ws : Workingset) (u : UpdateBatch) {s : Space}
    (h : s.hashedKey key = none) :
    (addExpiredEntriesToUpdateBatch ws u).pubAndHashUpdates.get s key =
      u.pubAndHashUpdates.get s key := by
  rw [addExpiredEntriesToUpdateBatch,expire_hashes_get ws.toPurge.nodupKeys,h]
  simp

end PluggableHcs.Txmgmt
