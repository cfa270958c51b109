import PluggableHcs.Lib.Runs
import PluggableHcs.Txmgmt.PurgeMgr

namespace PluggableHcs.Txmgmt
open Readings List Option Batch

structure LockBasedTxMgr where
  db : Db
  expKeeper : ExpiryKeeper
  workingset : Option Workingset

def Db.applyPrivacyAwareUpdates (db : Db) (u : UpdateBatch) : Db :=
  (db.applyUpdates u.pubAndHashUpdates).applyUpdates u.pvtUpdates

structure PvtKVWrite where
  key : Bytes
  isDelete : Bool
  value : Bytes
  version : Height

/-- The difference of two numbers of 64 bits, read as a signed one, is positive. -/
def wrapsAbove (a b : Nat) : Bool :=
  let diff := (a + 2 ^ 64 - b) % 2 ^ 64
  decide (0 < diff) && decide (diff < 2 ^ 63)

def Height.compareLess (h h₁ : Height) : Bool :=
  if h.blockNum ≠ h₁.blockNum then !wrapsAbove h.blockNum h₁.blockNum
  else if h.txNum ≠ h₁.txNum then !wrapsAbove h.txNum h₁.txNum
  else false

abbrev UniquePvtData := AList fun _ : HashedCompositeKey => PvtKVWrite

section
variable (x : Primitives) (btlPolicy : BTLPolicy)

def updateUsingPvtWrite (unique : UniquePvtData) (w : PvtWrite × Height) : UniquePvtData :=
  let new : PvtKVWrite := ⟨w.1.key.key,w.1.isDelete,w.1.value,w.2⟩
  match unique.lookup (w.1.key.hashed x) with
  | none => unique.insert (w.1.key.hashed x) new
  | some old =>
    if old.version.compareLess w.2 then unique.insert (w.1.key.hashed x) new else unique

def reconciledWrites : List (Nat × TxPvtData) → Option (List (PvtWrite × Height))
  | [] => some []
  | (blkNum,p) :: rest => do
    let pvtRWSet ← txPvtRwSetFromProtoMsg x p
    let ws ← reconciledWrites rest
    pure (pvtRWSet.writes.map (·,⟨blkNum,p.seqInBlock⟩) ++ ws)

def constructUniquePvtData (ws : List (PvtWrite × Height)) : UniquePvtData :=
  ws.foldl (updateUsingPvtWrite x) ∅

/-- A write that is not stale, with the version of the hash where the value is that of the hash. -/
def checkIfPvtWriteIsStale (db : Db) (k : HashedCompositeKey) (w : PvtKVWrite) :
    Option PvtKVWrite :=
  match db.state k.space k.keyHash with
  | none => if w.isDelete then some w else none
  | some vv =>
    if vv.version = w.version then some w
    else if vv.value = x.computeHash w.value then some { w with version := vv.version }
    else none

def findAndRemoveStalePvtData (db : Db) (unique : UniquePvtData) : UniquePvtData :=
  ⟨Maps.keep (checkIfPvtWriteIsStale x db) unique.entries,Maps.keep_keys.nodup unique.nodupKeys⟩

def transformToUpdateBatch : List ((_ : HashedCompositeKey) × PvtKVWrite) → Batch → Except Failure Batch
  | [],b => .ok b
  | ⟨k,w⟩ :: rest,b =>
    if w.isDelete then transformToUpdateBatch rest (b.delete (.pvt k.ns k.coll) w.key w.version)
    else
      match (b.putValAndMetadata (.pvt k.ns k.coll) w.key w.value [] w.version).result with
      | .error e => .error e
      | .ok b' => transformToUpdateBatch rest b'

/-- What is not stale of the writes of old blocks. -/
def freshPvtUpdates (db : Db) (reconciledPvtdata : List (Nat × TxPvtData)) : Except Failure Batch :=
  match reconciledWrites x reconciledPvtdata with
  | none => .error .unmarshal
  | some ws => transformToUpdateBatch
      (findAndRemoveStalePvtData x db (constructUniquePvtData x ws)).entries ∅

def LockBasedTxMgr.removeStaleAndCommitPvtDataOfOldBlocks (m : LockBasedTxMgr)
    (reconciledPvtdata : List (Nat × TxPvtData)) : Except Failure LockBasedTxMgr := do
  let pvtUpdates ← freshPvtUpdates x m.db reconciledPvtdata
  let out ← updateExpiryInfoOfPvtDataOfOldBlocks x btlPolicy m.expKeeper m.workingset pvtUpdates
  pure { db := m.db.applyPrivacyAwareUpdates ⟨∅,pvtUpdates⟩
         expKeeper := out.1
         workingset := out.2 }

end

section
variable (x : Primitives) (btlPolicy : BTLPolicy)

def LockBasedTxMgr.workingsetFor (m : LockBasedTxMgr) (num : Nat) : Workingset :=
  m.workingset.getD (prepareWorkingsetFor m.db m.expKeeper num)

def LockBasedTxMgr.commit (m : LockBasedTxMgr) (num : Nat) (u : UpdateBatch) : LockBasedTxMgr :=
  let ws := m.workingsetFor num
  let tracked := m.expKeeper.update (buildExpirySchedule x btlPolicy u.pvtUpdates u.pubAndHashUpdates) []
  let db := m.db.applyPrivacyAwareUpdates (addExpiredEntriesToUpdateBatch ws u)
  let expKeeper := tracked.update ∅ ws.toClearFromSchedule
  { db := db
    expKeeper := expKeeper
    workingset := some (prepareWorkingsetFor db expKeeper (num + 1)) }

def LockBasedTxMgr.getPrivateData (m : LockBasedTxMgr) (k : CollKey) : Option (Option Bytes) :=
  let versionedValue := m.db.state k.space k.key
  let hashVersion := (m.db.state k.hashSpace (x.computeHash k.key)).map VersionedValue.version
  if hashVersion = versionedValue.map VersionedValue.version then
    some (versionedValue.map VersionedValue.value)
  else none

end

section
variable {x : Primitives} {bp : BTLPolicy} {db : Db} {u : UpdateBatch}

/-- Private updates and all others are kept apart. -/
structure UpdateBatch.Apart (u : UpdateBatch) : Prop where
  pvt : s.collKey key = none → u.pvtUpdates.get s key = none
  pub : s.collKey key ≠ none → u.pubAndHashUpdates.get s key = none

theorem UpdateBatch.Apart.state (ha : u.Apart) (s : Space) (key : Bytes) :
    (db.applyPrivacyAwareUpdates u).state s key =
      if s.collKey key = none then u.pubAndHashUpdates.apply db.state s key
      else u.pvtUpdates.apply db.state s key := by
  rw [Db.applyPrivacyAwareUpdates,Db.apply_updates_state,Db.apply_updates_state]
  by_cases hk : s.collKey key = none
  · rw [if_pos hk,apply_none (ha.pvt hk)]
  rw [if_neg hk]
  cases hg : u.pvtUpdates.get s key with
  | none => rw [apply_none hg,apply_none hg,apply_none (ha.pub hk)]
  | some vv => rw [apply_some hg,apply_some hg]

theorem UpdateBatch.Apart.expired (ha : u.Apart) (ws : Workingset) :
    (addExpiredEntriesToUpdateBatch ws u).Apart where
  pvt h := by
    rw [addExpiredEntriesToUpdateBatch,expire_keys_get]
    simp [namesKey,h,ha.pvt h]
  pub := by
    intro s ke h
    have hk : s.hashedKey ke = none := by
      cases s with
      | pvt ns co => rfl
      | pub ns | hashed ns co => exact absurd rfl h
    exact (add_expired_other ws u hk).trans (ha.pub h)

section
variable {blk : Block} {codes : List TxValidationCode} {entries : List (Transaction × TxPvtData)}

/-- What is known of the updates that were prepared for a block. -/
structure Prepared (x : Primitives) (db : Db) (blk : Block) (codes : List TxValidationCode)
    (entries : List (Transaction × TxPvtData)) (u : UpdateBatch) : Prop where
  hash : u.pubAndHashUpdates.get s key = some vv → ∃ tx before ops, (tx,.valid) ∈ blk.txs.zip codes ∧
    written tx.rwset before db s key = some ops ∧ ¬ ops.Nil ∧ vv = ops.entry ⟨blk.num,tx.indexInBlock⟩
  pvt : PvtPrepared x u.pubAndHashUpdates db blk.num entries u.pvtUpdates

theorem preparer_prepared {blk : ProtoBlock}
    (h : CommitBatchPreparer.validateAndPrepareBatch x db blk pv dm = .ok (u,codes)) :
    Prepared x db (preprocessProtoBlock x blk) codes
      (pvtEntries (preprocessProtoBlock x blk) codes pv) u := by
  obtain ⟨hp,hpv⟩ := preparer_ok h
  obtain ⟨t,hv⟩ := prepare_batch_validated hp
  refine ⟨fun hg => ?_,hpv⟩
  rcases hv.source hg with hn | hs
  · cases hn
  · exact hs

theorem Prepared.apart (h : Prepared x db blk codes entries u) : u.Apart where
  pvt := by
    intro s ke hke
    cases hg : u.pvtUpdates.get s ke with
    | none => rfl
    | some vv =>
      obtain ⟨k,hk,_⟩ := h.pvt.source hg
      rw [hke] at hk
      cases hk
  pub := by
    intro s ke hke
    cases hg : u.pubAndHashUpdates.get s ke with
    | none => rfl
    | some vv =>
      obtain ⟨tx,be,os,_,hwr,_⟩ := h.hash hg
      cases s with
      | pvt ns co => cases hwr
      | pub ns | hashed ns co => exact absurd rfl hke

theorem Prepared.hash_block (h : Prepared x db blk codes entries u)
    (hg : u.pubAndHashUpdates.get s key = some vv) : vv.version.blockNum = blk.num := by
  obtain ⟨tx,be,os,_,_,_,rfl⟩ := h.hash hg
  rw [entry_version]

theorem PvtWrite.entry_version (w : PvtWrite) (ver : Height) : (w.entry ver).version = ver := by
  unfold PvtWrite.entry
  split <;> rfl

theorem Prepared.pvt_block (h : Prepared x db blk codes entries u)
    (hg : u.pvtUpdates.get s key = some vv) : vv.version.blockNum = blk.num := by
  obtain ⟨k,_,⟨e,_,w,_,_,rfl⟩ | ⟨hv,hh,hve,_⟩⟩ := h.pvt.source hg
  · rw [PvtWrite.entry_version]
  · rw [hve]
    exact h.hash_block hh

end

section
variable {m : LockBasedTxMgr}

theorem commit_hashed (ha : u.Apart) (nu : Nat) (k : HashedCompositeKey) :
    (m.commit x bp nu u).db.state k.space k.keyHash =
      match u.pubAndHashUpdates.get k.space k.keyHash with
      | some vv => if vv.value = [] then none else some vv
      | none => if (m.workingsetFor nu).purgesHash k then none else m.db.state k.space k.keyHash := by
  have hk : k.space.collKey k.keyHash = none := rfl
  rw [LockBasedTxMgr.commit]
  rw [(ha.expired _).state,if_pos hk]
  exact apply_or (add_expired_hash _ u k)

theorem commit_pvt (ha : u.Apart) (nu : Nat) (k : CollKey) :
    (m.commit x bp nu u).db.state k.space k.key = match u.pvtUpdates.get k.space k.key with
      | some vv => if vv.value = [] then none else some vv
      | none => if (m.workingsetFor nu).purgesKey k then none else m.db.state k.space k.key := by
  have hk : ¬ k.space.collKey k.key = none := by
    exact some_ne_none k
  rw [LockBasedTxMgr.commit]
  rw [(ha.expired _).state,if_neg hk]
  exact apply_or (expire_keys_get ..)

theorem commit_hashed_source (ha : u.Apart) {k : HashedCompositeKey}
    (h : (m.commit x bp num u).db.state k.space k.keyHash = some hv) :
    u.pubAndHashUpdates.get k.space k.keyHash = some hv ∨
      u.pubAndHashUpdates.get k.space k.keyHash = none ∧ m.db.state k.space k.keyHash = some hv := by
  rw [commit_hashed ha] at h
  split at h
  · rename_i hg
    split at h
    · cases h
    · exact .inl (hg.trans h)
  · rename_i hg
    split at h
    · cases h
    · exact .inr ⟨hg,h⟩

theorem commit_pvt_source (ha : u.Apart) {k : CollKey}
    (h : (m.commit x bp num u).db.state k.space k.key = some vv) :
    u.pvtUpdates.get k.space k.key = some vv ∨
      u.pvtUpdates.get k.space k.key = none ∧ m.db.state k.space k.key = some vv := by
  rw [commit_pvt ha] at h
  split at h
  · rename_i hg
    split at h
    · cases h
    · exact .inl (hg.trans h)
  · rename_i hg
    split at h
    · cases h
    · exact .inr ⟨hg,h⟩

end

variable {m m' : LockBasedTxMgr} {ws : List (PvtWrite × Height)}

theorem reconciled_writes_source {da : List (Nat × TxPvtData)}
    (h : reconciledWrites x da = some ws) (hw : w ∈ ws) :
    ∃ bn p set, (bn,p) ∈ da ∧ txPvtRwSetFromProtoMsg x p = some set ∧
      w.1 ∈ set.writes ∧ w.2 = ⟨bn,p.seqInBlock⟩ := by
  induction da generalizing ws with
  | nil =>
    cases h
    cases hw
  | cons d da ih =>
    obtain ⟨bn,p⟩ := d
    obtain ⟨set,hs,h⟩ := bind_eq_some_iff.mp h
    obtain ⟨re,hr,h⟩ := bind_eq_some_iff.mp h
    cases h
    rcases mem_append.mp hw with hw | hw
    · obtain ⟨w',hw',rfl⟩ := List.mem_map.mp hw
      exact ⟨bn,p,set,mem_cons_self,hs,hw',rfl⟩
    · obtain ⟨b',p',s',hm,hso⟩ := ih hr hw
      exact ⟨b',p',s',mem_cons_of_mem _ hm,hso⟩

def PvtKVWrite.ofWrite (w : PvtWrite × Height) : PvtKVWrite :=
  ⟨w.1.key.key,w.1.isDelete,w.1.value,w.2⟩

def PvtKVWrite.write (k : HashedCompositeKey) (w : PvtKVWrite) : PvtWrite :=
  ⟨⟨k.ns,k.coll,w.key⟩,w.isDelete,w.value⟩

theorem unique_source {un : UniquePvtData}
    (h : (ws.foldl (updateUsingPvtWrite x) un).lookup k = some v) :
    (∃ w ∈ ws, k = w.1.key.hashed x ∧ v = .ofWrite w) ∨ un.lookup k = some v := by
  induction ws generalizing un with
  | nil => exact .inr h
  | cons w ws ih =>
    rcases ih h with ⟨w',hw',hv⟩ | hlk
    · exact .inl ⟨w',mem_cons_of_mem _ hw',hv⟩
    have hc : updateUsingPvtWrite x un w = un ∨
        updateUsingPvtWrite x un w = un.insert (w.1.key.hashed x) (.ofWrite w) := by
      unfold updateUsingPvtWrite
      split
      · exact .inr rfl
      split
      · exact .inr rfl
      · exact .inl rfl
    rcases hc with heq | heq
    · rw [heq] at hlk
      exact .inr hlk
    rw [heq] at hlk
    by_cases hk : k = w.1.key.hashed x
    · subst hk
      rw [AList.lookup_insert] at hlk
      exact .inl ⟨w,mem_cons_self,rfl,(Option.some.inj hlk).symm⟩
    · rw [AList.lookup_insert_ne hk] at hlk
      exact .inr hlk

/-- What a reconciled write comes to: its value, at the version of the key hash. Without the key hash
it can only be a delete. -/
structure Fresh (x : Primitives) (db : Db) (w : PvtWrite × Height) (vv : VersionedValue) :
    Prop where
  entry : vv = w.1.entry vv.version
  missing : db.state w.1.key.hashSpace (x.computeHash w.1.key.key) = none → w.1.isDelete = true
  current : db.state w.1.key.hashSpace (x.computeHash w.1.key.key) = some hv →
    vv.version = hv.version ∧ (hv.version = w.2 ∨ hv.value = x.computeHash w.1.value)

theorem stale_fresh (h : checkIfPvtWriteIsStale x db (w.1.key.hashed x) (.ofWrite w) = some v) :
    v.write (w.1.key.hashed x) = w.1 ∧ Fresh x db w (w.1.entry v.version) := by
  have hst : db.state (w.1.key.hashed x).space (w.1.key.hashed x).keyHash =
      db.state w.1.key.hashSpace (x.computeHash w.1.key.key) := rfl
  have he : ∀ ve, w.1.entry ve = w.1.entry (w.1.entry ve).version := by
    intro ve
    rw [PvtWrite.entry_version]
  rw [checkIfPvtWriteIsStale,hst] at h
  cases hh : db.state w.1.key.hashSpace (x.computeHash w.1.key.key) with
  | none =>
    rw [hh] at h
    dsimp only at h
    split at h
    · rename_i hd
      cases h
      exact ⟨rfl,he _,fun _ => hd,fun hs => by simp [hh] at hs⟩
    · cases h
  | some hv =>
    rw [hh] at h
    dsimp only at h
    have hm : db.state w.1.key.hashSpace (x.computeHash w.1.key.key) = none →
        w.1.isDelete = true := fun hn => by simp [hh] at hn
    split at h
    · rename_i hve
      cases h
      refine ⟨rfl,he _,hm,fun hs => ?_⟩
      obtain rfl := Option.some.inj (hh.symm.trans hs)
      rw [PvtWrite.entry_version]
      exact ⟨hve.symm,.inl hve⟩
    · split at h
      · rename_i hva
        cases h
        refine ⟨rfl,he _,hm,fun hs => ?_⟩
        obtain rfl := Option.some.inj (hh.symm.trans hs)
        rw [PvtWrite.entry_version]
        exact ⟨rfl,.inr hva⟩
      · cases h

theorem transform_source (h : transformToUpdateBatch l b = .ok b') (hg : b'.get s key = some vv) :
    (∃ e ∈ l, s.collKey key = some (e.2.write e.1).key ∧ vv = (e.2.write e.1).entry e.2.version) ∨
      b.get s key = some vv := by
  induction l generalizing b with
  | nil =>
    cases h
    exact .inr hg
  | cons e l ih =>
    have hst : transformToUpdateBatch l (putPvtWrite e.2.version b (e.2.write e.1)) = .ok b' := by
      rw [transformToUpdateBatch] at h
      rw [putPvtWrite,PvtWrite.entry,PvtKVWrite.write]
      cases hd : e.2.isDelete with
      | true =>
        rw [if_pos hd] at h
        exact h
      | false =>
        rw [if_neg (by simp [hd]),Batch.putValAndMetadata] at h
        split at h
        · cases h
        rename_i hok
        split at hok
        · cases hok
        · cases hok
          exact h
    rcases ih hst with ⟨e',he',hs⟩ | hp
    · exact .inl ⟨e',mem_cons_of_mem _ he',hs⟩
    rw [putPvtWrite,get_update] at hp
    split at hp
    · rename_i heq
      obtain ⟨rfl,rfl⟩ := heq
      exact .inl ⟨e,mem_cons_self,coll_key_self _,(Option.some.inj hp).symm⟩
    · exact .inr hp

def FreshUpdates (x : Primitives) (db : Db) (ws : List (PvtWrite × Height)) (b : Batch) : Prop :=
  ∀ s key vv, b.get s key = some vv → ∃ w ∈ ws, s.collKey key = some w.1.key ∧ Fresh x db w vv

theorem FreshUpdates.other_state (f : FreshUpdates x db ws b) (h : s.collKey key = none) :
    (db.applyPrivacyAwareUpdates ⟨∅,b⟩).state s key = db.state s key := by
  have hg : b.get s key = none := by
    cases hg : b.get s key with
    | none => rfl
    | some vv =>
      obtain ⟨w,_,hk,_⟩ := f s key vv hg
      rw [h] at hk
      cases hk
  rw [Db.applyPrivacyAwareUpdates,Db.apply_updates_state,Db.apply_updates_state,
    apply_none hg,apply_none rfl]

theorem FreshUpdates.put (f : FreshUpdates x db ws b)
    (hg : b.get k.space k.key = some vv) (hva : vv.value ≠ []) :
    ∃ w ∈ ws, ∃ hv, w.1 = ⟨k,false,vv.value⟩ ∧
      db.state k.hashSpace (x.computeHash k.key) = some hv ∧ vv.version = hv.version ∧
      (hv.version = w.2 ∨ hv.value = x.computeHash vv.value) := by
  obtain ⟨⟨⟨k',ie,value⟩,ve⟩,hw,hk,hf⟩ := f _ _ _ hg
  obtain rfl := Option.some.inj ((coll_key_self k).symm.trans hk)
  have he := hf.entry
  cases ie with
  | true =>
    rw [he] at hva
    exact absurd rfl hva
  | false =>
    have hvv : vv.value = value := by
      rw [he]
      rfl
    cases hh : db.state k.hashSpace (x.computeHash k.key) with
    | none => exact absurd (hf.missing hh) Bool.false_ne_true
    | some hv =>
      obtain ⟨hve,hc⟩ := hf.current hh
      exact ⟨_,hw,hv,by rw [hvv],rfl,hve,by rwa [hvv]⟩

theorem reconciled_state {k : CollKey}
    (h : (db.applyPrivacyAwareUpdates ⟨∅,b⟩).state k.space k.key = some vv) :
    b.get k.space k.key = some vv ∧ vv.value ≠ [] ∨
      b.get k.space k.key = none ∧ db.state k.space k.key = some vv := by
  have hv := (db.applyPrivacyAwareUpdates ⟨∅,b⟩).valued h
  have hst : b.apply db.state k.space k.key = some vv := by
    rw [← h,Db.applyPrivacyAwareUpdates,Db.apply_updates_state,Db.apply_updates_state]
    rfl
  cases hg : b.get k.space k.key with
  | none =>
    rw [apply_none hg] at hst
    exact .inr ⟨rfl,hst⟩
  | some w =>
    rw [apply_some hg] at hst
    split at hst
    · cases hst
    · cases hst
      exact .inl ⟨rfl,hv⟩

theorem FreshUpdates.pvt_state (f : FreshUpdates x db ws b)
    (h : (db.applyPrivacyAwareUpdates ⟨∅,b⟩).state k.space k.key = some vv) :
    (∃ w ∈ ws, ∃ hv, w.1 = ⟨k,false,vv.value⟩ ∧
      db.state k.hashSpace (x.computeHash k.key) = some hv ∧ vv.version = hv.version ∧
      (hv.version = w.2 ∨ hv.value = x.computeHash vv.value)) ∨
    db.state k.space k.key = some vv := by
  rcases reconciled_state h with ⟨hg,hva⟩ | ⟨_,ho⟩
  · exact .inl (f.put hg hva)
  · exact .inr ho

theorem transform_fresh (h : transformToUpdateBatch
      (findAndRemoveStalePvtData x db (constructUniquePvtData x ws)).entries ∅ = .ok b) :
    FreshUpdates x db ws b := by
  intro s ke vv hg
  rcases transform_source h hg with ⟨e,he,hke,rfl⟩ | hn
  · have hkt := AList.mem_lookup_iff.mpr he
    have hlk := (Maps.keep_lookup (constructUniquePvtData x ws).nodupKeys).symm.trans hkt
    obtain ⟨v,hv,hs⟩ := bind_eq_some_iff.mp hlk
    rcases unique_source hv with ⟨w,hw,hk,rfl⟩ | hn
    · rw [hk] at hs
      obtain ⟨hwr,hf⟩ := stale_fresh hs
      rw [hk,hwr] at hke ⊢
      exact ⟨w,hw,hke,hf⟩
    · cases hn
  · cases hn

theorem reconcile_ok {da : List (Nat × TxPvtData)}
    (h : m.removeStaleAndCommitPvtDataOfOldBlocks x bp da = .ok m') :
    ∃ ws pu, reconciledWrites x da = some ws ∧ FreshUpdates x m.db ws pu ∧
      updateExpiryInfoOfPvtDataOfOldBlocks x bp m.expKeeper m.workingset pu =
        .ok (m'.expKeeper,m'.workingset) ∧
      m'.db = m.db.applyPrivacyAwareUpdates ⟨∅,pu⟩ := by
  obtain ⟨pu,hf,h⟩ := Outcomes.bind_ok.mp h
  obtain ⟨o,ho,h⟩ := Outcomes.bind_ok.mp h
  cases h
  unfold freshPvtUpdates at hf
  split at hf
  · cases hf
  · exact ⟨_,pu,‹_›,transform_fresh hf,ho,rfl⟩

end

section
variable (x : Primitives) (btlPolicy : BTLPolicy)

structure Ledger where
  blocks : List (Block × List TxValidationCode)
  txmgr : LockBasedTxMgr

inductive LedgerEvent where
  | commit (blk : ProtoBlock) (pvtdata : Nat → Option TxPvtData) (doMVCCValidation : Bool)
  | reconcile (reconciledPvtdata : List (Nat × TxPvtData))

def Ledger.next (l : Ledger) : LedgerEvent → Option Ledger
  | .commit blk pvtdata doMVCCValidation =>
    if blk.num = l.blocks.length then
      match CommitBatchPreparer.validateAndPrepareBatch x l.txmgr.db blk pvtdata doMVCCValidation with
      | .error _ => none
      | .ok (u,codes) =>
        some ⟨l.blocks ++ [(preprocessProtoBlock x blk,codes)],l.txmgr.commit x btlPolicy blk.num u⟩
    else none
  | .reconcile data =>
    match l.txmgr.removeStaleAndCommitPvtDataOfOldBlocks x btlPolicy data with
    | .error _ => none
    | .ok m => some ⟨l.blocks,m⟩

/-- What a step does. -/
inductive LedgerStep : Ledger → LedgerEvent → Ledger → Prop
  | commit (next : blk.num = l.blocks.length)
      (prepared : CommitBatchPreparer.validateAndPrepareBatch x l.txmgr.db blk pvtdata
        doMVCCValidation = .ok (u,codes)) :
      LedgerStep l (.commit blk pvtdata doMVCCValidation)
        ⟨l.blocks ++ [(preprocessProtoBlock x blk,codes)],l.txmgr.commit x btlPolicy blk.num u⟩
  | reconcile
      (reconciled : l.txmgr.removeStaleAndCommitPvtDataOfOldBlocks x btlPolicy data = .ok m) :
      LedgerStep l (.reconcile data) ⟨l.blocks,m⟩

variable {x btlPolicy} in
theorem next_step (h : l.next x btlPolicy e = some l') : LedgerStep x btlPolicy l e l' := by
  unfold Ledger.next at h
  split at h
  · split at h
    · rename_i hn
      split at h
      · cases h
      rename_i hp
      cases h
      exact .commit hn hp
    · cases h
  · split at h
    · cases h
    rename_i hr
    cases h
    exact .reconcile hr

def Ledger.initial (bulkOptimizable : Bool) :
    Ledger := ⟨[],⟨Db.initial bulkOptimizable,.empty,none⟩⟩

end

def decodeWrites : Bytes → List KVWrite
  | key :: value :: rest =>
    ⟨[key],decide (value = 0),if value = 0 then [] else [value]⟩ :: decodeWrites rest
  | _ => []

def samplePrimitives : Primitives where
  computeHash b := 7 :: b
  hashFunc := ⟨fun _ => [],fun _ => []⟩
  unmarshalKVRWSet b := some ⟨[],[],decodeWrites b,[]⟩
  validateKeyValue _ _ := true

def sampleRwSet (rwset : Bytes) : TxRwSet :=
  ⟨[⟨[97],⟨[],[],[],[]⟩,[⟨[99],⟨[],(decodeWrites rwset).map fun w =>
    ⟨7 :: w.key,w.isDelete,if w.isDelete then [] else 7 :: w.value⟩,[]⟩,7 :: rwset⟩]⟩]⟩

def samplePvtData (seqInBlock : Nat) (rwset : Bytes) : TxPvtData :=
  ⟨seqInBlock,[⟨[97],[⟨[99],rwset⟩]⟩]⟩

end PluggableHcs.Txmgmt
