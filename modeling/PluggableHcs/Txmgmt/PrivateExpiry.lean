import PluggableHcs.Txmgmt.Schedule

namespace PluggableHcs.Txmgmt
open Runs Tables List Option

section
variable (bp : BTLPolicy)

theorem get_btl_pos (ns coll : Bytes) : 0 < bp.getBTL ns coll := by
  unfold BTLPolicy.getBTL maxUint64
  split <;> omega

variable {bp}

theorem expiring_lt (hb : b < maxUint64) : b < bp.getExpiringBlock ns co b := by
  rw [bp.get_expiring_block ns co (by unfold maxUint64 at hb; omega)]
  omega

theorem expiring_injective (hb : b < maxUint64) (hc : c < maxUint64)
    (h : bp.getExpiringBlock ns co b = bp.getExpiringBlock ns co c)
    (hf : bp.getExpiringBlock ns co b ≠ maxUint64) : b = c := by
  rw [bp.get_expiring_block ns co (by unfold maxUint64 at hb; omega)] at h hf
  rw [bp.get_expiring_block ns co (by unfold maxUint64 at hc; omega)] at h
  omega

theorem lt_expiring_iff (ns co : Bytes) (hb : b < maxUint64) (hn : n < maxUint64) :
    n < bp.getExpiringBlock ns co b ↔ n < b + bp.getBTL ns co + 1 := by
  rw [bp.get_expiring_block ns co (by unfold maxUint64 at hb; omega)]
  omega

end

section
variable (x : Primitives) (btlPolicy : BTLPolicy)

abbrev expiryOf (ns coll : Bytes) (vv : VersionedValue) : Nat :=
  btlPolicy.getExpiringBlock ns coll vv.version.blockNum

/-- Before block `n` the schedule has every key hash and private key that expires, none overdue, and
the last entry of a hash names the private key that is stored. -/
structure ScheduledBefore (db : Db) (ek : ExpiryKeeper) (n : Nat) : Prop where
  hashed : ∀ (h : HashedCompositeKey) vv, db.state h.space h.keyHash = some vv →
    vv.version.blockNum < n ∧ (expiryOf btlPolicy h.ns h.coll vv ≠ maxUint64 →
      n ≤ expiryOf btlPolicy h.ns h.coll vv ∧
      ∃ p, lastFor (ek.record ⟨vv.version.blockNum,expiryOf btlPolicy h.ns h.coll vv⟩) h = some p)
  pvt : ∀ (k : CollKey) vv, db.state k.space k.key = some vv →
    vv.version.blockNum < n ∧ k.key ≠ [] ∧ (expiryOf btlPolicy k.ns k.coll vv ≠ maxUint64 →
      n ≤ expiryOf btlPolicy k.ns k.coll vv ∧
      ∃ p, lastFor (ek.record ⟨vv.version.blockNum,expiryOf btlPolicy k.ns k.coll vv⟩)
        (k.hashed x) = some p ∧ p.key = k.key)
  entries : ∀ c e p, p ∈ ek.record ⟨c,e⟩ →
    c < n ∧ e = btlPolicy.getExpiringBlock p.ns p.coll c ∧ e ≠ maxUint64

/-- The working set of block `n` has what expires with the block, and no other key hash. -/
structure DueAt (db : Db) (ws : Workingset) (n : Nat) : Prop where
  hashed : ∀ (h : HashedCompositeKey) vv, db.state h.space h.keyHash = some vv →
    expiryOf btlPolicy h.ns h.coll vv = n →
    ∃ kv, ws.toPurge.lookup h = some kv ∧ kv.purgeKeyOnly = false
  exact : ∀ (h : HashedCompositeKey) kv, ws.toPurge.lookup h = some kv → kv.purgeKeyOnly = false →
    ∃ vv, db.state h.space h.keyHash = some vv ∧ expiryOf btlPolicy h.ns h.coll vv = n
  pvt : ∀ (k : CollKey) vv, db.state k.space k.key = some vv →
    expiryOf btlPolicy k.ns k.coll vv = n →
    ∃ kv, ws.toPurge.lookup (k.hashed x) = some kv ∧ kv.key = k.key
  clears : ∀ k ∈ ws.toClearFromSchedule, k.expiryBlk = n

end

variable {x : Primitives} {btlPolicy : BTLPolicy} {db : Db} {ek : ExpiryKeeper}

theorem workingset_lookup (h : HashedCompositeKey) :
    (prepareWorkingsetFor db ek n).toPurge.lookup h =
      ((transformToExpiryInfoMap (ek.retrieve n)).lookup h).bind (evaluateEntry db h) :=
  Maps.keep_lookup (transformToExpiryInfoMap (ek.retrieve n)).nodupKeys

theorem ScheduledBefore.transform (hs : ScheduledBefore x btlPolicy db ek n) (hn : n < maxUint64)
    (hb : b < n) (he : btlPolicy.getExpiringBlock h.ns h.coll b = n)
    (hp : lastFor (ek.record ⟨b,n⟩) h = some p) :
    (transformToExpiryInfoMap (ek.retrieve n)).lookup h = some ⟨p.key,b,false⟩ := by
  obtain ⟨hm,rfl⟩ := last_for_mem hp
  obtain ⟨kv,hkv⟩ := transform_some hm
  obtain ⟨c,q,hq,rfl⟩ := transform_lookup hkv
  obtain ⟨hqm,ha⟩ := last_for_mem hq
  obtain ⟨hc,he',hf⟩ := hs.entries c n q hqm
  have hns : q.ns = p.ns := congrArg HashedCompositeKey.ns ha
  have hco : q.coll = p.coll := congrArg HashedCompositeKey.coll ha
  rw [hns,hco] at he'
  obtain rfl : b = c := expiring_injective (by omega) (by omega) (he.trans he') (he ▸ hf)
  cases hp.symm.trans hq
  exact hkv

theorem ScheduledBefore.due (hs : ScheduledBefore x btlPolicy db ek n) (hn : n < maxUint64) :
    DueAt x btlPolicy db (prepareWorkingsetFor db ek n) n := by
  constructor
  · intro h vv hvv he
    obtain ⟨hlt,hr⟩ := hs.hashed h vv hvv
    obtain ⟨_,p,hp⟩ := hr (by omega)
    rw [he] at hp
    refine ⟨⟨p.key,vv.version.blockNum,false⟩,?_,rfl⟩
    rw [workingset_lookup,hs.transform hn hlt he hp,bind_some]
    refine if_pos ?_
    simp [sameVersion,hvv]
  · intro h kv hkv ho
    rw [workingset_lookup] at hkv
    obtain ⟨k₀,hkv₀,hev⟩ := bind_eq_some_iff.mp hkv
    obtain ⟨c,p,hp,rfl⟩ := transform_lookup hkv₀
    unfold evaluateEntry at hev
    split at hev
    · rename_i hsa
      cases hev
      unfold sameVersion at hsa
      cases hst : db.state h.space h.keyHash with
      | none => simp [hst] at hsa
      | some vv =>
        refine ⟨vv,rfl,?_⟩
        have hb : vv.version.blockNum = c := by simpa [hst] using hsa
        obtain ⟨hm,rfl⟩ := last_for_mem hp
        obtain ⟨_,he,_⟩ := hs.entries c n p hm
        rw [expiryOf,hb]
        exact he.symm
    · split at hev
      · cases hev
        nomatch ho
      · nomatch hev
  · intro k vv hvv he
    obtain ⟨hlt,hke,hr⟩ := hs.pvt k vv hvv
    obtain ⟨_,p,hp,hpk⟩ := hr (by omega)
    rw [he] at hp
    have hlk := hs.transform (h := k.hashed x) hn hlt he hp
    rw [hpk] at hlk
    have hsa : sameVersion (db.state (.pvt k.ns k.coll) k.key) vv.version.blockNum = true := by
      have hvv' : db.state (.pvt k.ns k.coll) k.key = some vv := hvv
      simp [sameVersion,hvv']
    simp only [workingset_lookup,hlk,bind_some]
    unfold evaluateEntry
    split
    · exact ⟨_,rfl,rfl⟩
    rw [if_pos]
    · exact ⟨_,rfl,rfl⟩
    · simp only [CollKey.hashed,hsa,Bool.and_true,decide_eq_true_eq]
      exact hke
  · intro k hk
    obtain ⟨e,_,rfl⟩ := mem_map.mp hk
    rfl

section
variable {m : LockBasedTxMgr} {u : UpdateBatch}

/-- Where the block deletes a private key, it deletes the key hash if it has an update of it, and no
private key is empty. -/
def Consistent (x : Primitives) (u : UpdateBatch) : Prop :=
  ∀ q ∈ u.pvtUpdates.pvtKeys, q.1.key ≠ [] ∧
    (q.2.value = [] → ∀ hv ∈ u.pubAndHashUpdates.get (q.1.hashed x).space (q.1.hashed x).keyHash,
      hv.value = [])
deriving Decidable

def AtBlock (u : UpdateBatch) (n : Nat) : Prop :=
  (∀ s key vv, u.pubAndHashUpdates.get s key = some vv → vv.version.blockNum = n) ∧
    ∀ s key vv, u.pvtUpdates.get s key = some vv → vv.version.blockNum = n

abbrev blockSchedule (x : Primitives) (u : UpdateBatch) : List (PvtdataKey × VersionedValue) :=
  pvtScheduled x u.pvtUpdates ++ hashScheduled x u.pvtUpdates u.pubAndHashUpdates

theorem block_schedule_block (hu : AtBlock u n) (h : (p,vv) ∈ blockSchedule x u) :
    vv.version.blockNum = n := by
  rcases mem_append.mp h with h | h
  · obtain ⟨k,hg,_⟩ := mem_pvt_scheduled.mp h
    exact hu.2 _ _ _ hg
  · obtain ⟨k,hg,_⟩ := mem_hash_scheduled.mp h
    exact hu.1 _ _ _ hg

theorem scheduled_for_block (hu : AtBlock u n)
    (h : p ∈ scheduledFor btlPolicy (blockSchedule x u) ⟨c,e⟩) :
    c = n ∧ e = btlPolicy.getExpiringBlock p.ns p.coll n ∧ e ≠ maxUint64 := by
  obtain ⟨vv,hm,hi⟩ := mem_scheduled_for.mp h
  obtain ⟨_,hk,hf⟩ := expiry_info_key.mp hi
  cases hk
  rw [block_schedule_block hu hm] at hf ⊢
  exact ⟨rfl,rfl,hf⟩

theorem commit_record (n : Nat) (k : ExpiryInfoKey) :
    (m.commit x btlPolicy n u).expKeeper.record k =
      if k ∈ (m.workingsetFor n).toClearFromSchedule then []
      else if scheduledFor btlPolicy (blockSchedule x u) k = [] then m.expKeeper.record k
      else scheduledFor btlPolicy (blockSchedule x u) k := by
  have hc := ExpiryKeeper.record_clears
    (m.expKeeper.update (buildExpirySchedule x btlPolicy u.pvtUpdates u.pubAndHashUpdates) [])
    (m.workingsetFor n).toClearFromSchedule k
  refine Eq.trans ?_ (hc.trans ?_)
  · rfl
  rw [ExpiryKeeper.record_track,buildExpirySchedule,schedule_lookup]
  by_cases hn : scheduledFor btlPolicy (blockSchedule x u) k = []
  · simp [hn]
  · simp [hn]

theorem commit_record_old (hu : AtBlock u n) (hd : DueAt x btlPolicy db (m.workingsetFor n) n)
    (hc : c ≠ n) (he : e ≠ n) :
    (m.commit x btlPolicy n u).expKeeper.record ⟨c,e⟩ = m.expKeeper.record ⟨c,e⟩ := by
  have hk : (⟨c,e⟩ : ExpiryInfoKey) ∉ (m.workingsetFor n).toClearFromSchedule :=
    fun h => he (hd.clears _ h)
  have hn : scheduledFor btlPolicy (blockSchedule x u) ⟨c,e⟩ = [] := by
    rw [eq_nil_iff_forall_not_mem]
    intro p hp
    exact hc (scheduled_for_block hu hp).1
  rw [commit_record,if_neg hk,if_pos hn]

theorem commit_record_new (hd : DueAt x btlPolicy db (m.workingsetFor n) n) (he : e ≠ n)
    (hp : p ∈ scheduledFor btlPolicy (blockSchedule x u) ⟨n,e⟩) :
    (m.commit x btlPolicy n u).expKeeper.record ⟨n,e⟩ =
      scheduledFor btlPolicy (blockSchedule x u) ⟨n,e⟩ := by
  have hk : (⟨n,e⟩ : ExpiryInfoKey) ∉ (m.workingsetFor n).toClearFromSchedule :=
    fun h => he (hd.clears _ h)
  rw [commit_record,if_neg hk,if_neg (ne_nil_of_mem hp)]

theorem not_delete {vv : VersionedValue} (h : vv.value ≠ []) : vv.isDelete = false := by
  rw [← Bool.not_eq_true,VersionedValue.is_delete_iff]
  exact h

theorem hash_scheduled (hu : AtBlock u n) (hc : Consistent x u) {h : HashedCompositeKey}
    (hg : u.pubAndHashUpdates.get h.space h.keyHash = some vv) (hv : vv.value ≠ [])
    (hf : btlPolicy.getExpiringBlock h.ns h.coll n ≠ maxUint64) :
    ∃ p ∈ scheduledFor btlPolicy (blockSchedule x u)
      ⟨n,btlPolicy.getExpiringBlock h.ns h.coll n⟩, p.hashed = h := by
  by_cases hp : ∃ k : CollKey, k.hashed x = h ∧ u.pvtUpdates.get k.space k.key ≠ none
  · obtain ⟨k,rfl,hk⟩ := hp
    obtain ⟨w,hw⟩ := ne_none_iff_exists'.mp hk
    have hwv : w.value ≠ [] := fun hn =>
      hv ((hc (k,w) (mem_pvt_keys.mpr hw)).2 hn vv hg)
    refine ⟨⟨k.ns,k.coll,k.key,x.computeHash k.key⟩,?_,rfl⟩
    refine mem_scheduled_for.mpr ⟨w,mem_append_left _ (mem_pvt_scheduled.mpr ⟨k,hw,rfl⟩),?_⟩
    exact expiry_info_key.mpr ⟨not_delete hwv,by rw [hu.2 _ _ _ hw]; rfl,hf⟩
  · have hno : ∀ k : CollKey, k.hashed x = h → u.pvtUpdates.get k.space k.key = none := by
      intro k hk
      by_contra hne
      exact hp ⟨k,hk,hne⟩
    refine ⟨⟨h.ns,h.coll,[],h.keyHash⟩,?_,rfl⟩
    refine mem_scheduled_for.mpr ⟨vv,mem_append_right _
      (mem_hash_scheduled.mpr ⟨h,hg,hno,rfl⟩),?_⟩
    exact expiry_info_key.mpr ⟨not_delete hv,by rw [hu.1 _ _ _ hg],hf⟩

theorem pvt_scheduled (hi : Function.Injective x.computeHash) {k : CollKey}
    (hg : u.pvtUpdates.get k.space k.key = some vv)
    (hp : p ∈ scheduledFor btlPolicy (blockSchedule x u) r) (heq : p.hashed = k.hashed x) :
    p.key = k.key := by
  obtain ⟨w,hm,_⟩ := mem_scheduled_for.mp hp
  rcases mem_append.mp hm with hm | hm
  · obtain ⟨k',_,rfl⟩ := mem_pvt_scheduled.mp hm
    exact hi (congrArg HashedCompositeKey.keyHash heq)
  obtain ⟨h,_,hn,rfl⟩ := mem_hash_scheduled.mp hm
  have hh : k.hashed x = h := heq.symm
  rw [hn k hh] at hg
  nomatch hg

theorem ScheduledBefore.commit (hi : Function.Injective x.computeHash)
    (hs : ScheduledBefore x btlPolicy m.db m.expKeeper n)
    (hd : DueAt x btlPolicy m.db (m.workingsetFor n) n) (hn : n < maxUint64) (ha : u.Apart)
    (hu : AtBlock u n) (hc : Consistent x u) :
    ScheduledBefore x btlPolicy (m.commit x btlPolicy n u).db
      (m.commit x btlPolicy n u).expKeeper (n + 1) := by
  have hl : ∀ ns co, n < btlPolicy.getExpiringBlock ns co n := fun _ _ => expiring_lt hn
  constructor
  · intro h vv hvv
    rw [commit_hashed ha] at hvv
    cases hg : u.pubAndHashUpdates.get h.space h.keyHash with
    | some w =>
      rw [hg] at hvv
      dsimp only at hvv
      split at hvv
      · cases hvv
      rename_i hv
      cases hvv
      have hb := hu.1 _ _ _ hg
      refine ⟨by omega,fun hf => ?_⟩
      rw [expiryOf,hb] at hf ⊢
      obtain ⟨p,hp,rfl⟩ := hash_scheduled hu hc hg hv hf
      rw [commit_record_new hd (hl _ _).ne' hp]
      exact ⟨hl _ _,last_for_some hp rfl⟩
    | none =>
      rw [hg] at hvv
      dsimp only at hvv
      split at hvv
      · cases hvv
      rename_i hk
      obtain ⟨hlt,hr⟩ := hs.hashed h vv hvv
      refine ⟨by omega,fun hf => ?_⟩
      obtain ⟨hle,p,hp⟩ := hr hf
      have hne : expiryOf btlPolicy h.ns h.coll vv ≠ n := by
        intro heq
        obtain ⟨kv,hkv,ho⟩ := hd.hashed h vv hvv heq
        exact hk (by simp [Workingset.purgesHash,hkv,ho])
      refine ⟨by omega,p,?_⟩
      rw [commit_record_old hu hd (by omega) hne]
      exact hp
  · intro k vv hvv
    rw [commit_pvt ha] at hvv
    cases hg : u.pvtUpdates.get k.space k.key with
    | some w =>
      rw [hg] at hvv
      dsimp only at hvv
      split at hvv
      · cases hvv
      rename_i hv
      cases hvv
      have hb := hu.2 _ _ _ hg
      refine ⟨by omega,(hc (k,vv) (mem_pvt_keys.mpr hg)).1,fun hf => ?_⟩
      rw [expiryOf,hb] at hf ⊢
      have hse : (⟨k.ns,k.coll,k.key,x.computeHash k.key⟩ : PvtdataKey) ∈
          scheduledFor btlPolicy (blockSchedule x u)
            ⟨n,btlPolicy.getExpiringBlock k.ns k.coll n⟩ := by
        refine mem_scheduled_for.mpr ⟨vv,mem_append_left _
          (mem_pvt_scheduled.mpr ⟨k,hg,rfl⟩),?_⟩
        exact expiry_info_key.mpr ⟨not_delete hv,by rw [hb],hf⟩
      rw [commit_record_new hd (hl _ _).ne' hse]
      obtain ⟨p,hp⟩ := last_for_some (h := k.hashed x) hse rfl
      obtain ⟨hm,heq⟩ := last_for_mem hp
      exact ⟨hl _ _,p,hp,pvt_scheduled hi hg hm heq⟩
    | none =>
      rw [hg] at hvv
      dsimp only at hvv
      split at hvv
      · cases hvv
      rename_i hk
      obtain ⟨hlt,hke,hr⟩ := hs.pvt k vv hvv
      refine ⟨by omega,hke,fun hf => ?_⟩
      obtain ⟨hle,p,hp,hpk⟩ := hr hf
      have hne : expiryOf btlPolicy k.ns k.coll vv ≠ n := by
        intro heq
        obtain ⟨kv,hkv,h1⟩ := hd.pvt k vv hvv heq
        apply hk
        refine any_eq_true.mpr ⟨⟨k.hashed x,kv⟩,AList.mem_lookup_iff.mp hkv,?_⟩
        refine decide_eq_true ⟨?_,?_⟩
        · rw [coll_key_self,h1]
          rfl
        · rw [h1]
          exact hke
      refine ⟨by omega,p,?_,hpk⟩
      rw [commit_record_old hu hd (by omega) hne]
      exact hp
  · intro c e p hp
    rw [commit_record] at hp
    split at hp
    · cases hp
    split at hp
    · obtain ⟨hlt,hr⟩ := hs.entries c e p hp
      exact ⟨by omega,hr⟩
    · obtain ⟨rfl,hr⟩ := scheduled_for_block hu hp
      exact ⟨Nat.lt_succ_self _,hr⟩

end

section
variable {b : Batch}

theorem append_to_schedule
    (hl : l.NodupKeys) (h : appendToSchedule ek l = .ok tt) (k : ExpiryInfoKey) :
    tt.lookup k = (l.dlookup k).map (ek.record k ++ ·) := by
  induction l generalizing tt with
  | nil =>
    cases h
    rfl
  | cons e l ih =>
    obtain ⟨c,nw⟩ := e
    obtain ⟨_,hl⟩ := nodupKeys_cons.mp hl
    unfold appendToSchedule at h
    split at h
    · nomatch h
    cases hr : appendToSchedule ek l with
    | error f =>
      rw [hr] at h
      nomatch h
    | ok re =>
      rw [hr] at h
      cases h
      by_cases hk : k = c
      · subst hk
        rw [AList.lookup_insert,dlookup_cons_eq]
        rfl
      have hne : k ≠ (⟨c,nw⟩ : (_ : ExpiryInfoKey) × List PvtdataKey).1 := hk
      rw [AList.lookup_insert_ne hk,dlookup_cons_ne _ _ hne]
      exact ih hl hr

theorem append_to_schedule_ok (h : ∀ e ∈ l, ek.record e.1 ≠ []) :
    ∃ toTrack, appendToSchedule ek l = .ok toTrack := by
  induction l with
  | nil => exact ⟨_,rfl⟩
  | cons e l ih =>
    obtain ⟨re,hr⟩ := ih fun e' he' => h e' (mem_cons_of_mem _ he')
    unfold appendToSchedule
    split
    · rename_i hn
      exact absurd hn (h e mem_cons_self)
    · rw [hr]
      exact ⟨_,rfl⟩

theorem update_old_blocks
    (h : updateExpiryInfoOfPvtDataOfOldBlocks x btlPolicy ek ws b = .ok (ek',ws')) :
    (∀ k, ek'.record k = ek.record k ++ scheduledFor btlPolicy (pvtScheduled x b) k) ∧
      ws' = ws.map fun ws => addMissingPvtDataToWorkingSet x ws (b.pvtKeys.map Prod.fst) := by
  obtain ⟨tt,ht,h⟩ := Outcomes.bind_ok.mp h
  cases h
  refine ⟨fun k => ?_,rfl⟩
  have hlk := append_to_schedule (expiryScheduleOf btlPolicy (pvtScheduled x b)).nodupKeys
    ht k
  rw [ExpiryKeeper.record_track,hlk]
  change (((expiryScheduleOf btlPolicy (pvtScheduled x b)).lookup k).map _).getD _ = _
  rw [schedule_lookup]
  split
  · rename_i hn
    rw [hn,append_nil]
    rfl
  · rfl

theorem add_missing_lookup (t : AList fun _ : HashedCompositeKey => KeyAndVersion) (k : CollKey)
    (h : HashedCompositeKey) :
    (addMissingPvtData x t k).lookup h = if h = k.hashed x then (t.lookup h).bind fun kv =>
        if kv.purgeKeyOnly then none else some { kv with key := k.key }
      else t.lookup h := by
  unfold addMissingPvtData
  by_cases heq : h = k.hashed x
  · subst heq
    rw [if_pos rfl]
    cases hlk : t.lookup (k.hashed x) with
    | none => exact hlk
    | some kv =>
      dsimp only
      cases ho : kv.purgeKeyOnly <;> simp [ho]
  · rw [if_neg heq]
    split
    · rfl
    split
    · exact AList.lookup_erase_ne heq
    · exact AList.lookup_insert_ne heq

theorem add_missing_other {ks : List CollKey} (hks : ∀ k ∈ ks, k.hashed x ≠ h)
    (t : AList fun _ : HashedCompositeKey => KeyAndVersion) :
    (ks.foldl (addMissingPvtData x) t).lookup h = t.lookup h := by
  induction ks generalizing t with
  | nil => rfl
  | cons k ks ih =>
    obtain ⟨hk,hks⟩ := forall_mem_cons.mp hks
    rw [foldl_cons,ih hks,add_missing_lookup,if_neg (Ne.symm hk)]

theorem add_missing_due (ks : List CollKey) (h : t.lookup hk = some kv)
    (ho : kv.purgeKeyOnly = false) :
    ∃ kv', (ks.foldl (addMissingPvtData x) t).lookup hk = some kv' ∧ kv'.purgeKeyOnly = false ∧
      (kv'.key = kv.key ∨ ∃ k ∈ ks, k.hashed x = hk ∧ kv'.key = k.key) := by
  induction ks generalizing t kv with
  | nil => exact ⟨kv,h,ho,.inl rfl⟩
  | cons k ks ih =>
    rw [foldl_cons]
    have hn := add_missing_lookup (x := x) t k hk
    by_cases heq : hk = k.hashed x
    · rw [if_pos heq,h,bind_some,ho,if_neg Bool.false_ne_true] at hn
      obtain ⟨kv',hkv',ho',hke⟩ := ih hn rfl
      refine ⟨kv',hkv',ho',.inr ?_⟩
      rcases hke with hke | ⟨k',hk',hr⟩
      · exact ⟨k,mem_cons_self,heq.symm,hke⟩
      · exact ⟨k',mem_cons_of_mem _ hk',hr⟩
    · rw [if_neg heq] at hn
      obtain ⟨kv',hkv',ho',hke⟩ := ih (hn.trans h) ho
      refine ⟨kv',hkv',ho',?_⟩
      rcases hke with hke | ⟨k',hk',hr⟩
      · exact .inl hke
      · exact .inr ⟨k',mem_cons_of_mem _ hk',hr⟩

theorem add_missing_source {ks : List CollKey}
    {t : AList fun _ : HashedCompositeKey => KeyAndVersion}
    (h : (ks.foldl (addMissingPvtData x) t).lookup hk = some kv) :
    ∃ k₀, t.lookup hk = some k₀ ∧ k₀.purgeKeyOnly = kv.purgeKeyOnly := by
  induction ks generalizing t with
  | nil => exact ⟨kv,h,rfl⟩
  | cons k ks ih =>
    obtain ⟨k₁,hkv₁,ho⟩ := ih h
    rw [add_missing_lookup] at hkv₁
    split at hkv₁
    · obtain ⟨k₀,hkv₀,heq⟩ := bind_eq_some_iff.mp hkv₁
      split at heq
      · nomatch heq
      · cases heq
        exact ⟨k₀,hkv₀,ho⟩
    · exact ⟨k₁,hkv₁,ho⟩

theorem reconciled_hashed (f : FreshUpdates x db writes b) (h : HashedCompositeKey) :
    (db.applyPrivacyAwareUpdates ⟨∅,b⟩).state h.space h.keyHash = db.state h.space h.keyHash :=
  f.other_state rfl

theorem reconciled_version (f : FreshUpdates x db writes b) {k : CollKey}
    (hg : b.get k.space k.key = some vv) (hva : vv.value ≠ []) :
    ∃ hv, db.state (k.hashed x).space (k.hashed x).keyHash = some hv ∧ vv.version = hv.version := by
  obtain ⟨_,_,hv,_,hst,hve,_⟩ := f.put hg hva
  exact ⟨hv,hst,hve⟩

theorem reconciled_scheduled (f : FreshUpdates x db writes b)
    (hp : p ∈ scheduledFor btlPolicy (pvtScheduled x b) r) :
    ∃ (k : CollKey) (hv : VersionedValue), p = ⟨k.ns,k.coll,k.key,x.computeHash k.key⟩ ∧
      db.state (k.hashed x).space (k.hashed x).keyHash = some hv ∧
      r = ⟨hv.version.blockNum,expiryOf btlPolicy k.ns k.coll hv⟩ ∧ r.expiryBlk ≠ maxUint64 := by
  obtain ⟨vv,hm,hi⟩ := mem_scheduled_for.mp hp
  obtain ⟨k,hg,rfl⟩ := mem_pvt_scheduled.mp hm
  obtain ⟨hd,hr,hf⟩ := expiry_info_key.mp hi
  have hva : vv.value ≠ [] := by
    intro hn
    rw [VersionedValue.is_delete_iff.mpr hn] at hd
    nomatch hd
  obtain ⟨hv,hst,hve⟩ := reconciled_version f hg hva
  rw [hve] at hr
  exact ⟨k,hv,rfl,hst,hr,hf⟩

variable (hi : Function.Injective x.computeHash)
include hi

theorem pvt_scheduled_key {k : CollKey}
    (hp : p ∈ scheduledFor btlPolicy (pvtScheduled x b) r) (heq : p.hashed = k.hashed x) :
    p.key = k.key := by
  obtain ⟨w,hm,_⟩ := mem_scheduled_for.mp hp
  obtain ⟨k',_,rfl⟩ := mem_pvt_scheduled.mp hm
  exact hi (congrArg HashedCompositeKey.keyHash heq)

theorem ScheduledBefore.reconcile (hs : ScheduledBefore x btlPolicy db ek n)
    (f : FreshUpdates x db writes b)
    (hn : ∀ (k : CollKey) vv, b.get k.space k.key = some vv → k.key ≠ [])
    (hrc : ∀ k, ek'.record k = ek.record k ++ scheduledFor btlPolicy (pvtScheduled x b) k) :
    ScheduledBefore x btlPolicy (db.applyPrivacyAwareUpdates ⟨∅,b⟩) ek' n := by
  constructor
  · intro h vv hvv
    rw [reconciled_hashed f] at hvv
    obtain ⟨hlt,hre⟩ := hs.hashed h vv hvv
    refine ⟨hlt,fun hf => ?_⟩
    obtain ⟨hle,p,hp⟩ := hre hf
    refine ⟨hle,?_⟩
    rw [hrc,last_for_append,hp]
    cases lastFor (scheduledFor btlPolicy (pvtScheduled x b) _) h <;> exact ⟨_,rfl⟩
  · intro k vv hvv
    rcases reconciled_state hvv with ⟨hg,hva⟩ | ⟨hg,ho⟩
    · obtain ⟨hv,hst,hve⟩ := reconciled_version f hg hva
      obtain ⟨hlt,hre⟩ := hs.hashed _ _ hst
      have he : expiryOf btlPolicy k.ns k.coll vv =
          expiryOf btlPolicy (k.hashed x).ns (k.hashed x).coll hv := by
        unfold expiryOf
        rw [hve]
        rfl
      refine ⟨hve ▸ hlt,hn k vv hg,fun hf => ?_⟩
      obtain ⟨hle,_⟩ := hre (he ▸ hf)
      refine ⟨he ▸ hle,?_⟩
      have hse : (⟨k.ns,k.coll,k.key,x.computeHash k.key⟩ : PvtdataKey) ∈
          scheduledFor btlPolicy (pvtScheduled x b)
            ⟨vv.version.blockNum,expiryOf btlPolicy k.ns k.coll vv⟩ :=
        mem_scheduled_for.mpr ⟨vv,mem_pvt_scheduled.mpr ⟨k,hg,rfl⟩,
          expiry_info_key.mpr ⟨not_delete hva,rfl,hf⟩⟩
      obtain ⟨p,hp⟩ := last_for_some (h := k.hashed x) hse rfl
      obtain ⟨hm,heq⟩ := last_for_mem hp
      refine ⟨p,?_,pvt_scheduled_key hi hm heq⟩
      rw [hrc,last_for_append,hp]
      rfl
    · obtain ⟨hlt,hk,hre⟩ := hs.pvt k vv ho
      refine ⟨hlt,hk,fun hf => ?_⟩
      obtain ⟨hle,p,hp,hpk⟩ := hre hf
      refine ⟨hle,?_⟩
      rw [hrc,last_for_append,hp]
      cases hne : lastFor (scheduledFor btlPolicy (pvtScheduled x b) _) (k.hashed x) with
      | none => exact ⟨p,rfl,hpk⟩
      | some q =>
        obtain ⟨hm,heq⟩ := last_for_mem hne
        exact ⟨q,rfl,pvt_scheduled_key hi hm heq⟩
  · intro c e p hp
    rw [hrc] at hp
    rcases mem_append.mp hp with hp | hp
    · exact hs.entries c e p hp
    obtain ⟨k,hv,rfl,hst,hr,hf⟩ := reconciled_scheduled f hp
    cases hr
    exact ⟨(hs.hashed _ _ hst).1,rfl,hf⟩

theorem DueAt.reconcile (hd : DueAt x btlPolicy db ws n) (f : FreshUpdates x db writes b) :
    DueAt x btlPolicy (db.applyPrivacyAwareUpdates ⟨∅,b⟩)
      (addMissingPvtDataToWorkingSet x ws (b.pvtKeys.map Prod.fst)) n := by
  constructor
  · intro h vv hvv he
    rw [reconciled_hashed f] at hvv
    obtain ⟨kv,hkv,ho⟩ := hd.hashed h vv hvv he
    obtain ⟨kv',hkv',ho',_⟩ := add_missing_due (b.pvtKeys.map Prod.fst) hkv ho
    exact ⟨kv',hkv',ho'⟩
  · intro h kv hkv ho
    obtain ⟨k₀,hkv₀,hs⟩ := add_missing_source hkv
    rw [reconciled_hashed f]
    exact hd.exact h k₀ hkv₀ (hs.trans ho)
  · intro k vv hvv he
    have hs : ∀ k' : CollKey, k'.hashed x = k.hashed x → k' = k := by
      intro k' heq
      obtain ⟨ns,co,ke⟩ := k
      obtain ⟨n',c',ke'⟩ := k'
      cases congrArg HashedCompositeKey.ns heq
      cases congrArg HashedCompositeKey.coll heq
      cases hi (congrArg HashedCompositeKey.keyHash heq)
      rfl
    rcases reconciled_state hvv with ⟨hg,hva⟩ | ⟨hg,hl⟩
    · obtain ⟨hv,hst,hve⟩ := reconciled_version f hg hva
      have he' : expiryOf btlPolicy (k.hashed x).ns (k.hashed x).coll hv = n := by
        rw [← he]
        unfold expiryOf
        rw [hve]
        rfl
      obtain ⟨kv,hkv,ho⟩ := hd.hashed _ _ hst he'
      have hm : k ∈ b.pvtKeys.map Prod.fst := mem_map.mpr ⟨_,mem_pvt_keys.mpr hg,rfl⟩
      obtain ⟨as,bs,hsp⟩ := append_of_mem hm
      obtain ⟨k₁,hkv₁,ho₁,_⟩ := add_missing_due as hkv ho
      have hat : (addMissingPvtData x (as.foldl (addMissingPvtData x) ws.toPurge) k).lookup
          (k.hashed x) = some ⟨k.key,k₁.committingBlock,false⟩ := by
        rw [add_missing_lookup,if_pos rfl,hkv₁,bind_some,ho₁,if_neg Bool.false_ne_true]
      obtain ⟨kv',hkv',_,hk⟩ := add_missing_due bs hat rfl
      refine ⟨kv',?_,?_⟩
      · change ((b.pvtKeys.map Prod.fst).foldl (addMissingPvtData x) ws.toPurge).lookup _ = _
        rw [hsp,foldl_append,foldl_cons]
        exact hkv'
      rcases hk with hk | ⟨k',_,heq,hk⟩
      · exact hk
      · rw [hk,hs k' heq]
    · obtain ⟨kv,hkv,hk⟩ := hd.pvt k vv hl he
      refine ⟨kv,(add_missing_other ?_ _).trans hkv,hk⟩
      intro k' hk' heq
      obtain ⟨⟨q,w⟩,hq,rfl⟩ := mem_map.mp hk'
      have hq' := mem_pvt_keys.mp hq
      rw [hs q heq,hg] at hq'
      nomatch hq'
  · exact hd.clears

theorem ScheduledBefore.reconciled {m m' : LockBasedTxMgr}
    (hs : ScheduledBefore x btlPolicy m.db m.expKeeper n)
    (h : m.removeStaleAndCommitPvtDataOfOldBlocks x btlPolicy data = .ok m')
    (hn : ∀ w ∈ (reconciledWrites x data).getD [], w.1.key.key ≠ []) :
    ScheduledBefore x btlPolicy m'.db m'.expKeeper n ∧
      (∀ ws, m.workingset = some ws → DueAt x btlPolicy m.db ws n →
        ∃ w', m'.workingset = some w' ∧ DueAt x btlPolicy m'.db w' n) ∧
      (m.workingset = none → m'.workingset = none) := by
  obtain ⟨wr,b,hwr,f,hu,hdb⟩ := reconcile_ok h
  rw [hwr,getD_some] at hn
  obtain ⟨hr,hws⟩ := update_old_blocks hu
  have hke : ∀ (k : CollKey) vv, b.get k.space k.key = some vv → k.key ≠ [] := by
    intro k vv hg
    obtain ⟨w,hw,hk,_⟩ := f _ _ _ hg
    rw [coll_key_self] at hk
    cases hk
    exact hn w hw
  rw [hdb]
  refine ⟨hs.reconcile hi f hke hr,fun ws hso hd => ?_,fun hno => ?_⟩
  · rw [hws,hso]
    exact ⟨_,rfl,hd.reconcile hi f⟩
  · rw [hws,hno]
    rfl

end

/-- A block deletes no private key whose hash it puts, no private key is empty, and the number of
a block is not the largest one. -/
def Timely (x : Primitives) (e : Transition Ledger LedgerEvent) : Prop :=
  match e.label with
  | .commit blk pvtdata doMVCCValidation =>
    match CommitBatchPreparer.validateAndPrepareBatch x e.before.txmgr.db blk pvtdata
        doMVCCValidation with
    | .ok (u,_) => blk.num < maxUint64 ∧ Consistent x u
    | .error _ => True
  | .reconcile data => ∀ w ∈ (reconciledWrites x data).getD [], w.1.key.key ≠ []

structure Ledger.Timed (x : Primitives) (btlPolicy : BTLPolicy) (l : Ledger) : Prop where
  bound : l.blocks.length ≤ maxUint64
  scheduled : ScheduledBefore x btlPolicy l.txmgr.db l.txmgr.expKeeper l.blocks.length
  due : l.blocks.length < maxUint64 →
    DueAt x btlPolicy l.txmgr.db (l.txmgr.workingsetFor l.blocks.length) l.blocks.length

theorem initial_timed (bo : Bool) : (Ledger.initial bo).Timed x btlPolicy := by
  have hs : ScheduledBefore x btlPolicy (Ledger.initial bo).txmgr.db
      (Ledger.initial bo).txmgr.expKeeper 0 :=
    ⟨fun h vv hvv => (nomatch hvv),fun k vv hvv => (nomatch hvv),fun c e p hp => (nomatch hp)⟩
  exact ⟨Nat.zero_le _,hs,fun hn => hs.due hn⟩

theorem Prepared.at_block (h : Prepared x db blk cs entries u) (hn : blk.num = n) : AtBlock u n :=
  ⟨fun _ _ _ hg => hn ▸ h.hash_block hg,fun _ _ _ hg => hn ▸ h.pvt_block hg⟩

theorem next_timed (hi : Function.Injective x.computeHash) (e : Transition Ledger LedgerEvent)
    (h : e.before.Timed x btlPolicy)
    (he : e.before.next x btlPolicy e.label = some e.after) (ht : Timely x e) :
    e.after.Timed x btlPolicy := by
  obtain ⟨l,la,l'⟩ := e
  have hst : LedgerStep x btlPolicy l la l' := next_step he
  cases hst with
  | @commit bl pv mv u cs _ hnu hp =>
    simp only [Timely,hp] at ht
    obtain ⟨hn,hc⟩ := ht
    have hpr := preparer_prepared hp
    have hl : l.blocks.length < maxUint64 := hnu ▸ hn
    have hs := h.scheduled.commit hi (h.due hl) hl hpr.apart (hpr.at_block hnu) hc
    rw [← hnu] at hs
    have hs' : ScheduledBefore x btlPolicy (l.txmgr.commit x btlPolicy bl.num u).db
        (l.txmgr.commit x btlPolicy bl.num u).expKeeper
        (l.blocks ++ [(preprocessProtoBlock x bl,cs)]).length := by
      rw [length_append,length_singleton,← hnu]
      exact hs
    refine ⟨?_,hs',fun hlt => ?_⟩
    · rw [length_append,length_singleton]
      omega
    have hdu := hs'.due hlt
    rw [length_append,length_singleton,← hnu] at hdu ⊢
    exact hdu
  | @reconcile _ da m hr =>
    obtain ⟨hs,hdu,hno⟩ := h.scheduled.reconciled hi hr ht
    refine ⟨h.bound,hs,fun hlt => ?_⟩
    unfold LockBasedTxMgr.workingsetFor
    cases hold : l.txmgr.workingset with
    | none =>
      dsimp only
      rw [hno hold]
      exact hs.due hlt
    | some ws =>
      have hd := h.due hlt
      unfold LockBasedTxMgr.workingsetFor at hd
      rw [hold] at hd
      obtain ⟨w',hws',hd'⟩ := hdu ws hold hd
      rw [hws']
      exact hd'

def effective (x : Primitives) (e : Transition Ledger LedgerEvent) (h : HashedCompositeKey) :
    Option VersionedValue :=
  match e.label with
  | .commit blk pvtdata doMVCCValidation =>
    match CommitBatchPreparer.validateAndPrepareBatch x e.before.txmgr.db blk pvtdata
        doMVCCValidation with
    | .ok (u,_) => u.pubAndHashUpdates.get h.space h.keyHash
    | .error _ => none
  | .reconcile _ => none

def lastEffective (x : Primitives) (es : List (Transition Ledger LedgerEvent))
    (h : HashedCompositeKey) : Option VersionedValue :=
  es.foldl (fun last e => (effective x e h).or last) none

/-- A key hash is there exactly when its last update put it and has not expired. -/
def HashedExactly (x : Primitives) (btlPolicy : BTLPolicy)
    (es : List (Transition Ledger LedgerEvent)) (l : Ledger) : Prop :=
  ∀ (h : HashedCompositeKey) vv, l.txmgr.db.state h.space h.keyHash = some vv ↔
    lastEffective x es h = some vv ∧ vv.value ≠ [] ∧
      l.blocks.length ≤ vv.version.blockNum + btlPolicy.getBTL h.ns h.coll + 1

theorem purges_hash_iff {ws : Workingset} : ws.purgesHash h = true ↔
    ∃ kv, ws.toPurge.lookup h = some kv ∧ kv.purgeKeyOnly = false := by
  unfold Workingset.purgesHash
  cases ws.toPurge.lookup h with
  | none => simp
  | some kv => simp

theorem commit_hashed_exactly {l : Ledger} {u : UpdateBatch} (ht : l.Timed x btlPolicy)
    (hn : l.blocks.length < maxUint64) (ha : u.Apart) (hu : AtBlock u l.blocks.length)
    (h : HashedCompositeKey) (la : Option VersionedValue)
    (h1 : ∀ vv, l.txmgr.db.state h.space h.keyHash = some vv ↔ la = some vv ∧ vv.value ≠ [] ∧
      l.blocks.length ≤ vv.version.blockNum + btlPolicy.getBTL h.ns h.coll + 1)
    (vv : VersionedValue) :
    (l.txmgr.commit x btlPolicy l.blocks.length u).db.state h.space h.keyHash = some vv ↔
      (u.pubAndHashUpdates.get h.space h.keyHash).or la = some vv ∧ vv.value ≠ [] ∧
      l.blocks.length + 1 ≤ vv.version.blockNum + btlPolicy.getBTL h.ns h.coll + 1 := by
  have hd := ht.due hn
  rw [commit_hashed ha]
  cases hg : u.pubAndHashUpdates.get h.space h.keyHash with
  | some w =>
    have hb := hu.1 _ _ _ hg
    have hpo := get_btl_pos btlPolicy h.ns h.coll
    dsimp only
    rw [some_or]
    constructor
    · intro hvv
      split at hvv
      · nomatch hvv
      rename_i hv
      cases hvv
      exact ⟨rfl,hv,by omega⟩
    · rintro ⟨heq,hv,_⟩
      cases heq
      rw [if_neg hv]
  | none =>
    dsimp only
    rw [none_or]
    have hlt : ∀ w, l.txmgr.db.state h.space h.keyHash = some w →
        (l.blocks.length < expiryOf btlPolicy h.ns h.coll w ↔
          l.blocks.length < w.version.blockNum + btlPolicy.getBTL h.ns h.coll + 1) := by
      intro w hw
      have := (ht.scheduled.hashed h w hw).1
      exact lt_expiring_iff h.ns h.coll (by omega) hn
    constructor
    · intro hvv
      split at hvv
      · nomatch hvv
      rename_i hk
      obtain ⟨hl,hv,hle⟩ := (h1 vv).mp hvv
      refine ⟨hl,hv,?_⟩
      have hne : expiryOf btlPolicy h.ns h.coll vv ≠ l.blocks.length := by
        intro heq
        exact hk (purges_hash_iff.mpr (hd.hashed h vv hvv heq))
      have hle' : l.blocks.length ≤ expiryOf btlPolicy h.ns h.coll vv := by
        by_cases hf : expiryOf btlPolicy h.ns h.coll vv = maxUint64
        · omega
        · exact ((ht.scheduled.hashed h vv hvv).2 hf).1
      have := (hlt vv hvv).mp (by omega)
      omega
    · rintro ⟨hl,hv,hle⟩
      have hvv := (h1 vv).mpr ⟨hl,hv,by omega⟩
      rw [if_neg]
      · exact hvv
      intro hp
      obtain ⟨kv,hkv,ho⟩ := purges_hash_iff.mp hp
      obtain ⟨w,hw,he⟩ := hd.exact h kv hkv ho
      cases hvv.symm.trans hw
      have := (hlt vv hvv).mpr (by omega)
      omega

theorem run_expires (hi : Function.Injective x.computeHash)
    (h : Run (fun l e l' => Ledger.next x btlPolicy l e = some l') (.initial bo) es l)
    (hc : ∀ e ∈ es, Timely x e) : l.Timed x btlPolicy ∧ HashedExactly x btlPolicy es l := by
  induction es using List.reverseRecOn generalizing l with
  | nil =>
    cases h
    exact ⟨initial_timed bo,fun h vv => ⟨fun hvv => (nomatch hvv),fun hl => (nomatch hl.1)⟩⟩
  | append_singleton es e ih =>
    obtain ⟨hru,hs,hta⟩ := h.split_cons
    cases hta
    obtain ⟨ht,ha⟩ := ih hru fun e' he' => hc e' (mem_append_left _ he')
    have hti := hc e (mem_append_right _ mem_cons_self)
    refine ⟨next_timed hi e ht hs hti,?_⟩
    intro hk vv
    have hl : lastEffective x (es ++ [e]) hk = (effective x e hk).or (lastEffective x es hk) := by
      unfold lastEffective
      rw [foldl_append]
      rfl
    obtain ⟨l₀,la,l'⟩ := e
    have hle : LedgerStep x btlPolicy l₀ la l' := next_step hs
    rw [hl]
    cases hle with
    | @commit bl pv mv u cs _ hn hp =>
      simp only [Timely,hp] at hti
      have hpr := preparer_prepared hp
      have he : effective x ⟨l₀,.commit bl pv mv,
          ⟨l₀.blocks ++ [(preprocessProtoBlock x bl,cs)],l₀.txmgr.commit x btlPolicy bl.num u⟩⟩
            hk = u.pubAndHashUpdates.get hk.space hk.keyHash := by
        simp only [effective,hp]
      rw [he,length_append,length_singleton,hn]
      exact commit_hashed_exactly ht (hn ▸ hti.1) hpr.apart (hpr.at_block hn) hk _
        (ha hk) vv
    | @reconcile _ da m hr =>
      obtain ⟨ws,b,_,f,_,hdb⟩ := reconcile_ok hr
      rw [hdb,reconciled_hashed f]
      exact ha hk vv

/-- A key hash is there exactly when its last update put it in a block that has not expired, and no
private value of an expired block is left. -/
theorem private_data_expires (hinj : Function.Injective x.computeHash)
    (h : Run (fun l e l' => Ledger.next x btlPolicy l e = some l') (.initial bulkOptimizable) es l)
    (hc : ∀ e ∈ es, Timely x e) :
    HashedExactly x btlPolicy es l ∧ ∀ (k : CollKey) vv, l.txmgr.db.state k.space k.key = some vv →
        l.blocks.length ≤ vv.version.blockNum + btlPolicy.getBTL k.ns k.coll + 1 := by
  obtain ⟨ht,he⟩ := run_expires hinj h hc
  refine ⟨he,?_⟩
  intro k vv hvv
  obtain ⟨hlt,_,hr⟩ := ht.scheduled.pvt k vv hvv
  have hb := ht.bound
  have hs : l.blocks.length - 1 < expiryOf btlPolicy k.ns k.coll vv ↔ l.blocks.length - 1 <
      vv.version.blockNum + btlPolicy.getBTL k.ns k.coll + 1 :=
    lt_expiring_iff k.ns k.coll (by omega) (by omega)
  omega

/-- After every run, what is reconciled extends an entry of the schedule, and the entry names the key
afterwards. -/
theorem reconciled_expiry_recorded (hinj : Function.Injective x.computeHash)
    (h : Run (fun l e l' => Ledger.next x btlPolicy l e = some l') (.initial bulkOptimizable) es l)
    (hc : ∀ e ∈ es, Timely x e)
    (hb : transformToUpdateBatch
      (findAndRemoveStalePvtData x l.txmgr.db (constructUniquePvtData x ws)).entries ∅ = .ok b) :
    ∃ ek' ws', updateExpiryInfoOfPvtDataOfOldBlocks x btlPolicy l.txmgr.expKeeper l.txmgr.workingset
        b = .ok (ek',ws') ∧
      ∀ p vv r, (p,vv) ∈ pvtScheduled x b → expiryInfoKey btlPolicy p vv = some r →
        l.txmgr.expKeeper.record r ≠ [] ∧ p ∈ ek'.record r := by
  have hs := (run_expires hinj h hc).1.scheduled
  have hso : ∀ r, scheduledFor btlPolicy (pvtScheduled x b) r ≠ [] →
      l.txmgr.expKeeper.record r ≠ [] := by
    intro r hr
    obtain ⟨p,hp⟩ := exists_mem_of_ne_nil _ hr
    obtain ⟨k,hv,_,hst,rfl,hf⟩ := reconciled_scheduled (transform_fresh hb) hp
    obtain ⟨_,q,hq⟩ := (hs.hashed _ _ hst).2 hf
    exact ne_nil_of_mem (last_for_mem hq).1
  obtain ⟨toTrack,ht⟩ : ∃ toTrack, appendToSchedule l.txmgr.expKeeper
      (expiryScheduleOf btlPolicy (pvtScheduled x b)).entries = .ok toTrack := by
    refine append_to_schedule_ok fun e he => hso _ fun hn => ?_
    have hlk := AList.mem_lookup_iff.mpr he
    rw [schedule_lookup,if_pos hn] at hlk
    nomatch hlk
  obtain ⟨⟨ek',ws'⟩,hok⟩ : ∃ out, updateExpiryInfoOfPvtDataOfOldBlocks x btlPolicy
      l.txmgr.expKeeper l.txmgr.workingset b = .ok out := ⟨_,Outcomes.bind_ok.mpr ⟨_,ht,rfl⟩⟩
  refine ⟨ek',ws',hok,fun p vv r hp hi => ?_⟩
  have hm := mem_scheduled_for.mpr ⟨vv,hp,hi⟩
  rw [(update_old_blocks hok).1]
  exact ⟨hso r (ne_nil_of_mem hm),mem_append_right _ hm⟩

instance : Decidable (Timely x e) := by
  unfold Timely
  split
  · split <;> infer_instance
  · infer_instance

def oneBlockToLive : BTLPolicy := ⟨fun _ _ => 1⟩

def expiryTrace (events : List LedgerEvent) :
    Option (Ledger × List (Transition Ledger LedgerEvent)) :=
  trace (fun l e => l.next samplePrimitives oneBlockToLive e) (Ledger.initial false) events

theorem sample_hash_injective : Function.Injective samplePrimitives.computeHash := by
  intro a b h
  exact (List.cons.inj h).2

/-- Private data that are missing at first expire with block 2. -/
def expiringEvents : List LedgerEvent :=
  [.commit ⟨0,[some (sampleRwSet [1,2])]⟩ (fun _ => none) true,.commit ⟨1,[]⟩ (fun _ => none) true,
   .reconcile [(0,samplePvtData 0 [1,2])],
   .commit ⟨2,[]⟩ (fun _ => none) true]

theorem sample_expires : ∃ out, expiryTrace expiringEvents = some out ∧
    (out.1.txmgr.db.state (.hashed [97] [99]) [7,1]) = none ∧
    (out.1.txmgr.db.state (.pvt [97] [99]) [1]) = none ∧
    HashedExactly samplePrimitives oneBlockToLive out.2 out.1 := by
  have ht : ∀ e ∈ ((expiryTrace expiringEvents).get rfl).2, Timely samplePrimitives e := by
    decide
  refine ⟨_,(some_get rfl).symm,rfl,rfl,?_⟩
  exact (private_data_expires sample_hash_injective (trace_get_run rfl) ht).1

def recreatedEvents : List LedgerEvent :=
  [.commit ⟨0,[some (sampleRwSet [1,2])]⟩ (fun _ => some (samplePvtData 0 [1,2])) true,
   .commit ⟨1,[some (sampleRwSet [1,0]),some (sampleRwSet [1,3])]⟩
     (fun i => if i = 0 then some (samplePvtData 0 [1,0]) else none) true,
   .commit ⟨2,[]⟩ (fun _ => none) true,
   .commit ⟨3,[]⟩ (fun _ => none) true]

/-- The key hash of block 1 expires with block 3 and is still there afterwards. -/
theorem recreated_hash_stays : ∃ out vv, expiryTrace recreatedEvents = some out ∧
    out.1.blocks.length = 4 ∧ out.1.txmgr.db.state (.hashed [97] [99]) [7,1] = some vv ∧
    vv.version.blockNum + oneBlockToLive.getBTL [97] [99] + 1 = 3 ∧
    ¬ HashedExactly samplePrimitives oneBlockToLive out.2 out.1 := by
  refine ⟨_,⟨[7,3],[],⟨1,1⟩⟩,(some_get rfl).symm,rfl,rfl,by decide,?_⟩
  intro he
  obtain ⟨_,_,hle⟩ := (he ⟨[97],[99],[7,1]⟩ ⟨[7,3],[],⟨1,1⟩⟩).mp rfl
  exact absurd hle (by decide)

theorem missing_expiry_recorded : ∃ out b ek' ws', expiryTrace (expiringEvents.take 2) = some out ∧
    updateExpiryInfoOfPvtDataOfOldBlocks samplePrimitives oneBlockToLive out.1.txmgr.expKeeper
      out.1.txmgr.workingset b = .ok (ek',ws') ∧ ⟨[97],[99],[1],[7,1]⟩ ∈ ek'.record ⟨0,2⟩ := by
  have ht : ∀ e ∈ ((expiryTrace (expiringEvents.take 2)).get rfl).2, Timely samplePrimitives e := by
    decide
  have hb : transformToUpdateBatch (findAndRemoveStalePvtData samplePrimitives
      ((expiryTrace (expiringEvents.take 2)).get rfl).1.txmgr.db (constructUniquePvtData
        samplePrimitives [(⟨⟨[97],[99],[1]⟩,false,[2]⟩,⟨0,0⟩)])).entries ∅ = .ok _ := rfl
  obtain ⟨ek',ws',hok,he⟩ :=
    reconciled_expiry_recorded sample_hash_injective (trace_get_run rfl) ht hb
  exact ⟨_,_,ek',ws',(some_get rfl).symm,hok,(he _ ⟨[2],[],⟨0,0⟩⟩ _ (by decide) rfl).2⟩

/-- The entry of the key hash that block 1 wrote again is missing when its private data come. -/
theorem recreated_expiry_panics : ∃ out, expiryTrace (recreatedEvents.take 2) = some out ∧
    out.1.txmgr.removeStaleAndCommitPvtDataOfOldBlocks samplePrimitives oneBlockToLive
      [(1,samplePvtData 1 [1,3])] = .error (.panic .nilMap) :=
  ⟨_,(some_get rfl).symm,rfl⟩

end PluggableHcs.Txmgmt
