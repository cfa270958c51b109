import PluggableHcs.Txmgmt.TxMgr

namespace PluggableHcs.Txmgmt
open Tables Table ExpiryInfoKey
open List hiding keys

namespace ExpiryKeeper

variable (ek : ExpiryKeeper)

def record (k : ExpiryInfoKey) : List PvtdataKey :=
  (ek.retrieveByExpiryKey k).getD []

theorem record_put (e : (_ : ExpiryInfoKey) × List PvtdataKey)
    (k : ExpiryInfoKey) : (ek.put e).record k = if k = e.1 then e.2 else ek.record k := by
  obtain ⟨⟨c,x⟩,ks⟩ := e
  obtain ⟨c',x'⟩ := k
  unfold record retrieveByExpiryKey put
  rw [get_insert]
  by_cases hx : x' = x
  · subst hx
    rw [if_pos rfl,Option.bind_some,get_insert]
    by_cases hc : c' = c
    · simp [hc]
    have hne : ¬ (⟨c',x'⟩ : ExpiryInfoKey) = ⟨c,x'⟩ := fun h => hc (congrArg committingBlk h)
    rw [if_neg hc,if_neg hne]
    cases get ek x' <;> rfl
  · have hne : ¬ (⟨c',x'⟩ : ExpiryInfoKey) = ⟨c,x⟩ := fun h => hx (congrArg expiryBlk h)
    rw [if_neg hx,if_neg hne]

theorem record_clear (k k' : ExpiryInfoKey) :
    (ek.clear k).record k' = if k' = k then [] else ek.record k' := by
  obtain ⟨c,x⟩ := k
  obtain ⟨c',x'⟩ := k'
  unfold record retrieveByExpiryKey clear
  rw [get_insert]
  by_cases hx : x' = x
  · subst hx
    rw [if_pos rfl,Option.bind_some,get_filter]
    by_cases hc : c' = c
    · subst hc
      simp
    have hne : ¬ (⟨c',x'⟩ : ExpiryInfoKey) = ⟨c,x'⟩ := fun h => hc (congrArg committingBlk h)
    rw [if_neg hne]
    cases get ek x' with
    | none => rfl
    | some t => cases hg : t.get c' <;> simp [hg,Option.filter,hc]
  · have hne : ¬ (⟨c',x'⟩ : ExpiryInfoKey) = ⟨c,x⟩ := fun h => hx (congrArg expiryBlk h)
    rw [if_neg hx,if_neg hne]

theorem record_puts {l : List ((_ : ExpiryInfoKey) × List PvtdataKey)} (hl : l.NodupKeys)
    (ek : ExpiryKeeper) (k : ExpiryInfoKey) :
    (l.foldl put ek).record k = (l.dlookup k).getD (ek.record k) := by
  induction l generalizing ek with
  | nil => rfl
  | cons e l ih =>
    obtain ⟨c,ks⟩ := e
    obtain ⟨hc,hl⟩ := nodupKeys_cons.mp hl
    rw [foldl_cons,ih hl,record_put]
    by_cases hk : k = c
    · subst hk
      rw [dlookup_eq_none.mpr hc,dlookup_cons_eq]
      simp
    · have hne : k ≠ (⟨c,ks⟩ : (_ : ExpiryInfoKey) × List PvtdataKey).1 := hk
      rw [dlookup_cons_ne _ _ hne,if_neg hk]

theorem record_track (tt : ScheduleEntries) (k : ExpiryInfoKey) :
    (ek.update tt []).record k = (tt.lookup k).getD (ek.record k) :=
  record_puts tt.nodupKeys ek k

theorem record_clears (tc : List ExpiryInfoKey) (k : ExpiryInfoKey) :
    (tc.foldl clear ek).record k = if k ∈ tc then [] else ek.record k := by
  induction tc generalizing ek with
  | nil => simp
  | cons c tc ih =>
    rw [foldl_cons,ih,record_clear]
    by_cases hm : k ∈ tc
    · simp [hm]
    by_cases hk : k = c
    · simp [hk]
    · simp [hm,hk]

theorem mem_retrieve : (c,keys) ∈ ek.retrieve e ↔ ek.retrieveByExpiryKey ⟨c,e⟩ = some keys := by
  unfold retrieve retrieveByExpiryKey
  rw [← get_eq_some]
  cases h : get ek e with
  | none => simp
  | some t => simp

end ExpiryKeeper

def lastFor (l : List PvtdataKey) (h : HashedCompositeKey) : Option PvtdataKey :=
  (l.filter fun p => p.hashed = h).getLast?

theorem last_for_append (l l' : List PvtdataKey) (h : HashedCompositeKey) :
    lastFor (l ++ l') h = (lastFor l' h).or (lastFor l h) := by
  unfold lastFor
  rw [filter_append,List.getLast?_append]

theorem last_for_mem (hp : lastFor l h = some p) : p ∈ l ∧ p.hashed = h := by
  obtain ⟨hm,heq⟩ := mem_filter.mp (mem_of_getLast? hp)
  exact ⟨hm,of_decide_eq_true heq⟩

theorem last_for_some (hp : p ∈ l) (heq : p.hashed = h) : ∃ q, lastFor l h = some q := by
  unfold lastFor
  cases hl : (l.filter fun p => p.hashed = h).getLast? with
  | some q => exact ⟨q,rfl⟩
  | none =>
    rw [List.getLast?_eq_none_iff,filter_eq_nil_iff] at hl
    exact absurd (decide_eq_true heq) (hl p hp)

section
variable {x : Primitives} {btlPolicy : BTLPolicy}

def scheduledFor (btlPolicy : BTLPolicy) (us : List (PvtdataKey × VersionedValue))
    (k : ExpiryInfoKey) : List PvtdataKey :=
  (us.filter fun u => expiryInfoKey btlPolicy u.1 u.2 = some k).map Prod.fst

theorem schedule_lookup (us : List (PvtdataKey × VersionedValue)) (k : ExpiryInfoKey) :
    (expiryScheduleOf btlPolicy us).lookup k =
      if scheduledFor btlPolicy us k = [] then none else some (scheduledFor btlPolicy us k) := by
  induction us using List.reverseRecOn with
  | nil => rfl
  | append_singleton us u ih =>
    have hf : expiryScheduleOf btlPolicy (us ++ [u]) =
        (expiryScheduleOf btlPolicy us).add btlPolicy u := by
      unfold expiryScheduleOf
      rw [foldl_append]
      rfl
    have hs : scheduledFor btlPolicy (us ++ [u]) k = scheduledFor btlPolicy us k ++
        (if expiryInfoKey btlPolicy u.1 u.2 = some k then [u.1] else []) := by
      unfold scheduledFor
      by_cases hk : expiryInfoKey btlPolicy u.1 u.2 = some k <;> simp [hk]
    rw [hf,hs,ScheduleEntries.add]
    cases hi : expiryInfoKey btlPolicy u.1 u.2 with
    | none => simpa using ih
    | some k' =>
      by_cases hk : k = k'
      · subst hk
        simp only [AList.lookup_insert,if_true,ih]
        by_cases hn : scheduledFor btlPolicy us k = [] <;> simp [hn]
      have hne : ¬ k' = k := fun h => hk h.symm
      simp only [AList.lookup_insert_ne hk,Option.some.injEq,hne,if_false,append_nil]
      exact ih

theorem mem_scheduled_for : p ∈ scheduledFor btlPolicy us k ↔
      ∃ vv, (p,vv) ∈ us ∧ expiryInfoKey btlPolicy p vv = some k := by
  unfold scheduledFor
  simp only [mem_map,mem_filter,decide_eq_true_eq]
  constructor
  · rintro ⟨⟨q,vv⟩,⟨hm,hk⟩,rfl⟩
    exact ⟨vv,hm,hk⟩
  · rintro ⟨vv,hm,hk⟩
    exact ⟨(p,vv),⟨hm,hk⟩,rfl⟩

theorem expiry_info_key : expiryInfoKey btlPolicy p vv = some k ↔ vv.isDelete = false ∧
      k = ⟨vv.version.blockNum,btlPolicy.getExpiringBlock p.ns p.coll vv.version.blockNum⟩ ∧
      k.expiryBlk ≠ maxUint64 := by
  unfold expiryInfoKey
  dsimp only
  split
  · rename_i hn
    rw [Bool.or_eq_true,decide_eq_true_eq] at hn
    constructor
    · intro h
      nomatch h
    rintro ⟨hd,rfl,hf⟩
    rcases hn with h | h
    · rw [h] at hd
      nomatch hd
    · exact absurd h hf
  · rename_i hs
    rw [Bool.or_eq_true,decide_eq_true_eq,not_or,Bool.not_eq_true] at hs
    constructor
    · intro h
      cases h
      exact ⟨hs.1,rfl,hs.2⟩
    · rintro ⟨_,rfl,_⟩
      rfl

theorem mem_pvt_scheduled : (p,vv) ∈ pvtScheduled x b ↔
    ∃ k : CollKey, b.get k.space k.key = some vv ∧ p = ⟨k.ns,k.coll,k.key,x.computeHash k.key⟩ := by
  constructor
  · intro h
    obtain ⟨⟨k,v⟩,hm,heq⟩ := mem_map.mp h
    obtain ⟨rfl,rfl⟩ := Prod.mk.inj heq
    exact ⟨k,mem_pvt_keys.mp hm,rfl⟩
  · rintro ⟨k,hg,rfl⟩
    exact mem_map.mpr ⟨(k,vv),mem_pvt_keys.mpr hg,rfl⟩

theorem mem_hash_scheduled : (p,vv) ∈ hashScheduled x b b' ↔
    ∃ h : HashedCompositeKey, b'.get h.space h.keyHash = some vv ∧
      (∀ k : CollKey, k.hashed x = h → b.get k.space k.key = none) ∧
      p = ⟨h.ns,h.coll,[],h.keyHash⟩ := by
  constructor
  · intro hm
    obtain ⟨⟨h,v⟩,hf,heq⟩ := mem_map.mp hm
    obtain ⟨rfl,rfl⟩ := Prod.mk.inj heq
    obtain ⟨hke,ho⟩ := mem_filter.mp hf
    refine ⟨h,mem_hashed_keys.mp hke,?_,rfl⟩
    intro k hk
    cases hg : b.get k.space k.key with
    | none => rfl
    | some w =>
      exact absurd (mem_map.mpr ⟨(k,w),mem_pvt_keys.mpr hg,hk⟩) (of_decide_eq_true ho)
  · rintro ⟨h,hg,hn,rfl⟩
    refine mem_map.mpr ⟨(h,vv),mem_filter.mpr ⟨mem_hashed_keys.mpr hg,?_⟩,rfl⟩
    apply decide_eq_true
    intro hm
    obtain ⟨⟨k,w⟩,hk,heq⟩ := mem_map.mp hm
    rw [mem_pvt_keys,hn k heq] at hk
    nomatch hk

end

theorem transform_lookup_from (l : List (Nat × PvtdataKey))
    (m : AList fun _ : HashedCompositeKey => KeyAndVersion) (h : HashedCompositeKey) :
    (l.foldl (fun m e => m.insert e.2.hashed ⟨e.2.key,e.1,false⟩) m).lookup h =
      (((l.filter fun e => e.2.hashed = h).getLast?).map fun e => ⟨e.2.key,e.1,false⟩).or
        (m.lookup h) := by
  induction l generalizing m with
  | nil => rfl
  | cons e l ih =>
    rw [foldl_cons,ih,filter_cons]
    by_cases heq : e.2.hashed = h
    · subst heq
      rw [if_pos (decide_eq_true rfl),AList.lookup_insert,List.getLast?_cons]
      cases (l.filter fun e' => e'.2.hashed = e.2.hashed).getLast? <;> simp
    · rw [if_neg (by simpa using heq),AList.lookup_insert_ne fun h' => heq h'.symm]

theorem transform_last {io : List (Nat × List PvtdataKey)}
    (h : ((io.flatMap fun i => i.2.map (i.1,·)).filter fun e => e.2.hashed = k).getLast? =
      some (c,p)) : ∃ ks, (c,ks) ∈ io ∧ lastFor ks k = some p := by
  induction io with
  | nil => nomatch h
  | cons i io ih =>
    rw [flatMap_cons,filter_append,List.getLast?_append] at h
    cases hr : ((io.flatMap fun i => i.2.map (i.1,·)).filter
        fun e => e.2.hashed = k).getLast? with
    | some l =>
      rw [hr,Option.some_or] at h
      obtain ⟨ks,hm,hl⟩ := ih (hr.trans h)
      exact ⟨ks,mem_cons_of_mem _ hm,hl⟩
    | none =>
      rw [hr,Option.none_or,filter_map,List.getLast?_map] at h
      obtain ⟨q,hq,heq⟩ := Option.map_eq_some_iff.mp h
      obtain ⟨rfl,rfl⟩ := Prod.mk.inj heq
      exact ⟨i.2,mem_cons_self,hq⟩

theorem transform_lookup {ek : ExpiryKeeper}
    (h : (transformToExpiryInfoMap (ek.retrieve e)).lookup k = some kv) :
    ∃ c p, lastFor (ek.record ⟨c,e⟩) k = some p ∧ kv = ⟨p.key,c,false⟩ := by
  unfold transformToExpiryInfoMap at h
  rw [transform_lookup_from] at h
  cases hl : ((((ek.retrieve e).flatMap fun i => i.2.map (i.1,·)).filter
      fun e => e.2.hashed = k).getLast?) with
  | none =>
    rw [hl] at h
    nomatch h
  | some l =>
    obtain ⟨c,p⟩ := l
    rw [hl] at h
    cases h
    obtain ⟨ks,hm,hp⟩ := transform_last hl
    refine ⟨c,p,?_,rfl⟩
    rw [ExpiryKeeper.record,(ExpiryKeeper.mem_retrieve ek).mp hm]
    exact hp

theorem transform_some {ek : ExpiryKeeper} (hp : p ∈ ek.record ⟨c,e⟩) :
    ∃ kv, (transformToExpiryInfoMap (ek.retrieve e)).lookup p.hashed = some kv := by
  unfold transformToExpiryInfoMap
  rw [transform_lookup_from]
  cases hl : ((((ek.retrieve e).flatMap fun i => i.2.map (i.1,·)).filter
      fun e => e.2.hashed = p.hashed).getLast?) with
  | some l => exact ⟨_,rfl⟩
  | none =>
    rw [List.getLast?_eq_none_iff,filter_eq_nil_iff] at hl
    unfold ExpiryKeeper.record at hp
    cases hk : ek.retrieveByExpiryKey ⟨c,e⟩ with
    | none =>
      rw [hk] at hp
      nomatch hp
    | some ks =>
      rw [hk] at hp
      refine absurd (decide_eq_true rfl) (hl (c,p) ?_)
      exact mem_flatMap.mpr ⟨(c,ks),(ExpiryKeeper.mem_retrieve ek).mpr hk,mem_map.mpr ⟨p,hp,rfl⟩⟩

end PluggableHcs.Txmgmt
