import PluggableHcs.Hcs.AppMsgProcessor

namespace PluggableHcs.Hcs
open List hiding keys
open AList hiding keys

/-- What holds of a holder that waits for more chunks. -/
structure ChunkHolder.Waiting (h : ChunkHolder) (key : HolderKey) : Prop where
  key_eq : h.key = key
  linked : h.el = true
  counted : h.received = h.chunks.countP Option.isSome
  started : 1 ≤ h.received
  incomplete : h.received < h.chunks.length

structure Reassembler.Listed (r : Reassembler) : Prop where
  waiting : ∀ k h, r.holders.lookup k = some h → h.Waiting k
  listed : ∀ k, k ∈ r.holderListByAge ↔ k ∈ r.holders
  list_nodup : r.holderListByAge.Nodup
  pairs_nodup : r.holdersByAppID.Nodup

open Reassembler

structure Reassembler.WellFormed (r : Reassembler) : Prop extends r.Listed where
  paired : ∀ a k, (a,k) ∈ r.holdersByAppID ↔ ∃ h, r.holders.lookup k = some h ∧ a = Text.hex h.appID

theorem new_well_formed (ti : Int) : (newReassembler ti).WellFormed where
  waiting := by intro k h hl; simp [newReassembler] at hl
  listed := by intro k; simp [newReassembler]
  list_nodup := nodup_nil
  paired := by intro a k; simp [newReassembler]
  pairs_nodup := nodup_nil

variable {r : Reassembler}

theorem not_pending_iff : r.isPending = false ↔ ∀ k h, r.holders.lookup k ≠ some h := by
  simp only [isPending,decide_eq_false_iff_not,not_not,length_eq_zero_iff]
  constructor
  · intro he k h hl
    have hm := mem_lookup_iff.mp hl
    simp [he] at hm
  · intro hno
    apply eq_nil_iff_forall_not_mem.mpr
    intro en hen
    exact hno en.1 en.2 (mem_lookup_iff.mpr hen)

theorem lookup_remove (hl : (r.removeHolder h b).holders.lookup k = some g) :
    k ≠ h.key ∧ r.holders.lookup k = some g := by
  by_cases hk : k = h.key
  · subst hk
    simp [Reassembler.removeHolder] at hl
  · exact ⟨hk,by rwa [Reassembler.removeHolder,lookup_erase_ne hk] at hl⟩

theorem Reassembler.WellFormed.remove (hw : r.WellFormed)
    (hl : r.holders.lookup k = some h) (hk : h'.key = k) (he : h'.el = true)
    (ha : h'.appID = h.appID) : (r.removeHolder h' true).WellFormed := by
  subst hk
  refine ⟨⟨fun j g hj => hw.waiting j g (lookup_remove hj).2,?_,?_,?_⟩,?_⟩
  · intro j
    simp only [removeHolder,he,if_true,mem_erase,hw.list_nodup.mem_erase_iff,hw.listed]
  · simp only [removeHolder,he,if_true]
    exact hw.list_nodup.erase _
  · simp only [removeHolder,if_true]
    exact hw.pairs_nodup.erase _
  · intro a j
    simp only [removeHolder,if_true,ha,hw.pairs_nodup.mem_erase_iff,hw.paired]
    constructor
    · rintro ⟨hne,g,hg,rfl⟩
      have hjk : j ≠ h'.key := by
        rintro rfl
        rw [hl] at hg
        cases hg
        exact hne rfl
      exact ⟨g,by rw [lookup_erase_ne hjk]; exact hg,rfl⟩
    · rintro ⟨g,hg,rfl⟩
      obtain ⟨hjk,hg⟩ := lookup_remove (b := true) hg
      exact ⟨fun hp => hjk (Prod.mk.inj hp).2,g,hg,rfl⟩

theorem expire_loop_keeps {P : Reassembler → Prop} (hr : P r) (no : Time) (ks : List HolderKey)
    (hs : ∀ {r k h}, P r → r.holders.lookup k = some h → P (r.removeHolder h true)) :
    P (expireLoop no ks r).1 := by
  induction ks generalizing r with
  | nil => exact hr
  | cons k ks ih =>
    simp only [expireLoop]
    cases hl : r.holders.lookup k with
    | none => exact hr
    | some h =>
      simp only
      split
      · exact ih (hs hr hl)
      · exact hr

theorem expire_keys_keeps {P : Reassembler → Prop} (hr : P r) (ks : List HolderKey)
    (hs : ∀ {r k h}, P r → r.holders.lookup k = some h → P (r.removeHolder h false)) :
    P (expireKeys ks r).1 := by
  induction ks generalizing r with
  | nil => exact hr
  | cons k ks ih =>
    simp only [expireKeys]
    cases hl : r.holders.lookup k with
    | none => exact ih hr
    | some h => exact ih (hs hr hl)

theorem finish_fst (r : Reassembler) (no : Time) (o : Except ReassembleError (Bytes × Bytes)) :
    (r.finish no o).1 = (r.expireByTimestamp no).1 := by
  cases o <;> rfl

theorem Reassembler.WellFormed.finish (hw : r.WellFormed) (no : Time)
    (o : Except ReassembleError (Bytes × Bytes)) : (r.finish no o).1.WellFormed := by
  rw [finish_fst]
  refine expire_loop_keeps hw no _ fun hw hl => ?_
  have hwa := hw.waiting _ _ hl
  exact hw.remove hl hwa.key_eq hwa.linked rfl

theorem finish_timeout (r : Reassembler) (no : Time) (o : Except ReassembleError (Bytes × Bytes)) :
    (r.finish no o).1.reassembleTimeout = r.reassembleTimeout := by
  rw [finish_fst]
  exact expire_loop_keeps (P := fun s => s.reassembleTimeout = r.reassembleTimeout) rfl no _
    fun h _ => h

theorem holder_for_cases (r : Reassembler) (ke : HolderKey) (n : Int) (a : Bytes) :
    (∃ h, r.holders.lookup ke = some h ∧ r.holderFor ke n a = (r,h)) ∨
    (r.holders.lookup ke = none ∧ r.holderFor ke n a = ({ r with
          holders := r.holders.insert ke (newChunkHolder n ke a)
          holdersByAppID := r.holdersByAppID.insert (Text.hex a,ke) },
        newChunkHolder n ke a)) := by
  unfold holderFor
  cases hl : r.holders.lookup ke with
  | some h => exact Or.inl ⟨h,rfl,rfl⟩
  | none => exact Or.inr ⟨rfl,rfl⟩

theorem count_set_some {l : List (Option α)} {i : Nat} (h : l[i]? = some none) (a : α) :
    (l.set i (some a)).countP Option.isSome = l.countP Option.isSome + 1 := by
  obtain ⟨hi,hn⟩ := List.getElem?_eq_some_iff.mp h
  simp [countP_set hi,hn]

theorem lookup_keep (r : Reassembler) (h : ChunkHolder) :
    (r.keep h).holders.lookup h.key = some { h with el := true } := by
  simp [Reassembler.keep]

theorem lookup_keep_ne (r : Reassembler) (h : ChunkHolder) (hk : k ≠ h.key) :
    (r.keep h).holders.lookup k = r.holders.lookup k := by
  simp [Reassembler.keep,lookup_insert_ne hk]

theorem Reassembler.WellFormed.keep_old (hw : r.WellFormed) (ts : Time)
    (hl : r.holders.lookup k = some h) (hi : h.chunks[chunk.chunkIndex.toNat]? = some none)
    (hr : (h.add chunk ts).received ≠ (h.add chunk ts).chunks.length) :
    (r.keep (h.add chunk ts)).WellFormed := by
  have hwa := hw.waiting k h hl
  have hk : (h.add chunk ts).key = k := hwa.key_eq
  have hel : (h.add chunk ts).el = true := hwa.linked
  refine ⟨⟨?_,?_,?_,hw.pairs_nodup⟩,?_⟩
  · intro j g hj
    simp only [keep,hk] at hj
    by_cases hjk : j = k
    · subst hjk
      rw [lookup_insert] at hj
      cases hj
      have hc := count_set_some hi chunk
      have hle := hwa.incomplete
      refine ⟨rfl,rfl,?_,?_,?_⟩ <;>
        simp only [ChunkHolder.add,length_set,hwa.counted] at * <;> omega
    · rw [lookup_insert_ne hjk] at hj
      exact hw.waiting j g hj
  · intro j
    simp only [keep,hk,hel,if_true,mem_append,hw.list_nodup.mem_erase_iff,hw.listed,
      mem_singleton,mem_insert]
    by_cases hjk : j = k <;> simp [hjk]
  · simp only [keep,hk,hel,if_true]
    apply List.Nodup.append (hw.list_nodup.erase k) (by simp)
    intro j hj hjk
    rw [mem_singleton.mp hjk] at hj
    exact (hw.list_nodup.mem_erase_iff.mp hj).1 rfl
  · intro a j
    simp only [keep,hk,hw.paired]
    by_cases hjk : j = k
    · subst hjk
      simp [lookup_insert,hl,ChunkHolder.add]
    · rw [lookup_insert_ne hjk]

theorem Reassembler.WellFormed.keep_new (hw : r.WellFormed) (ts : Time)
    (hl : r.holders.lookup k = none) (hn : 1 < n)
    (hi : (newChunkHolder n k a).chunks[chunk.chunkIndex.toNat]? = some none) :
    (Reassembler.keep { r with
        holders := r.holders.insert k (newChunkHolder n k a)
        holdersByAppID := r.holdersByAppID.insert (Text.hex a,k) }
      ((newChunkHolder n k a).add chunk ts)).WellFormed := by
  have hno : k ∉ r.holders := lookup_eq_none.mp hl
  have hnl : k ∉ r.holderListByAge := fun h => hno ((hw.listed k).mp h)
  refine ⟨⟨?_,?_,?_,?_⟩,?_⟩
  · intro j g hj
    simp only [keep,ChunkHolder.add,newChunkHolder,insert_insert] at hj
    by_cases hjk : j = k
    · subst hjk
      rw [lookup_insert] at hj
      cases hj
      have hc := count_set_some hi chunk
      simp only [newChunkHolder,countP_replicate] at hc
      refine ⟨rfl,rfl,?_,?_,?_⟩ <;>
        simp only [length_set,length_replicate] <;> simp_all
    · rw [lookup_insert_ne hjk] at hj
      exact hw.waiting j g hj
  · intro j
    simp only [keep,ChunkHolder.add,newChunkHolder,Bool.false_eq_true,if_false,mem_append,
      hw.listed,mem_singleton,mem_insert]
    tauto
  · simp only [keep,ChunkHolder.add,newChunkHolder,Bool.false_eq_true,if_false]
    apply List.Nodup.append hw.list_nodup (by simp)
    intro j hj hjk
    rw [mem_singleton.mp hjk] at hj
    exact hnl hj
  · simp only [keep]
    exact hw.pairs_nodup.insert
  · intro b j
    simp only [keep,ChunkHolder.add,newChunkHolder,insert_insert,mem_insert_iff,
      Prod.mk.injEq,hw.paired]
    by_cases hjk : j = k
    · subst hjk
      simp [lookup_insert,hl]
    · simp [lookup_insert_ne hjk,hjk]

/-- The pairs of the visited keys are gone before the loop of ExpireByAppID starts; within it the
pairs describe the other holders. -/
structure Reassembler.Expiring (r : Reassembler) (keys : List HolderKey) : Prop
    extends r.Listed where
  paired : ∀ a k, (a,k) ∈ r.holdersByAppID ↔
    k ∉ keys ∧ ∃ h, r.holders.lookup k = some h ∧ a = Text.hex h.appID

theorem Reassembler.Expiring.skip (he : r.Expiring (k :: ks))
    (hl : r.holders.lookup k = none) : r.Expiring ks where
  toListed := he.toListed
  paired := by
    intro a j
    rw [he.paired,mem_cons]
    constructor
    · rintro ⟨hj,h⟩
      exact ⟨fun hm => hj (Or.inr hm),h⟩
    · rintro ⟨hj,h,hg,rfl⟩
      refine ⟨?_,h,hg,rfl⟩
      rintro (rfl | hm)
      · rw [hl] at hg; cases hg
      · exact hj hm

theorem Reassembler.Expiring.drop (he : r.Expiring (k :: keys))
    (hl : r.holders.lookup k = some h) : (r.removeHolder h false).Expiring keys := by
  have hw := he.waiting k h hl
  refine ⟨⟨fun j g hj => he.waiting j g (lookup_remove hj).2,?_,?_,he.pairs_nodup⟩,?_⟩
  · intro j
    simp only [removeHolder,hw.key_eq,hw.linked,if_true,mem_erase,
      he.list_nodup.mem_erase_iff,he.listed]
  · simp only [removeHolder,hw.linked,if_true]
    exact he.list_nodup.erase _
  · intro a j
    simp only [removeHolder,hw.key_eq,Bool.false_eq_true,if_false,he.paired,mem_cons]
    by_cases hjk : j = k
    · subst hjk; simp
    · simp [hjk,lookup_erase_ne hjk]

theorem expire_keys_well_formed {ks : List HolderKey}
    (he : r.Expiring ks) : (expireKeys ks r).1.WellFormed := by
  induction ks generalizing r with
  | nil => exact ⟨he.toListed,by simpa [expireKeys] using he.paired⟩
  | cons k ks ih =>
    simp only [expireKeys]
    cases hl : r.holders.lookup k with
    | none => exact ih (he.skip hl)
    | some h => exact ih (he.drop hl)

variable {r' : Reassembler}

theorem Reassembler.WellFormed.expire_by_app_id (hw : r.WellFormed)
    (h : r.expireByAppID appID = some (r',cs)) : r'.WellFormed := by
  unfold expireByAppID at h
  split at h
  · cases h
  obtain rfl := congrArg Prod.fst (Option.some.inj h)
  apply expire_keys_well_formed
  refine ⟨⟨hw.waiting,hw.listed,hw.list_nodup,hw.pairs_nodup.filter _⟩,?_⟩
  intro a k
  have hk : k ∈ r.appHolders appID ↔ (Text.hex appID,k) ∈ r.holdersByAppID := by
    simp [appHolders]
  simp only [mem_filter,decide_eq_true_eq,hk,hw.paired]
  constructor
  · rintro ⟨⟨h,hl,rfl⟩,hne⟩
    refine ⟨?_,h,hl,rfl⟩
    rintro ⟨g,hg,he⟩
    rw [hl] at hg
    cases hg
    exact hne he.symm
  · rintro ⟨hn,h,hl,rfl⟩
    exact ⟨⟨h,hl,rfl⟩,fun he => hn ⟨h,hl,he.symm⟩⟩

/-- What a call of Reassemble that returns has done. -/
inductive ReassembleStep (x : Externals) (verify : Bytes → Bytes → Bytes → Bool)
    (r : Reassembler) (chunk : ApplicationMessageChunk) (ts : Time) :
    Reassembler × Reassembled → Prop
  | refused (e : ReassembleError) : ReassembleStep x verify r chunk ts (r,failed e)
  | single (count : chunk.chunksCount = 1) : ReassembleStep x verify r chunk ts
        (r.finish ts (openMessage x verify chunk.messageChunk))
  | keptNew (id : makeHolderKey chunk.applicationMessageId = .ok k)
      (fresh : r.holders.lookup k = none) (several : 1 < chunk.chunksCount)
      (room : (newChunkHolder chunk.chunksCount k chunk.appID).chunks[chunk.chunkIndex.toNat]?
        = some none) :
      ReassembleStep x verify r chunk ts
        ((Reassembler.keep { r with
            holders := r.holders.insert k (newChunkHolder chunk.chunksCount k chunk.appID)
            holdersByAppID := r.holdersByAppID.insert (Text.hex chunk.appID,k) }
          ((newChunkHolder chunk.chunksCount k chunk.appID).add chunk ts)).finish ts
            (.ok ([],[])))
  | keptOld (id : makeHolderKey chunk.applicationMessageId = .ok k)
      (found : r.holders.lookup k = some h)
      (room : h.chunks[chunk.chunkIndex.toNat]? = some none)
      (size : chunk.chunksCount = h.chunks.length)
      (missing : h.received + 1 ≠ h.chunks.length) :
      ReassembleStep x verify r chunk ts
        ((r.keep (h.add chunk ts)).finish ts (.ok ([],[])))
  | completed (id : makeHolderKey chunk.applicationMessageId = .ok k)
      (found : r.holders.lookup k = some h)
      (room : h.chunks[chunk.chunkIndex.toNat]? = some none)
      (size : chunk.chunksCount = h.chunks.length)
      (full : h.received + 1 = h.chunks.length)
      (body : assemble (h.add chunk ts).chunks = .ok bytes) :
      ReassembleStep x verify r chunk ts
        ((r.removeHolder (h.add chunk ts) true).finish ts (openMessage x verify bytes))

variable {chunk : ApplicationMessageChunk}

theorem new_holder_room (hi : ¬ (chunk.chunkIndex < 0 ∨ chunk.chunkIndex ≥ chunk.chunksCount)) :
    (newChunkHolder chunk.chunksCount k a).chunks[chunk.chunkIndex.toNat]? = some none := by
  simp only [newChunkHolder,List.getElem?_replicate,ite_eq_left_iff]
  omega

/-- A chunk of several that passes the checks on its own fields. -/
structure ApplicationMessageChunk.PartOf (chunk : ApplicationMessageChunk) (key : HolderKey) :
    Prop where
  several : 1 < chunk.chunksCount
  lower : 0 ≤ chunk.chunkIndex
  upper : chunk.chunkIndex < chunk.chunksCount
  key_eq : makeHolderKey chunk.applicationMessageId = .ok key

variable {ve : Bytes → Bytes → Bytes → Bool}

theorem reassemble_single (hc : chunk.chunksCount = 1) (hi : chunk.chunkIndex = 0) :
    r.reassemble x ve chunk ts = .ok (r.finish ts (openMessage x ve chunk.messageChunk)) := by
  rw [reassemble,if_neg (by omega),if_neg (by omega),if_pos hc]

theorem reassemble_new (hp : chunk.PartOf key) (hl : r.holders.lookup key = none) :
    r.reassemble x ve chunk ts = .ok ((Reassembler.keep { r with
          holders := r.holders.insert key (newChunkHolder chunk.chunksCount key chunk.appID)
          holdersByAppID := r.holdersByAppID.insert (Text.hex chunk.appID,key) }
        ((newChunkHolder chunk.chunksCount key chunk.appID).add chunk ts)).finish ts
          (.ok ([],[]))) := by
  obtain ⟨_,_,_,hk⟩ := hp
  have hi : ¬ (chunk.chunkIndex < 0 ∨ chunk.chunkIndex ≥ chunk.chunksCount) := by omega
  have hr := new_holder_room (k := key) (a := chunk.appID) hi
  rw [reassemble,if_neg (by omega),if_neg hi,if_neg (by omega)]
  simp only [hk,holderFor,hl,hr]
  rw [if_neg,if_pos]
  · simp only [ChunkHolder.add,newChunkHolder,length_set,length_replicate]
    omega
  · simp only [newChunkHolder,length_replicate]
    omega

section
variable (hp : chunk.PartOf key) (hl : r.holders.lookup key = some h)
  (ro : h.chunks[chunk.chunkIndex.toNat]? = some none)
  (si : chunk.chunksCount = h.chunks.length)
include hp hl ro si

theorem reassemble_kept (hm : (h.add chunk ts).received ≠ (h.add chunk ts).chunks.length) :
    r.reassemble x ve chunk ts = .ok ((r.keep (h.add chunk ts)).finish ts (.ok ([],[]))) := by
  obtain ⟨_,_,_,hk⟩ := hp
  rw [reassemble,if_neg (by omega),if_neg (by omega),if_neg (by omega)]
  simp only [hk,holderFor,hl,ro]
  rw [if_neg (by simpa using si),if_pos hm]

theorem reassemble_completed (f : (h.add chunk ts).received = (h.add chunk ts).chunks.length)
    (hb : assemble (h.add chunk ts).chunks = .ok bytes) :
    r.reassemble x ve chunk ts =
      .ok ((r.removeHolder (h.add chunk ts) true).finish ts (openMessage x ve bytes)) := by
  obtain ⟨_,_,_,hk⟩ := hp
  rw [reassemble,if_neg (by omega),if_neg (by omega),if_neg (by omega)]
  simp only [hk,holderFor,hl,ro]
  rw [if_neg (by simpa using si),if_neg (not_not.mpr f)]
  simp only [hb]

end

theorem ChunkHolder.Waiting.counted_add {h : ChunkHolder} (hw : h.Waiting k) (ts : Time)
    (hr : h.chunks[chunk.chunkIndex.toNat]? = some none) :
    (h.add chunk ts).received = (h.add chunk ts).chunks.countP Option.isSome := by
  have hc := count_set_some hr chunk
  have hco := hw.counted
  simp only [add]
  omega

theorem reassemble_step
    (h : r.reassemble x ve chunk ts = .ok out) : ReassembleStep x ve r chunk ts out := by
  unfold reassemble at h
  split at h
  · cases h; exact .refused _
  split at h
  · cases h; exact .refused _
  rename_i hc hi
  split at h
  · rename_i ho
    cases h; exact .single ho
  cases hk : makeHolderKey chunk.applicationMessageId with
  | error p => simp [hk] at h
  | ok k =>
    simp only [hk] at h
    rcases holder_for_cases r k chunk.chunksCount chunk.appID with
      ⟨holder,hl,he⟩ | ⟨hl,he⟩
    · simp only [he] at h
      cases hr : holder.chunks[chunk.chunkIndex.toNat]? with
      | none => simp [hr] at h
      | some o =>
        cases o with
        | some c =>
          simp only [hr] at h
          cases h; exact .refused _
        | none =>
          simp only [hr] at h
          split at h
          · cases h; exact .refused _
          rename_i hs
          simp only [ne_eq,not_not] at hs
          split at h
          · rename_i hm
            cases h
            exact .keptOld hk hl hr hs (by simpa [ChunkHolder.add] using hm)
          · rename_i hf
            cases hb : assemble (holder.add chunk ts).chunks with
            | error p => simp [hb] at h
            | ok bs =>
              simp only [hb] at h
              cases h
              exact .completed hk hl hr hs (by simpa [ChunkHolder.add] using hf) hb
    · -- a new holder has room for the chunk and more than one chunk to wait for
      have hr := new_holder_room (k := k) (a := chunk.appID) hi
      have hs : ¬ chunk.chunksCount ≠
          (newChunkHolder chunk.chunksCount k chunk.appID).chunks.length := by
        simp only [newChunkHolder,length_replicate]
        omega
      have hm : ((newChunkHolder chunk.chunksCount k chunk.appID).add chunk ts).received ≠
          ((newChunkHolder chunk.chunksCount k chunk.appID).add chunk ts).chunks.length := by
        simp only [ChunkHolder.add,newChunkHolder,length_set,length_replicate]
        omega
      simp only [he,hr,hs,hm,ne_eq,not_false_eq_true,if_false,if_true] at h
      cases h
      exact .keptNew hk hl (by omega) hr

theorem Reassembler.WellFormed.reassemble (hw : r.WellFormed)
    (h : r.reassemble x ve chunk ts = .ok (r',res)) : r'.WellFormed := by
  generalize ho : (r',res) = out at h
  have hs : out.1.WellFormed := by
    cases reassemble_step h with
    | refused => exact hw
    | single => exact hw.finish _ _
    | keptNew _ fr se ro => exact (hw.keep_new ts fr se ro).finish _ _
    | keptOld _ f ro _ mi =>
      exact (hw.keep_old ts f ro (by simpa [ChunkHolder.add] using mi)).finish _ _
    | completed _ f =>
      have hwa := hw.waiting _ _ f
      exact (hw.remove f hwa.key_eq hwa.linked rfl).finish _ _
  rw [← ho] at hs
  exact hs

theorem reassemble_timeout (h : r.reassemble x ve chunk ts = .ok (r',res)) :
    r'.reassembleTimeout = r.reassembleTimeout := by
  generalize ho : (r',res) = out at h
  have hs : out.1.reassembleTimeout = r.reassembleTimeout := by
    cases reassemble_step h with
    | refused => rfl
    | single | keptNew | keptOld | completed => exact finish_timeout _ _ _
  rw [← ho] at hs
  exact hs

theorem expire_by_app_id_timeout (h : r.expireByAppID appID = some (r',cs)) :
    r'.reassembleTimeout = r.reassembleTimeout := by
  unfold Reassembler.expireByAppID at h
  split at h
  · cases h
  obtain rfl := congrArg Prod.fst (Option.some.inj h)
  refine expire_keys_keeps (P := fun s => s.reassembleTimeout = r.reassembleTimeout) ?_ _
    fun h _ => h
  rfl

end PluggableHcs.Hcs
