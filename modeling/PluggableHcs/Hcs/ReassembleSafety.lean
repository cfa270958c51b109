import PluggableHcs.Hcs.Codec
import PluggableHcs.Hcs.Holders

namespace PluggableHcs.Hcs
open List AList

inductive Reassembler.Reachable (x : Externals) : Reassembler → Prop
  | new (timeout : Int) : Reachable x (newReassembler timeout)
  | reassemble {verify : Bytes → Bytes → Bytes → Bool} (before : Reachable x r)
      (call : r.reassemble x verify chunk ts = .ok (r',res)) : Reachable x r'
  | expire (before : Reachable x r)
      (call : r.expireByAppID appID = some (r',counts)) : Reachable x r'

section
variable {r : Reassembler}

theorem Reassembler.Reachable.well_formed (h : r.Reachable x) : r.WellFormed := by
  induction h with
  | new ti => exact new_well_formed ti
  | reassemble _ ca ih => exact ih.reassemble ca
  | expire _ ca ih => exact ih.expire_by_app_id ca

def ChunkHolder.Sized (h : ChunkHolder) : Prop :=
  h.size = (h.chunks.map (·.elim 0 (·.messageChunk.length))).sum % 2 ^ 32

def Reassembler.Sized (r : Reassembler) : Prop := ∀ k h, r.holders.lookup k = some h → h.Sized

theorem new_holder_sized : (newChunkHolder n k a).Sized := by
  simp [ChunkHolder.Sized,newChunkHolder]

theorem ChunkHolder.Sized.add {h : ChunkHolder} (hs : h.Sized)
    (hr : h.chunks[chunk.chunkIndex.toNat]? = some none) : (h.add chunk ts).Sized := by
  obtain ⟨hi,hn⟩ := List.getElem?_eq_some_iff.mp hr
  have hsp := take_append_drop chunk.chunkIndex.toNat h.chunks
  rw [drop_eq_getElem_cons hi,hn] at hsp
  rw [Sized,← hsp] at hs
  rw [Sized,ChunkHolder.add,set_eq_take_append_cons_drop,if_pos hi,hs]
  simp
  omega

theorem Reassembler.Sized.remove (hs : r.Sized) : (r.removeHolder h b).Sized :=
  fun k g hg => hs k g (lookup_remove hg).2

theorem Reassembler.Sized.keep (hs : r.Sized) (hh : h.Sized) : (r.keep h).Sized := by
  intro k g hg
  by_cases hk : k = h.key
  · subst hk
    cases (lookup_keep r h).symm.trans hg
    exact hh
  · rw [lookup_keep_ne r h hk] at hg
    exact hs k g hg

theorem Reassembler.Sized.finish (hs : r.Sized) : (r.finish ts o).1.Sized := by
  rw [finish_fst]
  exact expire_loop_keeps hs ts _ fun hs _ => hs.remove

theorem Reassembler.Reachable.sized (h : r.Reachable x) : r.Sized := by
  induction h with
  | new ti =>
    intro k h hl
    simp [newReassembler] at hl
  | @reassemble r ch ts r' rs ve _ ca ih =>
    generalize ho : (r',rs) = out at ca
    obtain rfl : r' = out.1 := congrArg Prod.fst ho
    cases reassemble_step ca with
    | refused => exact ih
    | single => exact ih.finish
    | @keptNew k _ fr _ ro =>
      refine Sized.finish (Sized.keep (fun j g hg => ?_) (new_holder_sized.add ro))
      by_cases hj : j = k
      · subst hj
        rw [lookup_insert] at hg
        cases hg
        exact new_holder_sized
      · rw [lookup_insert_ne hj] at hg
        exact ih j g hg
    | keptOld _ f ro => exact (ih.keep ((ih _ _ f).add ro)).finish
    | completed => exact ih.remove.finish
  | expire _ ca ih =>
    unfold expireByAppID at ca
    split at ca
    · cases ca
    obtain rfl := congrArg Prod.fst (Option.some.inj ca)
    refine expire_keys_keeps (P := Sized) ?_ _ fun hs _ => hs.remove
    exact ih

end

/-- The three structures have the same holders, each with one element in the list and the pair of
its own application id, and exact counts of its chunks and bytes. -/
theorem reassembler_consistent {r : Reassembler} (hr : r.Reachable x) :
    (∀ k, k ∈ r.holderListByAge ↔ k ∈ r.holders) ∧
    (∀ k, (∃ s, (s,k) ∈ r.holdersByAppID) ↔ k ∈ r.holders) ∧
    ∀ k h, r.holders.lookup k = some h →
      h.key = k ∧ (∀ s, (s,k) ∈ r.holdersByAppID ↔ s = Text.hex h.appID) ∧
      (∀ a, (Text.hex a,k) ∈ r.holdersByAppID → a = h.appID) ∧
      h.el = true ∧ r.holderListByAge.count k = 1 ∧
      h.received = h.chunks.countP Option.isSome ∧ 1 ≤ h.received ∧
      h.received < h.chunks.length ∧ h.Sized := by
  have hw := hr.well_formed
  have hf (k : HolderKey) : k ∈ r.holders ↔ ∃ h, r.holders.lookup k = some h := by
    rw [← lookup_isSome,Option.isSome_iff_exists]
  refine ⟨hw.listed,fun k => ?_,fun k h hl => ?_⟩
  · simp only [hw.paired,hf]
    exact ⟨fun ⟨_,h,hl,_⟩ => ⟨h,hl⟩,fun ⟨h,hl⟩ => ⟨_,h,hl,rfl⟩⟩
  have hwa := hw.waiting k h hl
  have hp (s) : (s,k) ∈ r.holdersByAppID ↔ s = Text.hex h.appID := by
    simp [hw.paired,hl]
  have ho := count_eq_one_of_mem hw.list_nodup
    ((hw.listed k).mpr ((hf k).mpr ⟨h,hl⟩))
  exact ⟨hwa.key_eq,hp,fun a ha => Text.hex_injective ((hp _).mp ha),hwa.linked,ho,
    hwa.counted,hwa.started,hwa.incomplete,hr.sized k h hl⟩

def bareExternals : Externals := Codec.externals ⟨[],[],[]⟩

def strayID : ApplicationMessageID := ⟨some ⟨1,0⟩,some ⟨0,0,2⟩,some ⟨[7]⟩⟩

def firstOfTwo : ApplicationMessageChunk := ⟨some strayID,2,0,[1]⟩

def thirdOfThree : ApplicationMessageChunk := ⟨some strayID,3,2,[2]⟩

def anonymousChunk : ApplicationMessageChunk := ⟨none,2,0,[1]⟩

def afterFirstOfTwo : Reassembler :=
  match (newReassembler 30000000000).reassemble bareExternals (fun _ _ _ => false) firstOfTwo
      unixEpoch with
  | .ok (r,_) => r
  | .error _ => newReassembler 0

theorem after_first_of_two_reachable : afterFirstOfTwo.Reachable bareExternals := by
  have hc : (newReassembler 30000000000).reassemble bareExternals (fun _ _ _ => false)
      firstOfTwo unixEpoch = .ok (afterFirstOfTwo,⟨[],[],0,0,none⟩) := by decide +kernel
  exact .reassemble (.new _) hc

theorem reassembler_consistent_first : ∃ k h, afterFirstOfTwo.holderListByAge = [k] ∧
    afterFirstOfTwo.holders.lookup k = some h ∧ h.Sized := by
  obtain ⟨k,hk⟩ := length_eq_one_iff.mp
    (show afterFirstOfTwo.holderListByAge.length = 1 by decide +kernel)
  obtain ⟨hli,_,hh⟩ := reassembler_consistent after_first_of_two_reachable
  obtain ⟨h,hl⟩ := Option.isSome_iff_exists.mp
    (lookup_isSome.mpr ((hli k).mp (by simp [hk])))
  obtain ⟨_,_,_,_,_,_,_,_,hs⟩ := hh k h hl
  exact ⟨k,h,hk,hl,hs⟩

def ApplicationMessageChunk.Identified (chunk : ApplicationMessageChunk) : Prop :=
  ∃ validStart account metadata,
    chunk.applicationMessageId = some ⟨some validStart,account,some metadata⟩

/-- The chunk is refused by its own fields, is a whole message, or is identified and within the size
that the first chunk gave the holder. -/
def Reassembler.Handles (r : Reassembler) (chunk : ApplicationMessageChunk) : Prop :=
  chunk.chunksCount ≤ 1 ∨ chunk.chunkIndex < 0 ∨ chunk.chunksCount ≤ chunk.chunkIndex ∨
    (chunk.Identified ∧ ∀ key holder, makeHolderKey chunk.applicationMessageId = .ok key →
      r.holders.lookup key = some holder → chunk.chunkIndex.toNat < holder.chunks.length)

theorem make_holder_key_ok_iff (ch : ApplicationMessageChunk) :
    (∃ ke, makeHolderKey ch.applicationMessageId = .ok ke) ↔ ch.Identified := by
  constructor
  · rintro ⟨ke,hk⟩
    unfold makeHolderKey at hk
    split at hk
    · rename_i vs ao me hid
      exact ⟨vs,ao,me,hid⟩
    · cases hk
  · rintro ⟨vs,ao,me,hid⟩
    rw [hid]
    exact ⟨_,rfl⟩

theorem assemble_ok
    (h : cs.countP Option.isSome = cs.length) : ∃ bytes, assemble cs = .ok bytes := by
  induction cs with
  | nil => exact ⟨[],rfl⟩
  | cons o cs ih =>
    cases o with
    | none =>
      have := countP_le_length (p := Option.isSome) (l := cs)
      simp at h
      omega
    | some c =>
      obtain ⟨bytes,hb⟩ := ih (by simpa using h)
      exact ⟨c.messageChunk ++ bytes,by simp [assemble,hb]⟩

theorem reassemble_multi {r : Reassembler} {ve : Bytes → Bytes → Bytes → Bool}
    (hp : chunk.PartOf key) (hw : r.WellFormed)
    (hr : ∀ hd, r.holders.lookup key = some hd → chunk.chunkIndex.toNat < hd.chunks.length) :
    ∃ out, r.reassemble x ve chunk ts = .ok out := by
  cases hl : r.holders.lookup key with
  | none => exact ⟨_,reassemble_new hp hl⟩
  | some hd =>
    obtain ⟨o,ho⟩ : ∃ o, hd.chunks[chunk.chunkIndex.toNat]? = some o :=
      ⟨_,List.getElem?_eq_getElem (hr hd hl)⟩
    by_cases hf : o = none ∧ chunk.chunksCount = hd.chunks.length
    · obtain ⟨hn,hs⟩ := hf
      subst hn
      by_cases hfu : (hd.add chunk ts).received = (hd.add chunk ts).chunks.length
      · have hc := (hw.waiting key hd hl).counted_add ts ho
        obtain ⟨bs,hb⟩ := assemble_ok (hc.symm.trans hfu)
        exact ⟨_,reassemble_completed hp hl ho hs hfu hb⟩
      · exact ⟨_,reassemble_kept hp hl ho hs hfu⟩
    · -- the chunk is refused, as a duplicate or for its count
      obtain ⟨_,_,_,hk⟩ := hp
      rw [Reassembler.reassemble,if_neg (by omega),if_neg (by omega),if_neg (by omega)]
      simp only [hk,Reassembler.holderFor,hl,ho]
      cases o with
      | some c => exact ⟨_,rfl⟩
      | none =>
        simp only [true_and] at hf
        exact ⟨_,by rw [if_pos hf]⟩

/-- Reassemble returns exactly on the chunks that the state handles. -/
theorem reassemble_returns_iff {r : Reassembler} (hr : r.Reachable x)
    (verify : Bytes → Bytes → Bytes → Bool) (chunk : ApplicationMessageChunk) (ts : Time) :
    (∃ out, r.reassemble x verify chunk ts = .ok out) ↔ r.Handles chunk := by
  constructor
  · rintro ⟨out,ho⟩
    by_contra hn
    simp only [Reassembler.Handles,not_or,not_le,not_lt] at hn
    obtain ⟨hc,hlo,hh,hn⟩ := hn
    apply hn
    rw [Reassembler.reassemble,if_neg (by omega),if_neg (by omega),if_neg (by omega)] at ho
    cases hk : makeHolderKey chunk.applicationMessageId with
    | error p => simp [hk] at ho
    | ok ke =>
      refine ⟨(make_holder_key_ok_iff chunk).mp ⟨ke,hk⟩,?_⟩
      rintro k' hd hke hl
      cases hke
      by_contra hle
      have hno := List.getElem?_eq_none (Nat.not_lt.mp hle)
      simp [hk,Reassembler.holderFor,hl,hno] at ho
  · intro hs
    by_cases hc : chunk.chunksCount < 1
    · exact ⟨_,by rw [Reassembler.reassemble,if_pos hc]⟩
    by_cases hi : chunk.chunkIndex < 0 ∨ chunk.chunkIndex ≥ chunk.chunksCount
    · exact ⟨_,by rw [Reassembler.reassemble,if_neg hc,if_pos hi]⟩
    by_cases hon : chunk.chunksCount = 1
    · exact ⟨_,by rw [Reassembler.reassemble,if_neg hc,if_neg hi,if_pos hon]⟩
    rcases hs with h | h | h | ⟨hid,hro⟩
    · omega
    · omega
    · omega
    obtain ⟨ke,hk⟩ := (make_holder_key_ok_iff chunk).mpr hid
    exact reassemble_multi ⟨by omega,by omega,by omega,hk⟩ hr.well_formed
      (fun hd => hro ke hd hk)

theorem reassemble_returns_repeated : ∃ out, afterFirstOfTwo.reassemble bareExternals
    (fun _ _ _ => false) firstOfTwo unixEpoch = .ok out := by
  refine (reassemble_returns_iff after_first_of_two_reachable _ firstOfTwo unixEpoch).mpr
    (.inr (.inr (.inr ⟨⟨_,_,_,rfl⟩,fun key holder _ hl => ?_⟩)))
  have hs : ∀ h ∈ afterFirstOfTwo.holders.entries, 0 < h.2.chunks.length := by decide +kernel
  exact hs ⟨key,holder⟩ (AList.mem_lookup_iff.mp hl)

/-- The index is compared with the chunk's own count but used on the slice that an earlier chunk
sized, and the id is dereferenced without a check. -/
theorem reassemble_panics : afterFirstOfTwo.Reachable bareExternals ∧
    bareExternals.unmarshalChunk (Codec.chunk thirdOfThree) = some thirdOfThree ∧
    afterFirstOfTwo.reassemble bareExternals (fun _ _ _ => false) thirdOfThree unixEpoch =
      .error .indexOutOfRange ∧
    bareExternals.unmarshalChunk (Codec.chunk anonymousChunk) = some anonymousChunk ∧
    afterFirstOfTwo.reassemble bareExternals (fun _ _ _ => false) anonymousChunk unixEpoch =
      .error .nilDereference := by
  exact ⟨after_first_of_two_reachable,by decide +kernel,by decide +kernel,by decide +kernel,
    by decide +kernel⟩

end PluggableHcs.Hcs
