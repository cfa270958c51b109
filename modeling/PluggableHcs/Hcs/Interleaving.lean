import PluggableHcs.Hcs.Codec
import PluggableHcs.Hcs.Split

namespace PluggableHcs.Hcs
open List Option Sent Reassembler ApplicationMessageChunk

/-- A chunk of a message reaches the receiver. -/
structure Delivery (ι : Type) where
  msg : ι
  index : Nat
  chunk : ApplicationMessageChunk
  time : Time

/-- All chunks of the messages, each delivered once, in the order of time, those of one message
within less than the timeout. -/
structure Interleaving {x : Externals} (sent : ι → Sent x) (timeout : Int)
    (ds : List (Delivery ι)) : Prop where
  content : ∀ d ∈ ds, (sent d.msg).chunks[d.index]? = some d.chunk
  once : (ds.map fun d => (d.msg,d.index)).Nodup
  all : ∀ i k, k < (sent i).chunks.length → ∃ d ∈ ds, d.msg = i ∧ d.index = k
  ordered : ds.Pairwise fun d e => d.time.nanos ≤ e.time.nanos
  close : ∀ d ∈ ds, ∀ e ∈ ds, d.msg = e.msg → e.time.nanos - d.time.nanos < timeout

def DistinctIDs {x : Externals} (sent : ι → Sent x) : Prop :=
  ∀ i j, (sent i).splitter.appID = (sent j).splitter.appID →
    (sent i).validStart = (sent j).validStart → i = j

def Reassembler.feed (x : Externals) (verify : Bytes → Bytes → Bytes → Bool) :
    Reassembler → List (ApplicationMessageChunk × Time) →
      Except GoPanic (Reassembler × List Reassembled)
  | r,[] => .ok (r,[])
  | r,(chunk,ts) :: rest =>
    match r.reassemble x verify chunk ts with
    | .error p => .error p
    | .ok (r,res) =>
      match feed x verify r rest with
      | .error p => .error p
      | .ok (r,results) => .ok (r,res :: results)

def nothing : Reassembled := ⟨[],[],0,0,none⟩

namespace Sent
variable {x : Externals}

def returned (s : Sent x) : Reassembled := ⟨s.message,x.sha256 s.message,0,0,none⟩

def key (s : Sent x) : HolderKey := (makeHolderKey (some s.id)).toOption.getD []

theorem key_eq (s : Sent x) : makeHolderKey (some s.id) = .ok s.key := rfl

theorem key_injective {s t : Sent x} (h : s.key = t.key) :
    s.splitter.appID = t.splitter.appID ∧ s.validStart = t.validStart := by
  have hs := s.key_eq
  have ht := t.key_eq
  rw [h] at hs
  obtain ⟨ha,hv⟩ := make_holder_key_injective hs ht
  exact ⟨ha,Time.timestamp_proto_injective hv⟩

variable {s : Sent x} {c : ApplicationMessageChunk} {k : Nat} (hr : s.InRange)
  (hc : s.chunks[k]? = some c)
include hr hc

theorem chunk_at : k < s.chunks.length ∧ c.applicationMessageId = some s.id ∧
      c.chunksCount = s.chunks.length ∧ c.chunkIndex = k := by
  obtain ⟨hk,_⟩ := List.getElem?_eq_some_iff.mp hc
  rw [chunks_eq hr,List.getElem?_map,List.getElem?_range (by simpa using hk)] at hc
  simp only [map_some,Option.some.injEq] at hc
  subst hc
  exact ⟨hk,rfl,rfl,rfl⟩

theorem part_of (hn : s.chunks.length ≠ 1) : c.PartOf s.key := by
  obtain ⟨hk,hid,hcn,hi⟩ := chunk_at hr hc
  exact ⟨by omega,by omega,by omega,by rw [hid]; exact s.key_eq⟩

end Sent

theorem Reassembler.WellFormed.expire_nothing {r : Reassembler} (hw : r.WellFormed)
    (h : ∀ k g, r.holders.lookup k = some g → now.sub g.timestamp < r.reassembleTimeout) :
    r.expireByTimestamp now = (r,0,0) := by
  unfold expireByTimestamp
  cases hl : r.holderListByAge with
  | nil => rfl
  | cons k ks =>
    have hk : k ∈ r.holders := (hw.listed k).mp (by simp [hl])
    obtain ⟨g,hg⟩ := isSome_iff_exists.mp (AList.lookup_isSome.mpr hk)
    simp [expireLoop,hg,Int.not_le.mpr (h k g hg)]

theorem assemble_some (cs : List ApplicationMessageChunk) :
    assemble (cs.map some) = .ok (cs.map messageChunk).flatten := by
  induction cs with
  | nil => rfl
  | cons c cs ih => simp [assemble,ih]

section
variable {ι : Type} {x : Externals} {sent : ι → Sent x} {timeout : Int}
  {ve : Bytes → Bytes → Bytes → Bool} {done rest : List (Delivery ι)} {d : Delivery ι}
  {r : Reassembler}

theorem Interleaving.once_before (hI : Interleaving sent timeout (done ++ rest))
    (ha : a ∈ done) (he : e ∈ rest) (hm : a.msg = e.msg) : a.index ≠ e.index := by
  intro hi
  have h := hI.once
  rw [map_append] at h
  exact disjoint_of_nodup_append h (List.mem_map_of_mem ha)
    (by rw [hm,hi]; exact List.mem_map_of_mem he)

theorem Interleaving.shift (hI : Interleaving sent timeout (done ++ d :: rest)) :
    Interleaving sent timeout ((done ++ [d]) ++ rest) := by
  rwa [append_assoc,singleton_append]

variable [DecidableEq ι]

def slots (sent : ι → Sent x) (done : List (Delivery ι)) (i : ι) :
    List (Option ApplicationMessageChunk) :=
  (sent i).chunks.mapIdx fun k c =>
    if ∃ d ∈ done, d.msg = i ∧ d.index = k then some c else none

/-- What the receiver holds between two deliveries: exactly the messages of which some
chunks have come and some have not. -/
structure Tracks (sent : ι → Sent x) (timeout : Int) (done rest : List (Delivery ι))
    (r : Reassembler) : Prop where
  wf : r.WellFormed
  timeout_eq : r.reassembleTimeout = timeout
  only : ∀ k h, r.holders.lookup k = some h →
    ∃ d ∈ done, (sent d.msg).key = k ∧ h.timestamp = d.time ∧ ∃ e ∈ rest, e.msg = d.msg
  held : ∀ d ∈ done, ∀ e ∈ rest, e.msg = d.msg →
    ∃ h, r.holders.lookup (sent d.msg).key = some h ∧ h.chunks = slots sent done d.msg

theorem slots_length (done : List (Delivery ι)) (i : ι) :
    (slots sent done i).length = (sent i).chunks.length := by simp [slots]

theorem slots_other (hne : d.msg ≠ i) : slots sent (done ++ [d]) i = slots sent done i := by
  unfold slots
  congr
  funext k c
  simp [hne]

theorem slots_snoc (hc : (sent d.msg).chunks[d.index]? = some d.chunk) :
    slots sent (done ++ [d]) d.msg = (slots sent done d.msg).set d.index (some d.chunk) := by
  apply ext_getElem?
  intro k
  by_cases hk : d.index = k
  · subst hk
    obtain ⟨hlt,_⟩ := List.getElem?_eq_some_iff.mp hc
    rw [List.getElem?_set_self (by rwa [slots_length])]
    simp [slots,List.getElem?_mapIdx,hc]
  · rw [List.getElem?_set_ne hk]
    simp [slots,List.getElem?_mapIdx,hk]

theorem slots_none (hf : ∀ e ∈ done, e.msg ≠ i) :
    slots sent done i = List.replicate (sent i).chunks.length none := by
  apply ext_getElem?
  intro k
  have hn : ¬ ∃ e ∈ done, e.msg = i ∧ e.index = k := by
    intro h
    obtain ⟨e,he,hm,_⟩ := h
    exact hf e he hm
  by_cases hk : k < (sent i).chunks.length
  · simp [slots,hk,hn]
  · simp [slots,hk]

theorem slots_full (h : ∀ k < (sent i).chunks.length, ∃ e ∈ done, e.msg = i ∧ e.index = k) :
    slots sent done i = (sent i).chunks.map some := by
  apply ext_getElem?
  intro k
  by_cases hk : k < (sent i).chunks.length
  · simp [slots,hk,h k hk]
  · simp [slots,hk]

theorem Tracks.young (ht : Tracks sent timeout (done ++ [d]) rest r)
    (hI : Interleaving sent timeout (done ++ d :: rest)) :
    r.expireByTimestamp d.time = (r,0,0) := by
  apply ht.wf.expire_nothing
  intro k g hg
  obtain ⟨a,ha,_,hts,e,he,hm⟩ := ht.only k g hg
  have hI := hI.shift
  have hcl := hI.close a (mem_append_left _ ha) e (mem_append_right _ he) hm.symm
  have ho := pairwise_append.mp hI.ordered
  have hl : d.time.nanos ≤ e.time.nanos := ho.2.2 d (by simp) e he
  have hf : a.time.nanos ≤ d.time.nanos := by
    obtain h | h := mem_append.mp ha
    · exact (pairwise_append.mp ho.1).2.2 a h d (by simp)
    · rw [mem_singleton.mp h]
  rw [ht.timeout_eq,hts]
  unfold Time.sub minDuration maxDuration
  omega

theorem Tracks.lookup_none (ht : Tracks sent timeout done rest r) (hd : DistinctIDs sent)
    (h : ∀ a ∈ done, a.msg = i → ∀ e ∈ rest, e.msg ≠ i) :
    r.holders.lookup (sent i).key = none := by
  cases hl : r.holders.lookup (sent i).key with
  | none => rfl
  | some g =>
    obtain ⟨a,ha,hk,_,e,he,hm⟩ := ht.only _ g hl
    obtain ⟨hap,hst⟩ := key_injective hk
    have hi := hd _ _ hap hst
    exact absurd (hm.trans hi) (h a ha hi e he)

theorem Tracks.advance {r' : Reassembler} (ht : Tracks sent timeout done (d :: rest) r)
    (hw : r'.WellFormed) (hti : r'.reassembleTimeout = timeout)
    (f : ∀ k, k ≠ (sent d.msg).key → r'.holders.lookup k = r.holders.lookup k)
    (o : (∃ h, r'.holders.lookup (sent d.msg).key = some h ∧ h.timestamp = d.time ∧
        h.chunks = slots sent (done ++ [d]) d.msg ∧ ∃ e ∈ rest, e.msg = d.msg) ∨
      (r'.holders.lookup (sent d.msg).key = none ∧ ∀ e ∈ rest, e.msg ≠ d.msg))
    (hd : DistinctIDs sent) : Tracks sent timeout (done ++ [d]) rest r' := by
  refine ⟨hw,hti,?_,?_⟩
  · intro k h hl
    by_cases hk : k = (sent d.msg).key
    · subst hk
      obtain ⟨g,hg,hts,_,hmo⟩ | ⟨hn,_⟩ := o
      · rw [hl] at hg
        cases hg
        exact ⟨d,by simp,rfl,hts,hmo⟩
      · rw [hl] at hn
        cases hn
    · rw [f k hk] at hl
      obtain ⟨a,ha,hka,hts,e,he,hm⟩ := ht.only k h hl
      refine ⟨a,mem_append_left _ ha,hka,hts,e,?_,hm⟩
      obtain rfl | he := mem_cons.mp he
      · rw [hm] at hk
        exact absurd hka.symm hk
      · exact he
  · intro a ha e he hm
    by_cases hms : a.msg = d.msg
    · rw [hms]
      obtain ⟨g,hg,_,hsl,_⟩ | ⟨_,hno⟩ := o
      · exact ⟨g,hg,hsl⟩
      · exact absurd (hm.trans hms) (hno e he)
    have ha : a ∈ done := by
      obtain ha | ha := mem_append.mp ha
      · exact ha
      · rw [mem_singleton.mp ha] at hms
        exact absurd rfl hms
    obtain ⟨h,hl,hsl⟩ := ht.held a ha e (mem_cons_of_mem _ he) hm
    have hke : (sent a.msg).key ≠ (sent d.msg).key := by
      intro hk
      obtain ⟨hap,hst⟩ := key_injective hk
      exact hms (hd _ _ hap hst)
    exact ⟨h,by rw [f _ hke]; exact hl,by rw [slots_other (Ne.symm hms)]; exact hsl⟩

def outcome (sent : ι → Sent x) (d : Delivery ι) (rest : List (Delivery ι)) : Reassembled :=
  if ∃ e ∈ rest, e.msg = d.msg then nothing else (sent d.msg).returned

section
variable (ht : Tracks sent timeout (done ++ [d]) rest r')
  (hI : Interleaving sent timeout (done ++ d :: rest))
include ht hI

theorem Tracks.finish_nothing (hm : ∃ e ∈ rest, e.msg = d.msg) :
    r'.finish d.time (.ok ([],[])) = (r',outcome sent d rest) := by
  simp [finish,ht.young hI,outcome,hm,nothing]

theorem Tracks.finish_returned (hl : ∀ e ∈ rest, e.msg ≠ d.msg)
    (hr : (sent d.msg).InRange) (hs : (sent d.msg).Sound ve) :
    r'.finish d.time (openMessage x ve
      ((sent d.msg).chunks.map messageChunk).flatten) = (r',outcome sent d rest) := by
  have hno : ¬ ∃ e ∈ rest, e.msg = d.msg := by
    intro h
    obtain ⟨e,he,hm⟩ := h
    exact hl e he hm
  simp [finish,ht.young hI,Sent.opens hr hs,outcome,hno,Sent.returned]

end

section
variable (hI : Interleaving sent timeout (done ++ d :: rest)) (hd : DistinctIDs sent)
  (hr : (sent d.msg).InRange) (hs : (sent d.msg).Sound ve)
  (ht : Tracks sent timeout done (d :: rest) r)
include hI hd hr ht

omit ht hd [DecidableEq ι] in
theorem Interleaving.content_head :
    (sent d.msg).chunks[d.index]? = some d.chunk ∧ d.index < (sent d.msg).chunks.length ∧
      d.chunk.chunkIndex.toNat = d.index := by
  have hc := hI.content d (by simp)
  obtain ⟨hlt,_,_,hi⟩ := chunk_at hr hc
  exact ⟨hc,hlt,by omega⟩

omit ht hd [DecidableEq ι] in
theorem Interleaving.elsewhere (hk : k < (sent d.msg).chunks.length) (hne : k ≠ d.index) :
    (∃ e ∈ done, e.msg = d.msg ∧ e.index = k) ∨ ∃ e ∈ rest, e.msg = d.msg ∧ e.index = k := by
  obtain ⟨e,he,hm,hi⟩ := hI.all d.msg k hk
  obtain he | he := mem_append.mp he
  · exact .inl ⟨e,he,hm,hi⟩
  obtain rfl | he := mem_cons.mp he
  · exact absurd hi.symm hne
  · exact .inr ⟨e,he,hm,hi⟩

include hs in
theorem Tracks.step_single (ho : (sent d.msg).chunks.length = 1) :
    ∃ r', r.reassemble x ve d.chunk d.time = .ok (r',outcome sent d rest) ∧
      Tracks sent timeout (done ++ [d]) rest r' := by
  obtain ⟨hc,hlt,_⟩ := hI.content_head hr
  obtain ⟨_,_,hcn,hi⟩ := chunk_at hr hc
  -- the message has no other chunk, so no other delivery
  have hn : ∀ e ∈ done ++ d :: rest, e.msg = d.msg → e.index = 0 := by
    intro e he hm
    obtain ⟨h,_⟩ := chunk_at (hm ▸ hr) (hI.content e he)
    rw [hm] at h
    omega
  have hb : ∀ a ∈ done, a.msg ≠ d.msg := by
    intro a ha hm
    have := hn a (mem_append_left _ ha) hm
    exact hI.once_before ha mem_cons_self hm (by omega)
  have haf : ∀ e ∈ rest, e.msg ≠ d.msg := by
    intro e he hm
    have := hn e (by simp [he]) hm
    exact hI.shift.once_before (a := d) (by simp) he hm.symm (by omega)
  have hlk := ht.lookup_none hd (i := d.msg) (fun a ha hm => absurd hm (hb a ha))
  have ht' := ht.advance ht.wf ht.timeout_eq (fun _ _ => rfl) (.inr ⟨hlk,haf⟩) hd
  have hbo : d.chunk.messageChunk = ((sent d.msg).chunks.map messageChunk).flatten := by
    obtain ⟨c,hcs⟩ := length_eq_one_iff.mp ho
    have hz : d.index = 0 := by omega
    rw [hcs,hz] at hc
    simp at hc
    simp [hcs,hc]
  refine ⟨r,?_,ht'⟩
  rw [reassemble_single (by omega) (by omega),hbo,ht'.finish_returned hI haf hr hs]

theorem Tracks.step_new (hse : (sent d.msg).chunks.length ≠ 1) (hf : ∀ a ∈ done, a.msg ≠ d.msg) :
    ∃ r', r.reassemble x ve d.chunk d.time = .ok (r',outcome sent d rest) ∧
      Tracks sent timeout (done ++ [d]) rest r' := by
  obtain ⟨hc,hlt,hi⟩ := hI.content_head hr
  obtain ⟨_,_,hcn,_⟩ := chunk_at hr hc
  have hp := part_of hr hc hse
  have hlk := ht.lookup_none hd (i := d.msg) (fun a ha hm => absurd hm (hf a ha))
  have hmo : ∃ e ∈ rest, e.msg = d.msg := by
    obtain ⟨k,hk,hne⟩ : ∃ k, k < (sent d.msg).chunks.length ∧ k ≠ d.index := by
      by_cases hz : d.index = 0
      · exact ⟨1,by omega,by omega⟩
      · exact ⟨0,by omega,by omega⟩
    obtain ⟨e,he,hm,_⟩ | ⟨e,he,hm,_⟩ := hI.elsewhere hr hk hne
    · exact absurd hm (hf e he)
    · exact ⟨e,he,hm⟩
  have hro : (newChunkHolder d.chunk.chunksCount (sent d.msg).key d.chunk.appID).chunks[
      d.chunk.chunkIndex.toNat]? = some none :=
    new_holder_room (by have := hp.lower; have := hp.upper; omega)
  have hw := ht.wf.keep_new d.time hlk hp.several hro
  have hsl : ((newChunkHolder d.chunk.chunksCount (sent d.msg).key d.chunk.appID).add
      d.chunk d.time).chunks = slots sent (done ++ [d]) d.msg := by
    rw [slots_snoc hc,slots_none hf]
    simp [ChunkHolder.add,newChunkHolder,hcn,hi]
  have ht' := ht.advance hw ht.timeout_eq
    (fun k hk => (lookup_keep_ne _ _ hk).trans (AList.lookup_insert_ne hk))
    (.inl ⟨_,lookup_keep _ _,rfl,hsl,hmo⟩) hd
  exact ⟨_,by rw [reassemble_new hp hlk,ht'.finish_nothing hI hmo],ht'⟩

omit hd in
theorem Tracks.begun (hb : ∃ a ∈ done, a.msg = d.msg) :
    ∃ h, r.holders.lookup (sent d.msg).key = some h ∧
      h.chunks[d.chunk.chunkIndex.toNat]? = some none ∧
      d.chunk.chunksCount = h.chunks.length ∧
      (h.add d.chunk d.time).chunks = slots sent (done ++ [d]) d.msg := by
  obtain ⟨hc,hlt,hin⟩ := hI.content_head hr
  obtain ⟨_,_,hcn,_⟩ := chunk_at hr hc
  obtain ⟨a,ha,hm⟩ := hb
  obtain ⟨h,hl,hsl⟩ := ht.held a ha d mem_cons_self hm.symm
  rw [hm] at hl hsl
  refine ⟨h,hl,?_,?_,?_⟩
  · have hn : ¬ ∃ e ∈ done, e.msg = d.msg ∧ e.index = d.index := by
      intro hex
      obtain ⟨e,he,hme,hi⟩ := hex
      exact hI.once_before he mem_cons_self hme hi
    rw [hsl,hin]
    simp [slots,hc,hn]
  · rw [hsl,slots_length,hcn]
  · rw [slots_snoc hc]
    simp [ChunkHolder.add,hsl,hin]

theorem Tracks.step_kept (hse : (sent d.msg).chunks.length ≠ 1)
    (hb : ∃ a ∈ done, a.msg = d.msg) (hmo : ∃ e ∈ rest, e.msg = d.msg) :
    ∃ r', r.reassemble x ve d.chunk d.time = .ok (r',outcome sent d rest) ∧
      Tracks sent timeout (done ++ [d]) rest r' := by
  obtain ⟨h,hl,hro,hsi,hsl⟩ := ht.begun hI hr hb
  have hp := part_of hr (hI.content_head hr).1 hse
  have hwa := ht.wf.waiting _ h hl
  have hmi : (h.add d.chunk d.time).received ≠ (h.add d.chunk d.time).chunks.length := by
    intro hf
    obtain ⟨e,he,hm⟩ := hmo
    have h1 := countP_eq_length.mp ((hwa.counted_add d.time hro).symm.trans hf)
    obtain ⟨hlt,_⟩ := chunk_at (hm ▸ hr) (hI.content e (by simp [he]))
    have hn : ¬ ∃ a ∈ done ++ [d], a.msg = d.msg ∧ a.index = e.index := by
      intro hex
      obtain ⟨a,ha,hma,hi⟩ := hex
      exact hI.shift.once_before ha he (hma.trans hm.symm) hi
    rw [hm] at hlt
    have hem : (slots sent (done ++ [d]) d.msg)[e.index]? = some none := by
      simp only [slots,List.getElem?_mapIdx,List.getElem?_eq_getElem hlt,map_some,if_neg hn]
    rw [hsl] at h1
    simpa using h1 none (mem_of_getElem? hem)
  have hw := ht.wf.keep_old d.time hl hro hmi
  have hke : (h.add d.chunk d.time).key = (sent d.msg).key := hwa.key_eq
  have hlk := lookup_keep r (h.add d.chunk d.time)
  rw [hke] at hlk
  have ht' := ht.advance hw ht.timeout_eq
    (fun k hk => lookup_keep_ne _ _ (by rwa [hke])) (.inl ⟨_,hlk,rfl,hsl,hmo⟩) hd
  exact ⟨_,by rw [reassemble_kept hp hl hro hsi hmi,ht'.finish_nothing hI hmo],ht'⟩

include hs in
theorem Tracks.step_last (hse : (sent d.msg).chunks.length ≠ 1)
    (hbe : ∃ a ∈ done, a.msg = d.msg) (hla : ∀ e ∈ rest, e.msg ≠ d.msg) :
    ∃ r', r.reassemble x ve d.chunk d.time = .ok (r',outcome sent d rest) ∧
      Tracks sent timeout (done ++ [d]) rest r' := by
  obtain ⟨h,hl,hro,hsi,hsl⟩ := ht.begun hI hr hbe
  have hp := part_of hr (hI.content_head hr).1 hse
  have hwa := ht.wf.waiting _ h hl
  have ha : (h.add d.chunk d.time).chunks = (sent d.msg).chunks.map some := by
    rw [hsl]
    apply slots_full
    intro k hk
    by_cases hne : k = d.index
    · exact ⟨d,by simp,rfl,hne.symm⟩
    obtain ⟨e,he,hm,hi⟩ | ⟨e,he,hm,_⟩ := hI.elsewhere hr hk hne
    · exact ⟨e,mem_append_left _ he,hm,hi⟩
    · exact absurd hm (hla e he)
  have hf : (h.add d.chunk d.time).received = (h.add d.chunk d.time).chunks.length := by
    rw [hwa.counted_add d.time hro,ha,countP_map,length_map]
    simp [Function.comp_def]
  have hb := assemble_some (sent d.msg).chunks
  rw [← ha] at hb
  have hke : (h.add d.chunk d.time).key = (sent d.msg).key := hwa.key_eq
  have hw := ht.wf.remove hl hke hwa.linked rfl
  have ht' := ht.advance hw ht.timeout_eq
    (by intro k hk; simp only [removeHolder,hke]; exact AList.lookup_erase_ne hk)
    (.inr ⟨by simp [removeHolder,hke],hla⟩) hd
  refine ⟨_,?_,ht'⟩
  rw [reassemble_completed hp hl hro hsi hf hb,ht'.finish_returned hI hla hr hs]

include hs in
theorem Tracks.step : ∃ r', r.reassemble x ve d.chunk d.time = .ok (r',outcome sent d rest) ∧
      Tracks sent timeout (done ++ [d]) rest r' := by
  by_cases ho : (sent d.msg).chunks.length = 1
  · exact ht.step_single hI hd hr hs ho
  by_cases hb : ∃ a ∈ done, a.msg = d.msg
  · by_cases hmo : ∃ e ∈ rest, e.msg = d.msg
    · exact ht.step_kept hI hd hr ho hb hmo
    · exact ht.step_last hI hd hr hs ho hb (fun e he hm => hmo ⟨e,he,hm⟩)
  · exact ht.step_new hI hd hr ho (fun a ha hm => hb ⟨a,ha,hm⟩)

end

def outcomes (sent : ι → Sent x) : List (Delivery ι) → List Reassembled
  | [] => []
  | d :: rest => outcome sent d rest :: outcomes sent rest

theorem outcomes_get (ds : List (Delivery ι)) (k : Nat) :
    (outcomes sent ds)[k]? = ds[k]?.map fun d => outcome sent d (ds.drop (k + 1)) := by
  induction ds generalizing k with
  | nil => simp [outcomes]
  | cons d ds ih =>
    cases k with
    | zero => simp [outcomes]
    | succ k => simp [outcomes,ih]

theorem outcomes_length (ds : List (Delivery ι)) : (outcomes sent ds).length = ds.length := by
  induction ds with
  | nil => rfl
  | cons d ds ih => simp [outcomes,ih]

theorem Tracks.feed (hd : DistinctIDs sent) (hr : ∀ i, (sent i).InRange)
    (hs : ∀ i, (sent i).Sound ve) (hI : Interleaving sent timeout (done ++ rest))
    (ht : Tracks sent timeout done rest r) :
    ∃ r', feed x ve r (rest.map fun d => (d.chunk,d.time)) =
        .ok (r',outcomes sent rest) ∧ Tracks sent timeout (done ++ rest) [] r' := by
  induction rest generalizing done r with
  | nil => exact ⟨r,rfl,by simpa using ht⟩
  | cons d rest ih =>
    obtain ⟨r',hca,ht'⟩ := ht.step hI hd (hr d.msg) (hs d.msg)
    obtain ⟨r'',hre,ht''⟩ := ih hI.shift ht'
    refine ⟨r'',?_,by simpa using ht''⟩
    simp only [map_cons,feed,hca,hre,outcomes]

theorem tracks_new : Tracks sent timeout [] rest (newReassembler timeout) where
  wf := new_well_formed timeout
  timeout_eq := rfl
  only := by intro k h hl; simp [newReassembler] at hl
  held := by intro d hd; simp at hd

theorem outcome_returned_iff (d : Delivery ι) (rest : List (Delivery ι)) :
    outcome sent d rest = (sent d.msg).returned ↔ ∀ e ∈ rest, e.msg ≠ d.msg := by
  unfold outcome
  split
  · rename_i hmo
    obtain ⟨e,he,hm⟩ := hmo
    constructor
    · intro h
      exact absurd (congrArg Reassembled.message h).symm message_ne_nil
    · intro h
      exact absurd hm (h e he)
  · rename_i hno
    exact ⟨fun _ e he hm => hno ⟨e,he,hm⟩,fun _ => rfl⟩

theorem exists_last {ds : List (Delivery ι)} (h : ∃ d ∈ ds, d.msg = i) :
    ∃ (k : Nat) (d : Delivery ι), ds[k]? = some d ∧ d.msg = i ∧
      ∀ e ∈ ds.drop (k + 1), e.msg ≠ i := by
  induction ds with
  | nil => simp at h
  | cons a ds ih =>
    by_cases hl : ∃ d ∈ ds, d.msg = i
    · obtain ⟨k,d,hk,hm,hla⟩ := ih hl
      exact ⟨k + 1,d,by simpa using hk,hm,by simpa using hla⟩
    obtain ⟨d,hd,hm⟩ := h
    obtain rfl | hd := mem_cons.mp hd
    · exact ⟨0,d,rfl,hm,fun e he hme => hl ⟨e,by simpa using he,hme⟩⟩
    · exact absurd ⟨d,hd,hm⟩ hl

omit [DecidableEq ι] in
theorem last_unique {ds : List (Delivery ι)} {k l : Nat} (hk : ∀ e ∈ ds.drop (k + 1), e.msg ≠ i)
    (hl : ds[l]? = some d) (hm : d.msg = i) : l ≤ k := by
  by_contra hlt
  apply hk d _ hm
  have : ds[l]? = (ds.drop (k + 1))[l - (k + 1)]? := by
    rw [List.getElem?_drop]
    congr
    omega
  exact mem_of_getElem? (this.symm.trans hl)

end

/-- Every interleaving gives every message back once, at its last missing chunk, without an
error, and leaves nothing pending. -/
theorem split_reassemble_inverse {ι : Type} [DecidableEq ι] {x : Externals} (sent : ι → Sent x)
    (verify : Bytes → Bytes → Bytes → Bool) (timeout : Int) (ds : List (Delivery ι))
    (distinct : DistinctIDs sent) (range : ∀ i, (sent i).InRange)
    (sound : ∀ i, (sent i).Sound verify) (interleaving : Interleaving sent timeout ds) :
    ∃ r results, (newReassembler timeout).feed x verify (ds.map fun d => (d.chunk,d.time)) =
        .ok (r,results) ∧
      r.isPending = false ∧
      results.length = ds.length ∧
      (∀ (k : Nat) (d : Delivery ι), ds[k]? = some d →
        results[k]? = some (outcome sent d (ds.drop (k + 1)))) ∧
      ∀ i, ∃! k : Nat, ∃ d : Delivery ι, ds[k]? = some d ∧ d.msg = i ∧
        results[k]? = some (sent i).returned := by
  have hn : Tracks sent timeout [] ds (newReassembler timeout) := tracks_new
  obtain ⟨r,hf,ht⟩ := hn.feed distinct range sound (by simpa using interleaving)
  refine ⟨r,outcomes sent ds,hf,?_,outcomes_length ds,?_,?_⟩
  · -- a holder would wait for a delivery that is still to come
    rw [not_pending_iff]
    intro ke h hl
    obtain ⟨_,_,_,_,e,he,_⟩ := ht.only ke h hl
    simp at he
  · intro k d hk
    simp [outcomes_get,hk]
  · intro i
    obtain ⟨d₀,hd₀,hm₀,_⟩ := interleaving.all i 0 (chunks_pos (range i) (sound i))
    obtain ⟨k,d,hk,hm,hla⟩ := exists_last ⟨d₀,hd₀,hm₀⟩
    subst hm
    refine ⟨k,⟨d,hk,rfl,?_⟩,?_⟩
    · rw [outcomes_get,hk,map_some,(outcome_returned_iff d _).mpr hla]
    intro l hl
    obtain ⟨e,hl,hme,hre⟩ := hl
    rw [outcomes_get,hl,map_some,← hme,Option.some.injEq,outcome_returned_iff] at hre
    rw [hme] at hre
    have h₁ := last_unique hla hl hme
    have h₂ := last_unique hre hk rfl
    omega

def samplePublicKey : Bytes :=
  Codec.bytesOfNat 32 0x8a88e3dd7409f195fd52db2d3cba5d72ca6709bf1d94121bf3748801b40f6f5c

section
variable (second : Bool)

def sampleDigest : Bytes :=
  Codec.bytesOfNat 32 (if second
    then 0xdbc1b4c900ffe48d575b5da5c638040125f65db0fe3e24494b76ea986457d986
    else 0x4bf5122f344554c53bde2ebb8cd2b7e3d1600ad631c385a5d7cce23c7785459a)
def sampleSignature : Bytes :=
  if second then
    Codec.bytesOfNat 32 0x110a0cb8ba261b9f92b7fe0b9ad83a50f9dda9357da049da99e4d3dcd545b275 ++
    Codec.bytesOfNat 32 0x8316124205ff8462038d755cc624547132d1317ee58440baa4e6a75c747ebf00
  else
    Codec.bytesOfNat 32 0x3914cc5efe90cdae8a222223301376c8ddbf110ece469327868bef91ce4db406 ++
    Codec.bytesOfNat 32 0xaa4b75dc66a14a863e1aac212f7f3d9fd0b28b2b229a15972f0c3204239cea0e

def sampleExternals : Externals := Codec.externals
  ⟨[([1],sampleDigest false),([2],sampleDigest true)],
    [(samplePublicKey,sampleDigest false,sampleSignature false),
      (samplePublicKey,sampleDigest true,sampleSignature true)],[]⟩

def sampleVerify (message publicKey signature : Bytes) : Bool :=
  sampleExternals.ed25519Verify publicKey message signature

def sampleSign (hash : Bytes) : Option (Bytes × Bytes) :=
  if hash = sampleDigest false then some (samplePublicKey,sampleSignature false)
  else if hash = sampleDigest true then some (samplePublicKey,sampleSignature true)
  else none

def sampleSplitter : Splitter := ⟨⟨0,0,2⟩,[7],if second then 960 else 100⟩
def sampleStart : Time :=
  if second then ⟨2000000000,by decide,by decide⟩ else ⟨1000000000,by decide,by decide⟩
def sampleChunks : List ApplicationMessageChunk :=
  match (sampleSplitter second).split sampleExternals sampleSign [if second then 2 else 1]
      (sampleStart second) with
  | .ok (chunks,_) => chunks
  | .error _ => []

def sampleSent : Sent sampleExternals where
  splitter := sampleSplitter second
  sign := sampleSign
  message := [if second then 2 else 1]
  validStart := sampleStart second
  publicKey := samplePublicKey
  signature := sampleSignature second
  chunks := sampleChunks second
  hash := sampleDigest second
  chunkSize_pos := by cases second <;> decide
  signed := by cases second <;> decide +kernel
  split := by cases second <;> decide +kernel

end

def sampleDeliveries (gap : Time) : List (Delivery Bool) :=
  [⟨false,0,(sampleChunks false).headD ⟨none,0,0,[]⟩,unixEpoch⟩,
    ⟨true,0,(sampleChunks true).headD ⟨none,0,0,[]⟩,gap⟩,
    ⟨false,1,(sampleChunks false).getLastD ⟨none,0,0,[]⟩,gap⟩]

def sampleTimeout : Int := 30000000000
def beforeTimeout : Time := ⟨29999999999,by decide,by decide⟩
def atTimeout : Time := ⟨30000000000,by decide,by decide⟩

theorem sample_distinct : DistinctIDs sampleSent := by
  intro i j _ h
  revert h
  cases i <;> cases j <;> decide

theorem sample_in_range (i : Bool) : (sampleSent i).InRange := by
  cases i <;> exact ⟨by decide +kernel,by decide +kernel⟩

theorem sample_sound (i : Bool) : (sampleSent i).Sound sampleVerify := by
  cases i <;>
    exact ⟨by decide +kernel,by decide +kernel,by decide +kernel,by decide +kernel⟩

theorem sample_all (g : Time) (i : Bool) (k : Nat) (hk : k < (sampleSent i).chunks.length) :
    ∃ d ∈ sampleDeliveries g, d.msg = i ∧ d.index = k := by
  have hl : (sampleSent i).chunks.length = if i then 1 else 2 := by
    cases i <;> decide +kernel
  rw [hl] at hk
  cases i with
  | false =>
    obtain rfl | rfl : k = 0 ∨ k = 1 := by simp at hk; omega
    all_goals simp [sampleDeliveries]
  | true =>
    obtain rfl : k = 0 := by simpa using hk
    simp [sampleDeliveries]

theorem sample_before_timeout :
    Interleaving sampleSent sampleTimeout (sampleDeliveries beforeTimeout) :=
  ⟨by decide +kernel,by decide +kernel,sample_all beforeTimeout,by decide +kernel,by decide +kernel⟩

theorem split_reassemble_inverse_sample : ∃ r results,
      (newReassembler sampleTimeout).feed sampleExternals sampleVerify
        ((sampleDeliveries beforeTimeout).map fun d => (d.chunk,d.time)) = .ok (r,results) ∧
      r.isPending = false := by
  obtain ⟨r,results,hf,hp,_⟩ := split_reassemble_inverse sampleSent sampleVerify
    sampleTimeout (sampleDeliveries beforeTimeout) sample_distinct sample_in_range sample_sound
    sample_before_timeout
  exact ⟨r,results,hf,hp⟩

/-- Deliveries exactly the timeout apart: the chunk of another message expires the first one, which
is not given back; its last chunk stays. -/
theorem expires_at_timeout : DistinctIDs sampleSent ∧ (∀ i, (sampleSent i).InRange) ∧
    (∀ i, (sampleSent i).Sound sampleVerify) ∧
    Interleaving sampleSent (sampleTimeout + 1) (sampleDeliveries atTimeout) ∧
    ((newReassembler sampleTimeout).feed sampleExternals sampleVerify
      ((sampleDeliveries atTimeout).map fun d => (d.chunk,d.time))).toOption.map
        (fun out => (out.1.isPending,out.2)) =
      some (true,[nothing,⟨[2],sampleDigest true,1,1,none⟩,nothing]) :=
  ⟨sample_distinct,sample_in_range,sample_sound,
    ⟨by decide +kernel,by decide +kernel,sample_all atTimeout,by decide +kernel,
      by decide +kernel⟩,by decide +kernel⟩

end PluggableHcs.Hcs
