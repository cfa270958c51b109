import PluggableHcs.Pvtdatastorage.Holdings

namespace PluggableHcs.Pvtdatastorage
open Batches Runs Txmgmt List AList Transition StoreDb
open MissingDataKey (item nsCollBlk)

open PvtStore

variable {p : BTLPolicy} {s : PvtStore} {h : Holdings} {db : StoreDb} {mb : Nat}

/-- The collections and blocks in `done` are converted, and the events in `ended` are over, once the
batch is written. -/
structure Converted (db : StoreDb) (done : Set NsCollBlk) (ended : Set Nat) (c : Conversion) :
    Prop where
  data : c.db.data = db.data ∧ c.batch.data = []
  expiry : c.db.expiry = db.expiry ∧ c.batch.expiry = []
  ineligible : ∀ key ∈ done, (c.db.writeBatch c.batch).missing.lookup ⟨key,false⟩ = none ∧
    (c.db.writeBatch c.batch).missing.lookup ⟨key,true⟩ = db.missing.lookup ⟨key,false⟩
  others : ∀ key ∉ done, ∀ isEligible, (c.db.writeBatch c.batch).missing.lookup ⟨key,isEligible⟩ =
    db.missing.lookup ⟨key,isEligible⟩
  source : ∀ key bitmap, c.db.missing.lookup ⟨key,false⟩ = some bitmap →
    db.missing.lookup ⟨key,false⟩ = some bitmap
  found : ∀ key, db.missing.lookup ⟨key,false⟩ ≠ none → key ∉ done →
    c.db.missing.lookup ⟨key,false⟩ ≠ none
  events : ∀ blk, (blk ∈ ended → (c.db.writeBatch c.batch).collElg.lookup blk = none) ∧
    (blk ∉ ended → (c.db.writeBatch c.batch).collElg.lookup blk = db.collElg.lookup blk)

abbrev convertOne (key : NsCollBlk) (bitmap : List Nat) : UpdateBatch :=
  { missing := [(⟨key,false⟩,none),(⟨key,true⟩,some bitmap)] }

theorem convert_one_lookup (db : StoreDb) (ke : NsCollBlk) (bi : List Nat)
    (k : MissingDataKey) : (db.writeBatch (convertOne ke bi)).missing.lookup k =
      if k = ⟨ke,true⟩ then some bi else if k = ⟨ke,false⟩ then none
      else db.missing.lookup k := by
  change (Batches.apply (Batches.apply db.missing (⟨ke,false⟩,none))
    (⟨ke,true⟩,some bi)).lookup k = _
  rw [lookup_apply,lookup_apply]
  simp only [eq_comm]

theorem convert_cases {c c' : Conversion} (h : c.convert mb (.convert key bi) = c') :
    c'.db.writeBatch c'.batch = (c.db.writeBatch c.batch).writeBatch (convertOne key bi) ∧
    (c'.db = c.db ∧ c'.batch.data = c.batch.data ∧ c'.batch.expiry = c.batch.expiry ∨
     c'.db = (c.db.writeBatch c.batch).writeBatch (convertOne key bi) ∧ c'.batch = {}) := by
  have hwr : c.db.writeBatch { c.batch with
      missing := c.batch.missing ++ [(⟨key,false⟩,none),(⟨key,true⟩,some bi)] } =
      (c.db.writeBatch c.batch).writeBatch (convertOne key bi) := by
    unfold writeBatch
    rw [write_append]
    rfl
  subst h
  unfold Conversion.convert
  dsimp only
  split
  · exact ⟨hwr,.inr ⟨hwr,rfl⟩⟩
  · exact ⟨hwr,.inl ⟨rfl,rfl,rfl⟩⟩

theorem Converted.unwritten (hc : Converted db done en c) :
    (c.db.writeBatch c.batch).data = db.data ∧ (c.db.writeBatch c.batch).expiry = db.expiry := by
  rw [← hc.data.1,← hc.expiry.1,writeBatch,hc.data.2,hc.expiry.2]
  exact ⟨rfl,rfl⟩

theorem Converted.convert (hc : Converted db done en c)
    (hbi : db.missing.lookup ⟨key,false⟩ = some bi) (mb : Nat) :
    Converted db (insert key done) en (c.convert mb (.convert key bi)) := by
  generalize hc' : c.convert mb (.convert key bi) = c'
  obtain ⟨hwr,hca⟩ := convert_cases hc'
  obtain ⟨hda,hex⟩ := hc.unwritten
  have hfa : ∀ k, ((c.db.writeBatch c.batch).writeBatch (convertOne key bi)).missing.lookup
      ⟨k,false⟩ = if k = key then none else
        (c.db.writeBatch c.batch).missing.lookup ⟨k,false⟩ := by
    intro k
    have hne : (⟨k,false⟩ : MissingDataKey) ≠ ⟨key,true⟩ := fun heq =>
      Bool.false_ne_true (congrArg MissingDataKey.isEligible heq)
    rw [convert_one_lookup,if_neg hne]
    by_cases hk : k = key
    · rw [if_pos (by rw [hk]),if_pos hk]
    · rw [if_neg fun heq => hk (congrArg nsCollBlk heq),if_neg hk]
  constructor
  · rcases hca with ⟨hdb,hd,_⟩ | ⟨hdb,hb⟩
    · exact ⟨hdb ▸ hc.data.1,hd.trans hc.data.2⟩
    · exact ⟨by rw [hdb]; exact hda,by rw [hb]⟩
  · rcases hca with ⟨hdb,_,he⟩ | ⟨hdb,hb⟩
    · exact ⟨hdb ▸ hc.expiry.1,he.trans hc.expiry.2⟩
    · exact ⟨by rw [hdb]; exact hex,by rw [hb]⟩
  · intro k hk
    rw [hwr,hfa]
    by_cases heq : k = key
    · subst heq
      rw [if_pos rfl,convert_one_lookup,if_pos rfl,hbi]
      exact ⟨rfl,rfl⟩
    have hk := Set.mem_of_mem_insert_of_ne hk heq
    obtain ⟨hf,ht⟩ := hc.ineligible k hk
    rw [if_neg heq,convert_one_lookup,if_neg fun h => heq (congrArg nsCollBlk h),
      if_neg fun h => heq (congrArg nsCollBlk h)]
    exact ⟨hf,ht⟩
  · intro k hk ie
    obtain ⟨hne,hk⟩ := not_or.mp hk
    rw [hwr,convert_one_lookup,if_neg fun h => hne (congrArg nsCollBlk h),
      if_neg fun h => hne (congrArg nsCollBlk h)]
    exact hc.others k hk ie
  · intro k b' hk
    rcases hca with ⟨hdb,_⟩ | ⟨hdb,_⟩
    · rw [hdb] at hk
      exact hc.source k b' hk
    rw [hdb,hfa] at hk
    split at hk
    · nomatch hk
    by_cases hdo : k ∈ done
    · rw [(hc.ineligible k hdo).1] at hk
      nomatch hk
    · rw [hc.others k hdo] at hk
      exact hk
  · intro k hne hk
    obtain ⟨hke,hk⟩ := not_or.mp hk
    rcases hca with ⟨hdb,_⟩ | ⟨hdb,_⟩
    · rw [hdb]
      exact hc.found k hne hk
    · rw [hdb,hfa,if_neg hke,hc.others k hk]
      exact hne
  · intro bl
    rw [hwr]
    exact hc.events bl

theorem mem_ineligible : t ∈ db.ineligible m ns co ↔ ∃ bl bi, t = .convert ⟨ns,co,bl⟩ bi ∧
      db.missing.lookup ⟨⟨ns,co,bl⟩,false⟩ = some bi ∧ 0 < bl ∧ bl ≤ m := by
  unfold StoreDb.ineligible
  rw [mem_map]
  constructor
  · rintro ⟨⟨⟨⟨n',c',bl⟩,ie⟩,bi⟩,hm,rfl⟩
    rw [mem_insertionSort,mem_filter,mem_map] at hm
    obtain ⟨⟨⟨ke,va⟩,hd,heq⟩,hc⟩ := hm
    cases heq
    simp only [Bool.and_eq_true,Bool.not_eq_true',decide_eq_true_eq] at hc
    obtain ⟨⟨⟨⟨rfl,rfl⟩,rfl⟩,hp⟩,hle⟩ := hc
    exact ⟨bl,_,rfl,mem_lookup_iff.mpr hd,hp,hle⟩
  · rintro ⟨bl,bi,rfl,hlk,hp,hle⟩
    refine ⟨(⟨⟨ns,co,bl⟩,false⟩,bi),?_,rfl⟩
    rw [mem_insertionSort,mem_filter]
    refine ⟨mem_map.mpr ⟨⟨⟨⟨ns,co,bl⟩,false⟩,bi⟩,mem_lookup_iff.mp hlk,rfl⟩,?_⟩
    simp [hp,hle]

theorem Converted.converts (hc : Converted db done en c) (mb : Nat) {l : List Task}
    (hl : ∀ t ∈ l, ∃ ke bi, t = .convert ke bi ∧ db.missing.lookup ⟨ke,false⟩ = some bi) :
    Converted db (done ∪ { ke | ∃ bi, .convert ke bi ∈ l }) en
      (l.foldl (Conversion.convert mb) c) := by
  induction l generalizing done c with
  | nil =>
    have hn : done ∪ { ke | ∃ bi, Task.convert ke bi ∈ [] } = done := by
      ext ke
      simp
    rw [hn]
    exact hc
  | cons t l ih =>
    obtain ⟨⟨ke,bi,rfl,hbi⟩,hr⟩ := forall_mem_cons.mp hl
    have he := ih (hc.convert hbi mb) hr
    have hs : insert ke done ∪ { ke | ∃ bi, Task.convert ke bi ∈ l } =
        done ∪ { k | ∃ b, Task.convert k b ∈ Task.convert ke bi :: l } := by
      ext k
      constructor
      · rintro ((rfl | hk) | ⟨b,hb⟩)
        · exact .inr ⟨bi,mem_cons_self⟩
        · exact .inl hk
        · exact .inr ⟨b,mem_cons_of_mem _ hb⟩
      rintro (hk | ⟨b,hb⟩)
      · exact .inl (.inr hk)
      rcases mem_cons.mp hb with heq | hb
      · cases heq
        exact .inl (.inl rfl)
      · exact .inr ⟨b,hb⟩
    rw [hs] at he
    exact he

theorem Converted.scan (hc : Converted db done en c) (mb m : Nat) (ns co : Bytes) :
    Converted db (done ∪ { key | db.missing.lookup ⟨key,false⟩ ≠ none ∧ key.ns = ns ∧
        key.coll = co ∧ 0 < key.blkNum ∧ key.blkNum ≤ m }) en
      (c.task mb (.scan m ns co)) := by
  have hs := hc.converts mb (l := c.db.ineligible m ns co) fun t ht => by
    obtain ⟨bl,bi,rfl,hlk,_⟩ := mem_ineligible.mp ht
    exact ⟨_,bi,rfl,hc.source _ _ hlk⟩
  have hse : done ∪ { key | ∃ bi, .convert key bi ∈ c.db.ineligible m ns co } =
      done ∪ { key | db.missing.lookup ⟨key,false⟩ ≠ none ∧ key.ns = ns ∧
        key.coll = co ∧ 0 < key.blkNum ∧ key.blkNum ≤ m } := by
    ext key
    constructor
    · rintro (hk | ⟨bi,hk⟩)
      · exact .inl hk
      obtain ⟨bl,b',heq,hlk,hp,hle⟩ := mem_ineligible.mp hk
      cases heq
      refine .inr ⟨?_,rfl,rfl,hp,hle⟩
      rw [hc.source _ _ hlk]
      exact Option.some_ne_none _
    · rintro (hk | ⟨hne,rfl,rfl,hp,hle⟩)
      · exact .inl hk
      by_cases hd : key ∈ done
      · exact .inl hd
      · obtain ⟨bi,hb⟩ := Option.ne_none_iff_exists'.mp (hc.found key hne hd)
        exact .inr ⟨bi,mem_ineligible.mpr ⟨key.blkNum,bi,rfl,hb,hp,hle⟩⟩
  rw [hse] at hs
  exact hs

theorem Converted.end_event (hc : Converted db done en c) (mb bn : Nat) :
    Converted db done (insert bn en) (c.task mb (.endEvent bn)) := by
  have hlk : ∀ blk, ((c.task mb (.endEvent bn)).db.writeBatch
      (c.task mb (.endEvent bn)).batch).collElg.lookup blk =
      if bn = blk then none else (c.db.writeBatch c.batch).collElg.lookup blk := by
    intro blk
    change (write c.db.collElg (c.batch.collElg ++ [(bn,none)])).lookup blk = _
    rw [write_append]
    exact lookup_apply (write c.db.collElg c.batch.collElg) (bn,none) blk
  refine ⟨hc.data,hc.expiry,hc.ineligible,hc.others,hc.source,hc.found,fun blk => ⟨?_,?_⟩⟩
  · intro hb
    rw [hlk]
    split
    · rfl
    · rename_i hne
      exact (hc.events blk).1 (Set.mem_of_mem_insert_of_ne hb (Ne.symm hne))
  · intro hb
    obtain ⟨hne,hb⟩ := not_or.mp hb
    rw [hlk,if_neg (Ne.symm hne)]
    exact (hc.events blk).2 hb

def scanned (db : StoreDb) (tasks : List Task) : Set NsCollBlk :=
  { key | db.missing.lookup ⟨key,false⟩ ≠ none ∧ 0 < key.blkNum ∧
    ∃ m, .scan m key.ns key.coll ∈ tasks ∧ key.blkNum ≤ m }

def endedBy (tasks : List Task) : Set Nat := { blk | .endEvent blk ∈ tasks }

theorem Converted.tasks (hc : Converted db done ended c) (mb : Nat) {tasks : List Task}
    (ht : ∀ ke bi, .convert ke bi ∉ tasks) :
    Converted db (done ∪ scanned db tasks) (ended ∪ endedBy tasks)
      (tasks.foldl (Conversion.task mb) c) := by
  induction tasks generalizing done ended c with
  | nil =>
    have hd : done ∪ scanned db [] = done := by
      ext ke
      simp [scanned]
    have he : ended ∪ endedBy [] = ended := by
      ext blk
      simp [endedBy]
    rw [hd,he]
    exact hc
  | cons t tasks ih =>
    have hr : ∀ ke bi, .convert ke bi ∉ tasks := fun ke bi hm =>
      ht ke bi (mem_cons_of_mem _ hm)
    cases t with
    | convert ke bi => exact absurd mem_cons_self (ht ke bi)
    | scan m ns co =>
      have hn := ih (hc.scan mb m ns co) hr
      have hd : done ∪ { ke | db.missing.lookup ⟨ke,false⟩ ≠ none ∧ ke.ns = ns ∧
          ke.coll = co ∧ 0 < ke.blkNum ∧ ke.blkNum ≤ m } ∪ scanned db tasks =
          done ∪ scanned db (.scan m ns co :: tasks) := by
        ext ke
        constructor
        · rintro ((hk | ⟨hne,rfl,rfl,hp,hle⟩) | ⟨hne,hp,m',hm,hle⟩)
          · exact .inl hk
          · exact .inr ⟨hne,hp,m,mem_cons_self,hle⟩
          · exact .inr ⟨hne,hp,m',mem_cons_of_mem _ hm,hle⟩
        rintro (hk | ⟨hne,hp,m',hm,hle⟩)
        · exact .inl (.inl hk)
        rcases mem_cons.mp hm with heq | hm
        · cases heq
          exact .inl (.inr ⟨hne,rfl,rfl,hp,hle⟩)
        · exact .inr ⟨hne,hp,m',hm,hle⟩
      have he : ended ∪ endedBy tasks = ended ∪ endedBy (.scan m ns co :: tasks) := by
        ext blk
        simp [endedBy]
      rw [hd,he] at hn
      exact hn
    | endEvent bn =>
      have hn := ih (hc.end_event mb bn) hr
      have hd : done ∪ scanned db tasks = done ∪ scanned db (.endEvent bn :: tasks) := by
        ext ke
        simp [scanned]
      have he : insert bn ended ∪ endedBy tasks = ended ∪ endedBy (.endEvent bn :: tasks) := by
        ext blk
        simp only [endedBy,Set.mem_union,Set.mem_insert_iff,Set.mem_ofPred_eq,mem_cons,
          Task.endEvent.injEq]
        constructor
        · rintro ((heq | hb) | hm)
          · exact .inr (.inl heq)
          · exact .inl hb
          · exact .inr (.inr hm)
        rintro (hb | heq | hm)
        · exact .inl (.inr hb)
        · exact .inl (.inl heq)
        · exact .inr hm
      rw [hd,he] at hn
      exact hn

theorem mem_coll_elg_tasks : t ∈ db.collElgTasks ↔
    ∃ bl cs, db.collElg.lookup bl = some cs ∧ 0 < bl ∧
      ((∃ c ∈ cs, t = .scan bl c.1 c.2) ∨ t = .endEvent bl) := by
  unfold collElgTasks
  rw [mem_flatMap]
  constructor
  · rintro ⟨⟨bl,cs⟩,hm,ht⟩
    rw [mem_insertionSort,mem_filter,mem_map] at hm
    obtain ⟨⟨⟨b',c'⟩,hd,heq⟩,hp⟩ := hm
    cases heq
    refine ⟨_,_,mem_lookup_iff.mpr hd,of_decide_eq_true hp,?_⟩
    rcases mem_append.mp ht with ht | ht
    · obtain ⟨c,hc,rfl⟩ := mem_map.mp ht
      exact .inl ⟨c,hc,rfl⟩
    · exact .inr (mem_singleton.mp ht)
  · rintro ⟨bl,cs,hlk,hp,ht⟩
    refine ⟨(bl,cs),?_,?_⟩
    · rw [mem_insertionSort,mem_filter]
      exact ⟨mem_map.mpr ⟨⟨bl,cs⟩,mem_lookup_iff.mp hlk,rfl⟩,decide_eq_true hp⟩
    rcases ht with ⟨c,hc,rfl⟩ | rfl
    · exact mem_append_left _ (mem_map.mpr ⟨c,hc,rfl⟩)
    · exact mem_append_right _ mem_cons_self

theorem converted_initial (db : StoreDb) : Converted db ∅ ∅ ⟨db,{}⟩ :=
  ⟨⟨rfl,rfl⟩,⟨rfl,rfl⟩,fun _ hk => (nomatch hk),fun _ _ _ => rfl,fun _ _ hk => hk,
    fun _ hk _ => hk,fun _ => ⟨fun hb => (nomatch hb),fun _ => rfl⟩⟩

section
variable (ha : Agrees p s h)
include ha

theorem Agrees.scanned_iff (key : NsCollBlk) : key ∈ scanned s.db s.db.collElgTasks ↔
    s.db.missing.lookup ⟨key,false⟩ ≠ none ∧ h.Converts key := by
  constructor
  · rintro ⟨hne,hp,m,hm,hle⟩
    obtain ⟨blk,colls,hlk,hb,⟨x,hx,heq⟩ | heq⟩ := mem_coll_elg_tasks.mp hm
    · simp only [Task.scan.injEq] at heq
      obtain ⟨rfl,hns,hc⟩ := heq
      refine ⟨hne,m,colls,(ha.enabled m).symm.trans hlk,hb,?_,hp,hle⟩
      rw [hns,hc]
      exact hx
    · nomatch heq
  · rintro ⟨hne,blk,colls,hen,hb,hm,hp,hle⟩
    exact ⟨hne,hp,blk,mem_coll_elg_tasks.mpr ⟨blk,colls,(ha.enabled blk).trans hen,hb,
      .inl ⟨_,hm,rfl⟩⟩,hle⟩

theorem Agrees.ended_iff (blk : Nat) :
    blk ∈ endedBy s.db.collElgTasks ↔ h.enabled blk ≠ none ∧ 0 < blk := by
  rw [← ha.enabled]
  constructor
  · intro hb
    obtain ⟨_,_,hlk,hp,⟨_,_,heq⟩ | heq⟩ := mem_coll_elg_tasks.mp hb
    · nomatch heq
    cases heq
    rw [hlk]
    exact ⟨Option.some_ne_none _,hp⟩
  · rintro ⟨hne,hp⟩
    obtain ⟨colls,hcl⟩ := Option.ne_none_iff_exists'.mp hne
    exact mem_coll_elg_tasks.mpr ⟨blk,colls,hcl,hp,.inr rfl⟩

variable (hc : Converted s.db (scanned s.db s.db.collElgTasks) (endedBy s.db.collElgTasks) c)
include hc

omit ha in
/-- A conversion moves bitmaps and makes none. -/
theorem Converted.bitmap_source
    (hlk : (c.db.writeBatch c.batch).missing.lookup ⟨key,isEligible⟩ = some bitmap) :
    ∃ was, s.db.missing.lookup ⟨key,was⟩ = some bitmap := by
  by_cases hd : key ∈ scanned s.db s.db.collElgTasks
  · obtain ⟨hf,ht⟩ := hc.ineligible key hd
    cases isEligible with
    | false =>
      rw [hf] at hlk
      nomatch hlk
    | true => exact ⟨false,ht.symm.trans hlk⟩
  · exact ⟨isEligible,(hc.others key hd isEligible).symm.trans hlk⟩

omit ha in
theorem Converted.was_missing
    (hne : (c.db.writeBatch c.batch).missing.lookup ⟨key,isEligible⟩ ≠ none) :
    ∃ was, s.db.missing.lookup ⟨key,was⟩ ≠ none := by
  obtain ⟨bitmap,hlk⟩ := Option.ne_none_iff_exists'.mp hne
  obtain ⟨was,hlk⟩ := hc.bitmap_source hlk
  exact ⟨was,by rw [hlk]; exact Option.some_ne_none _⟩

/-- The eligible entries gain what the ineligible ones lose. -/
theorem Agrees.converted_missing (hl : s.Live p key) (isEligible : Bool) (t : Nat) :
    t ∈ ((c.db.writeBatch c.batch).missing.lookup ⟨key,isEligible⟩).getD [] ↔
      (key,t) ∈ (h.next .processCollElgEvents).missing isEligible := by
  have htr := ha.missing key true t hl
  have hfa := ha.missing key false t hl
  by_cases hd : key ∈ scanned s.db s.db.collElgTasks
  · obtain ⟨hf,ht⟩ := hc.ineligible key hd
    obtain ⟨hne,hco⟩ := (ha.scanned_iff key).mp hd
    rw [ha.apart key hne] at htr
    cases isEligible with
    | false =>
      rw [hf]
      exact iff_of_false (fun ht => nomatch ht) fun hx => hx.2 hco
    | true =>
      rw [ht,hfa]
      constructor
      · exact fun hx => .inr ⟨hx,hco⟩
      rintro (hx | hx)
      · nomatch htr.mpr hx
      · exact hx.1
  · rw [hc.others key hd]
    have hn : (key,t) ∈ h.missing false → ¬ h.Converts key := by
      intro hx hco
      refine hd ((ha.scanned_iff key).mpr ⟨fun hno => ?_,hco⟩)
      rw [hno] at hfa
      nomatch hfa.mpr hx
    cases isEligible with
    | false =>
      rw [hfa]
      exact ⟨fun hx => ⟨hx,hn hx⟩,fun hx => hx.1⟩
    | true =>
      rw [htr]
      constructor
      · exact .inl
      rintro (hx | hx)
      · exact hx
      · exact absurd hx.2 (hn hx.1)

theorem Agrees.converted_events (blk : Nat) :
    (c.db.writeBatch c.batch).collElg.lookup blk =
      (h.next .processCollElgEvents).enabled blk := by
  obtain ⟨hin,ho⟩ := hc.events blk
  change _ = if blk = 0 then h.enabled 0 else none
  by_cases hb : blk ∈ endedBy s.db.collElgTasks
  · rw [hin hb,if_neg ((ha.ended_iff blk).mp hb).2.ne']
  rw [ho hb,ha.enabled]
  by_cases hz : blk = 0
  · rw [if_pos hz,hz]
  rw [if_neg hz]
  by_contra hne
  exact hb ((ha.ended_iff blk).mpr ⟨hne,Nat.pos_of_ne_zero hz⟩)

end

theorem no_convert_tasks (db : StoreDb) (key : NsCollBlk) (bitmap : List Nat) :
    .convert key bitmap ∉ db.collElgTasks := by
  intro hm
  obtain ⟨_,_,_,_,⟨_,_,heq⟩ | heq⟩ := mem_coll_elg_tasks.mp hm
  · nomatch heq
  · nomatch heq

/-- What became eligible is listed as eligible, whatever the size of the batches. -/
theorem Agrees.convert (ha : Agrees p s h) (mb : Nat) :
    Agrees p { s with db := s.db.processCollElgEvents mb } (h.next .processCollElgEvents) := by
  have hc := (converted_initial s.db).tasks mb (no_convert_tasks s.db)
  rw [Set.empty_union,Set.empty_union] at hc
  unfold StoreDb.processCollElgEvents
  dsimp only
  generalize s.db.collElgTasks.foldl (Conversion.task mb) ⟨s.db,{}⟩ = c at hc
  obtain ⟨hda,hex⟩ := hc.unwritten
  constructor
  case data =>
    intro k hl
    rw [hda]
    exact ha.data k hl
  case missing => exact fun key isEligible t hl => ha.converted_missing hc hl isEligible t
  case bitmaps =>
    intro k bitmap hlk
    obtain ⟨_,hlk⟩ := hc.bitmap_source hlk
    exact ha.bitmaps _ _ hlk
  case apart =>
    intro key hne
    by_cases hd : key ∈ scanned s.db s.db.collElgTasks
    · exact absurd (hc.ineligible key hd).1 hne
    · rw [hc.others key hd] at hne ⊢
      exact ha.apart key hne
  case stored =>
    intro k hne
    obtain ⟨was,hw⟩ := hc.was_missing hne
    exact ha.stored ⟨k.nsCollBlk,was⟩ hw
  case reported =>
    intro isEligible x hx
    cases isEligible with
    | false => exact ha.reported false x hx.1
    | true =>
      rcases hx with hx | hx
      · exact ha.reported true x hx
      · exact ha.reported false x hx.1
  case entered =>
    intro k hl hne hep
    obtain ⟨was,hw⟩ := hc.was_missing hne
    rw [hex]
    exact ha.entered ⟨k.nsCollBlk,was⟩ hl hw hep
  case expiry =>
    dsimp only
    rw [hex]
    exact ha.expiry
  case enabled => exact ha.converted_events hc

end PluggableHcs.Pvtdatastorage
