import PluggableHcs.Pvtdatastorage.Holdings

namespace PluggableHcs.Pvtdatastorage
open Batches Runs Txmgmt List AList Transition StoreDb
open MissingDataKey (item nsCollBlk)

open PvtStore

variable {p : BTLPolicy} {s : PvtStore} {h : Holdings} {db : StoreDb}

abbrev StoreDb.bitmapFor (db : StoreDb) (u : UpdateEntries) (key : NsCollBlk) : Option (List Nat) :=
  (u.missing.lookup key).or (db.missing.lookup ⟨key,true⟩)

def ExpiryFor (p : BTLPolicy) (db : StoreDb) (u : UpdateEntries) (k : DataKey)
    (expiry : Option ExpiryEntry) : Prop :=
  ∀ x ∈ expiry, x.1 = expiryKeyOf p k.nsCollBlk ∧
    (u.expiry.lookup x.1).or (db.expiry.lookup x.1) = some x.2

theorem take_missing_cases (u : UpdateEntries) (e : DataEntry) (ex : Option ExpiryEntry) :
    db.takeMissing u e ex = u ∨ ∃ bitmap, db.bitmapFor u e.1.nsCollBlk = some bitmap ∧
      db.takeMissing u e ex = u.add e.1 e.2 ex bitmap := by
  unfold takeMissing bitmapFor
  cases (u.missing.lookup e.1.nsCollBlk).or (db.missing.lookup ⟨e.1.nsCollBlk,true⟩) with
  | none => exact .inl rfl
  | some bitmap => exact .inr ⟨bitmap,rfl,rfl⟩

theorem take_cases (u : UpdateEntries) (e : DataEntry) :
    db.takeOldItem p u e = u ∨ ∃ ex bitmap, db.bitmapFor u e.1.nsCollBlk = some bitmap ∧
      ExpiryFor p db u e.1 ex ∧ db.takeOldItem p u e = u.add e.1 e.2 ex bitmap := by
  unfold takeOldItem
  dsimp only
  split
  · rcases take_missing_cases u e none with hl | ⟨bitmap,hb,ht⟩
    · exact .inl hl
    · exact .inr ⟨none,bitmap,hb,fun x hx => (nomatch hx),ht⟩
  split
  · exact .inl rfl
  rename_i d hd
  rcases take_missing_cases u e (some (expiryKeyOf p e.1.nsCollBlk,d)) with hl | ⟨bitmap,hb,ht⟩
  · exact .inl hl
  refine .inr ⟨_,bitmap,hb,fun x hx => ?_,ht⟩
  cases hx
  exact ⟨rfl,hd⟩

theorem take_added (hb : db.bitmapFor u e.1.nsCollBlk = some bitmap)
    (he : Expires p e.1.nsCollBlk → db.expiry.lookup (expiryKeyOf p e.1.nsCollBlk) ≠ none) :
    ∃ ex, ExpiryFor p db u e.1 ex ∧ db.takeOldItem p u e = u.add e.1 e.2 ex bitmap := by
  have ht : ∀ ex, db.takeMissing u e ex = u.add e.1 e.2 ex bitmap := by
    intro ex
    unfold bitmapFor at hb
    unfold takeMissing
    rw [hb]
  unfold takeOldItem
  dsimp only
  split
  · exact ⟨none,fun x hx => (nomatch hx),ht _⟩
  rename_i hf
  split
  · rename_i hn
    exact absurd (Option.or_eq_none_iff.mp hn).2 (he hf)
  rename_i d hd
  refine ⟨some (expiryKeyOf p e.1.nsCollBlk,d),fun x hx => ?_,ht _⟩
  cases hx
  exact ⟨rfl,hd⟩

theorem add_missing_at (u : UpdateEntries) (k : DataKey) (va : Bytes)
    (ex : Option ExpiryEntry) (bi : List Nat) (key : NsCollBlk) :
    (u.add k va ex bi).missing.lookup key =
      if key = k.nsCollBlk then some (bi.filter (· ≠ k.txNum)) else u.missing.lookup key := by
  by_cases hk : key = k.nsCollBlk
  · subst hk
    rw [if_pos rfl]
    exact lookup_insert _
  · rw [if_neg hk]
    exact lookup_insert_ne hk

theorem add_data_at (u : UpdateEntries) (k : DataKey) (va : Bytes)
    (ex : Option ExpiryEntry) (bi : List Nat) (k' : DataKey) :
    (u.add k va ex bi).data.lookup k' = if k' = k then some va else u.data.lookup k' := by
  by_cases hk : k' = k
  · subst hk
    rw [if_pos rfl]
    exact lookup_insert _
  · rw [if_neg hk]
    exact lookup_insert_ne hk

/-- What is taken of the items of old blocks. -/
structure Taken (p : BTLPolicy) (s : PvtStore) (l : List DataEntry) (u : UpdateEntries) : Prop where
  absent : ∀ key, s.db.missing.lookup ⟨key,true⟩ = none →
    u.missing.lookup key = none ∧ ∀ t, u.data.lookup ⟨key,t⟩ = none
  untouched : ∀ key, (∀ e ∈ l, e.1.nsCollBlk ≠ key) → u.missing.lookup key = none
  cleared : ∀ key bitmap, s.Live p key → s.db.missing.lookup ⟨key,true⟩ = some bitmap →
    (∃ e ∈ l, e.1.nsCollBlk = key) → ∃ bitmap', u.missing.lookup key = some bitmap' ∧
      ∀ t, t ∈ bitmap' ↔ t ∈ bitmap ∧ ∀ e ∈ l, e.1 ≠ ⟨key,t⟩
  present : ∀ key, s.Live p key → s.db.missing.lookup ⟨key,true⟩ ≠ none →
    ∀ t, u.data.lookup ⟨key,t⟩ = Holdings.put (fun _ => none) l ⟨key,t⟩
  expiry : ∀ k d, u.expiry.lookup k = some d → s.db.expiry.lookup k ≠ none
  exact : ExpiryExact p u.expiry

variable {expiry : Option ExpiryEntry}

theorem ExpiryExact.add_present {u : UpdateEntries} (hu : ExpiryExact p u.expiry)
    (hdb : ExpiryExact p db.expiry) {k : DataKey}
    (he : ExpiryFor p db u k expiry) :
    ExpiryExact p (u.addPresent k expiry) := by
  cases expiry with
  | none => exact hu
  | some x =>
    obtain ⟨hk,hlk⟩ := he x rfl
    intro k' d hd ns co hm
    unfold UpdateEntries.addPresent at hd
    by_cases hk' : k' = x.1
    · subst hk'
      rw [lookup_insert] at hd
      cases hd
      have ho : ∀ ns co, x.2.Mentions ns co →
          p.getExpiringBlock ns co x.1.committingBlk = x.1.expiringBlk := by
        rcases Option.or_eq_some_iff.mp hlk with hlk | ⟨_,hlk⟩
        · exact hu x.1 x.2 hlk
        · exact hdb x.1 x.2 hlk
      rcases hm with hm | ⟨t,hm⟩
      · exact ho ns co (.inl hm)
      rcases mem_append.mp hm with hm | hm
      · exact ho ns co (.inr ⟨t,hm⟩)
      cases mem_singleton.mp hm
      rw [hk]
      rfl
    · rw [lookup_insert_ne hk'] at hd
      exact hu k' d hd ns co hm

theorem expiry_add_present {u : UpdateEntries}
    (hu : ∀ k d, u.expiry.lookup k = some d → db.expiry.lookup k ≠ none) {k : DataKey}
    (he : ExpiryFor p db u k expiry) :
    ∀ k' d, (u.addPresent k expiry).lookup k' = some d → db.expiry.lookup k' ≠ none := by
  intro k' d hd
  cases expiry with
  | none => exact hu k' d hd
  | some x =>
    obtain ⟨_,hlk⟩ := he x rfl
    unfold UpdateEntries.addPresent at hd
    by_cases hk' : k' = x.1
    · subst hk'
      rcases Option.or_eq_some_iff.mp hlk with hlk | ⟨_,hlk⟩
      · exact hu x.1 x.2 hlk
      · rw [hlk]
        exact Option.some_ne_none _
    · rw [lookup_insert_ne hk'] at hd
      exact hu k' d hd

theorem Taken.cleared_append (ht : Taken p s l u) {e : DataEntry} (hk : e.1.nsCollBlk ≠ key)
    (hl : s.Live p key) (hb : s.db.missing.lookup ⟨key,true⟩ = some bi)
    (hth : ∃ e' ∈ l ++ [e], e'.1.nsCollBlk = key) :
    ∃ b', u.missing.lookup key = some b' ∧
      ∀ t, t ∈ b' ↔ t ∈ bi ∧ ∀ e' ∈ l ++ [e], e'.1 ≠ ⟨key,t⟩ := by
  obtain ⟨e',he',heq⟩ := hth
  have hm : e' ∈ l := by
    rcases mem_append.mp he' with hm | hm
    · exact hm
    · rw [mem_singleton.mp hm] at heq
      exact absurd heq hk
  obtain ⟨b',hlk,hi⟩ := ht.cleared key bi hl hb ⟨e',hm,heq⟩
  refine ⟨b',hlk,fun t => ?_⟩
  rw [hi,forall_mem_append,forall_mem_singleton]
  have hs : e.1 ≠ ⟨key,t⟩ := fun h => hk (congrArg DataKey.nsCollBlk h)
  simp [hs]

theorem Taken.left (ht : Taken p s l u) {e : DataEntry}
    (hne : ∀ ke, s.Live p ke → s.db.missing.lookup ⟨ke,true⟩ ≠ none → e.1.nsCollBlk ≠ ke) :
    Taken p s (l ++ [e]) u where
  absent := ht.absent
  untouched ke hk := ht.untouched ke fun e' he' => hk e' (mem_append_left _ he')
  cleared := by
    intro ke bi hl hb hth
    have hk := hne ke hl (by rw [hb]; exact Option.some_ne_none _)
    exact ht.cleared_append hk hl hb hth
  present := by
    intro ke hl hb t
    have hs : (⟨ke,t⟩ : DataKey) ≠ e.1 := fun h =>
      hne ke hl hb (congrArg DataKey.nsCollBlk h).symm
    rw [Holdings.put_append,if_neg hs]
    exact ht.present ke hl hb t
  expiry := ht.expiry
  exact := ht.exact

theorem Taken.bitmap_for (ht : Taken p s l u) (hl : s.Live p key)
    (hb : s.db.missing.lookup ⟨key,true⟩ = some bi)
    (hf : s.db.bitmapFor u key = some b') (t : Nat) :
    t ∈ b' ↔ t ∈ bi ∧ ∀ e ∈ l, e.1 ≠ ⟨key,t⟩ := by
  unfold bitmapFor at hf
  by_cases hth : ∃ e ∈ l, e.1.nsCollBlk = key
  · obtain ⟨b₁,hlk,hi⟩ := ht.cleared key bi hl hb hth
    rw [hlk] at hf
    cases hf
    exact hi t
  have hn : ∀ e ∈ l, e.1.nsCollBlk ≠ key := fun e he heq => hth ⟨e,he,heq⟩
  rw [ht.untouched key hn,Option.none_or,hb] at hf
  cases hf
  have ha : ∀ e ∈ l, e.1 ≠ ⟨key,t⟩ := fun e he heq =>
    hn e he (congrArg DataKey.nsCollBlk heq)
  exact ⟨fun ht => ⟨ht,ha⟩,fun ht => ht.1⟩

theorem Taken.added (ht : Taken p s l u) (hdb : ExpiryExact p s.db.expiry) {e : DataEntry}
    (hmi : s.db.missing.lookup ⟨e.1.nsCollBlk,true⟩ ≠ none)
    (hf : s.db.bitmapFor u e.1.nsCollBlk = some bi)
    (he : ExpiryFor p s.db u e.1 expiry) :
    Taken p s (l ++ [e]) (u.add e.1 e.2 expiry bi) where
  absent := by
    intro ke hn
    have hk : ke ≠ e.1.nsCollBlk := fun heq => hmi (heq ▸ hn)
    obtain ⟨hm,hd⟩ := ht.absent ke hn
    refine ⟨?_,fun t => ?_⟩
    · rw [add_missing_at,if_neg hk]
      exact hm
    · rw [add_data_at,if_neg fun heq => hk (congrArg DataKey.nsCollBlk heq)]
      exact hd t
  untouched := by
    intro ke hk
    have hs := hk e (mem_append_right _ mem_cons_self)
    rw [add_missing_at,if_neg (Ne.symm hs)]
    exact ht.untouched ke fun e' he' => hk e' (mem_append_left _ he')
  cleared := by
    intro ke b₀ hl hb hth
    rw [add_missing_at]
    by_cases hk : ke = e.1.nsCollBlk
    · subst hk
      rw [if_pos rfl]
      refine ⟨_,rfl,fun t => ?_⟩
      rw [mem_filter,ht.bitmap_for hl hb hf,forall_mem_append,forall_mem_singleton,and_assoc]
      refine and_congr_right fun _ => and_congr_right fun _ => ?_
      rw [decide_eq_true_eq]
      constructor
      · exact fun hne heq => hne (congrArg DataKey.txNum heq).symm
      · rintro hne rfl
        exact hne rfl
    · rw [if_neg hk]
      exact ht.cleared_append (Ne.symm hk) hl hb hth
  present := by
    intro ke hl hb t
    rw [add_data_at,Holdings.put_append,ht.present ke hl hb t]
  expiry := expiry_add_present ht.expiry he
  exact := ht.exact.add_present hdb he

theorem taken (ha : Agrees p s h) (l : List DataEntry) :
    Taken p s l (l.foldl (s.db.takeOldItem p) .empty) := by
  induction l using List.reverseRecOn with
  | nil =>
    refine ⟨fun _ _ => ⟨rfl,fun _ => rfl⟩,fun _ _ => rfl,?_,fun _ _ _ _ => rfl,
      fun _ _ hd => (nomatch hd),fun _ _ hd => (nomatch hd)⟩
    rintro ke bitmap _ _ ⟨e,he,_⟩
    nomatch he
  | append_singleton l e ih =>
    rw [foldl_append,foldl_cons,foldl_nil]
    generalize l.foldl (s.db.takeOldItem p) .empty = u at ih
    by_cases hm : s.db.missing.lookup ⟨e.1.nsCollBlk,true⟩ = none
    · have hl : s.db.takeOldItem p u e = u := by
        rcases take_cases u e with hl | ⟨_,bitmap,hf,_⟩
        · exact hl
        unfold bitmapFor at hf
        rw [(ih.absent _ hm).1,hm] at hf
        nomatch hf
      rw [hl]
      exact ih.left fun ke _ ht heq => ht (heq ▸ hm)
    · by_cases hli : s.Live p e.1.nsCollBlk
      · obtain ⟨bitmap,hf⟩ : ∃ bitmap, s.db.bitmapFor u e.1.nsCollBlk = some bitmap := by
          refine Option.ne_none_iff_exists'.mp fun hn => ?_
          exact hm (Option.or_eq_none_iff.mp hn).2
        obtain ⟨expiry,hex,had⟩ := take_added hf
          (ha.entered ⟨e.1.nsCollBlk,true⟩ hli hm)
        rw [had]
        exact ih.added ha.expiry hm hf hex
      · rcases take_cases u e with hl | ⟨expiry,bitmap,hf,hex,had⟩
        · rw [hl]
          exact ih.left fun ke hk _ heq => hli (heq ▸ hk)
        · rw [had]
          exact ih.added ha.expiry hm hf hex

theorem batch_eligible (db : StoreDb) (u : UpdateEntries) (key : NsCollBlk) :
    (db.writeBatch u.batch).missing.lookup ⟨key,true⟩ = match u.missing.lookup key with
      | some bi => if bi = [] then none else some bi
      | none => db.missing.lookup ⟨key,true⟩ := by
  have hp {x} (hx : x ∈ u.missing.entries) (heq : (⟨x.1,true⟩ : MissingDataKey) = ⟨key,true⟩) :
      u.missing.lookup key = some x.2 := by
    obtain rfl : x.1 = key := congrArg nsCollBlk heq
    exact mem_lookup_iff.mpr hx
  cases hlk : u.missing.lookup key with
  | some bi =>
    refine lookup_write_same (mem_map.mpr ⟨⟨key,bi⟩,mem_lookup_iff.mp hlk,rfl⟩) ?_
    intro o ho heq
    obtain ⟨x,hx,rfl⟩ := mem_map.mp ho
    cases (hp hx heq).symm.trans hlk
    rfl
  | none =>
    apply lookup_write_other
    intro o ho heq
    obtain ⟨x,hx,rfl⟩ := mem_map.mp ho
    cases (hp hx heq).symm.trans hlk

theorem batch_ineligible (db : StoreDb) (u : UpdateEntries) (ke : NsCollBlk) :
    (db.writeBatch u.batch).missing.lookup ⟨ke,false⟩ = db.missing.lookup ⟨ke,false⟩ := by
  apply lookup_write_other
  intro o ho heq
  obtain ⟨x,_,rfl⟩ := mem_map.mp ho
  exact Bool.false_ne_true (congrArg MissingDataKey.isEligible heq).symm

theorem Taken.was_missing (ht : Taken p s l u)
    (hne : (s.db.writeBatch u.batch).missing.lookup k ≠ none) : s.db.missing.lookup k ≠ none := by
  obtain ⟨key,isEligible⟩ := k
  cases isEligible with
  | true =>
    intro hn
    rw [batch_eligible,(ht.absent key hn).1] at hne
    exact hne hn
  | false =>
    rw [batch_ineligible] at hne
    exact hne

theorem Agrees.missing_iff (ha : Agrees p s h) (hl : s.Live p key) (isEligible : Bool) :
    s.db.missing.lookup ⟨key,isEligible⟩ ≠ none ↔ ∃ t, (key,t) ∈ h.missing isEligible := by
  constructor
  · intro hne
    obtain ⟨bitmap,hb⟩ := Option.ne_none_iff_exists'.mp hne
    obtain ⟨t,ht⟩ := exists_mem_of_ne_nil _ (ha.bitmaps _ _ hb)
    refine ⟨t,(ha.missing key isEligible t hl).mp ?_⟩
    rw [hb]
    exact ht
  · rintro ⟨t,ht⟩ hn
    have hme := (ha.missing key isEligible t hl).mpr ht
    rw [hn] at hme
    nomatch hme

open Classical in
theorem Taken.data (ht : Taken p s l u) (ha : Agrees p s h) (hl : s.Live p k.nsCollBlk) :
    (s.db.writeBatch u.batch).data.lookup k = Holdings.put h.committed
      (l.filter fun e => decide (∃ t, (e.1.nsCollBlk,t) ∈ h.missing true)) k := by
  have hlk : (s.db.writeBatch u.batch).data.lookup k =
      (u.data.lookup k).or (s.db.data.lookup k) := lookup_write_table _ _ k
  have hm := ha.missing_iff hl true
  rw [hlk,ha.data k hl]
  by_cases hn : s.db.missing.lookup ⟨k.nsCollBlk,true⟩ = none
  · rw [Holdings.put_filter _ _ false fun e _ heq => ?_,(ht.absent _ hn).2 k.txNum]
    · rfl
    · rw [heq,decide_eq_false_iff_not]
      exact fun hex => hm.mpr hex hn
  rw [Holdings.put_filter _ _ true fun e _ heq => ?_,ht.present _ hl hn k.txNum]
  · exact (Holdings.put_or _ _ k).symm
  · simp only [heq,decide_eq_true_eq]
    exact hm.mp hn

/-- A transaction is no longer missing once an item of it has been supplied. -/
theorem Taken.eligible (ht : Taken p s l u) (hl : s.Live p key) (t : Nat) :
    t ∈ ((s.db.writeBatch u.batch).missing.lookup ⟨key,true⟩).getD [] ↔
      t ∈ (s.db.missing.lookup ⟨key,true⟩).getD [] ∧ ∀ e ∈ l, e.1 ≠ ⟨key,t⟩ := by
  rw [batch_eligible]
  cases hb : s.db.missing.lookup ⟨key,true⟩ with
  | none =>
    rw [(ht.absent key hb).1]
    simp
  | some bitmap =>
    rw [Option.getD_some]
    cases hu : u.missing.lookup key with
    | none => exact ht.bitmap_for hl hb (by rw [bitmapFor,hu,hb]; rfl) t
    | some left =>
      rw [← ht.bitmap_for hl hb (by rw [bitmapFor,hu]; rfl) t]
      dsimp only
      split
      · rename_i hn
        rw [hn]
        rfl
      · rfl

theorem Agrees.taken_bitmaps (ha : Agrees p s h) {u : UpdateEntries}
    (hb : (s.db.writeBatch u.batch).missing.lookup k = some bitmap) : bitmap ≠ [] := by
  obtain ⟨key,isEligible⟩ := k
  cases isEligible with
  | false =>
    rw [batch_ineligible] at hb
    exact ha.bitmaps _ _ hb
  | true =>
    rw [batch_eligible] at hb
    split at hb
    · split at hb
      · nomatch hb
      · cases hb
        assumption
    · exact ha.bitmaps _ _ hb

/-- Data of old blocks are stored where they were missing, and are missing no more. -/
theorem Agrees.reconcile (ha : Agrees p s h) (blocksPvtData : List (Nat × List TxPvtData)) :
    Agrees p { s with db := s.db.commitPvtDataOfOldBlocks p (oldEntries blocksPvtData) }
      (h.next (.commitPvtDataOfOldBlocks blocksPvtData)) := by
  have ht := taken ha (oldEntries blocksPvtData)
  unfold StoreDb.commitPvtDataOfOldBlocks
  generalize (oldEntries blocksPvtData).foldl (s.db.takeOldItem p) .empty = u at ht
  have hei : ∀ k, (s.db.writeBatch u.batch).expiry.lookup k =
      (u.expiry.lookup k).or (s.db.expiry.lookup k) := fun k => lookup_write_table _ _ k
  constructor
  case data => exact fun k hl => ht.data ha hl
  case missing =>
    intro key isEligible t hl
    have hm := ha.missing key isEligible t hl
    cases isEligible with
    | false =>
      rw [batch_ineligible]
      exact hm
    | true =>
      change _ ↔ (key,t) ∈ h.missing true ∧ ∀ e ∈ oldEntries blocksPvtData, e.1 ≠ ⟨key,t⟩
      rw [← hm]
      exact ht.eligible hl t
  case bitmaps => exact fun k bitmap hb => ha.taken_bitmaps hb
  case apart =>
    intro key hne
    rw [batch_ineligible] at hne
    by_contra hth
    exact ht.was_missing hth (ha.apart key hne)
  case stored => exact fun k hk => ha.stored k (ht.was_missing hk)
  case reported =>
    intro isEligible x hx
    cases isEligible with
    | false => exact ha.reported false x hx
    | true => exact ha.reported true x hx.1
  case entered =>
    intro k hl hk hep
    rw [hei]
    exact fun hn => ha.entered k hl (ht.was_missing hk) hep (Option.or_eq_none_iff.mp hn).2
  case expiry =>
    intro k d hd
    rw [hei] at hd
    rcases Option.or_eq_some_iff.mp hd with hd | ⟨_,hd⟩
    · exact ht.exact k d hd
    · exact ha.expiry k d hd
  case enabled => exact ha.enabled

end PluggableHcs.Pvtdatastorage
