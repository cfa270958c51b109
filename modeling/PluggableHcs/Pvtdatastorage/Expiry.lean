import PluggableHcs.Pvtdatastorage.Store

namespace PluggableHcs.Pvtdatastorage
open Batches Runs Txmgmt List Option AList

structure Item where
  key : NsCollBlk
  tx : Option Nat

def ExpiryData.Lists (d : ExpiryData) (i : Item) : Prop :=
  match i.tx with
  | some t => (i.key.ns,i.key.coll,t) ∈ d.present
  | none => (i.key.ns,i.key.coll) ∈ d.missing

def StoreDb.Has (db : StoreDb) (i : Item) : Prop :=
  match i.tx with
  | some t => db.data.lookup ⟨i.key,t⟩ ≠ none
  | none => ∃ isEligible, db.missing.lookup ⟨i.key,isEligible⟩ ≠ none

def Expires (p : BTLPolicy) (key : NsCollBlk) : Prop := (expiryKeyOf p key).expiringBlk ≠ maxUint64

def Listed (p : BTLPolicy) (expiry : AList fun _ : ExpiryKey => ExpiryData) (i : Item) : Prop :=
  ∃ d, expiry.lookup (expiryKeyOf p i.key) = some d ∧ d.Lists i

def Covered (p : BTLPolicy) (db : StoreDb) : Prop :=
  ∀ i, db.Has i → Expires p i.key → Listed p db.expiry i

def ExpiryData.Below (d d' : ExpiryData) : Prop := ∀ i, d.Lists i → d'.Lists i

theorem below_refl (d : ExpiryData) : d.Below d := fun _ h => h

theorem below_trans (h : ExpiryData.Below d d') (h' : d'.Below d'') : d.Below d'' :=
  fun i hi => h' i (h i hi)

theorem below_add_present (d : ExpiryData) : d.Below (d.addPresentData ns co t) := by
  intro i hi
  unfold ExpiryData.Lists at hi ⊢
  cases h : i.tx with
  | none => simpa [h,ExpiryData.addPresentData] using hi
  | some u =>
    simp only [h] at hi
    exact mem_append_left _ hi

theorem below_add_missing (d : ExpiryData) : d.Below (d.addMissingData ns co) := by
  intro i hi
  unfold ExpiryData.Lists at hi ⊢
  cases h : i.tx with
  | none =>
    simp only [h] at hi
    exact mem_insert_of_mem hi
  | some u => simpa [h,ExpiryData.addMissingData] using hi

theorem add_present_lists (d : ExpiryData) (ke : NsCollBlk) :
    (d.addPresentData ke.ns ke.coll t).Lists ⟨ke,some t⟩ :=
  mem_append_right _ mem_cons_self

def UpdateBatch.Puts (b : UpdateBatch) (i : Item) : Prop :=
  match i.tx with
  | some t => ∃ v, (⟨i.key,t⟩,some v) ∈ b.data
  | none => ∃ isEligible bitmap, (⟨i.key,isEligible⟩,some bitmap) ∈ b.missing

variable {db : StoreDb}

theorem has_write_batch (h : (db.writeBatch b).Has i) : b.Puts i ∨ db.Has i := by
  unfold StoreDb.Has UpdateBatch.Puts at *
  cases htx : i.tx with
  | some t =>
    simp only [htx] at h ⊢
    obtain ⟨v,hv⟩ := ne_none_iff_exists'.mp h
    rcases lookup_write_some hv with hm | ⟨ho,_⟩
    · exact .inl ⟨v,hm⟩
    · exact .inr (by simp [ho])
  | none =>
    simp only [htx] at h ⊢
    obtain ⟨ie,h⟩ := h
    obtain ⟨v,hv⟩ := ne_none_iff_exists'.mp h
    rcases lookup_write_some hv with hm | ⟨ho,_⟩
    · exact .inl ⟨ie,v,hm⟩
    · exact .inr ⟨ie,by simp [ho]⟩

theorem Covered.write_batch (h : Covered p db)
    (hpu : ∀ i, b.Puts i → Expires p i.key → Listed p (db.writeBatch b).expiry i)
    (hk : ∀ k d, db.expiry.lookup k = some d →
      ∃ d', (db.writeBatch b).expiry.lookup k = some d' ∧ d.Below d') :
    Covered p (db.writeBatch b) := by
  intro i hi he
  rcases has_write_batch hi with hp | ho
  · exact hpu i hp he
  obtain ⟨d,hd,hls⟩ := h i ho he
  obtain ⟨d',hd',hb⟩ := hk _ d hd
  exact ⟨d',hd',hb i hls⟩

theorem Covered.write_missing (h : Covered p db) (hex : b.expiry = [])
    (hpu : ∀ i, b.Puts i → Expires p i.key → db.Has i) : Covered p (db.writeBatch b) := by
  have hs : (db.writeBatch b).expiry = db.expiry := by
    unfold StoreDb.writeBatch
    rw [hex]
    rfl
  apply h.write_batch
  · intro i hp he
    rw [hs]
    exact h i (hpu i hp he) he
  intro k d hd
  rw [hs]
  exact ⟨d,hd,below_refl d⟩

section
variable {g : ExpiryLookup} {m m' : AList fun _ : Nat => ExpiryData}

def Grows (m m' : AList fun _ : Nat => ExpiryData) : Prop :=
  ∀ e d, m.lookup e = some d → ∃ d', m'.lookup e = some d' ∧ d.Below d'

theorem grows_refl (m : AList fun _ : Nat => ExpiryData) : Grows m m :=
  fun _ d hd => ⟨d,hd,below_refl d⟩

theorem prepare_grows {ad : ExpiryData → ExpiryData} (ha : ∀ d : ExpiryData, d.Below (ad d)) :
    Grows m (prepareExpiryEntry g key ad m) := by
  unfold prepareExpiryEntry
  split
  · exact grows_refl m
  rename_i eb _
  split
  · exact grows_refl m
  intro e d hd
  by_cases he : e = eb
  · subst he
    refine ⟨_,lookup_insert _,?_⟩
    rw [hd]
    exact ha d
  · exact ⟨d,(lookup_insert_ne he).trans hd,below_refl d⟩

theorem prepare_lists {ad : ExpiryData → ExpiryData} (ha : ∀ d, (ad d).Lists i)
    (hg : g key = some e) (hf : e ≠ maxUint64) :
    ∃ d, (prepareExpiryEntry g key ad m).lookup e = some d ∧ d.Lists i := by
  unfold prepareExpiryEntry
  simp only [hg,if_neg hf]
  exact ⟨_,lookup_insert _,ha _⟩

theorem fold_lists {α : Type} {it : α → Item}
    {f : (AList fun _ : Nat => ExpiryData) → α → AList fun _ : Nat => ExpiryData}
    (hgr : ∀ m k, Grows m (f m k))
    (hls : ∀ m k e, g (it k).key = some e → e ≠ maxUint64 →
      ∃ d, (f m k).lookup e = some d ∧ d.Lists (it k)) (ks : List α) :
    Grows m (ks.foldl f m) ∧ ∀ k ∈ ks, ∀ e, g (it k).key = some e → e ≠ maxUint64 →
        ∃ d, (ks.foldl f m).lookup e = some d ∧ d.Lists (it k) := by
  induction ks generalizing m with
  | nil => exact ⟨grows_refl m,fun k hk => nomatch hk⟩
  | cons ke ks ih =>
    obtain ⟨hr,ha⟩ := ih (m := f m ke)
    refine ⟨?_,?_⟩
    · intro e d hd
      obtain ⟨d',hd',hb⟩ := hgr m ke e d hd
      obtain ⟨d'',hd'',hb'⟩ := hr e d' hd'
      exact ⟨d'',hd'',below_trans hb hb'⟩
    intro k hk e hg hf
    rcases mem_cons.mp hk with rfl | hk
    · obtain ⟨d,hd,hp⟩ := hls m k e hg hf
      obtain ⟨d',hd',hb⟩ := hr e d hd
      exact ⟨d',hd',hb _ hp⟩
    · exact ha k hk e hg hf

def DataKey.item (k : DataKey) : Item := ⟨k.nsCollBlk,some k.txNum⟩

def MissingDataKey.item (k : MissingDataKey) : Item := ⟨k.nsCollBlk,none⟩

theorem prepare_present_lists (ks : List DataKey) :
    Grows m (ks.foldl (prepareExpiryEntriesForPresentData g) m) ∧
      ∀ k ∈ ks, ∀ e, g k.item.key = some e → e ≠ maxUint64 →
        ∃ d, (ks.foldl (prepareExpiryEntriesForPresentData g) m).lookup e = some d ∧
          d.Lists k.item := by
  apply fold_lists (f := prepareExpiryEntriesForPresentData g)
  · exact fun m k => prepare_grows below_add_present
  · exact fun m k e => prepare_lists fun d => add_present_lists d k.nsCollBlk

theorem prepare_missing_lists (g : ExpiryLookup) (m : AList fun _ : Nat => ExpiryData)
    (ks : List MissingDataKey) :
    Grows m (ks.foldl (prepareExpiryEntriesForMissingData g) m) ∧
      ∀ k ∈ ks, ∀ e, g k.item.key = some e → e ≠ maxUint64 →
        ∃ d, (ks.foldl (prepareExpiryEntriesForMissingData g) m).lookup e = some d ∧
          d.Lists k.item := by
  apply fold_lists (f := prepareExpiryEntriesForMissingData g)
  · exact fun m k => prepare_grows below_add_missing
  · exact fun m k e => prepare_lists fun _ => mem_insert_self

theorem prepare_expiry_lists {dk : List DataKey}
    (hi : i ∈ dk.map DataKey.item ++ missingKeys.map MissingDataKey.item)
    (hg : g i.key = some e) (hf : e ≠ maxUint64) :
    ∃ d, (prepareExpiryEntries g dk missingKeys).lookup e = some d ∧ d.Lists i := by
  have hm := prepare_missing_lists g
    (dk.foldl (prepareExpiryEntriesForPresentData g) ∅) missingKeys
  rcases mem_append.mp hi with hi | hi
  · obtain ⟨k,hk,rfl⟩ := List.mem_map.mp hi
    obtain ⟨d,hd,hls⟩ := (prepare_present_lists dk).2 k hk e hg hf
    obtain ⟨d',hd',hb⟩ := hm.1 e d hd
    exact ⟨d',hd',hb _ hls⟩
  · obtain ⟨k,hk,rfl⟩ := List.mem_map.mp hi
    exact hm.2 k hk e hg hf

end

section
variable {g : ExpiryLookup}

def blockItems (blockNum : Nat) (pvtData : List TxPvtData)
    (missingPvtData : List (Nat × List MissingPvtData)) : List Item :=
  ((prepareDataEntries blockNum pvtData).map Prod.fst).map DataKey.item ++
    (prepareMissingDataEntries blockNum missingPvtData).keys.map MissingDataKey.item

theorem data_entries_block (h : e ∈ prepareDataEntries b pd) : e.1.nsCollBlk.blkNum = b := by
  obtain ⟨tx,_,h⟩ := mem_flatMap.mp h
  obtain ⟨ns,_,h⟩ := mem_flatMap.mp h
  obtain ⟨co,_,rfl⟩ := List.mem_map.mp h
  rfl

theorem missing_entries_block
    (h : k ∈ (prepareMissingDataEntries b mi).keys) : k.nsCollBlk.blkNum = b := by
  have ha : ∀ (l : List (Nat × MissingPvtData)) (m : AList fun _ : MissingDataKey => List Nat),
      (∀ k ∈ m.keys, k.nsCollBlk.blkNum = b) →
      ∀ k ∈ (l.foldl (fun m e =>
        let ke : MissingDataKey := ⟨⟨e.2.ns,e.2.coll,b⟩,e.2.isEligible⟩
        m.insert ke (((m.lookup ke).getD []).insert e.1)) m).keys, k.nsCollBlk.blkNum = b := by
    intro l
    induction l with
    | nil => exact fun m hm => hm
    | cons e l ih =>
      intro m hm
      apply ih
      intro k hk
      rcases (mem_insert m).mp (AList.mem_keys.mpr hk) with rfl | ho
      · rfl
      · exact hm k (AList.mem_keys.mp ho)
  exact ha _ ∅ (fun k hk => nomatch hk) k h

theorem block_items_block (h : i ∈ blockItems b pd mi) : i.key.blkNum = b := by
  rcases mem_append.mp h with h | h
  · obtain ⟨k,hk,rfl⟩ := List.mem_map.mp h
    obtain ⟨e,he,rfl⟩ := List.mem_map.mp hk
    exact data_entries_block he
  · obtain ⟨k,hk,rfl⟩ := List.mem_map.mp h
    exact missing_entries_block hk

theorem puts_block_items (h : (prepareStoreEntries g b pd missing).Puts i) :
    i ∈ blockItems b pd missing := by
  obtain ⟨ke,tx⟩ := i
  cases tx with
  | some t =>
    obtain ⟨v,hv⟩ := h
    obtain ⟨e,he,heq⟩ := List.mem_map.mp hv
    obtain ⟨hk,_⟩ := Prod.mk.inj heq
    refine mem_append_left _ (List.mem_map.mpr ⟨⟨ke,t⟩,?_,rfl⟩)
    exact List.mem_map.mpr ⟨e,he,hk⟩
  | none =>
    obtain ⟨ie,bi,hv⟩ := h
    obtain ⟨e,he,heq⟩ := List.mem_map.mp hv
    obtain ⟨hk,_⟩ := Prod.mk.inj heq
    refine mem_append_right _ (List.mem_map.mpr ⟨⟨ke,ie⟩,?_,rfl⟩)
    exact List.mem_map.mpr ⟨e,he,hk⟩

theorem commit_expiry_other (hk : k.committingBlk ≠ b) :
    (db.writeBatch (prepareStoreEntries g b pd mi)).expiry.lookup k = db.expiry.lookup k := by
  apply lookup_write_other
  intro o ho heq
  obtain ⟨e,_,rfl⟩ := List.mem_map.mp ho
  exact hk (congrArg ExpiryKey.committingBlk heq).symm

theorem commit_expiry (h : (prepareExpiryEntries g ((prepareDataEntries b pd).map Prod.fst)
      (prepareMissingDataEntries b mi).keys).lookup e = some d) :
    (db.writeBatch (prepareStoreEntries g b pd mi)).expiry.lookup ⟨e,b⟩ = some d := by
  apply lookup_write_same
  · exact List.mem_map.mpr ⟨⟨e,d⟩,mem_lookup_iff.mp h,rfl⟩
  intro o ho hk
  obtain ⟨x,hx,rfl⟩ := List.mem_map.mp ho
  have hx' := mem_lookup_iff.mpr hx
  have hb : x.1 = e := congrArg ExpiryKey.expiringBlk hk
  rw [hb] at hx'
  exact hx'.symm.trans h

theorem Covered.commit {mi : List (Nat × List MissingPvtData)} (h : Covered p db)
    (hb : ∀ k d, db.expiry.lookup k = some d → k.committingBlk < b)
    (hg : ∀ i ∈ blockItems b pd mi, g i.key = some (expiryKeyOf p i.key).expiringBlk) :
    Covered p (db.writeBatch (prepareStoreEntries g b pd mi)) := by
  apply h.write_batch
  · intro i hp he
    have hi := puts_block_items hp
    obtain ⟨d,hd,hls⟩ := prepare_expiry_lists hi (hg i hi) he
    refine ⟨d,?_,hls⟩
    have hk : expiryKeyOf p i.key = ⟨(expiryKeyOf p i.key).expiringBlk,b⟩ := by
      rw [← block_items_block hi]
      rfl
    rw [hk]
    exact commit_expiry hd
  · intro k d hd
    rw [commit_expiry_other (hb k d hd).ne]
    exact ⟨d,hd,below_refl d⟩

end

theorem purge_has (h : (db.writeBatch (purgeBatch done)).Has i) :
    db.Has i ∧ ∀ e ∈ done, e.1.committingBlk = i.key.blkNum → ¬ e.2.Lists i := by
  obtain ⟨ke,tx⟩ := i
  cases tx with
  | some t =>
    obtain ⟨v,hv⟩ := ne_none_iff_exists'.mp h
    rcases lookup_write_some hv with hm | ⟨ho,hn⟩
    · obtain ⟨_,_,heq⟩ := List.mem_map.mp hm
      nomatch heq
    refine ⟨fun h => (nomatch ho.symm.trans h),?_⟩
    intro e he hb hls
    apply hn (⟨ke,t⟩,none) (List.mem_map.mpr ⟨_,mem_flatMap.mpr ⟨e,he,?_⟩,rfl⟩) rfl
    refine List.mem_map.mpr ⟨_,hls,?_⟩
    simp only [hb]
  | none =>
    obtain ⟨ie,h⟩ := h
    obtain ⟨v,hv⟩ := ne_none_iff_exists'.mp h
    rcases lookup_write_some hv with hm | ⟨ho,hn⟩
    · obtain ⟨_,_,heq⟩ := List.mem_map.mp hm
      nomatch heq
    refine ⟨⟨ie,fun h => (nomatch ho.symm.trans h)⟩,?_⟩
    intro e he hb hls
    apply hn (⟨ke,ie⟩,none)
      (List.mem_map.mpr ⟨_,mem_flatMap.mpr ⟨e,he,?_⟩,rfl⟩) rfl
    refine mem_flatMap.mpr ⟨_,hls,?_⟩
    cases ie <;> simp [hb]

theorem purge_expiry (h : (db.writeBatch (purgeBatch done)).expiry.lookup k = some d) :
    db.expiry.lookup k = some d := by
  rcases lookup_write_some h with hm | ⟨ho,_⟩
  · obtain ⟨_,_,heq⟩ := List.mem_map.mp hm
    nomatch heq
  · exact ho

theorem Covered.purge (h : Covered p db)
    (hs : ∀ e ∈ done, ∀ d, db.expiry.lookup e.1 = some d → d = e.2) :
    Covered p (db.writeBatch (purgeBatch done)) := by
  intro i hi hex
  obtain ⟨hl,hu⟩ := purge_has hi
  obtain ⟨d,hd,hls⟩ := h i hl hex
  refine ⟨d,?_,hls⟩
  refine (lookup_write_other ?_).trans hd
  intro o ho heq
  obtain ⟨e,he,rfl⟩ := List.mem_map.mp ho
  have heq' : e.1 = expiryKeyOf p i.key := heq
  obtain rfl := hs e he d (heq' ▸ hd)
  exact hu e he (congrArg ExpiryKey.committingBlk heq') hls

theorem purge_rest_has (h : (db.purgeRest done td).Has i) :
    db.Has i ∧ ∀ e ∈ td, e.1.committingBlk = i.key.blkNum → ¬ e.2.Lists i := by
  induction td generalizing db done with
  | nil => exact ⟨h,fun e he => nomatch he⟩
  | cons e td ih =>
    obtain ⟨hn,ho⟩ := ih h
    obtain ⟨hl,hd⟩ := purge_has hn
    refine ⟨hl,?_⟩
    intro x hx
    rcases mem_cons.mp hx with rfl | hx
    · exact hd x (mem_append_right _ mem_cons_self)
    · exact ho x hx

theorem Covered.purge_expired (h : Covered p db) (hn : n < maxUint64)
    (hi : (db.purgeExpiredData n).Has i) : n < (expiryKeyOf p i.key).expiringBlk := by
  by_contra hle
  obtain ⟨ho,hu⟩ := purge_rest_has hi
  have he : Expires p i.key := by
    unfold Expires
    omega
  obtain ⟨d,hd,hls⟩ := h i ho he
  refine hu (expiryKeyOf p i.key,d) ?_ rfl hls
  refine (mem_insertionSort _).mpr (mem_filter.mpr ⟨?_,?_⟩)
  · exact List.mem_map.mpr ⟨⟨_,d⟩,mem_lookup_iff.mp hd,rfl⟩
  · simpa using hle

def UpdateBatch.MissingOnly (b : UpdateBatch) : Prop := b.data = [] ∧ b.expiry = []

def Converter.Sound : Converter → Prop
  | .converting _ batch => batch.MissingOnly
  | .idle | .sleeping _ => True

theorem converter_step_sound {c c' : Converter} (h : c.Sound)
    (hs : c.step mb db = some (batch,c')) : batch.MissingOnly ∧ c'.Sound := by
  cases c with
  | idle | sleeping ts => nomatch hs
  | converting ts he =>
    cases ts with
    | nil =>
      cases hs
      exact ⟨h,trivial⟩
    | cons ta ts =>
      cases ta with
      | scan m ns co =>
        cases hs
        exact ⟨⟨rfl,rfl⟩,h⟩
      | convert ke bi =>
        simp only [Converter.step] at hs
        split at hs
        · cases hs
          exact ⟨h,trivial⟩
        · cases hs
          exact ⟨⟨rfl,rfl⟩,h⟩
      | endEvent bn =>
        cases hs
        exact ⟨⟨rfl,rfl⟩,h⟩

/-- A batch of the converter puts entries that are still stored as ineligible. -/
def Current (db : StoreDb) (b : UpdateBatch) : Prop :=
  ∀ o ∈ b.missing, o.2 ≠ none → db.missing.lookup ⟨o.1.nsCollBlk,false⟩ ≠ none
deriving Decidable

theorem Covered.convert (h : Covered p db) (hb : UpdateBatch.MissingOnly b)
    (hc : Current db b) : Covered p (db.writeBatch b) := by
  apply h.write_missing hb.2
  intro i hp _
  obtain ⟨ke,tx⟩ := i
  cases tx with
  | some t =>
    obtain ⟨v,hv⟩ := hp
    rw [hb.1] at hv
    nomatch hv
  | none =>
    obtain ⟨ie,bi,hv⟩ := hp
    exact ⟨false,hc _ hv (by simp)⟩

def UpdateEntries.Has (u : UpdateEntries) (i : Item) : Prop :=
  match i.tx with
  | some t => u.data.lookup ⟨i.key,t⟩ ≠ none
  | none => u.missing.lookup i.key ≠ none

def Extends (db : StoreDb) (bound : Nat) (k : ExpiryKey) (d : ExpiryData) : Prop :=
  k.committingBlk < bound ∧ ∀ d', db.expiry.lookup k = some d' → d'.Below d

structure UpdateEntries.Sound (p : BTLPolicy) (db : StoreDb) (bound : Nat) (u : UpdateEntries) :
    Prop where
  listed : ∀ i, u.Has i → Expires p i.key → Listed p u.expiry i
  extended : ∀ k d, u.expiry.lookup k = some d → Extends db bound k d

def HeldExpiry (p : BTLPolicy) (db : StoreDb) (bound : Nat) (u : UpdateEntries) (key : NsCollBlk) :
    Option ExpiryEntry → Prop
  | none => ¬ Expires p key
  | some e => e.1 = expiryKeyOf p key ∧ Extends db bound e.1 e.2 ∧
    ∀ d, u.expiry.lookup e.1 = some d → d = e.2

def Reconciler.Sound (p : BTLPolicy) (db : StoreDb) (bound : Nat) : Reconciler → Prop
  | .idle => True
  | .reading _ u => u.Sound p db bound
  | .found head expiry _ u => u.Sound p db bound ∧ HeldExpiry p db bound u head.1.nsCollBlk expiry

theorem Extends.mono (h : Extends db bound k d) (hle : bound ≤ b')
    (hdb : ∀ k d, k.committingBlk < bound → db'.expiry.lookup k = some d →
      db.expiry.lookup k = some d) : Extends db' b' k d :=
  ⟨h.1.trans_le hle,fun d' hd' => h.2 d' (hdb k d' h.1 hd')⟩

theorem Reconciler.Sound.mono {r : Reconciler} (h : r.Sound p db bound) (hle : bound ≤ bound')
    (hdb : ∀ k d, k.committingBlk < bound → db'.expiry.lookup k = some d →
      db.expiry.lookup k = some d) : r.Sound p db' bound' := by
  cases r with
  | idle => trivial
  | reading td u => exact ⟨h.listed,fun k d hd => (h.extended k d hd).mono hle hdb⟩
  | found he ex td u =>
    refine ⟨⟨h.1.listed,fun k d hd => (h.1.extended k d hd).mono hle hdb⟩,?_⟩
    cases ex with
    | none => exact h.2
    | some e => exact ⟨h.2.1,h.2.2.1.mono hle hdb,h.2.2.2⟩

theorem update_entries_empty_sound : UpdateEntries.empty.Sound p db bound := by
  constructor
  · intro i hi
    obtain ⟨ke,tx⟩ := i
    cases tx <;> exact absurd rfl hi
  · intro k d hd
    nomatch hd

theorem held_lists_missing (hc : Covered p db)
    (hu : u.Sound p db bound) (hh : HeldExpiry p db bound u key (some e)) (he : Expires p key)
    (hb : (u.missing.lookup key).or (db.missing.lookup ⟨key,true⟩) = some bi) :
    e.2.Lists ⟨key,none⟩ := by
  obtain ⟨hk,hex,hs⟩ := hh
  cases hum : u.missing.lookup key with
  | some bs =>
    obtain ⟨d,hd,hls⟩ := hu.listed ⟨key,none⟩ (by simp [UpdateEntries.Has,hum]) he
    rw [← hk] at hd
    exact hs d hd ▸ hls
  | none =>
    rw [hum,none_or] at hb
    obtain ⟨d,hd,hls⟩ := hc ⟨key,none⟩ ⟨true,by simp [hb]⟩ he
    rw [← hk] at hd
    exact hex.2 d hd _ hls

theorem add_sound {ke : DataKey} (hc : Covered p db)
    (hu : u.Sound p db bound) (hh : HeldExpiry p db bound u ke.nsCollBlk ex)
    (hb : (u.missing.lookup ke.nsCollBlk).or
      (db.missing.lookup ⟨ke.nsCollBlk,true⟩) = some bi) :
    (u.add ke value ex bi).Sound p db bound := by
  have hl : ∀ i, (u.add ke value ex bi).Has i →
      u.Has i ∨ i = ke.item ∨ i = ⟨ke.nsCollBlk,none⟩ := by
    intro i hi
    obtain ⟨k,tx⟩ := i
    cases tx with
    | some t =>
      by_cases heq : (⟨k,t⟩ : DataKey) = ke
      · subst heq
        exact .inr (.inl rfl)
      · refine .inl fun hn => hi ?_
        exact (lookup_insert_ne heq).trans hn
    | none =>
      by_cases heq : k = ke.nsCollBlk
      · subst heq
        exact .inr (.inr rfl)
      · refine .inl fun hn => hi ?_
        exact (lookup_insert_ne heq).trans hn
  cases ex with
  | none =>
    constructor
    · intro i hi he
      rcases hl i hi with h | rfl | rfl
      · exact hu.listed i h he
      · exact absurd he hh
      · exact absurd he hh
    · exact hu.extended
  | some e =>
    obtain ⟨hke,hex,hsa⟩ := hh
    have hs : (u.add ke value (some e) bi).expiry.lookup e.1 =
        some (e.2.addPresentData ke.nsCollBlk.ns ke.nsCollBlk.coll ke.txNum) :=
      lookup_insert _
    have ho : ∀ k, k ≠ e.1 → (u.add ke value (some e) bi).expiry.lookup k = u.expiry.lookup k :=
      fun k hk => lookup_insert_ne hk
    constructor
    · intro i hi he
      rcases hl i hi with h | rfl | rfl
      · obtain ⟨d,hd,hls⟩ := hu.listed i h he
        by_cases hk : expiryKeyOf p i.key = e.1
        · rw [hk] at hd
          refine ⟨_,hk ▸ hs,below_add_present _ i ?_⟩
          exact hsa d hd ▸ hls
        · exact ⟨d,(ho _ hk).trans hd,hls⟩
      · exact ⟨_,hke ▸ hs,add_present_lists _ _⟩
      · refine ⟨_,hke ▸ hs,below_add_present _ _ ?_⟩
        exact held_lists_missing hc hu ⟨hke,hex,hsa⟩ he hb
    · intro k d hd
      by_cases hk : k = e.1
      · subst hk
        cases hs.symm.trans hd
        exact ⟨hex.1,fun d' hd' => below_trans (hex.2 d' hd') (below_add_present _)⟩
      · rw [ho k hk] at hd
        exact hu.extended k d hd

variable {u : UpdateEntries}

theorem batch_puts (h : u.batch.Puts i) : u.Has i := by
  obtain ⟨ke,tx⟩ := i
  cases tx with
  | some t =>
    obtain ⟨v,hv⟩ := h
    obtain ⟨e,he,heq⟩ := List.mem_map.mp hv
    obtain ⟨hk,_⟩ := Prod.mk.inj heq
    have he' := mem_lookup_iff.mpr he
    intro hn
    rw [hk] at he'
    exact nomatch he'.symm.trans hn
  | none =>
    obtain ⟨ie,bi,hv⟩ := h
    obtain ⟨e,he,heq⟩ := List.mem_map.mp hv
    obtain ⟨hk,_⟩ := Prod.mk.inj heq
    cases hk
    intro hn
    exact nomatch (mem_lookup_iff.mpr he).symm.trans hn

theorem batch_expiry (h : u.expiry.lookup k = some d) :
    (db.writeBatch u.batch).expiry.lookup k = some d :=
  lookup_write_entries h

theorem Covered.reconcile (h : Covered p db)
    (hu : u.Sound p db bound) : Covered p (db.writeBatch u.batch) := by
  apply h.write_batch
  · intro i hp hex
    obtain ⟨d,hd,hls⟩ := hu.listed i (batch_puts hp) hex
    exact ⟨d,batch_expiry hd,hls⟩
  intro k d hd
  cases hk : u.expiry.lookup k with
  | some d' => exact ⟨d',batch_expiry hk,(hu.extended k d' hk).2 d hd⟩
  | none =>
    refine ⟨d,?_,below_refl d⟩
    refine (lookup_write_other ?_).trans hd
    intro o ho heq
    obtain ⟨e,he,rfl⟩ := List.mem_map.mp ho
    obtain rfl : e.1 = k := heq
    exact nomatch (mem_lookup_iff.mpr he).symm.trans hk

theorem reconciler_step {r r' : Reconciler} (hc : Covered p db)
    (hbo : ∀ k d, db.expiry.lookup k = some d → k.committingBlk < bound)
    (hr : r.Sound p db bound) (h : r.step p db fails = some (batch,r')) :
    (batch = {} ∧ r'.Sound p db bound) ∨
      ∃ u : UpdateEntries, u.Sound p db bound ∧ batch = u.batch ∧ r' = .idle := by
  cases r with
  | idle => nomatch h
  | reading td u =>
    cases td with
    | nil =>
      cases h
      exact .inr ⟨u,hr,rfl,rfl⟩
    | cons ha td =>
      obtain ⟨ke,va⟩ := ha
      simp only [Reconciler.step] at h
      split at h
      · cases h
        exact .inl ⟨rfl,trivial⟩
      split at h
      · rename_i hn
        cases h
        exact .inl ⟨rfl,hr,fun he => he hn⟩
      split at h
      · cases h
        exact .inl ⟨rfl,hr⟩
      rename_i d hd
      cases h
      refine .inl ⟨rfl,hr,rfl,?_,?_⟩
      · cases hu : u.expiry.lookup (expiryKeyOf p ke.nsCollBlk) with
        | some d' =>
          rw [hu,some_or] at hd
          cases hd
          exact hr.extended _ _ hu
        | none =>
          rw [hu,none_or] at hd
          refine ⟨hbo _ _ hd,?_⟩
          intro d' hd'
          cases hd.symm.trans hd'
          exact below_refl d
      · intro d' hd'
        rw [hd',some_or] at hd
        exact Option.some.inj hd
  | found ha ex td u =>
    obtain ⟨ke,va⟩ := ha
    simp only [Reconciler.step] at h
    split at h
    · cases h
      exact .inl ⟨rfl,hr.1⟩
    rename_i bi hb
    cases h
    exact .inl ⟨rfl,add_sound hc hr.1 hr.2 hb⟩

/-- GetExpiringBlock answers for the collections of a committed block, the expiry entries that the
purger deletes are as it read them, and those that the converter makes eligible are still there. -/
def Reliable (conf : Conf) (e : Transition Store StoreEvent) : Prop :=
  match e.label with
  | .commit blockNum pvtData missingPvtData fails =>
    ∀ i ∈ blockItems blockNum pvtData missingPvtData, (i.key.ns,i.key.coll) ∉ fails
  | .purgeNext =>
    match e.before.purger with
    | some (done,x :: _) => ∀ y ∈ done ++ [x], ∀ d ∈ e.before.db.expiry.lookup y.1, d = y.2
    | _ => True
  | .convertNext =>
    match e.before.converter.step conf.maxBatchSize e.before.db with
    | some (batch,_) => Current e.before.db batch
    | none => True
  | _ => True

structure Store.Kept (conf : Conf) (s : Store) : Prop where
  covered : Covered conf.btlPolicy s.db
  bounded : ∀ k d, s.db.expiry.lookup k = some d → k.committingBlk < s.nextBlockNum
  converter : s.converter.Sound
  reconciler : s.reconciler.Sound conf.btlPolicy s.db s.nextBlockNum

open Store (Kept)

theorem initial_kept (conf : Conf) : Store.initial.Kept conf := by
  refine ⟨?_,fun k d hd => (nomatch hd),trivial,trivial⟩
  intro i hi
  obtain ⟨ke,tx⟩ := i
  cases tx with
  | some t => exact absurd rfl hi
  | none =>
    obtain ⟨ie,hi⟩ := hi
    exact absurd rfl hi

theorem commit_kept {s : Store} {mi : List (Nat × List MissingPvtData)} (h : s.Kept co)
    (hr : ∀ i ∈ blockItems s.nextBlockNum pd mi, (i.key.ns,i.key.coll) ∉ fails) :
    Kept co { s with
      db := s.db.writeBatch
        (prepareStoreEntries (co.expiryLookup fails) s.nextBlockNum pd mi)
      lastCommittedBlock := some s.nextBlockNum
      launched := launched } := by
  have hb : ∀ k d, (s.db.writeBatch (prepareStoreEntries (co.expiryLookup fails)
      s.nextBlockNum pd mi)).expiry.lookup k = some d → k.committingBlk < s.nextBlockNum + 1 := by
    intro k d hd
    by_cases hk : k.committingBlk = s.nextBlockNum
    · omega
    · rw [commit_expiry_other hk] at hd
      exact (h.bounded k d hd).trans (Nat.lt_succ_self _)
  have hg : ∀ i ∈ blockItems s.nextBlockNum pd mi, co.expiryLookup fails i.key =
      some (expiryKeyOf co.btlPolicy i.key).expiringBlk := fun i hi => if_neg (hr i hi)
  have hc := h.covered.commit h.bounded hg
  refine ⟨hc,hb,h.converter,?_⟩
  refine h.reconciler.mono (Nat.le_succ _) ?_
  intro k d hk hd
  rw [commit_expiry_other hk.ne] at hd
  exact hd

theorem next_kept (e : Transition Store StoreEvent) (h : e.before.Kept conf)
    (hn : e.before.next conf e.label = some e.after) (hr : Reliable conf e) :
    e.after.Kept conf := by
  obtain ⟨s,l,s'⟩ := e
  cases l <;> simp only [Store.next] at hn
  case commit blockNum pvtData missing fails =>
    split at hn
    · rename_i hbl
      cases hn
      subst hbl
      exact commit_kept h hr
    · nomatch hn
  case eligible committingBlk colls =>
    cases hn
    exact ⟨h.covered,h.bounded,h.converter,h.reconciler.mono (Nat.le_refl _) fun _ _ _ hd => hd⟩
  case purge maxBlkNum =>
    split at hn
    · cases hn
      exact ⟨h.covered,h.bounded,h.converter,h.reconciler⟩
    · nomatch hn
  case purgeNext =>
    split at hn
    · nomatch hn
    · cases hn
      exact ⟨h.covered,h.bounded,h.converter,h.reconciler⟩
    rename_i de x td hp
    cases hn
    simp only [Reliable,hp] at hr
    refine ⟨h.covered.purge fun y hy d hd => hr y hy d hd,?_,h.converter,?_⟩
    · intro k d hd
      exact h.bounded k d (purge_expiry hd)
    · exact h.reconciler.mono (Nat.le_refl _) fun k d _ hd => purge_expiry hd
  case processCollElgEvents =>
    split at hn
    · split at hn
      · cases hn
        exact ⟨h.covered,h.bounded,⟨rfl,rfl⟩,h.reconciler⟩
      · nomatch hn
    · nomatch hn
  case convertNext =>
    split at hn
    · nomatch hn
    rename_i ba co hs
    cases hn
    simp only [Reliable,hs] at hr
    obtain ⟨hb,hc⟩ := converter_step_sound h.converter hs
    have hsa : (s.db.writeBatch ba).expiry = s.db.expiry := by
      unfold StoreDb.writeBatch
      rw [hb.2]
      rfl
    refine ⟨h.covered.convert hb hr,?_,hc,?_⟩
    · intro k d hd
      exact h.bounded k d (hsa ▸ hd)
    · exact h.reconciler.mono (Nat.le_refl _) fun k d _ hd => hsa ▸ hd
  case wake =>
    split at hn
    · split at hn
      · cases hn
        exact ⟨h.covered,h.bounded,⟨rfl,rfl⟩,h.reconciler⟩
      · nomatch hn
    · nomatch hn
  case commitPvtDataOfOldBlocks blocksPvtData =>
    split at hn
    · cases hn
      exact ⟨h.covered,h.bounded,h.converter,update_entries_empty_sound⟩
    · nomatch hn
  case reconcileNext fails =>
    split at hn
    · nomatch hn
    rename_i ba re hs
    cases hn
    rcases reconciler_step h.covered h.bounded h.reconciler hs with
      ⟨rfl,hso⟩ | ⟨u,hu,rfl,rfl⟩
    · exact ⟨h.covered,h.bounded,h.converter,hso⟩
    refine ⟨h.covered.reconcile hu,?_,h.converter,trivial⟩
    intro k d hd
    rcases lookup_write_some hd with hm | ⟨ho,_⟩
    · obtain ⟨x,hx,heq⟩ := List.mem_map.mp hm
      obtain ⟨rfl,_⟩ := Prod.mk.inj heq
      exact (hu.extended _ _ (mem_lookup_iff.mpr hx)).1
    · exact h.bounded k d ho

/-- In every run of reliable steps everything that expires is listed in every state, and a purge
leaves nothing that has expired. -/
theorem expiring_data_listed (h : Run (fun s e t => Store.next conf s e = some t) .initial es s)
    (hrel : ∀ e ∈ es, Reliable conf e) :
    Covered conf.btlPolicy s.db ∧ ∀ n < maxUint64, ∀ i, (s.db.purgeExpiredData n).Has i →
      n < (expiryKeyOf conf.btlPolicy i.key).expiringBlk := by
  obtain ⟨hk,_⟩ := h.invariant_when next_kept (initial_kept conf) hrel
  exact ⟨hk.covered,fun n hn i hi => hk.covered.purge_expired hn hi⟩

def sampleConf : Conf where
  btlPolicy := ⟨fun _ coll => if coll = [2] then 1 else 0⟩
  purgeInterval := 1
  maxBatchSize := 1

def samplePvtData (txNum : Nat) : List TxPvtData := [⟨txNum,[([1],[([2],[9])])]⟩]

def sampleMissing (isEligible : Bool) : List (Nat × List MissingPvtData) :=
  [(0,[⟨[1],[2],isEligible⟩])]

def sampleTrace (events : List StoreEvent) := trace (Store.next sampleConf) .initial events

def sampleEvents : List StoreEvent :=
  [.commit 0 [] [] [],.commit 1 (samplePvtData 1) (sampleMissing true) [],
   .commitPvtDataOfOldBlocks [(1,samplePvtData 0)],.reconcileNext false,.reconcileNext false,
   .reconcileNext false,.commit 2 [] (sampleMissing false) [],.eligible 2 [([1],[2])],
   .processCollElgEvents,.convertNext,.convertNext,.wake,.convertNext,.convertNext,
   .commit 3 [] [] [],.purge 3,.purgeNext,.purgeNext]

instance : Decidable (Reliable conf e) := by
  unfold Reliable
  split
  all_goals first | infer_instance | (split <;> infer_instance)

theorem sample_listed : ∃ out, sampleTrace sampleEvents = some out ∧
    out.1.db.Has ⟨⟨[1],[2],2⟩,none⟩ ∧ Covered sampleConf.btlPolicy out.1.db := by
  have hr : ∀ e ∈ ((sampleTrace sampleEvents).get rfl).2, Reliable sampleConf e := by decide
  refine ⟨_,(some_get rfl).symm,⟨true,by decide⟩,?_⟩
  exact (expiring_data_listed (trace_get_run rfl) hr).1

/-- GetExpiringBlock fails when block 1 is committed. -/
def failingEvents : List StoreEvent := [.commit 0 [] [] [],.commit 1 (samplePvtData 0) [] [([1],[2])]]

def sleepingEvents : List StoreEvent :=
  [.commit 0 [] [] [],.commit 1 [] (sampleMissing false) [],.commit 2 [] (sampleMissing false) [],
   .eligible 2 [([1],[2])],.processCollElgEvents,.convertNext,.convertNext,.commit 3 [] [] [],
   .purge 3,.purgeNext,.purgeNext,.wake,.convertNext]

def reconciledEvents : List StoreEvent :=
  [.commit 0 [] [] [],.commit 1 [] (sampleMissing true) [],
   .commitPvtDataOfOldBlocks [(1,samplePvtData 0)],.reconcileNext false,.reconcileNext false,
   .commit 2 [] [] [],.commit 3 [] [] [],.purge 3,.reconcileNext false,.purgeNext,.purgeNext]

/-- A run ends with something that expires and that no expiry entry lists. -/
def Forgets (events : List StoreEvent) (i : Item) : Prop :=
  ∃ out, sampleTrace events = some out ∧ out.1.db.Has i ∧ Expires sampleConf.btlPolicy i.key ∧
    out.1.db.expiry.lookup (expiryKeyOf sampleConf.btlPolicy i.key) = none

theorem expiring_data_forgotten : Forgets failingEvents ⟨⟨[1],[2],1⟩,some 0⟩ ∧
    Forgets sleepingEvents ⟨⟨[1],[2],1⟩,none⟩ ∧
    Forgets reconciledEvents ⟨⟨[1],[2],1⟩,some 0⟩ := by
  have he : Expires sampleConf.btlPolicy ⟨[1],[2],1⟩ := by
    unfold Expires
    decide
  refine ⟨⟨_,(some_get rfl).symm,?_,he,rfl⟩,⟨_,(some_get rfl).symm,⟨true,by decide⟩,he,rfl⟩,
    ⟨_,(some_get rfl).symm,?_,he,rfl⟩⟩
  all_goals
    unfold StoreDb.Has
    decide

end PluggableHcs.Pvtdatastorage
