import PluggableHcs.Pvtdatastorage.Operations

namespace PluggableHcs.Pvtdatastorage
open Batches Runs Txmgmt List AList Transition StoreDb
open MissingDataKey (item nsCollBlk)

open PvtStore

/-- What the store is for: the data committed for each key, what is missing, and the collections
that became eligible. -/
structure Holdings where
  committed : DataKey → Option Bytes
  missing : Bool → Set (NsCollBlk × Nat)
  enabled : Nat → Option (List (Bytes × Bytes))

namespace Holdings

def empty : Holdings := ⟨fun _ => none,fun _ => ∅,fun _ => none⟩

def put (committed : DataKey → Option Bytes) (l : List DataEntry) : DataKey → Option Bytes :=
  l.foldl (fun f e => Function.update f e.1 (some e.2)) committed

def recorded (blockNum : Nat) (missingPvtData : List (Nat × List MissingPvtData))
    (isEligible : Bool) : Set (NsCollBlk × Nat) :=
  { x | x.1.blkNum = blockNum ∧ ∃ tx ∈ missingPvtData, tx.1 = x.2 ∧
    ∃ m ∈ tx.2, m.ns = x.1.ns ∧ m.coll = x.1.coll ∧ m.isEligible = isEligible }

def Converts (h : Holdings) (key : NsCollBlk) : Prop :=
  ∃ blk colls, h.enabled blk = some colls ∧ 0 < blk ∧ (key.ns,key.coll) ∈ colls ∧
    0 < key.blkNum ∧ key.blkNum ≤ blk

open Classical in
/-- Private data of old blocks are for the collections that are missing in their block. A purge
takes nothing that counts. -/
noncomputable def next (h : Holdings) : PvtStoreOp → Holdings
  | .commit blockNum pvtData missingPvtData =>
    { h with
      committed := put h.committed (prepareDataEntries blockNum pvtData)
      missing := fun isEligible => h.missing isEligible ∪ recorded blockNum missingPvtData isEligible }
  | .processCollsEligibilityEnabled committingBlk colls =>
    { h with enabled := Function.update h.enabled committingBlk (some colls) }
  | .commitPvtDataOfOldBlocks blocksPvtData =>
    { h with
      committed := put h.committed ((oldEntries blocksPvtData).filter fun e =>
        decide (∃ t, (e.1.nsCollBlk,t) ∈ h.missing true))
      missing := fun
        | true => { x ∈ h.missing true | ∀ e ∈ oldEntries blocksPvtData, e.1 ≠ ⟨x.1,x.2⟩ }
        | false => h.missing false }
  | .purge _ => h
  | .processCollElgEvents =>
    { h with
      missing := fun
        | true => h.missing true ∪ { x ∈ h.missing false | h.Converts x.1 }
        | false => { x ∈ h.missing false | ¬ h.Converts x.1 }
      enabled := fun blk => if blk = 0 then h.enabled 0 else none }

noncomputable def after (ops : List PvtStoreOp) : Holdings := ops.foldl next empty

end Holdings

section
variable {κ α : Type} [DecidableEq κ]

theorem lookup_write_puts (t : AList fun _ : κ => α) (l : List (κ × α)) (k : κ) :
    (write t (l.map fun e => (e.1,some e.2))).lookup k =
      l.foldl (fun (f : κ → Option α) e => Function.update f e.1 (some e.2)) t.lookup k := by
  induction l generalizing t with
  | nil => rfl
  | cons e l ih =>
    have hs : (fun k' : κ => (Batches.apply t (e.1,some e.2)).lookup k') =
        Function.update (fun k' : κ => t.lookup k') e.1 (some e.2) := by
      funext k'
      rw [lookup_apply,Function.update_apply]
      by_cases h : e.1 = k'
      · rw [if_pos h,if_pos h.symm]
      · rw [if_neg h,if_neg (Ne.symm h)]
    have hn := ih (Batches.apply t (e.1,some e.2))
    rw [hs] at hn
    exact hn

theorem lookup_write_table (t m : AList fun _ : κ => α) (k : κ) :
    (write t (m.entries.map fun e => (e.1,some e.2))).lookup k = (m.lookup k).or (t.lookup k) := by
  cases h : m.lookup k with
  | some a =>
    rw [lookup_write_entries h]
    rfl
  | none =>
    rw [Option.none_or]
    apply lookup_write_other
    intro o ho heq
    obtain ⟨e,he,rfl⟩ := mem_map.mp ho
    subst heq
    rw [mem_lookup_iff.mpr he] at h
    nomatch h

end

namespace Holdings

variable (f : DataKey → Option Bytes) (l : List DataEntry)
include f l

theorem put_append (e : DataEntry) (k : DataKey) :
    put f (l ++ [e]) k = if k = e.1 then some e.2 else put f l k := by
  unfold put
  rw [foldl_append,foldl_cons,foldl_nil,Function.update_apply]

theorem put_or (k : DataKey) : put f l k = (put (fun _ => none) l k).or (f k) := by
  induction l using List.reverseRecOn with
  | nil => rfl
  | append_singleton l e ih =>
    rw [put_append,put_append]
    split
    · rfl
    · exact ih

theorem put_filter {ta : DataEntry → Bool} (b : Bool) (h : ∀ e ∈ l, e.1 = k → ta e = b) :
    put f (l.filter ta) k = if b then put f l k else f k := by
  induction l using List.reverseRecOn with
  | nil => cases b <;> rfl
  | append_singleton l e ih =>
    have ih := ih fun e' he' => h e' (mem_append_left _ he')
    rw [filter_append]
    by_cases hk : e.1 = k
    · have hb := h e (mem_append_right _ mem_cons_self) hk
      cases b with
      | true =>
        rw [filter_cons_of_pos hb,filter_nil,put_append,put_append,if_pos hk.symm,if_pos hk.symm]
        rfl
      | false =>
        rw [filter_cons_of_neg (by rw [hb]; exact Bool.false_ne_true),filter_nil,append_nil]
        exact ih
    · have hp : put f (l ++ [e]) k = put f l k := by
        rw [put_append,if_neg (Ne.symm hk)]
      rw [hp]
      cases ht : ta e with
      | true =>
        rw [filter_cons_of_pos ht,filter_nil,put_append,if_neg (Ne.symm hk)]
        exact ih
      | false =>
        rw [filter_cons_of_neg (by rw [ht]; exact Bool.false_ne_true),filter_nil,append_nil]
        exact ih

end Holdings

def PvtStore.Live (p : BTLPolicy) (s : PvtStore) (key : NsCollBlk) : Prop :=
  ∀ last, s.lastCommittedBlock = some last → isExpired p key last = false

def ExpiryData.Mentions (d : ExpiryData) (ns coll : Bytes) : Prop :=
  (ns,coll) ∈ d.missing ∨ ∃ t, (ns,coll,t) ∈ d.present

def ExpiryExact (p : BTLPolicy) (expiry : AList fun _ : ExpiryKey => ExpiryData) : Prop :=
  ∀ k d, expiry.lookup k = some d → ∀ ns coll, d.Mentions ns coll →
    p.getExpiringBlock ns coll k.committingBlk = k.expiringBlk

/-- Of what is not expired the store holds exactly the data and the missing entries it should. -/
structure Agrees (p : BTLPolicy) (s : PvtStore) (h : Holdings) : Prop where
  data : ∀ k, s.Live p k.nsCollBlk → s.db.data.lookup k = h.committed k
  missing : ∀ key isEligible t, s.Live p key →
    (t ∈ (s.db.missing.lookup ⟨key,isEligible⟩).getD [] ↔ (key,t) ∈ h.missing isEligible)
  bitmaps : ∀ k bitmap, s.db.missing.lookup k = some bitmap → bitmap ≠ []
  apart : ∀ key, s.db.missing.lookup ⟨key,false⟩ ≠ none → s.db.missing.lookup ⟨key,true⟩ = none
  stored : ∀ k, s.db.missing.lookup k ≠ none → k.nsCollBlk.blkNum < s.nextBlockNum
  reported : ∀ isEligible x, x ∈ h.missing isEligible → x.1.blkNum < s.nextBlockNum
  entered : ∀ k, s.Live p k.nsCollBlk → s.db.missing.lookup k ≠ none → Expires p k.nsCollBlk →
    s.db.expiry.lookup (expiryKeyOf p k.nsCollBlk) ≠ none
  expiry : ExpiryExact p s.db.expiry
  enabled : ∀ blk, s.db.collElg.lookup blk = h.enabled blk

theorem initial_agrees (p : BTLPolicy) : Agrees p .initial .empty where
  data _ _ := rfl
  missing _ _ _ _ := iff_of_false (fun ht => nomatch ht) (fun ht => nomatch ht)
  bitmaps _ _ hb := nomatch hb
  apart _ hb := absurd rfl hb
  stored _ hb := absurd rfl hb
  reported _ _ hx := nomatch hx
  entered _ _ hb _ := absurd rfl hb
  expiry _ _ hd := nomatch hd
  enabled _ := rfl

variable {p : BTLPolicy} {s : PvtStore} {h : Holdings} {db : StoreDb}

section
variable {b : Nat} {missing : List (Nat × List MissingPvtData)}

theorem live_before (hl : isExpired p key s.nextBlockNum = false) : s.Live p key := by
  intro l hla
  unfold isExpired nextBlockNum at *
  rw [hla] at hl
  simp only [decide_eq_false_iff_not] at hl ⊢
  omega

def addMissing (b : Nat) (m : AList fun _ : MissingDataKey => List Nat) (e : Nat × MissingPvtData) :
    AList fun _ : MissingDataKey => List Nat :=
  m.insert ⟨⟨e.2.ns,e.2.coll,b⟩,e.2.isEligible⟩
    (((m.lookup ⟨⟨e.2.ns,e.2.coll,b⟩,e.2.isEligible⟩).getD []).insert e.1)

theorem prepare_missing_eq : prepareMissingDataEntries b missing =
    (missing.flatMap fun tx => tx.2.map (tx.1,·)).foldl (addMissing b) ∅ := rfl

theorem mem_add_missing (l : List (Nat × MissingPvtData))
    (m : AList fun _ : MissingDataKey => List Nat) (k : MissingDataKey) (t : Nat) :
    t ∈ ((l.foldl (addMissing b) m).lookup k).getD [] ↔ t ∈ (m.lookup k).getD [] ∨
      ∃ e ∈ l, e.1 = t ∧ (⟨⟨e.2.ns,e.2.coll,b⟩,e.2.isEligible⟩ : MissingDataKey) = k := by
  induction l generalizing m with
  | nil => simp
  | cons e l ih =>
    rw [foldl_cons,ih]
    have hs : t ∈ ((addMissing b m e).lookup k).getD [] ↔ t ∈ (m.lookup k).getD [] ∨
        e.1 = t ∧ (⟨⟨e.2.ns,e.2.coll,b⟩,e.2.isEligible⟩ : MissingDataKey) = k := by
      unfold addMissing
      by_cases hk : (⟨⟨e.2.ns,e.2.coll,b⟩,e.2.isEligible⟩ : MissingDataKey) = k
      · subst hk
        rw [lookup_insert,Option.getD_some,mem_insert_iff,or_comm]
        simp [eq_comm]
      · rw [lookup_insert_ne (Ne.symm hk)]
        simp [hk]
    rw [hs,or_assoc]
    simp only [mem_cons,exists_eq_or_imp]

theorem mem_prepare_missing : t ∈ ((prepareMissingDataEntries b missing).lookup
    ⟨key,isEligible⟩).getD [] ↔ (key,t) ∈ Holdings.recorded b missing isEligible := by
  rw [prepare_missing_eq,mem_add_missing]
  obtain ⟨ns,co,bl⟩ := key
  constructor
  · rintro (ht | ⟨e,he,rfl,hk⟩)
    · nomatch ht
    obtain ⟨tx,htx,he⟩ := mem_flatMap.mp he
    obtain ⟨m,hm,rfl⟩ := mem_map.mp he
    cases hk
    exact ⟨rfl,tx,htx,rfl,m,hm,rfl,rfl,rfl⟩
  · rintro ⟨hb,tx,htx,ht,m,hm,hns,hc,hel⟩
    subst hb hns hc hel
    exact .inr ⟨(tx.1,m),mem_flatMap.mpr ⟨tx,htx,mem_map.mpr ⟨m,hm,rfl⟩⟩,ht,rfl⟩

theorem prepare_missing_nonempty
    (h : (prepareMissingDataEntries b missing).lookup k = some bi) : bi ≠ [] := by
  have ha : ∀ (l : List (Nat × MissingPvtData)) (m : AList fun _ : MissingDataKey => List Nat),
      (∀ k bi, m.lookup k = some bi → bi ≠ []) →
      ∀ k bi, (l.foldl (addMissing b) m).lookup k = some bi → bi ≠ [] := by
    intro l
    induction l with
    | nil => exact fun m hm => hm
    | cons e l ih =>
      intro m hm
      apply ih
      intro k bi hk
      unfold addMissing at hk
      by_cases heq : k = ⟨⟨e.2.ns,e.2.coll,b⟩,e.2.isEligible⟩
      · subst heq
        rw [lookup_insert] at hk
        cases hk
        exact ne_nil_of_mem mem_insert_self
      · rw [lookup_insert_ne heq] at hk
        exact hm k bi hk
  exact ha _ ∅ (fun k bi hk => nomatch hk) k bi h

def PreparedExact (get : ExpiryLookup) (b : Nat) (m : AList fun _ : Nat => ExpiryData) : Prop :=
  ∀ e d, m.lookup e = some d → ∀ ns coll, d.Mentions ns coll → get ⟨ns,coll,b⟩ = some e

theorem prepare_entry_exact {g : ExpiryLookup} {ke : NsCollBlk} {ad : ExpiryData → ExpiryData}
    (hm : PreparedExact g ke.blkNum m)
    (ha : ∀ d ns co, (ad d).Mentions ns co → d.Mentions ns co ∨ ns = ke.ns ∧ co = ke.coll) :
    PreparedExact g ke.blkNum (prepareExpiryEntry g ke ad m) := by
  unfold prepareExpiryEntry
  split
  · exact hm
  rename_i eb hg
  split
  · exact hm
  intro e d hd ns co hme
  by_cases he : e = eb
  · subst he
    rw [lookup_insert] at hd
    cases hd
    rcases ha _ _ _ hme with ho | ⟨rfl,rfl⟩
    · cases hlk : m.lookup e with
      | none =>
        rw [hlk] at ho
        rcases ho with ho | ⟨t,ho⟩
        · nomatch ho
        · nomatch ho
      | some d =>
        rw [hlk] at ho
        exact hm e d hlk ns co ho
    · exact hg
  · rw [lookup_insert_ne he] at hd
    exact hm e d hd ns co hme

/-- The expiry entries of a block mention a collection under its own expiring block only. -/
theorem prepare_exact {get : ExpiryLookup} {dk : List DataKey}
    (hda : ∀ k ∈ dk, k.nsCollBlk.blkNum = b)
    (hmi : ∀ k ∈ missingKeys, k.nsCollBlk.blkNum = b) :
    PreparedExact get b (prepareExpiryEntries get dk missingKeys) := by
  have hp : ∀ m, PreparedExact get b m →
      PreparedExact get b (dk.foldl (prepareExpiryEntriesForPresentData get) m) := by
    induction dk with
    | nil => exact fun m hm => hm
    | cons k ks ih =>
      obtain ⟨rfl,hda⟩ := forall_mem_cons.mp hda
      intro m hm
      refine ih hda _ (prepare_entry_exact hm ?_)
      rintro d ns co (ho | ⟨t,ho⟩)
      · exact .inl (.inl ho)
      rcases mem_append.mp ho with ho | ho
      · exact .inl (.inr ⟨t,ho⟩)
      · cases mem_singleton.mp ho
        exact .inr ⟨rfl,rfl⟩
  have hr : ∀ m, PreparedExact get b m →
      PreparedExact get b (missingKeys.foldl (prepareExpiryEntriesForMissingData get) m) := by
    clear hp
    induction missingKeys with
    | nil => exact fun m hm => hm
    | cons k ks ih =>
      obtain ⟨rfl,hmi⟩ := forall_mem_cons.mp hmi
      intro m hm
      refine ih hmi _ (prepare_entry_exact hm ?_)
      rintro d ns co (ho | ⟨t,ho⟩)
      · rcases mem_insert_iff.mp ho with heq | ho
        · cases heq
          exact .inr ⟨rfl,rfl⟩
        · exact .inl (.inl ho)
      · exact .inl (.inr ⟨t,ho⟩)
  exact hr _ (hp ∅ fun e d hd => nomatch hd)

/-- A block does not miss a collection both as eligible and as ineligible. -/
def Unmixed (missing : List (Nat × List MissingPvtData)) : Prop :=
  ∀ tx ∈ missing, ∀ m ∈ tx.2, ∀ tx' ∈ missing, ∀ m' ∈ tx'.2,
    m.ns = m'.ns → m.coll = m'.coll → m.isEligible = m'.isEligible
deriving Decidable

variable {conf : Conf} {pvtData : List TxPvtData}

abbrev PvtStore.committed (conf : Conf) (s : PvtStore) (pvtData : List TxPvtData)
    (missing : List (Nat × List MissingPvtData)) : PvtStore :=
  ⟨s.db.writeBatch (prepareStoreEntries (conf.expiryLookup []) s.nextBlockNum pvtData missing),
    some s.nextBlockNum⟩

theorem prepared_block (hk : (prepareMissingDataEntries b missing).lookup k ≠ none) :
    k.nsCollBlk.blkNum = b :=
  missing_entries_block (AList.mem_keys.mp (lookup_isSome.mp (Option.isSome_iff_ne_none.mpr hk)))

/-- What the block itself misses is new, and the rest is as it was. -/
theorem Agrees.commit_missing (ha : Agrees p s h) (conf : Conf) (pvtData : List TxPvtData)
    (missing : List (Nat × List MissingPvtData)) (k : MissingDataKey) :
    (k.nsCollBlk.blkNum = s.nextBlockNum ∧ s.db.missing.lookup k = none ∧
      (s.committed conf pvtData missing).db.missing.lookup k =
        (prepareMissingDataEntries s.nextBlockNum missing).lookup k) ∨
    ((prepareMissingDataEntries s.nextBlockNum missing).lookup k = none ∧
      k.nsCollBlk.blkNum ≠ s.nextBlockNum ∧
      (s.committed conf pvtData missing).db.missing.lookup k = s.db.missing.lookup k) := by
  have hlk : (s.committed conf pvtData missing).db.missing.lookup k =
      ((prepareMissingDataEntries s.nextBlockNum missing).lookup k).or (s.db.missing.lookup k) :=
    lookup_write_table _ _ k
  by_cases hb : k.nsCollBlk.blkNum = s.nextBlockNum
  · have hs : s.db.missing.lookup k = none := by
      by_contra hne
      exact absurd (ha.stored k hne) (by omega)
    rw [hs,Option.or_none] at hlk
    exact .inl ⟨hb,hs,hlk⟩
  · have hn : (prepareMissingDataEntries s.nextBlockNum missing).lookup k = none := by
      by_contra hne
      exact hb (prepared_block hne)
    rw [hn,Option.none_or] at hlk
    exact .inr ⟨hn,hb,hlk⟩

theorem prepared_recorded
    (hne : (prepareMissingDataEntries b missing).lookup ⟨key,isEligible⟩ ≠ none) :
    ∃ t, (key,t) ∈ Holdings.recorded b missing isEligible := by
  obtain ⟨bitmap,hb⟩ := Option.ne_none_iff_exists'.mp hne
  obtain ⟨t,ht⟩ := exists_mem_of_ne_nil _ (prepare_missing_nonempty hb)
  refine ⟨t,mem_prepare_missing.mp ?_⟩
  rw [hb]
  exact ht

theorem Unmixed.prepared_apart (hu : Unmixed missing)
    (hf : (prepareMissingDataEntries b missing).lookup ⟨key,false⟩ ≠ none) :
    (prepareMissingDataEntries b missing).lookup ⟨key,true⟩ = none := by
  by_contra ht
  obtain ⟨_,_,tx,htx,_,m,hm,hns,hc,hel⟩ := prepared_recorded hf
  obtain ⟨_,_,tx',htx',_,m',hm',hns',hc',hel'⟩ := prepared_recorded ht
  have hs := hu tx htx m hm tx' htx' m' hm' (hns.trans hns'.symm) (hc.trans hc'.symm)
  rw [hel,hel'] at hs
  nomatch hs

theorem prepared_entered (hn : (prepareMissingDataEntries b missing).lookup k ≠ none)
    (hex : Expires conf.btlPolicy k.nsCollBlk) :
    (db.writeBatch (prepareStoreEntries (conf.expiryLookup []) b pvtData missing)).expiry.lookup
      (expiryKeyOf conf.btlPolicy k.nsCollBlk) ≠ none := by
  have hme : k ∈ (prepareMissingDataEntries b missing).keys :=
    AList.mem_keys.mp (lookup_isSome.mp (Option.isSome_iff_ne_none.mpr hn))
  have hi : k.item ∈ ((prepareDataEntries b pvtData).map Prod.fst).map DataKey.item ++
      (prepareMissingDataEntries b missing).keys.map item :=
    mem_append_right _ (mem_map.mpr ⟨k,hme,rfl⟩)
  have hg : conf.expiryLookup [] k.item.key =
      some (expiryKeyOf conf.btlPolicy k.nsCollBlk).expiringBlk := if_neg not_mem_nil
  obtain ⟨d,hd,_⟩ := prepare_expiry_lists hi hg hex
  have hke : expiryKeyOf conf.btlPolicy k.nsCollBlk =
      ⟨(expiryKeyOf conf.btlPolicy k.nsCollBlk).expiringBlk,b⟩ := by
    rw [← prepared_block hn]
    rfl
  rw [hke,commit_expiry hd]
  exact Option.some_ne_none d

theorem ExpiryExact.commit (he : ExpiryExact conf.btlPolicy db.expiry) (b : Nat)
    (pvtData : List TxPvtData) (missing : List (Nat × List MissingPvtData)) :
    ExpiryExact conf.btlPolicy
      (db.writeBatch (prepareStoreEntries (conf.expiryLookup []) b pvtData missing)).expiry := by
  intro k d hd ns coll hm
  rcases lookup_write_some hd with hme | ⟨hd,_⟩
  · obtain ⟨e,hl,heq⟩ := mem_map.mp hme
    cases heq
    refine Option.some.inj (prepare_exact (b := b) (fun k hk => ?_)
      (fun k hk => missing_entries_block hk) _ _ (mem_lookup_iff.mpr hl) ns coll hm)
    obtain ⟨e,he,rfl⟩ := mem_map.mp hk
    exact data_entries_block he
  · exact he k d hd ns coll hm

/-- A block adds its own data and missing entries, and what was there is left as it is. -/
theorem Agrees.commit (ha : Agrees conf.btlPolicy s h) (hu : Unmixed missing)
    (pvtData : List TxPvtData) :
    Agrees conf.btlPolicy (s.committed conf pvtData missing)
      (h.next (.commit s.nextBlockNum pvtData missing)) := by
  have hcm := ha.commit_missing conf pvtData missing
  have hl : ∀ key, Live conf.btlPolicy (s.committed conf pvtData missing) key →
      s.Live conf.btlPolicy key := fun key hl => live_before (hl _ rfl)
  constructor
  case data =>
    intro k hk
    refine (lookup_write_puts s.db.data (prepareDataEntries s.nextBlockNum pvtData) k).trans ?_
    change Holdings.put _ _ k = Holdings.put _ _ k
    rw [Holdings.put_or,Holdings.put_or h.committed,ha.data k (hl _ hk)]
  case missing =>
    intro key isEligible t hk
    change _ ↔ (key,t) ∈ h.missing isEligible ∨ (key,t) ∈ Holdings.recorded _ _ _
    rw [← ha.missing key isEligible t (hl _ hk),← mem_prepare_missing]
    rcases hcm ⟨key,isEligible⟩ with ⟨_,hn,hlk⟩ | ⟨hn,_,hlk⟩ <;> simp [hlk,hn]
  case bitmaps =>
    intro k bitmap hk
    rcases hcm k with ⟨_,_,hlk⟩ | ⟨_,_,hlk⟩
    · exact prepare_missing_nonempty (hlk.symm.trans hk)
    · exact ha.bitmaps k bitmap (hlk.symm.trans hk)
  case apart =>
    intro key hk
    rcases hcm ⟨key,true⟩ with ⟨hb,_,hlk⟩ | ⟨_,hb,hlk⟩
    · rw [hlk]
      rcases hcm ⟨key,false⟩ with ⟨_,_,hlk⟩ | ⟨_,hb',_⟩
      · exact hu.prepared_apart (hlk ▸ hk)
      · exact absurd hb hb'
    · rw [hlk]
      rcases hcm ⟨key,false⟩ with ⟨hb',_⟩ | ⟨_,_,hlk⟩
      · exact absurd hb' hb
      · exact ha.apart key (hlk ▸ hk)
  case stored =>
    intro k hk
    rcases hcm k with ⟨hb,_⟩ | ⟨_,_,hlk⟩
    · rw [hb]
      exact Nat.lt_succ_self _
    · exact (ha.stored k (hlk ▸ hk)).trans (Nat.lt_succ_self _)
  case reported =>
    rintro isEligible x (hx | ⟨hb,_⟩)
    · exact (ha.reported isEligible x hx).trans (Nat.lt_succ_self _)
    · rw [hb]
      exact Nat.lt_succ_self _
  case entered =>
    intro k hk hne hex
    rcases hcm k with ⟨_,_,hlk⟩ | ⟨_,hb,hlk⟩
    · exact prepared_entered (hlk ▸ hne) hex
    · rw [commit_expiry_other hb]
      exact ha.entered k (hl _ hk) (hlk ▸ hne) hex
  case expiry => exact ha.expiry.commit _ _ _
  case enabled => exact ha.enabled

theorem Agrees.enable (ha : Agrees p s h) (cb : Nat) (cs : List (Bytes × Bytes)) :
    Agrees p { s with db := s.db.writeBatch { collElg := [(cb,some cs)] } }
      (h.next (.processCollsEligibilityEnabled cb cs)) where
  data := ha.data
  missing := ha.missing
  bitmaps := ha.bitmaps
  apart := ha.apart
  stored := ha.stored
  reported := ha.reported
  entered := ha.entered
  expiry := ha.expiry
  enabled blk := by
    refine (lookup_write_puts s.db.collElg [(cb,cs)] blk).trans ?_
    change Function.update s.db.collElg.lookup cb (some cs) blk =
      Function.update h.enabled cb (some cs) blk
    rw [funext ha.enabled]

end

end PluggableHcs.Pvtdatastorage
