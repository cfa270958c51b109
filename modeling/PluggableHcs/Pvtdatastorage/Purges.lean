import PluggableHcs.Pvtdatastorage.Holdings

namespace PluggableHcs.Pvtdatastorage
open Batches Runs Txmgmt List AList Transition StoreDb
open MissingDataKey (item nsCollBlk)

open PvtStore

variable {p : BTLPolicy} {s : PvtStore} {h : Holdings} {db : StoreDb}

theorem lookup_write_deletes {κ α : Type} [DecidableEq κ] (t : AList fun _ : κ => α) (ks : List κ)
    (k : κ) : (write t (ks.map (·,none))).lookup k = t.lookup k ∨
      (write t (ks.map (·,none))).lookup k = none ∧ k ∈ ks := by
  by_cases hk : k ∈ ks
  · right
    refine ⟨lookup_write_same (mem_map.mpr ⟨k,hk,rfl⟩) ?_,hk⟩
    intro o ho _
    obtain ⟨k',_,rfl⟩ := mem_map.mp ho
    rfl
  · left
    apply lookup_write_other
    intro o ho heq
    obtain ⟨k',hk',rfl⟩ := mem_map.mp ho
    exact hk (heq ▸ hk')

/-- What a purge with the given entries can take. -/
structure Purged (db db' : StoreDb) (es : List ExpiryEntry) : Prop where
  data : ∀ k, db'.data.lookup k = db.data.lookup k ∨
    db'.data.lookup k = none ∧ k ∈ es.flatMap ExpiryEntry.dataKeys
  missing : ∀ k, db'.missing.lookup k = db.missing.lookup k ∨
    db'.missing.lookup k = none ∧ k ∈ es.flatMap ExpiryEntry.missingDataKeys
  expiry : ∀ k, db'.expiry.lookup k = db.expiry.lookup k ∨
    db'.expiry.lookup k = none ∧ k ∈ es.map Prod.fst
  collElg : db'.collElg = db.collElg

theorem Purged.trans (hab : Purged a b es) (hbc : Purged b c es) : Purged a c es := by
  have hk : ∀ {κ α : Type} {k : κ} {ks : List κ} {x y z : Option α}, y = x ∨ y = none ∧ k ∈ ks →
      z = y ∨ z = none ∧ k ∈ ks → z = x ∨ z = none ∧ k ∈ ks := by
    rintro κ α k ks x y z hxy (rfl | hz)
    · exact hxy
    · exact .inr hz
  exact ⟨fun k => hk (hab.data k) (hbc.data k),fun k => hk (hab.missing k) (hbc.missing k),
    fun k => hk (hab.expiry k) (hbc.expiry k),hbc.collElg.trans hab.collElg⟩

theorem purged_batch (db : StoreDb) {de es : List ExpiryEntry} (hs : ∀ e ∈ de, e ∈ es) :
    Purged db (db.writeBatch (purgeBatch de)) es := by
  refine ⟨fun k => ?_,fun k => ?_,fun k => ?_,rfl⟩
  · rcases lookup_write_deletes db.data (de.flatMap ExpiryEntry.dataKeys) k with hk | ⟨hk,hm⟩
    · exact .inl hk
    · obtain ⟨e,he,hm⟩ := mem_flatMap.mp hm
      exact .inr ⟨hk,mem_flatMap.mpr ⟨e,hs e he,hm⟩⟩
  · rcases lookup_write_deletes db.missing (de.flatMap ExpiryEntry.missingDataKeys) k with
      hk | ⟨hk,hm⟩
    · exact .inl hk
    · obtain ⟨e,he,hm⟩ := mem_flatMap.mp hm
      exact .inr ⟨hk,mem_flatMap.mpr ⟨e,hs e he,hm⟩⟩
  · have hma : (purgeBatch de).expiry = (de.map Prod.fst).map (·,none) := by
      rw [map_map]
      rfl
    have hd := lookup_write_deletes db.expiry (de.map Prod.fst) k
    rw [← hma] at hd
    rcases hd with hk | ⟨hk,hm⟩
    · exact .inl hk
    · obtain ⟨e,he,rfl⟩ := mem_map.mp hm
      exact .inr ⟨hk,mem_map.mpr ⟨e,hs e he,rfl⟩⟩

theorem purged_rest (db : StoreDb) {de td es : List ExpiryEntry}
    (hs : ∀ e ∈ de ++ td, e ∈ es) : Purged db (db.purgeRest de td) es := by
  induction td generalizing db de with
  | nil => exact ⟨fun _ => .inl rfl,fun _ => .inl rfl,fun _ => .inl rfl,rfl⟩
  | cons e td ih =>
    have hs' : ∀ e' ∈ (de ++ [e]) ++ td, e' ∈ es := by
      rw [append_assoc]
      exact hs
    exact (purged_batch db fun e' he' => hs' e' (mem_append_left _ he')).trans (ih _ hs')

theorem mem_retrieve_expiry {db : StoreDb} {e : ExpiryEntry} (he : e ∈ db.retrieveExpiryEntries n) :
    db.expiry.lookup e.1 = some e.2 ∧ e.1.expiringBlk ≤ n := by
  unfold retrieveExpiryEntries at he
  rw [mem_insertionSort,mem_filter,mem_map] at he
  obtain ⟨⟨d,hd,rfl⟩,hle⟩ := he
  exact ⟨mem_lookup_iff.mpr hd,of_decide_eq_true hle⟩

theorem not_live (hn : n < s.nextBlockNum) {key : NsCollBlk}
    (he : p.getExpiringBlock key.ns key.coll key.blkNum ≤ n) : ¬ s.Live p key := by
  intro hli
  cases hl : s.lastCommittedBlock with
  | none =>
    rw [nextBlockNum,hl] at hn
    exact Nat.not_lt_zero _ hn
  | some l =>
    rw [nextBlockNum,hl] at hn
    dsimp only at hn
    have hno := hli l hl
    unfold isExpired at hno
    simp only [decide_eq_false_iff_not] at hno
    omega

theorem Agrees.purge (ha : Agrees p s h) (hn : n < s.nextBlockNum) :
    Agrees p { s with db := s.db.purgeExpiredData n } h := by
  have hp : Purged s.db (s.db.purgeExpiredData n) (s.db.retrieveExpiryEntries n) :=
    purged_rest s.db fun e he => he
  have hda : ∀ k, s.Live p k.nsCollBlk →
      (s.db.purgeExpiredData n).data.lookup k = s.db.data.lookup k := by
    intro k hl
    rcases hp.data k with hk | ⟨_,hm⟩
    · exact hk
    obtain ⟨e,he,hm⟩ := mem_flatMap.mp hm
    obtain ⟨x,hx,rfl⟩ := mem_map.mp hm
    obtain ⟨hd,hle⟩ := mem_retrieve_expiry he
    have hex := ha.expiry e.1 e.2 hd x.1 x.2.1 (.inr ⟨x.2.2,hx⟩)
    exact absurd hl (not_live hn (hex.le.trans hle))
  have hmi : ∀ k, s.Live p k.nsCollBlk →
      (s.db.purgeExpiredData n).missing.lookup k = s.db.missing.lookup k := by
    intro k hl
    rcases hp.missing k with hk | ⟨_,hm⟩
    · exact hk
    obtain ⟨e,he,hm⟩ := mem_flatMap.mp hm
    obtain ⟨x,hx,hk⟩ := mem_flatMap.mp hm
    obtain ⟨hd,hle⟩ := mem_retrieve_expiry he
    have hex := ha.expiry e.1 e.2 hd x.1 x.2 (.inl hx)
    have hke : k.nsCollBlk = ⟨x.1,x.2,e.1.committingBlk⟩ := by
      rcases mem_cons.mp hk with rfl | hk
      · rfl
      · rw [mem_singleton.mp hk]
    rw [hke] at hl
    exact absurd hl (not_live hn (hex.le.trans hle))
  have ht : ∀ k, (s.db.purgeExpiredData n).missing.lookup k ≠ none →
      (s.db.purgeExpiredData n).missing.lookup k = s.db.missing.lookup k := by
    intro k hk
    rcases hp.missing k with heq | ⟨hno,_⟩
    · exact heq
    · exact absurd hno hk
  constructor
  · exact fun k hk => (hda k hk).trans (ha.data k hk)
  · intro ke ie t hk
    rw [hmi ⟨ke,ie⟩ hk]
    exact ha.missing ke ie t hk
  · intro k bi hk
    rw [ht k (by rw [hk]; exact Option.some_ne_none _)] at hk
    exact ha.bitmaps k bi hk
  · intro ke hk
    rw [ht _ hk] at hk
    rcases hp.missing ⟨ke,true⟩ with heq | ⟨hno,_⟩
    · rw [heq]
      exact ha.apart ke hk
    · exact hno
  · intro k hk
    rw [ht k hk] at hk
    exact ha.stored k hk
  · exact ha.reported
  · intro k hl hk hex
    rw [ht k hk] at hk
    rcases hp.expiry (expiryKeyOf p k.nsCollBlk) with heq | ⟨_,hm⟩
    · rw [heq]
      exact ha.entered k hl hk hex
    obtain ⟨e,he,heq⟩ := mem_map.mp hm
    have hle := (mem_retrieve_expiry he).2
    rw [heq] at hle
    exact absurd hl (not_live hn hle)
  · intro k d hd
    rcases hp.expiry k with heq | ⟨hno,_⟩
    · rw [heq] at hd
      exact ha.expiry k d hd
    · cases hd.symm.trans hno
  · intro bl
    rw [hp.collElg]
    exact ha.enabled bl

end PluggableHcs.Pvtdatastorage
