import PluggableHcs.Kvledger.HashCheck
import PluggableHcs.Privdata.PvtdataProvider
import PluggableHcs.Pvtdatastorage.Exactness

namespace PluggableHcs.Privdata
open Outcomes Pvtdatastorage Txmgmt
open List hiding after

/-- The reconciler with what it asks of the ledger and of the other peers, while no block is
committed. -/
structure Reconciler where
  reconcileBatchSize : Nat
  btlPolicy : BTLPolicy
  lastCommittedBlock : Option Nat
  computeSHA256 : Bytes → Bytes
  retrieveRwsetForTx : Nat → Nat → Except String TxRwSet
  getMostRecentCollectionConfig : (ns coll : Bytes) → Nat → Option StaticCollectionConfig
  /-- The available elements, by the number of the round. -/
  fetchReconciledItems : Nat → List (DigKey × StaticCollectionConfig) →
    Except String (List (DigKey × List Bytes))

namespace Reconciler

def stored (tx : Txmgmt.TxPvtData) : Pvtdatastorage.TxPvtData :=
  ⟨tx.seqInBlock,tx.writeSet.map fun n =>
    (n.nameSpace,n.collectionPvtRwset.map fun c => (c.collectionName,c.rwset))⟩

def outstanding (db : StoreDb) : Finset (NsCollBlk × Nat) :=
  (db.missing.entries.flatMap fun e =>
    if e.1.isEligible then e.2.map fun t => (e.1.nsCollBlk,t) else []).toFinset

theorem mem_outstanding : x ∈ outstanding db ↔
    ∃ bitmap, db.missing.lookup ⟨x.1,true⟩ = some bitmap ∧ x.2 ∈ bitmap := by
  obtain ⟨ke,t⟩ := x
  simp only [outstanding,mem_toFinset,mem_flatMap]
  constructor
  · rintro ⟨⟨⟨k',el⟩,bitmap⟩,he,hx⟩
    cases el with
    | false => simp at hx
    | true =>
      simp only [if_true,mem_map,Prod.mk.injEq] at hx
      obtain ⟨t',ht,rfl,rfl⟩ := hx
      exact ⟨bitmap,AList.mem_lookup_iff.mpr he,ht⟩
  · rintro ⟨bitmap,hlk,ht⟩
    exact ⟨_,AList.mem_lookup_iff.mp hlk,by simpa using ht⟩

/-- An item for the collection is taken: the store lacks some, and knows when they expire. -/
def Takes (p : BTLPolicy) (db : StoreDb) (key : NsCollBlk) : Prop :=
  db.missing.lookup ⟨key,true⟩ ≠ none ∧
    (Expires p key → db.expiry.lookup (expiryKeyOf p key) ≠ none)

section
variable (R : Reconciler)

/-- A collection without a config is not asked for. -/
def getDig2CollectionConfig (missingPvtDataInfo : List MissingPvtDataInfo) :
    List (DigKey × StaticCollectionConfig) :=
  missingPvtDataInfo.foldl (fun m i =>
    match R.getMostRecentCollectionConfig i.ns i.coll i.blkNum with
    | none => m
    | some config => put m ⟨[],i.txNum,i.coll,i.ns,i.blkNum⟩ config) []

section
variable (elements : List (DigKey × List Bytes))

def groupRwsetByBlock (blockNum : Nat) : List (RwSetKey × Bytes) :=
  (elements.filter fun el => el.1.blockSeq = blockNum).foldl (fun m el => el.2.foldl (fun m rws =>
    put m ⟨el.1.txID,el.1.seqInBlock,el.1.ns,el.1.collection,R.computeSHA256 rws⟩ rws) m) []

def preparePvtDataToCommit : List Kvledger.ReconciledPvtdata :=
  (elements.map fun el => el.1.blockSeq).dedup.map fun blockNum =>
    let rwSetKeys := R.groupRwsetByBlock elements blockNum
    ⟨blockNum,(rwSetKeys.map fun e => e.1.seqInBlock).dedup.map fun seqInBlock =>
      ⟨seqInBlock,(PvtdataProvider.toRWSet (rwSetKeys.filter fun e =>
        e.1.seqInBlock = seqInBlock)).map fun n =>
          ⟨n.ns,n.collectionPvtRwset.map fun c => ⟨c.1,c.2⟩⟩⟩⟩

def hashVerified : Except String (List DataEntry) := do
  let (verified,_) ← Kvledger.constructValidAndInvalidPvtData R.computeSHA256 R.retrieveRwsetForTx
    (R.preparePvtDataToCommit elements)
  pure (oldEntries (verified.entries.map fun b => (b.1,b.2.map stored)))

end

def requested (db : StoreDb) : List (DigKey × StaticCollectionConfig) :=
  R.getDig2CollectionConfig (db.getMissingPvtDataInfoForMostRecentBlocks R.btlPolicy
    R.lastCommittedBlock R.reconcileBatchSize)

/-- A round leads to the next one, or reconcile returns, with an error or without. -/
def round (n : Nat) (db : StoreDb) : Except (Option String) StoreDb :=
  if db.getMissingPvtDataInfoForMostRecentBlocks R.btlPolicy R.lastCommittedBlock
      R.reconcileBatchSize = [] then .error none
  else
    match R.fetchReconciledItems n (R.requested db) with
    | .error err => .error (some err)
    | .ok [] => .error none
    | .ok (el :: els) =>
      match R.hashVerified (el :: els) with
      | .error err => .error (some ("failed to commit private data: " ++ err))
      | .ok entries => .ok (db.commitPvtDataOfOldBlocks R.btlPolicy entries)

def rounds : Nat → Nat → StoreDb → Option (Option String × StoreDb)
  | 0,_,_ => none
  | fuel + 1,n,db =>
    match R.round n db with
    | .error err => some (err,db)
    | .ok db => rounds fuel (n + 1) db

def reconcile (fuel : Nat) (db : StoreDb) : Option (Option String × StoreDb) := R.rounds fuel 0 db

/-- The store after `n` rounds. -/
inductive Reached (db : StoreDb) : Nat → StoreDb → Prop
  | start : Reached db 0 db
  | next : Reached db n before → R.round n before = .ok after → Reached db (n + 1) after

/-- If a round gets data, then some that pass the check are missing and taken. -/
def Supplied (n : Nat) (db : StoreDb) : Prop :=
  ∀ elements entries, R.fetchReconciledItems n (R.requested db) = .ok elements → elements ≠ [] →
    R.hashVerified elements = .ok entries → ∃ e ∈ entries,
      (e.1.nsCollBlk,e.1.txNum) ∈ outstanding db ∧ Takes R.btlPolicy db e.1.nsCollBlk

end

/-- What the items taken so far leave missing. -/
structure Leaves (p : BTLPolicy) (db : StoreDb) (l : List DataEntry) (u : UpdateEntries) :
    Prop where
  fewer : ∀ key bitmap, u.missing.lookup key = some bitmap →
    ∃ before, db.missing.lookup ⟨key,true⟩ = some before ∧ bitmap ⊆ before
  gone : ∀ e ∈ l, Takes p db e.1.nsCollBlk →
    ∃ bitmap, u.missing.lookup e.1.nsCollBlk = some bitmap ∧ e.1.txNum ∉ bitmap

theorem bitmap_fewer (h : Leaves p db l u) (hf : db.bitmapFor u key = some bi) :
    ∃ before, db.missing.lookup ⟨key,true⟩ = some before ∧ bi ⊆ before := by
  unfold StoreDb.bitmapFor at hf
  rcases Option.or_eq_some_iff.mp hf with hu | ⟨_,hdb⟩
  · exact h.fewer key bi hu
  · exact ⟨bi,hdb,fun _ ht => ht⟩

theorem Leaves.add (h : Leaves p db l u) (hf : db.bitmapFor u e.1.nsCollBlk = some bitmap)
    (ex : Option ExpiryEntry) : Leaves p db (l ++ [e]) (u.add e.1 e.2 ex bitmap) where
  fewer := by
    intro ke b' hlk
    rw [add_missing_at] at hlk
    split at hlk
    · rename_i hk
      cases hlk
      obtain ⟨be,hb,hsu⟩ := bitmap_fewer h hf
      exact ⟨be,hk ▸ hb,fun t ht => hsu (mem_of_mem_filter ht)⟩
    · exact h.fewer ke b' hlk
  gone := by
    intro e' he' hta
    rw [add_missing_at]
    rcases mem_append.mp he' with ho | hn
    · obtain ⟨be,hb,ht⟩ := h.gone e' ho hta
      split
      · rename_i hk
        have hs : be = bitmap := by
          rw [StoreDb.bitmapFor,← hk,hb] at hf
          exact Option.some.inj hf
        exact ⟨_,rfl,fun hm => ht (hs ▸ mem_of_mem_filter hm)⟩
      · exact ⟨be,hb,ht⟩
    · obtain rfl := mem_singleton.mp hn
      rw [if_pos rfl]
      exact ⟨_,rfl,by simp⟩

theorem leaves (p : BTLPolicy) (db : StoreDb) (l : List DataEntry) :
    Leaves p db l (l.foldl (db.takeOldItem p) .empty) := by
  induction l using List.reverseRecOn with
  | nil => exact ⟨fun _ _ h => (by cases h),fun _ h => (by cases h)⟩
  | append_singleton l e ih =>
    rw [foldl_append,foldl_cons,foldl_nil]
    generalize l.foldl (db.takeOldItem p) .empty = u at ih
    rcases take_cases u e with hl | ⟨ex,bitmap,hf,_,ha⟩
    · rw [hl]
      refine ⟨ih.fewer,fun e' he' ht => ?_⟩
      rcases mem_append.mp he' with ho | hn
      · exact ih.gone e' ho ht
      obtain rfl := mem_singleton.mp hn
      obtain ⟨bitmap,hf⟩ : ∃ bitmap, db.bitmapFor u e'.1.nsCollBlk = some bitmap :=
        Option.ne_none_iff_exists'.mp fun hno => ht.1 (Option.or_eq_none_iff.mp hno).2
      obtain ⟨ex,_,ha⟩ := take_added hf ht.2
      rw [← hl,ha]
      exact (ih.add hf ex).gone e' he' ht
    · rw [ha]
      exact ih.add hf ex

theorem commit_outstanding (he : e ∈ entries) (hm : (e.1.nsCollBlk,e.1.txNum) ∈ outstanding db)
    (ht : Takes p db e.1.nsCollBlk) :
    outstanding (db.commitPvtDataOfOldBlocks p entries) ⊂ outstanding db := by
  have hle := leaves p db entries
  obtain ⟨af,ha,hg⟩ := hle.gone e he ht
  have hlk := batch_eligible db (entries.foldl (db.takeOldItem p) .empty)
  refine (Finset.ssubset_iff_of_subset ?_).mpr ⟨_,hm,?_⟩
  · intro x hx
    obtain ⟨left,hl,hx⟩ := mem_outstanding.mp hx
    rw [StoreDb.commitPvtDataOfOldBlocks,hlk] at hl
    split at hl
    · rename_i b' hu
      obtain ⟨be,hb,hs⟩ := hle.fewer _ _ hu
      split at hl
      · cases hl
      · cases hl
        exact mem_outstanding.mpr ⟨be,hb,hs hx⟩
    · exact mem_outstanding.mpr ⟨left,hl,hx⟩
  · intro hx
    obtain ⟨left,hl,hx⟩ := mem_outstanding.mp hx
    rw [StoreDb.commitPvtDataOfOldBlocks,hlk,ha] at hl
    dsimp only at hl
    split at hl
    · cases hl
    · cases hl
      exact hg hx

theorem round_outstanding {R : Reconciler} (hs : R.Supplied n db)
    (h : R.round n db = .ok after) : outstanding after ⊂ outstanding db := by
  unfold round at h
  split at h
  · cases h
  split at h
  · cases h
  · cases h
  rename_i el e1 hf
  split at h
  · cases h
  rename_i en hv
  cases h
  obtain ⟨e,he,hm,ht⟩ :=
    hs _ en hf (cons_ne_nil el e1) hv
  exact commit_outstanding he hm ht

/-- A cycle returns if every round that gets data gets some that are missing and taken. -/
theorem reconcile_returns {R : Reconciler} {db : StoreDb}
    (supplied : ∀ n after, R.Reached db n after → R.Supplied n after) :
    ∃ fuel result, R.reconcile fuel db = some result := by
  have hro : ∀ si n after, (outstanding after).card = si → R.Reached db n after →
      ∃ fuel result, R.rounds fuel n after = some result := by
    intro si
    induction si using Nat.strong_induction_on with
    | _ si ih =>
      rintro n after rfl hre
      cases hr : R.round n after with
      | error er => exact ⟨1,_,by rw [rounds,hr]⟩
      | ok d' =>
        have hl := Finset.card_lt_card (round_outstanding (supplied n after hre) hr)
        obtain ⟨fuel,result,h⟩ := ih _ hl (n + 1) d' rfl (.next hre hr)
        exact ⟨fuel + 1,result,by rw [rounds,hr]; exact h⟩
  exact hro _ 0 db rfl .start

def lacking : StoreDb := ⟨∅,(∅ : AList _).insert ⟨⟨[1],[2],1⟩,true⟩ [0],∅,∅⟩

def answering (bytes : Bytes) : Reconciler where
  reconcileBatchSize := 1
  btlPolicy := ⟨fun _ _ => 0⟩
  lastCommittedBlock := some 1
  computeSHA256 := fun b => b
  retrieveRwsetForTx := fun _ _ => .ok ⟨[⟨[1],⟨[],[],[],[]⟩,[⟨[2],⟨[],[],[]⟩,[9]⟩]⟩]⟩
  getMostRecentCollectionConfig := fun _ coll _ => some ⟨coll,none⟩
  fetchReconciledItems := fun _ digs =>
    if digs = [] then .error "Empty membership" else .ok (digs.map fun d => (d.1,[bytes]))

theorem right_bytes_return : ∃ fuel result,
    (answering [9]).reconcile fuel lacking = some result := by
  refine reconcile_returns fun n af hre => ?_
  have hs : n = 0 ∧ af = lacking ∨ (answering [9]).requested af = [] := by
    induction hre with
    | start => exact .inl ⟨rfl,rfl⟩
    | next hb hr ih =>
      rcases ih with ⟨rfl,rfl⟩ | he
      · cases hr
        exact .inr rfl
      unfold round at hr
      rw [he] at hr
      split at hr <;> cases hr
  rcases hs with ⟨rfl,rfl⟩ | he
  · intro el en hf _ hv
    cases hf
    cases hv
    exact ⟨_,mem_singleton_self _,by decide,by decide,fun h => absurd rfl h⟩
  intro el en hf
  rw [he] at hf
  cases hf

/-- Data of another hash do not pass the check, so every round finds what the one before found. -/
theorem wrong_bytes_forever :
    ¬ ∃ fuel result, (answering [5]).reconcile fuel lacking = some result := by
  have hr : ∀ n, (answering [5]).round n lacking = .ok lacking := fun _ => rfl
  have hro : ∀ fuel n, (answering [5]).rounds fuel n lacking = none := by
    intro fuel
    induction fuel with
    | zero => exact fun _ => rfl
    | succ fuel ih =>
      intro n
      rw [rounds,hr]
      exact ih (n + 1)
  rintro ⟨fuel,result,h⟩
  cases (hro fuel 0).symm.trans h

end Reconciler
end PluggableHcs.Privdata
