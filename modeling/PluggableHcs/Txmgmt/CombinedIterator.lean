import PluggableHcs.Txmgmt.RwSet

namespace PluggableHcs.Txmgmt
open Readings Tables List

abbrev VersionedKV := Bytes × VersionedValue

/-- The interval of a range scan. No end key stands for all keys from the start on. -/
def inRange (startKey endKey key : Bytes) : Bool :=
  decide (startKey ≤ key) && (decide (endKey = []) || decide (key < endKey))

def rangeScan (table : Table Bytes VersionedValue) (startKey endKey : Bytes) : List VersionedKV :=
  table.entries.filter fun e => inRange startKey endKey e.1

/-- The current item of either side is the first one of its list. -/
structure CombinedIterator where
  space : Space
  endKey : Bytes
  includeEndKey : Bool
  dbItems : List VersionedKV
  updatesItems : List VersionedKV
  endKeyServed : Bool

namespace CombinedIterator

/-- Opening the scan of the database reads from it, and so does moving to an item. -/
def new (db : Db) (updates : Batch) (ns startKey endKey : Bytes) (includeEndKey : Bool) :
    Reading Failure CombinedIterator := do
  let dbItems ← read (rangeScan (db.contents (.pub ns)) startKey endKey)
  let updatesItems := rangeScan (updates.updates (.pub ns)) startKey endKey
  read ⟨.pub ns,endKey,includeEndKey,dbItems,updatesItems,false⟩

variable (db : Db) (updates : Batch)

section
variable (itr : CombinedIterator)

def serveEndKeyIfNeeded : Reading Failure (Option VersionedKV × CombinedIterator) :=
  if !itr.includeEndKey || itr.endKeyServed then pure (none,itr)
  else do
    let latest ← retrieveLatest updates db itr.space itr.endKey
    let served := { itr with endKeyServed := true }
    match latest with
    | none => pure (none,served)
    | some vv =>
      if vv.isDelete then pure (none,served)
      else pure (some (itr.endKey,⟨vv.value,[],vv.version⟩),served)

/-- The smaller item is next, and that of the updates where both have the same key. A deleted one
is skipped. -/
def nextWithin : Nat → CombinedIterator → Reading Failure (Option VersionedKV × CombinedIterator)
  | 0,itr => pure (none,itr)
  | fuel + 1,itr =>
    match itr.dbItems,itr.updatesItems with
    | [],[] => itr.serveEndKeyIfNeeded db updates
    | d :: ds,[] => do
      let itr' ← read { itr with dbItems := ds }
      if d.2.isDelete then nextWithin fuel itr' else pure (some d,itr')
    | [],u :: us =>
      let itr' := { itr with updatesItems := us }
      if u.2.isDelete then nextWithin fuel itr' else pure (some u,itr')
    | d :: ds,u :: us =>
      if d.1 < u.1 then do
        let itr' ← read { itr with dbItems := ds }
        if d.2.isDelete then nextWithin fuel itr' else pure (some d,itr')
      else if u.1 < d.1 then
        let itr' := { itr with updatesItems := us }
        if u.2.isDelete then nextWithin fuel itr' else pure (some u,itr')
      else do
        let itr' ← read { itr with dbItems := ds, updatesItems := us }
        if u.2.isDelete then nextWithin fuel itr' else pure (some u,itr')

def size : Nat := itr.dbItems.length + itr.updatesItems.length

def next : Reading Failure (Option VersionedKV × CombinedIterator) :=
  nextWithin db updates (itr.size + 1) itr

def endResult : List VersionedKV :=
  if !itr.includeEndKey || itr.endKeyServed then []
  else
    (updates.apply db.state itr.space itr.endKey).toList.map fun vv =>
      (itr.endKey,⟨vv.value,[],vv.version⟩)

def results : List VersionedKV :=
  (overlay itr.dbItems itr.updatesItems).filter (fun e => !e.2.isDelete) ++ itr.endResult db updates

def Serves (m : Reading Failure (Option VersionedKV × CombinedIterator)) : Prop :=
  ∃ itr', m.result = .ok ((itr.results db updates).head?,itr') ∧
    itr'.results db updates = (itr.results db updates).tail

end

variable {db updates}

theorem serve_end_key {it : CombinedIterator} (hd : it.dbItems = []) (hu : it.updatesItems = []) :
    it.Serves db updates (it.serveEndKeyIfNeeded db updates) := by
  have hr : it.results db updates = it.endResult db updates := by
    simp [results,hd,hu]
  unfold Serves serveEndKeyIfNeeded
  rw [hr]
  by_cases hs : (!it.includeEndKey || it.endKeyServed) = true
  · rw [if_pos hs]
    have hn : it.endResult db updates = [] := if_pos hs
    refine ⟨it,?_,?_⟩
    · rw [hn]
      rfl
    · rw [hr,hn]
      rfl
  · rw [if_neg hs]
    have he : it.endResult db updates = _ := if_neg hs
    rw [he,apply_eq_latest,result_bind_ok retrieve_latest_result]
    refine ⟨{ it with endKeyServed := true },?_,?_⟩
    · cases latest updates db it.space it.endKey with
      | none => rfl
      | some vv => cases hde : vv.isDelete <;> simp [hde,Option.filter]
    · simp only [results,hd,hu,endResult]
      cases Option.filter _ _ <;> simp

section
variable {ir i' : CombinedIterator}

theorem Serves.consume {it : VersionedKV}
    (hi : overlay ir.dbItems ir.updatesItems = it :: overlay i'.dbItems i'.updatesItems)
    (he : i'.endResult db updates = ir.endResult db updates) (hm : i'.Serves db updates m) :
    ir.Serves db updates (if it.2.isDelete then m else pure (some it,i')) := by
  cases hd : it.2.isDelete with
  | true =>
    have hr : ir.results db updates = i'.results db updates := by
      simp [results,hi,he,hd]
    rw [Serves,hr]
    exact hm
  | false =>
    have hr : ir.results db updates = it :: i'.results db updates := by
      simp [results,hi,he,hd]
    rw [Serves,hr]
    exact ⟨i',rfl,rfl⟩

theorem Serves.read
    (h : ir.Serves db updates (m i')) : ir.Serves db updates (Readings.read i' >>= m) := by
  obtain ⟨i'',hm,hr⟩ := h
  exact ⟨i'',(result_bind_ok (result_read i')).trans hm,hr⟩

theorem next_within (h : ir.size < f) : ir.Serves db updates (nextWithin db updates f ir) := by
  induction f generalizing ir with
  | zero => exact absurd h (Nat.not_lt_zero _)
  | succ f ih =>
    obtain ⟨sp,en,ie,di,ui,ek⟩ := ir
    simp only [size] at h ih
    cases di with
    | nil =>
      cases ui with
      | nil => exact serve_end_key rfl rfl
      | cons u us => exact .consume rfl rfl (ih (by simp_all))
    | cons d ds =>
      cases ui with
      | nil => exact .read (.consume rfl rfl (ih (by simp_all)))
      | cons u us =>
        simp only [length_cons] at h
        rw [nextWithin]
        dsimp only
        rcases lt_trichotomy d.1 u.1 with hlt | heq | hgt
        · rw [if_pos hlt]
          exact .read (.consume (overlay_below hlt) rfl (ih (by simp only [length_cons]; omega)))
        · rw [if_neg (heq ▸ lt_irrefl _),if_neg (heq ▸ lt_irrefl _)]
          exact .read (.consume (overlay_replaced heq) rfl (ih (by simp only; omega)))
        · rw [if_neg hgt.asymm,if_pos hgt]
          exact .consume (overlay_above hgt) rfl (ih (by simp only [length_cons]; omega))

theorem next_serves (ir : CombinedIterator) : ir.Serves db updates (ir.next db updates) :=
  next_within (Nat.lt_succ_self _)

end
variable {σ : Type}

/-- What a validator makes of a result: a verdict, or it goes on. -/
abbrev Step (σ : Type) := σ → Option VersionedKV → Except Failure (σ ⊕ Bool)

variable (db updates) (step : Step σ)

/-- The loop of a validator over the results of the iterator. -/
def consumeWithin : Nat → σ → CombinedIterator → Reading Failure Bool
  | 0,_,_ => pure false
  | fuel + 1,s,itr => do
    let out ← itr.next db updates
    match step s out.1 with
    | .error e => raise e
    | .ok (.inr verdict) => pure verdict
    | .ok (.inl s') => consumeWithin fuel s' out.2

/-- The iterator returns nothing at the latest after its items and the end key. -/
def consume (s : σ) (itr : CombinedIterator) : Reading Failure Bool :=
  consumeWithin db updates step (itr.size + 2) s itr

def judge : σ → List VersionedKV → Except Failure Bool
  | s,[] =>
    match step s none with
    | .error e => .error e
    | .ok (.inr verdict) => .ok verdict
    | .ok (.inl _) => .ok false
  | s,result :: results =>
    match step s (some result) with
    | .error e => .error e
    | .ok (.inr verdict) => .ok verdict
    | .ok (.inl s') => judge s' results

variable {db updates step} {it : CombinedIterator}

theorem judge_next (h : step s (some re) = .ok (.inl s')) :
    judge step s (re :: rest) = judge step s' rest := by
  rw [judge,h]

def Decides (step : Step σ) : Prop := ∀ s s', step s none ≠ .ok (.inl s')

theorem consume_within (hd : Decides step) (h : (it.results db updates).length < fuel) :
    (consumeWithin db updates step fuel s it).result = judge step s (it.results db updates) := by
  induction fuel generalizing s it with
  | zero => exact absurd h (Nat.not_lt_zero _)
  | succ fuel ih =>
    obtain ⟨i',hn,hr⟩ := it.next_serves
    rw [consumeWithin,result_bind_ok hn]
    cases hre : it.results db updates with
    | nil =>
      rw [judge,List.head?_nil]
      cases hs : step s none with
      | error e => simp only [result_raise]
      | ok o =>
        cases o with
        | inr ve => simp only [result_pure]
        | inl s' => exact absurd hs (hd s s')
    | cons re rt =>
      rw [hre] at h hr
      rw [judge,List.head?_cons]
      cases hs : step s (some re) with
      | error e => simp only [result_raise]
      | ok o =>
        cases o with
        | inr ve => simp only [result_pure]
        | inl s' =>
          have hl : (i'.results db updates).length < fuel := by
            rw [hr]
            simpa using h
          rw [ih hl,hr,tail_cons]

theorem results_length (it : CombinedIterator) : (it.results db updates).length ≤ it.size + 1 := by
  have hi := (length_filter_le (fun e : VersionedKV => !e.2.isDelete) _).trans
    (overlay_length_le it.dbItems it.updatesItems)
  have he : (it.endResult db updates).length ≤ 1 := by
    unfold endResult
    split
    · exact Nat.zero_le 1
    · cases updates.apply db.state it.space it.endKey <;> simp
  rw [results,length_append]
  exact Nat.add_le_add hi he

theorem consume_result (hd : Decides step) :
    (consume db updates step s it).result = judge step s (it.results db updates) :=
  consume_within hd (Nat.lt_succ_of_le (results_length it))

end CombinedIterator

def toRead (e : VersionedKV) : KVRead := ⟨e.1,some e.2.version⟩

/-- The results of a range query on a state: what the interval holds in the order of keys, then the
end key if it is included. -/
def Rerun (state : State) (ns startKey endKey : Bytes) (includeEndKey : Bool)
    (results : List KVRead) : Prop :=
  ∃ inside : List VersionedKV, Ordered inside ∧
    (∀ e, e ∈ inside ↔ inRange startKey endKey e.1 = true ∧ state (.pub ns) e.1 = some e.2) ∧
    results = inside.map toRead ++ if includeEndKey then
        (state (.pub ns) endKey).toList.map fun vv => ⟨endKey,some vv.version⟩
      else []

theorem Rerun.unique {se : State} {rs results' : List KVRead} (h : Rerun se ns sk ek iy rs)
    (h' : Rerun se ns sk ek iy results') : rs = results' := by
  obtain ⟨ie,ho,hm,rfl⟩ := h
  obtain ⟨i',ho',hm',rfl⟩ := h'
  rw [ordered_ext ho ho' fun e => (hm e).trans (hm' e).symm]

theorem mem_range_scan : e ∈ rangeScan ta sk ek ↔
      inRange sk ek e.1 = true ∧ ta.get e.1 = some e.2 := by
  rw [rangeScan,mem_filter,Table.get_eq_some,and_comm]

theorem range_scan_ordered : Ordered (rangeScan ta sk ek) :=
  ta.ordered.filter _

theorem new_results (db : Db) (us : Batch) (ns sk ek : Bytes) (ie : Bool) :
    ∃ it ii, (CombinedIterator.new db us ns sk ek ie).result = .ok it ∧ Ordered ii ∧ (∀ e, e ∈ ii ↔
        inRange sk ek e.1 = true ∧ us.apply db.state (.pub ns) e.1 = some e.2) ∧
      it.results db us = ii ++ if ie then
          (us.apply db.state (.pub ns) ek).toList.map fun vv =>
            (ek,⟨vv.value,[],vv.version⟩)
        else [] := by
  refine ⟨_,(overlay (rangeScan (db.contents (.pub ns)) sk ek)
    (rangeScan (us.updates (.pub ns)) sk ek)).filter (fun e => !e.2.isDelete),rfl,
    (overlay_ordered range_scan_ordered range_scan_ordered).filter _,?_,?_⟩
  · intro e
    rw [mem_filter,mem_overlay range_scan_ordered range_scan_ordered,mem_range_scan,
      mem_range_scan,apply_eq_latest,Option.filter_eq_some_iff,latest,Option.or_eq_some_iff]
    have hf : inRange sk ek e.1 = true →
        ((∀ u ∈ rangeScan (us.updates (.pub ns)) sk ek, u.1 ≠ e.1) ↔
          us.get (.pub ns) e.1 = none) := by
      intro hin
      rw [Batch.get,Table.get_eq_none]
      constructor
      · intro h u hu heq
        exact h u (mem_filter.mpr ⟨hu,heq ▸ hin⟩) heq
      · exact fun h u hu => h u (mem_filter.mp hu).1
    constructor
    · rintro ⟨⟨hin,hu⟩ | ⟨⟨hin,hd⟩,ho⟩,hk⟩
      · exact ⟨hin,.inl hu,hk⟩
      · exact ⟨hin,.inr ⟨(hf hin).mp ho,hd⟩,hk⟩
    · rintro ⟨hin,hu | ⟨hn,hd⟩,hk⟩
      · exact ⟨.inl ⟨hin,hu⟩,hk⟩
      · exact ⟨.inr ⟨⟨hin,hd⟩,(hf hin).mpr hn⟩,hk⟩
  · cases ie <;> rfl

theorem new_rerun (db : Db) (us : Batch) (ns sk ek : Bytes) (ie : Bool) :
    ∃ it, (CombinedIterator.new db us ns sk ek ie).result = .ok it ∧
      Rerun (us.apply db.state) ns sk ek ie
        ((it.results db us).map toRead) := by
  obtain ⟨it,ii,hn,ho,hm,hr⟩ :=
    new_results db us ns sk ek ie
  refine ⟨it,hn,ii,ho,hm,?_⟩
  rw [hr,map_append]
  cases ie with
  | false => rfl
  | true => simp [toRead,Function.comp_def]

variable (db : Db) (updates : Batch)

inductive Returns : CombinedIterator → List VersionedKV → Prop
  | done (next : (itr.next db updates).result = .ok (none,itr')) : Returns itr []
  | item (next : (itr.next db updates).result = .ok (some e,itr')) (rest : Returns itr' items) :
      Returns itr (e :: items)

variable {db updates}

theorem returns_results (h : itr.results db updates = items) : Returns db updates itr items := by
  obtain ⟨i',hn,hr⟩ := itr.next_serves
  rw [h] at hn hr
  induction items generalizing itr i' with
  | nil => exact .done hn
  | cons e items ih =>
    obtain ⟨i'',h',hr'⟩ := i'.next_serves
    rw [hr] at h' hr'
    exact .item hn (ih hr i'' h' hr')

theorem Returns.eq_results (h : Returns db updates itr items) : itr.results db updates = items := by
  induction h with
  | @done itr itr' next =>
    obtain ⟨i',hn,_⟩ : itr.Serves db updates (itr.next db updates) := itr.next_serves
    have hh := congrArg Prod.fst (Except.ok.inj (hn.symm.trans next))
    exact head?_eq_none_iff.mp hh
  | @item itr' items itr e next _ ih =>
    obtain ⟨i',hn,hr⟩ : itr.Serves db updates (itr.next db updates) := itr.next_serves
    obtain ⟨hh,rfl⟩ := Prod.mk.inj (Except.ok.inj (hn.symm.trans next))
    rw [ih] at hr
    rw [hr]
    exact eq_cons_of_mem_head? hh

/-- The end key comes after keys that are not below it: it is empty, and so the scan has no end. -/
def Doubled (state : State) (ns startKey endKey : Bytes) (includeEndKey : Bool) : Prop :=
  includeEndKey = true ∧ endKey = [] ∧ state (.pub ns) [] ≠ none ∧
    ∃ key, startKey ≤ key ∧ state (.pub ns) key ≠ none

theorem scan_ordered {ii : List VersionedKV} {state : State} (ordered : Ordered ii)
    (mem : ∀ e, e ∈ ii ↔ inRange startKey endKey e.1 = true ∧ state (.pub ns) e.1 = some e.2) :
    Ordered (ii ++ if includeEndKey then (state (.pub ns) endKey).toList.map fun vv =>
        (endKey,⟨vv.value,[],vv.version⟩) else []) ↔
      ¬ Doubled state ns startKey endKey includeEndKey := by
  cases includeEndKey with
  | false => simpa [Doubled] using ordered
  | true =>
    cases hend : state (.pub ns) endKey with
    | none =>
      refine iff_of_true (by simpa using ordered) ?_
      rintro ⟨_,rfl,hne,_⟩
      exact hne hend
    | some vv =>
      simp only [if_pos,Option.toList_some,map_cons,map_nil]
      constructor
      · rintro ho ⟨_,rfl,_,key,hle,hkey⟩
        obtain ⟨kv,hkv⟩ := Option.ne_none_iff_exists'.mp hkey
        have hm : (key,kv) ∈ ii := (mem _).mpr ⟨by simp [inRange,hle],hkv⟩
        have := (pairwise_append.mp ho).2.2 _ hm _ (mem_singleton.mpr rfl)
        exact absurd this (not_lt_nil _)
      · intro hd
        refine pairwise_append.mpr ⟨ordered,pairwise_singleton _ _,fun e he l hl => ?_⟩
        obtain rfl := mem_singleton.mp hl
        obtain ⟨hin,hst⟩ := (mem e).mp he
        obtain ⟨hle,hb⟩ := Bool.and_eq_true_iff.mp hin
        rcases Bool.or_eq_true_iff.mp hb with hnil | hlt
        · obtain rfl := of_decide_eq_true hnil
          refine absurd ⟨rfl,rfl,by simp [hend],e.1,of_decide_eq_true hle,by simp [hst]⟩ hd
        · exact of_decide_eq_true hlt

/-- The iterator goes once through the overlay, exactly if no end key is meant as no end and still
to be included after other keys. -/
theorem iterator_scans_overlay (db : Db) (updates : Batch) (ns startKey endKey : Bytes)
    (includeEndKey : Bool) : (∃ itr items,
      (CombinedIterator.new db updates ns startKey endKey includeEndKey).result = .ok itr ∧
      Returns db updates itr items ∧ Ordered items ∧
      ∀ key value version, (∃ metadata, (key,⟨value,metadata,version⟩) ∈ items) ↔
        (inRange startKey endKey key = true ∨ includeEndKey = true ∧ key = endKey) ∧
        ∃ metadata, updates.apply db.state (.pub ns) key = some ⟨value,metadata,version⟩) ↔
    ¬ Doubled (updates.apply db.state) ns startKey endKey includeEndKey := by
  obtain ⟨itr,ii,hn,ho,hm,hr⟩ :=
    new_results db updates ns startKey endKey includeEndKey
  rw [← scan_ordered ho hm]
  constructor
  · rintro ⟨itr',items,hn',hret,hord,_⟩
    obtain rfl := Except.ok.inj (hn.symm.trans hn')
    rwa [← hr,hret.eq_results]
  intro hord
  refine ⟨itr,_,hn,returns_results hr,hord,?_⟩
  intro key value version
  cases includeEndKey with
  | false => simp [hm]
  | true =>
    simp only [mem_append,hm,if_pos,mem_map,Option.mem_toList,Prod.mk.injEq,
      VersionedValue.mk.injEq]
    constructor
    · rintro ⟨metadata,⟨hin,hvv⟩ | ⟨vv,hvv,rfl,rfl,_,rfl⟩⟩
      · exact ⟨.inl hin,metadata,hvv⟩
      · exact ⟨.inr ⟨trivial,rfl⟩,vv.metadata,hvv⟩
    · rintro ⟨hin | ⟨_,rfl⟩,metadata,hvv⟩
      · exact ⟨metadata,.inl ⟨hin,hvv⟩⟩
      · exact ⟨[],.inr ⟨_,hvv,rfl,rfl,rfl,rfl⟩⟩

/-- The committed key is deleted in the block, another one is put, and the end key is included. -/
theorem iterator_scans_end_key :
    let db := emptyDb.applyUpdates ((Batch.update ∅ (.pub [97]) [1] ⟨[5],[],⟨1,0⟩⟩).update
      (.pub [97]) [3] ⟨[6],[],⟨1,1⟩⟩)
    let updates := (Batch.delete ∅ (.pub [97]) [1] ⟨2,0⟩).update (.pub [97]) [2] ⟨[7],[],⟨2,0⟩⟩
    ∃ itr items, (CombinedIterator.new db updates [97] [] [3] true).result = .ok itr ∧
      Returns db updates itr items ∧ Ordered items ∧
      ([3],⟨[6],[],⟨1,1⟩⟩) ∈ items ∧ ([2],⟨[7],[],⟨2,0⟩⟩) ∈ items ∧ items.length = 2 := by
  intro db updates
  obtain ⟨itr,items,hn,hr,ho,_⟩ := (iterator_scans_overlay db updates [97] [] [3] true).mpr
    fun h => nomatch h.2.1
  have hi := hr.eq_results
  cases hn
  exact ⟨_,items,rfl,hr,ho,hi ▸ by decide,hi ▸ by decide,hi ▸ by decide⟩

/-- Without an end, the key that is empty comes first, and as the end key once more. -/
theorem empty_end_key_repeats : ∃ itr,
    (CombinedIterator.new emptyDb (.update ∅ (.pub [97]) [] ⟨[5],[],⟨1,0⟩⟩) [97] [] [] true).result =
      .ok itr ∧
    Returns emptyDb (.update ∅ (.pub [97]) [] ⟨[5],[],⟨1,0⟩⟩) itr
      [([],⟨[5],[],⟨1,0⟩⟩),([],⟨[5],[],⟨1,0⟩⟩)] :=
  ⟨_,rfl,returns_results rfl⟩

end PluggableHcs.Txmgmt
