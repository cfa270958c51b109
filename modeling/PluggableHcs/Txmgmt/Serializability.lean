import Mathlib.Data.UInt
import PluggableHcs.Txmgmt.Validator

namespace PluggableHcs.Txmgmt
open Readings Merkle List Option
open KeyOps (entry init merging record)

def TxRwSet.valuesAt (rwset : TxRwSet) (s : Space) (k : Bytes) : List (Bool × Bytes) :=
  rwset.writes.filterMap fun a =>
    if a.space = s ∧ a.item.key = k then some (a.item.isDelete,a.item.value) else none

def TxRwSet.metadataAt (rwset : TxRwSet) (s : Space) (k : Bytes) : List (List MetadataEntry) :=
  rwset.metadataWrites.filterMap fun a =>
    if a.space = s ∧ a.item.key = k then some a.item.entries else none

/-- The value of a key after a write and a metadata write. Metadata belongs to a key that exists. -/
def writeTo (txHeight : Height) (before : Option VersionedValue) :
    Option (Bool × Bytes) → Option (List MetadataEntry) → Option VersionedValue
  | some (true,_),_ => none
  | some (false,value),some entries => some ⟨value,entries,txHeight⟩
  | some (false,value),none => some ⟨value,before.elim [] VersionedValue.metadata,txHeight⟩
  | none,some entries => before.map fun vv => ⟨vv.value,entries,txHeight⟩
  | none,none => before

def TxRwSet.apply (rwset : TxRwSet) (txHeight : Height) (state : State) : State := fun s k =>
  writeTo txHeight (state s k) (rwset.valuesAt s k).head? (rwset.metadataAt s k).head?

def stateAfter (num : Nat) (state : State) (txs : List (Transaction × TxValidationCode)) : State :=
  txs.foldl (fun state tx =>
    if tx.2 = .valid then tx.1.rwset.apply ⟨num,tx.1.indexInBlock⟩ state else state) state

/-- A key is written at most once, and so is its metadata. -/
@[mk_iff]
structure TxRwSet.WritesOnce (rwset : TxRwSet) : Prop where
  values : (rwset.writes.map fun a => (a.space,a.item.key)).Nodup
  metadata : (rwset.metadataWrites.map fun a => (a.space,a.item.key)).Nodup

open TxRwSet

def TxRwSet.CollectionsNamed (rwset : TxRwSet) : Prop :=
  ∀ n ∈ rwset.nsRwSets, ∀ c ∈ n.collHashedRwSets, c.collectionName ≠ []
deriving Decidable

def HashedRWSet.Written (h : HashedRWSet) : Prop := h.hashedWrites ≠ [] ∨ h.metadataWrites ≠ []
deriving Decidable

/-- A collection that is written has a name. -/
def TxRwSet.WritesNamed (rwset : TxRwSet) : Prop :=
  ∀ n ∈ rwset.nsRwSets, ∀ c ∈ n.collHashedRwSets, c.hashedRwSet.Written → c.collectionName ≠ []
deriving Decidable

theorem TxRwSet.CollectionsNamed.writes (named : CollectionsNamed rwset) : rwset.WritesNamed :=
  fun n hn c hc _ => named n hn c hc

instance (rwset : TxRwSet) : Decidable rwset.WritesOnce := decidable_of_iff' _ rwset.writesOnce_iff

section

def Op.value? : Op → Option (Bool × Bytes)
  | .write isDelete value => some (isDelete,value)
  | .metadata _ => none

def Op.metadata? : Op → Option (List MetadataEntry)
  | .write _ _ => none
  | .metadata entries => some entries

theorem operations_on_filter {β : Type} (rt : TxRwSet) (ck : CompositeKey) (f : Op → Option β) :
    (rt.operationsOn ck).filterMap f =
      rt.operations.filterMap fun o => if o.1 = ck then f o.2 else none := by
  rw [operationsOn,filterMap_map,filterMap_filter]
  simp

theorem composite_key_eq (hck : s.compositeKey k = some ck)
    (c' : CompositeKey) : c' = ck ↔ c'.space = s ∧ c'.key = k := by
  rw [← composite_key_iff,hck,some_inj,eq_comm]

theorem space_public (ns ke : Bytes) : (⟨ns,[],ke⟩ : CompositeKey).space = .pub ns := if_pos rfl

/-- What is written in the collections goes to the place or not, whichever way it is looked at. -/
def TxRwSet.PlacedAt (rwset : TxRwSet) (s : Space) : Prop :=
  ∀ n ∈ rwset.nsRwSets, ∀ c ∈ n.collHashedRwSets, c.hashedRwSet.Written → ∀ key,
    (⟨n.nameSpace,c.collectionName,key⟩ : CompositeKey).space = s ↔
      Space.hashed n.nameSpace c.collectionName = s

variable {rwset : TxRwSet}

theorem TxRwSet.WritesNamed.placed (ha : rwset.WritesNamed) (s : Space) : rwset.PlacedAt s := by
  intro n hn c hc hw ke
  rw [CompositeKey.space,if_neg (ha n hn c hc hw)]

theorem placed_hashed {ns co : Bytes} (h : co ≠ []) : rwset.PlacedAt (.hashed ns co) := by
  intro n _ c _ _ ke
  unfold CompositeKey.space
  by_cases hc : c.collectionName = []
  · simp [hc,h.symm]
  · simp [hc]

variable {s : Space} {ck : CompositeKey}

theorem operations_value (hp : rwset.PlacedAt s) (hck : s.compositeKey k = some ck) :
    (rwset.operationsOn ck).filterMap Op.value? = rwset.valuesAt s k := by
  rw [operations_on_filter,operations,valuesAt,TxRwSet.writes,accesses,
    filterMap_flatMap,filterMap_flatMap]
  refine flatMap_congr fun n hn => ?_
  simp only [filterMap_append,filterMap_map,filterMap_flatMap,Function.comp_def,
    composite_key_eq hck,space_public,Op.value?,ite_self,filterMap_none,append_nil]
  congr 1
  refine flatMap_congr fun c hc => ?_
  refine filterMap_congr fun w hw => if_congr (and_congr_left' (hp n hn c hc ?_ _)) rfl rfl
  exact .inl (ne_nil_of_mem hw)

theorem operations_metadata (hp : rwset.PlacedAt s) (hck : s.compositeKey k = some ck) :
    (rwset.operationsOn ck).filterMap Op.metadata? = rwset.metadataAt s k := by
  rw [operations_on_filter,operations,metadataAt,TxRwSet.metadataWrites,
    accesses,filterMap_flatMap,filterMap_flatMap]
  refine flatMap_congr fun n hn => ?_
  simp only [filterMap_append,filterMap_map,filterMap_flatMap,Function.comp_def,
    composite_key_eq hck,space_public,Op.metadata?,ite_self,filterMap_none,nil_append]
  congr 1
  refine flatMap_congr fun c hc => ?_
  refine filterMap_congr fun w hw => if_congr (and_congr_left' (hp n hn c hc ?_ _)) rfl rfl
  exact .inr (ne_nil_of_mem hw)

theorem nowhere_else (hb : rwset.WritesNamed)
    (hck : s.compositeKey k = none) : rwset.valuesAt s k = [] ∧ rwset.metadataAt s k = [] := by
  have hp : ∀ {α : Type} {pu : KVRWSet → List α} {hd : HashedRWSet → List α},
      (∀ h, hd h ≠ [] → h.Written) → ∀ a ∈ rwset.accesses pu hd, a.space ≠ s := by
    intro α pu hd written a ha heq
    obtain ⟨n,hn,ha⟩ := mem_flatMap.mp ha
    rcases mem_append.mp ha with ha | ha
    · obtain ⟨it,_,rfl⟩ := List.mem_map.mp ha
      subst heq
      cases hck
    · obtain ⟨c,hc,ha⟩ := mem_flatMap.mp ha
      obtain ⟨it,hit,rfl⟩ := List.mem_map.mp ha
      subst heq
      rw [Space.compositeKey,if_neg (hb n hn c hc (written _ (ne_nil_of_mem hit)))] at hck
      cases hck
  constructor
  · refine filterMap_eq_nil_iff.mpr fun a ha => if_neg fun h => hp ?_ a ha h.1
    exact fun h hne => .inl (by simpa using hne)
  · refine filterMap_eq_nil_iff.mpr fun a ha => if_neg fun h => hp ?_ a ha h.1
    exact fun h hne => .inr (by simpa using hne)

theorem record_comm (os : KeyOps) (ie : Bool) (va : Bytes) (en : List MetadataEntry) :
    (os.record (.metadata en)).record (.write ie va) =
      (os.record (.write ie va)).record (.metadata en) := by
  have hf : ∀ b c : UInt8, os.flag + b + c = os.flag + c + b := fun b c => by
    rw [UInt8.add_assoc,UInt8.add_comm b c,← UInt8.add_assoc]
  cases ie <;> cases en <;> simp [record,hf]

theorem foldl_record (os : List Op) (op : KeyOps) : os.foldl record op =
      (os.filterMap Op.metadata?).foldl (fun op en => op.record (.metadata en))
        ((os.filterMap Op.value?).foldl (fun op w => op.record (.write w.1 w.2)) op) := by
  induction os generalizing op with
  | nil => rfl
  | cons o os ih =>
    rw [foldl_cons,ih]
    cases o with
    | write ie va => rfl
    | metadata en =>
      have hm : ∀ (ws : List (Bool × Bytes)) (op : KeyOps),
          ws.foldl (fun op w => op.record (.write w.1 w.2)) (op.record (.metadata en)) =
            (ws.foldl (fun op w => op.record (.write w.1 w.2)) op).record (.metadata en) := by
        intro ws
        induction ws with
        | nil => exact fun _ => rfl
        | cons w ws iw =>
          intro op
          rw [foldl_cons,foldl_cons,record_comm,iw]
      rw [hm]
      rfl

def effect (txHeight : Height) (latest : Option VersionedValue) :
    Option (Bool × Bytes) → Option (List MetadataEntry) → Option VersionedValue
  | some (true,_),_ => some ⟨[],[],txHeight⟩
  | some (false,value),some entries => some ⟨value,entries,txHeight⟩
  | some (false,value),none => some ⟨value,latest.elim [] VersionedValue.metadata,txHeight⟩
  | none,some entries => latest.map fun vv => ⟨vv.value,entries,txHeight⟩
  | none,none => none

theorem entry_once (th : Height) (l : Option VersionedValue) (w : Option (Bool × Bytes))
    (m : Option (List MetadataEntry)) (ha : w ≠ none ∨ m ≠ none) :
    ((m.toList.foldl (fun os en => os.record (.metadata en))
      (w.toList.foldl (fun os w => os.record (.write w.1 w.2)) init)).merge l).map
        (entry · th) = effect th l w m := by
  have hf : ∀ f va me, merging ⟨f,va,me⟩ = merging ⟨f,[],[]⟩ := fun _ _ _ => rfl
  have hd : merging ⟨0 + keyDelete,[],[]⟩ = .delete ∧
      merging ⟨0 + keyDelete + metadataDelete,[],[]⟩ = .delete ∧
      merging ⟨0 + keyDelete + metadataUpdate,[],[]⟩ = .delete := by decide
  have hu : merging ⟨0 + upsertVal,[],[]⟩ = .value ∧
      merging ⟨0 + upsertVal + metadataDelete,[],[]⟩ = .both ∧
      merging ⟨0 + upsertVal + metadataUpdate,[],[]⟩ = .both := by decide
  have hm : merging ⟨0 + metadataDelete,[],[]⟩ = .metadata ∧
      merging ⟨0 + metadataUpdate,[],[]⟩ = .metadata := by decide
  rw [merge_entry]
  rcases w with _ | ⟨_ | _,va⟩ <;> rcases m with _ | _ | ⟨e,en⟩ <;>
    simp_all [record,init,effect]

theorem is_delete_once (w : Option (Bool × Bytes)) (m : Option (List MetadataEntry)) :
    (m.toList.foldl (fun os en => os.record (.metadata en))
      (w.toList.foldl (fun os w => os.record (.write w.1 w.2)) init)).isDelete =
        w.elim false Prod.fst := by
  have hf : ∀ f va me, KeyOps.isDelete ⟨f,va,me⟩ = KeyOps.isDelete ⟨f,[],[]⟩ := fun _ _ _ => rfl
  have hd : KeyOps.isDelete ⟨0 + keyDelete,[],[]⟩ = true ∧
      KeyOps.isDelete ⟨0 + keyDelete + metadataDelete,[],[]⟩ = true ∧
      KeyOps.isDelete ⟨0 + keyDelete + metadataUpdate,[],[]⟩ = true := by decide
  have hk : KeyOps.isDelete ⟨0 + upsertVal,[],[]⟩ = false ∧
      KeyOps.isDelete ⟨0 + upsertVal + metadataDelete,[],[]⟩ = false ∧
      KeyOps.isDelete ⟨0 + upsertVal + metadataUpdate,[],[]⟩ = false ∧
      KeyOps.isDelete ⟨0 + metadataDelete,[],[]⟩ = false ∧
      KeyOps.isDelete ⟨0 + metadataUpdate,[],[]⟩ = false ∧
      KeyOps.isDelete ⟨0,[],[]⟩ = false := by decide
  rcases w with _ | ⟨_ | _,va⟩ <;> rcases m with _ | _ | ⟨e,en⟩ <;>
    simp_all [record,init]

theorem filter_map_once {α β γ : Type} {l : List α} {pl : α → γ} (h : (l.map pl).Nodup)
    {p : α → Prop} [DecidablePred p] (hp : ∀ a b, p a → p b → pl a = pl b) (f : α → β) :
    ∃ x : Option β, (l.filterMap fun a => if p a then some (f a) else none) = x.toList := by
  induction l with
  | nil => exact ⟨none,rfl⟩
  | cons a l ih =>
    obtain ⟨ha,hl⟩ := nodup_cons.mp h
    by_cases hpa : p a
    · refine ⟨some (f a),?_⟩
      rw [filterMap_cons,if_pos hpa,toList_some,cons_inj_right,filterMap_eq_nil_iff]
      intro b hb
      exact if_neg fun hpb => ha (List.mem_map.mpr ⟨b,hb,hp b a hpb hpa⟩)
    · rw [filterMap_cons,if_neg hpa]
      exact ih hl

theorem TxRwSet.WritesOnce.values_at (o : rwset.WritesOnce) (s : Space)
    (k : Bytes) : rwset.valuesAt s k = (rwset.valuesAt s k).head?.toList := by
  obtain ⟨x,hx⟩ := filter_map_once o.values (p := fun a => a.space = s ∧ a.item.key = k)
    (fun a b ha hb => Prod.ext (ha.1.trans hb.1.symm) (ha.2.trans hb.2.symm))
    fun a => (a.item.isDelete,a.item.value)
  rw [valuesAt,hx]
  cases x <;> rfl

theorem TxRwSet.WritesOnce.metadata_at (o : rwset.WritesOnce) (s : Space)
    (k : Bytes) : rwset.metadataAt s k = (rwset.metadataAt s k).head?.toList := by
  obtain ⟨x,hx⟩ := filter_map_once o.metadata (p := fun a => a.space = s ∧ a.item.key = k)
    (fun a b ha hb => Prod.ext (ha.1.trans hb.1.symm) (ha.2.trans hb.2.symm))
    fun a => a.item.entries
  rw [metadataAt,hx]
  cases x <;> rfl

theorem ops_nil {os : List Op} (hv : os.filterMap Op.value? = [])
    (hm : os.filterMap Op.metadata? = []) : os = [] := by
  rw [filterMap_eq_nil_iff] at hv hm
  refine eq_nil_iff_forall_not_mem.mpr fun o ho => ?_
  cases o with
  | write ie va => exact absurd (hv _ ho) (some_ne_none _)
  | metadata en => exact absurd (hm _ ho) (some_ne_none _)

def lastOps (os : List Op) : List Op :=
  ((os.filterMap Op.value?).getLast?.map fun w => .write w.1 w.2).toList ++
    ((os.filterMap Op.metadata?).getLast?.map .metadata).toList

theorem last_ops_last (os : List Op) :
    (lastOps os).filterMap Op.value? = (os.filterMap Op.value?).getLast?.toList ∧
      (lastOps os).filterMap Op.metadata? = (os.filterMap Op.metadata?).getLast?.toList := by
  unfold lastOps
  cases (os.filterMap Op.value?).getLast? <;> cases (os.filterMap Op.metadata?).getLast? <;>
    exact ⟨rfl,rfl⟩

def Op.flag : Op → UInt8
  | .write true _ => keyDelete
  | .write false _ => upsertVal
  | .metadata [] => metadataDelete
  | .metadata _ => metadataUpdate

def Op.put? : Op → Option Bytes
  | .write false value => some value
  | _ => none

def Op.set? : Op → Option (List MetadataEntry)
  | .metadata (e :: entries) => some (e :: entries)
  | _ => none

/-- What the operations on a key come to: the sum of their flags, the last value that was put and
the last metadata that was set. -/
theorem foldl_record_fields (os : List Op) (op : KeyOps) : os.foldl record op =
    ⟨op.flag + (os.map Op.flag).sum,(os.filterMap Op.put?).getLast?.getD op.value,
      (os.filterMap Op.set?).getLast?.getD op.metadata⟩ := by
  induction os generalizing op with
  | nil => simp
  | cons o os ih =>
    rw [foldl_cons,ih]
    match o with
    | .write true _ | .write false _ | .metadata [] | .metadata (_ :: _) =>
      simp [record,Op.flag,Op.put?,Op.set?,getLast?_cons,UInt8.add_assoc]

theorem flags_split (os : List Op) : (os.map Op.flag).sum =
    ((os.filterMap Op.value?).map fun w => Op.flag (.write w.1 w.2)).sum +
      ((os.filterMap Op.metadata?).map fun en => Op.flag (.metadata en)).sum := by
  induction os with
  | nil => rfl
  | cons o os ih =>
    cases o with
    | write ie va =>
      simp only [map_cons,sum_cons,Op.value?,Op.metadata?,filterMap_cons,ih,UInt8.add_assoc]
    | metadata en =>
      simp only [map_cons,sum_cons,Op.value?,Op.metadata?,filterMap_cons,ih]
      rw [← UInt8.add_assoc,UInt8.add_comm (Op.flag _),UInt8.add_assoc]

theorem sum_last {α : Type} (l : List α) (f : α → UInt8) :
    (l.map f).sum = (l.dropLast.map f).sum + (l.getLast?.toList.map f).sum := by
  cases hl : l.getLast? with
  | none => simp [List.getLast?_eq_none_iff.mp hl]
  | some x =>
    obtain ⟨l,rfl⟩ := List.getLast?_eq_some_iff.mp hl
    simp

theorem last_filter_map {α β : Type} {f : α → Option β} {l : List α} {x : α} {y : β}
    (hl : l.getLast? = some x) (hx : f x = some y) : (l.filterMap f).getLast? = some y := by
  obtain ⟨l,rfl⟩ := List.getLast?_eq_some_iff.mp hl
  simp [hx]

theorem put_values (os : List Op) : os.filterMap Op.put? =
    (os.filterMap Op.value?).filterMap fun w => if w.1 then none else some w.2 := by
  rw [filterMap_filterMap]
  refine filterMap_congr fun o _ => ?_
  match o with
  | .write true _ | .write false _ | .metadata _ => rfl

theorem set_entries (os : List Op) : os.filterMap Op.set? =
    (os.filterMap Op.metadata?).filterMap fun en => if en = [] then none else some en := by
  rw [filterMap_filterMap]
  refine filterMap_congr fun o _ => ?_
  match o with
  | .write _ _ | .metadata [] | .metadata (_ :: _) => rfl

/-- The writes that are not the last ones leave no trace: their flags add up to nothing in eight
bits, and a last write that removes does not leave an earlier value or earlier metadata. -/
structure Overwritten (os : List Op) : Prop where
  flags : ((os.filterMap Op.value?).dropLast.map fun w => Op.flag (.write w.1 w.2)).sum +
    ((os.filterMap Op.metadata?).dropLast.map fun en => Op.flag (.metadata en)).sum = 0
  value : ∀ w ∈ (os.filterMap Op.value?).getLast?, w.1 = true →
    ∀ value ∈ (os.filterMap Op.put?).getLast?, value = []
  metadata : (os.filterMap Op.metadata?).getLast? = some [] → os.filterMap Op.set? = []

section
variable (os : List Op)

theorem flags_last : (os.map Op.flag).sum = ((lastOps os).map Op.flag).sum ↔
    ((os.filterMap Op.value?).dropLast.map fun w => Op.flag (.write w.1 w.2)).sum +
      ((os.filterMap Op.metadata?).dropLast.map fun en => Op.flag (.metadata en)).sum = 0 := by
  obtain ⟨hv,hm⟩ := last_ops_last os
  rw [flags_split os,flags_split (lastOps os),hv,hm,sum_last (os.filterMap Op.value?),
    sum_last (os.filterMap Op.metadata?)]
  grind

theorem put_last : (os.filterMap Op.put?).getLast?.getD [] =
      ((lastOps os).filterMap Op.put?).getLast?.getD [] ↔
    ∀ w ∈ (os.filterMap Op.value?).getLast?, w.1 = true →
      ∀ value ∈ (os.filterMap Op.put?).getLast?, value = [] := by
  rw [put_values (lastOps os),(last_ops_last os).1,put_values os]
  cases hl : (os.filterMap Op.value?).getLast? with
  | none => simp [List.getLast?_eq_none_iff.mp hl]
  | some w =>
    obtain ⟨_ | _,value⟩ := w
    · rw [last_filter_map (y := value) hl (by simp)]
      simp
    · cases ((os.filterMap Op.value?).filterMap _).getLast? <;> simp

theorem set_last : (os.filterMap Op.set?).getLast?.getD [] =
      ((lastOps os).filterMap Op.set?).getLast?.getD [] ↔
    ((os.filterMap Op.metadata?).getLast? = some [] → os.filterMap Op.set? = []) := by
  rw [set_entries (lastOps os),(last_ops_last os).2,set_entries os]
  cases hl : (os.filterMap Op.metadata?).getLast? with
  | none => simp [List.getLast?_eq_none_iff.mp hl]
  | some entries =>
    cases entries with
    | cons e entries =>
      rw [last_filter_map (y := e :: entries) hl (by simp)]
      simp
    | nil =>
      cases hs : ((os.filterMap Op.metadata?).filterMap _).getLast? with
      | none => simp [List.getLast?_eq_none_iff.mp hs]
      | some entries =>
        have hne : entries ≠ [] := by
          obtain ⟨en,_,hen⟩ := mem_filterMap.mp (mem_of_getLast? hs)
          split at hen
          · cases hen
          · next he => exact Option.some.inj hen ▸ he
        have hn : (os.filterMap Op.metadata?).filterMap
            (fun en => if en = [] then none else some en) ≠ [] :=
          fun h => by rw [h] at hs; cases hs
        simp [hne,hn]

theorem last_ops_nil : lastOps os = [] ↔ os = [] := by
  constructor
  · intro h
    obtain ⟨hv,hm⟩ := last_ops_last os
    rw [h,filterMap_nil,eq_comm,Option.toList_eq_nil_iff,List.getLast?_eq_none_iff] at hv hm
    exact ops_nil hv hm
  · rintro rfl
    rfl

end

/-- A write set whose writes of a key are only the last ones comes to the same operation, exactly if
the others leave no trace. -/
theorem last_writes_accumulate {reduced : TxRwSet}
    (last : reduced.operationsOn ck = lastOps (rwset.operationsOn ck)) :
    (TxOps.applyTxRwset rwset).lookup ck = (TxOps.applyTxRwset reduced).lookup ck ↔
      Overwritten (rwset.operationsOn ck) := by
  rw [TxOps.lookup_apply_tx_rwset,TxOps.lookup_apply_tx_rwset,last,
    if_congr (last_ops_nil _) rfl rfl]
  by_cases hn : rwset.operationsOn ck = []
  · rw [if_pos hn,if_pos hn,hn]
    exact iff_of_true rfl ⟨rfl,nofun,nofun⟩
  · rw [if_neg hn,if_neg hn,some_inj,foldl_record_fields,foldl_record_fields,KeyOps.mk.injEq]
    simp only [init,UInt8.zero_add,flags_last,put_last,set_last]
    exact ⟨fun h => ⟨h.1,h.2.1,h.2.2⟩,fun h => ⟨h.flags,h.value,h.metadata⟩⟩

def publicWrites (writes : List KVWrite) (metadataWrites : List KVMetadataWrite) : TxRwSet :=
  ⟨[⟨[97],⟨[],[],writes,metadataWrites⟩,[]⟩]⟩

/-- The flags of 32 deletes add up to 256. -/
theorem deletes_wrap :
    (TxOps.applyTxRwset (publicWrites (replicate 33 ⟨[1],true,[]⟩) [])).lookup ⟨[97],[],[1]⟩ =
      (TxOps.applyTxRwset (publicWrites [⟨[1],true,[]⟩] [])).lookup ⟨[97],[],[1]⟩ :=
  (last_writes_accumulate (by decide)).mpr ⟨by decide,by decide,by decide⟩

/-- Two writes of a value add up to an update of the metadata. -/
theorem two_writes_add_up :
    (TxOps.applyTxRwset (publicWrites [⟨[1],false,[5]⟩,⟨[1],false,[6]⟩] [])).lookup ⟨[97],[],[1]⟩ =
      some ⟨metadataUpdate,[6],[]⟩ ∧
    (TxOps.applyTxRwset (publicWrites [⟨[1],false,[6]⟩] [])).lookup ⟨[97],[],[1]⟩ =
      some ⟨upsertVal,[6],[]⟩ := by
  decide

theorem written_at (hp : rwset.PlacedAt s)
    (hck : s.compositeKey k = some ck) (us : Batch) (db : Db) :
    rwset.valuesAt s k = [] ∧ rwset.metadataAt s k = [] ∧ written rwset us db s k = none ∨
    ¬ (rwset.valuesAt s k = [] ∧ rwset.metadataAt s k = []) ∧ written rwset us db s k =
        ((rwset.metadataAt s k).foldl (fun os en => os.record (.metadata en))
          ((rwset.valuesAt s k).foldl (fun os w => os.record (.write w.1 w.2))
            init)).merge (latest us db s k) := by
  obtain ⟨rfl,rfl⟩ := composite_key_iff.mp hck
  have hv := operations_value hp hck
  have hm := operations_metadata hp hck
  rw [written,hck,bind_some,finalOps,TxOps.lookup_apply_tx_rwset]
  by_cases hn : rwset.operationsOn ck = []
  · rw [hn] at hv hm
    rw [if_pos hn,← hv,← hm]
    exact .inl ⟨rfl,rfl,rfl⟩
  · rw [if_neg hn,bind_some,foldl_record,hv,hm]
    refine .inr ⟨?_,rfl⟩
    rw [← hv,← hm]
    exact fun h => hn (ops_nil h.1 h.2)

theorem written_once (hn : rwset.WritesNamed) (o : rwset.WritesOnce)
    (us : Batch) (db : Db) (s : Space) (k : Bytes) :
    (rwset.valuesAt s k).head? = none ∧ (rwset.metadataAt s k).head? = none ∧
      written rwset us db s k = none ∨
    ((rwset.valuesAt s k).head? ≠ none ∨ (rwset.metadataAt s k).head? ≠ none) ∧
      written rwset us db s k =
        ((rwset.metadataAt s k).head?.toList.foldl (fun os en => os.record (.metadata en))
          ((rwset.valuesAt s k).head?.toList.foldl (fun os w => os.record (.write w.1 w.2))
            init)).merge (latest us db s k) := by
  rw [← o.values_at,← o.metadata_at,← not_and_or,List.head?_eq_none_iff,List.head?_eq_none_iff]
  cases hck : s.compositeKey k with
  | none =>
    obtain ⟨hv,hm⟩ := nowhere_else hn hck
    refine .inl ⟨hv,hm,?_⟩
    rw [written,hck]
    rfl
  | some ck => exact written_at (hn.placed s) hck us db

theorem written_value {ns co : Bytes} (hv : rwset.valuesAt (.hashed ns co) k = [(false,value)])
    (hm : rwset.metadataAt (.hashed ns co) k = (rwset.metadataAt (.hashed ns co) k).head?.toList)
    (hw : written rwset updates db (.hashed ns co) k = some ops) (th : Height) :
    (ops.entry th).value = value := by
  by_cases hc : co = []
  · subst hc
    cases hw
  have hck : (Space.hashed ns co).compositeKey k = some ⟨ns,co,k⟩ := if_neg hc
  rcases written_at (placed_hashed hc) hck updates db with ⟨hn,_⟩ | ⟨_,hs⟩
  · rw [hv] at hn
    cases hn
  rw [hw,hv,hm] at hs
  have he := entry_once th (latest updates db (.hashed ns co) k) (some (false,value))
    (rwset.metadataAt (.hashed ns co) k).head? (.inl (some_ne_none _))
  rw [toList_some,← hs,map_some] at he
  cases hme : (rwset.metadataAt (.hashed ns co) k).head? with
  | none | some en =>
    rw [hme] at he
    rw [Option.some.inj he]

end

variable {H : HashFunc} {db : Db} {updates : Batch}

def Batch.Clean (b : Batch) : Prop :=
  ∀ s k vv, b.get s k = some vv → vv.value = [] → vv.metadata = []

theorem entry_delete {os : KeyOps} (ho : ¬ os.Nil) (h : (os.entry th).value = []) :
    os.isDelete = true := by
  cases hd : os.isDelete with
  | true => rfl
  | false =>
    rw [entry,hd] at h
    exact absurd ⟨hd,h⟩ ho

theorem latest_metadata (hc : updates.Clean) (s : Space) (k : Bytes) :
    (latest updates db s k).elim [] VersionedValue.metadata =
      (updates.apply db.state s k).elim [] VersionedValue.metadata := by
  rw [apply_eq_latest]
  cases hl : latest updates db s k with
  | none => rfl
  | some vv =>
    cases hd : vv.isDelete with
    | false => simp [Option.filter,hd]
    | true =>
      have hv := VersionedValue.is_delete_iff.mp hd
      rcases or_eq_some_iff.mp hl with hg | ⟨_,hst⟩
      · simp [Option.filter,hd,hc s k vv hg hv]
      · exact absurd hv (db.valued hst)

section
variable {la : Option VersionedValue}

theorem effect_none (h : effect th la w m = none) :
    writeTo th (la.filter fun vv => !vv.isDelete) w m = la.filter fun vv => !vv.isDelete := by
  rcases w with _ | ⟨_ | _,va⟩ <;> rcases m with _ | entries <;>
    simp_all [effect,writeTo]

theorem effect_some (h : effect th la w m = some vv)
    (hva : vv.value = [] → w.elim false Prod.fst = true)
    (hm : la.elim [] VersionedValue.metadata =
      (la.filter fun vv => !vv.isDelete).elim [] VersionedValue.metadata) :
    writeTo th (la.filter fun vv => !vv.isDelete) w m =
      if vv.value = [] then none else some vv := by
  rcases w with _ | ⟨_ | _,va⟩
  · have hne : vv.value ≠ [] := fun hv => Bool.false_ne_true (hva hv)
    rw [if_neg hne]
    rcases m with _ | entries
    · cases h
    obtain ⟨l,rfl,rfl⟩ := map_eq_some_iff.mp h
    have hk : l.isDelete = false := by simpa [VersionedValue.isDelete] using hne
    simp [writeTo,Option.filter,hk]
  · have hne : vv.value ≠ [] := fun hv => Bool.false_ne_true (hva hv)
    rw [if_neg hne]
    rcases m with _ | entries
    · rw [writeTo,← hm]
      exact h
    · exact h
  · cases h
    rfl

theorem effect_missing (h : effect th la w m = some vv)
    (hd : w.elim false Prod.fst = false) (hv : vv.value = []) :
    w = some (false,[]) ∨ w = none ∧ m ≠ none ∧ ∃ l, la = some l ∧ l.value = [] := by
  rcases w with _ | ⟨_ | _,va⟩
  · rcases m with _ | entries
    · cases h
    · obtain ⟨l,rfl,rfl⟩ := map_eq_some_iff.mp h
      exact .inr ⟨rfl,some_ne_none _,l,rfl,hv⟩
  · rcases m with _ | entries <;> cases h <;> exact .inl (congrArg (fun v => some (false,v)) hv)
  · cases hd

end

theorem written_kept (hb : rt.WritesNamed) (o : rt.WritesOnce)
    (hc : ∀ a ∈ rt.writes, a.item.isDelete = false → a.item.value ≠ [])
    (l : ∀ s k vv, (rt.valuesAt s k).head? = none → (rt.metadataAt s k).head? ≠ none →
      updates.get s k = some vv → vv.value ≠ [])
    (h : written rt updates db s k = some ops) : ¬ ops.Nil := by
  rintro ⟨hd,hva⟩
  rcases written_once hb o updates db s k with ⟨_,_,hno⟩ | ⟨han,hs⟩
  · rw [h] at hno
    cases hno
  have hk : (rt.valuesAt s k).head?.elim false Prod.fst = false := by
    rw [← is_delete_once _ (rt.metadataAt s k).head?,← hd,KeyOps.isDelete,KeyOps.isDelete,
      merge_flag (hs.symm.trans h)]
  have he := entry_once ⟨0,0⟩ (latest updates db s k) _ _ han
  rw [← hs,h,map_some,entry,hd,hva] at he
  rcases effect_missing he.symm hk rfl with hp | ⟨hv,hm,vv,hl,hn⟩
  · obtain ⟨a,ha,hat⟩ := mem_filterMap.mp (mem_of_head? hp)
    split at hat
    · obtain ⟨hde,hem⟩ := Prod.mk.inj (Option.some.inj hat)
      exact hc a ha hde hem
    · cases hat
  · rcases or_eq_some_iff.mp hl with hg | ⟨_,hst⟩
    · exact l s k vv hv hm hg hn
    · exact db.valued hst hn

theorem apply_write_set_state (hb : rt.WritesNamed) (o : rt.WritesOnce) (hc : updates.Clean)
    (h : (applyWriteSet updates rt th db).result = .ok us') :
    us'.Clean ∧ us'.apply db.state = rt.apply th (updates.apply db.state) := by
  obtain ⟨hn,hg⟩ := apply_write_set_ok h
  have hk : ∀ s k os, written rt updates db s k = some os → ¬ os.Nil := by
    intro s k os hw
    obtain ⟨ck,_,ho⟩ := bind_eq_some_iff.mp hw
    exact hn ck os ho
  constructor
  · intro s k vv hvv
    rw [hg,or_eq_some_iff] at hvv
    rcases hvv with hw | ⟨_,hvv⟩
    · obtain ⟨os,ho,rfl⟩ := map_eq_some_iff.mp hw
      intro hv
      rw [entry,if_pos (entry_delete (hk s k os ho) hv)]
    · exact hc s k vv hvv
  · funext s k
    rw [apply,apply_eq_latest (b := updates)]
    rcases written_once hb o updates db s k with ⟨hw,hm,hno⟩ | ⟨ha,hso⟩
    · have hs : us'.get s k = updates.get s k := by rw [hg,hno]; rfl
      rw [hw,hm,apply_eq_latest,latest,hs]
      rfl
    · have he := entry_once th (latest updates db s k) _ _ ha
      rw [← hso] at he
      cases ho : written rt updates db s k with
      | none =>
        rw [ho] at he
        have hs : us'.get s k = updates.get s k := by rw [hg,ho]; rfl
        rw [effect_none he.symm,apply_eq_latest,latest,hs]
        rfl
      | some os =>
        rw [ho] at he
        have hen : us'.get s k = some (os.entry th) := by rw [hg,ho]; rfl
        have hd : os.isDelete = (rt.valuesAt s k).head?.elim false Prod.fst := by
          rw [← is_delete_once _ (rt.metadataAt s k).head?,KeyOps.isDelete,
            merge_flag (hso.symm.trans ho)]
          rfl
        rw [Batch.apply_some hen,effect_some he.symm]
        · intro hv
          rw [← hd]
          exact entry_delete (hk s k os ho) hv
        · rw [latest_metadata hc,apply_eq_latest]

theorem written_nil (updates : Batch) (db : Db) (hn : rt.WritesNamed) (o : rt.WritesOnce)
    (h : (rt.valuesAt s k).head? = some (false,[]) ∨ (rt.valuesAt s k).head? = none ∧
      (rt.metadataAt s k).head? ≠ none ∧ ∃ vv, latest updates db s k = some vv ∧ vv.value = []) :
    ∃ ops, written rt updates db s k = some ops ∧ ops.Nil := by
  have hk : (rt.valuesAt s k).head?.elim false Prod.fst = false := by
    rcases h with h | ⟨h,_⟩ <;> rw [h] <;> rfl
  rcases written_once hn o updates db s k with ⟨hv,hm,_⟩ | ⟨han,hs⟩
  · rcases h with h | ⟨_,hme,_⟩
    · rw [hv] at h
      cases h
    · exact absurd hm hme
  have he := entry_once ⟨0,0⟩ (latest updates db s k) _ _ han
  rw [← hs] at he
  have heff : ∃ vv, effect ⟨0,0⟩ (latest updates db s k) (rt.valuesAt s k).head?
      (rt.metadataAt s k).head? = some vv ∧ vv.value = [] := by
    rcases h with h | ⟨h,hme,vv,hl,hv⟩
    · rw [h]
      cases (rt.metadataAt s k).head? <;> exact ⟨_,rfl,rfl⟩
    · obtain ⟨entries,hen⟩ := ne_none_iff_exists'.mp hme
      rw [h,hen,hl]
      exact ⟨_,rfl,hv⟩
  obtain ⟨vv,hvv,hval⟩ := heff
  rw [hvv] at he
  obtain ⟨ops,hw,rfl⟩ := map_eq_some_iff.mp he
  have hd : ops.isDelete = false := by
    rw [← hk,← is_delete_once _ (rt.metadataAt s k).head?,KeyOps.isDelete,KeyOps.isDelete,
      merge_flag (hs.symm.trans hw)]
  refine ⟨ops,hw,hd,?_⟩
  rwa [entry,hd] at hval

/-- A value that is no delete is there, and metadata alone goes to no key that the batch deletes. -/
structure TxRwSet.Mergeable (rwset : TxRwSet) (updates : Batch) : Prop where
  valued : ∀ a ∈ rwset.writes, a.item.isDelete = false → a.item.value ≠ []
  live : ∀ s k vv, (rwset.valuesAt s k).head? = none → (rwset.metadataAt s k).head? ≠ none →
    updates.get s k = some vv → vv.value ≠ []

theorem TxRwSet.WritesOnce.head {rwset : TxRwSet} (o : rwset.WritesOnce) (ha : a ∈ rwset.writes) :
    (rwset.valuesAt a.space a.item.key).head? = some (a.item.isDelete,a.item.value) := by
  have hm : (a.item.isDelete,a.item.value) ∈ rwset.valuesAt a.space a.item.key :=
    mem_filterMap.mpr ⟨a,ha,if_pos ⟨rfl,rfl⟩⟩
  rw [o.values_at] at hm
  exact Option.mem_toList.mp hm

def sampleDb : Db := emptyDb.applyUpdates ((((∅ : Batch).update (.pub [97]) [1]
  ⟨[5],[⟨[8],[9]⟩],⟨1,0⟩⟩).update (.pub [97]) [4] ⟨[6],[],⟨1,1⟩⟩).update (.pub [97]) [5]
  ⟨[7],[],⟨1,1⟩⟩)

theorem processed_applied (h : Processed H db (fun _ => false) dm num tx updates t co updates' t') :
    co ≠ .valid ∧ updates' = updates ∨ co = .valid ∧
        (applyWriteSet updates tx.rwset ⟨num,tx.indexInBlock⟩ db).result = .ok updates' := by
  cases h with
  | invalid _ _ invalid => exact .inl ⟨invalid,rfl⟩
  | applied _ _ applied =>
    rw [run_quiet] at applied
    exact .inr ⟨rfl,congrArg Prod.fst applied⟩
  | dropped _ _ dropped =>
    rw [run_quiet] at dropped
    exact absurd (congrArg Prod.fst dropped) apply_write_set_read

theorem processed_validated
    (h : Processed H db (fun _ => false) true num tx updates t code us' t') :
    (validateTx H db updates tx.rwset).result = .ok code := by
  cases h with
  | invalid _ va | applied _ va | dropped _ va =>
    rw [run_quiet] at va
    exact congrArg Prod.fst va

theorem Validated.split {be af : List Transaction}
    (h : Validated H db f dm num updates t (be ++ af) final cs) :
    ∃ mi t' cb codesAfter, cs = cb ++ codesAfter ∧ cb.length = be.length ∧
      Validated H db f dm num updates t be mi cb ∧
      Validated H db f dm num mi t' af final codesAfter := by
  induction be generalizing updates t cs with
  | nil => exact ⟨updates,t,[],cs,rfl,rfl,.nil,h⟩
  | cons tx be ih =>
    cases h with
    | cons first re =>
      obtain ⟨mi,t',cb,codesAfter,rfl,hl,hb,ha⟩ := ih re
      exact ⟨mi,t',_ :: cb,codesAfter,rfl,congrArg Nat.succ hl,.cons first hb,ha⟩

theorem Validated.length (h : Validated H db f dm num updates t txs final cs) :
    cs.length = txs.length := by
  induction h with
  | nil => rfl
  | cons _ _ ih => exact congrArg Nat.succ ih

theorem Validated.valid_state (h : Validated H db (fun _ => false) dm num updates t ts f cs)
    (hb : ∀ p ∈ ts.zip cs, p.2 = .valid → p.1.rwset.WritesNamed)
    (o : ∀ p ∈ ts.zip cs, p.2 = .valid → p.1.rwset.WritesOnce) (hl : updates.Clean) :
    f.Clean ∧ f.apply db.state = stateAfter num (updates.apply db.state) (ts.zip cs) := by
  induction h with
  | nil => exact ⟨hl,rfl⟩
  | @cons tx updates t co u' t' ts f cs first _ ih =>
    rw [zip_cons_cons] at hb o ⊢
    obtain ⟨hn,hn'⟩ := forall_mem_cons.mp hb
    obtain ⟨ho,ho'⟩ := forall_mem_cons.mp o
    rw [stateAfter,foldl_cons]
    obtain ⟨hi,rfl⟩ | ⟨rfl,ha⟩ := processed_applied first
    · rw [if_neg hi]
      exact ih hn' ho' hl
    obtain ⟨hc,hst⟩ := apply_write_set_state (hn rfl) (ho rfl) hl ha
    rw [if_pos rfl,← hst]
    exact ih hn' ho' hc

theorem Validated.state (h : Validated H db (fun _ => false) true num updates t txs final cs)
    (hn : ∀ tx ∈ txs, tx.rwset.WritesNamed) (o : ∀ tx ∈ txs, tx.rwset.WritesOnce)
    (hc : updates.Clean) :
    final.Clean ∧ final.apply db.state = stateAfter num (updates.apply db.state) (txs.zip cs) :=
  h.valid_state (fun p hp _ => hn p.1 (of_mem_zip hp).1)
    (fun p hp _ => o p.1 (of_mem_zip hp).1) hc

def TxRwSet.Touches (rwset : TxRwSet) (s : Space) (k : Bytes) : Prop :=
  rwset.valuesAt s k ≠ [] ∨ rwset.metadataAt s k ≠ []

theorem Validated.touched (h : Validated H db (fun _ => false) true num updates t ts f cs)
    (hb : ∀ tx ∈ ts, tx.rwset.WritesNamed) (o : ∀ tx ∈ ts, tx.rwset.WritesOnce)
    (hg : f.get s k ≠ none) :
    updates.get s k ≠ none ∨ ∃ p ∈ ts.zip cs, p.2 = .valid ∧ p.1.rwset.Touches s k := by
  induction h with
  | nil => exact .inl hg
  | @cons tx updates t co u' t' ts f cs first _ ih =>
    obtain ⟨hn,hb⟩ := forall_mem_cons.mp hb
    obtain ⟨ho,o⟩ := forall_mem_cons.mp o
    rcases ih hb o hg with hg' | ⟨p,hp,hv⟩
    · obtain ⟨_,rfl⟩ | ⟨rfl,hap⟩ := processed_applied first
      · exact .inl hg'
      rcases written_once hn ho updates db s k with ⟨_,_,hno⟩ | ⟨ha,_⟩
      · rw [(apply_write_set_ok hap).2,hno] at hg'
        exact .inl hg'
      · refine .inr ⟨_,mem_cons_self,rfl,?_⟩
        rwa [Ne,List.head?_eq_none_iff,Ne,List.head?_eq_none_iff] at ha
    · exact .inr ⟨p,mem_cons_of_mem _ hp,hv⟩

/-- All that a transaction read is as it is in the state. What a range query recorded are its results
there, up to a collision of the hashes of the two. -/
structure TxRwSet.HoldsIn (H : HashFunc) (rwset : TxRwSet) (state : State) : Prop where
  versions : ∀ a ∈ rwset.reads,
    (state a.space a.item.key).map VersionedValue.version = a.item.version
  queries : ∀ q ∈ rwset.rangeQueries, ∃ results,
    Rerun state q.1 q.2.startKey q.2.endKey (!q.2.itrExhausted) results ∧
      Records H q.2.readsInfo results ∧
      ∀ recorded, Records H q.2.readsInfo recorded →
        recorded = results ∨ HashCollision H q.2.readsInfo recorded results

/-- A key that was read was touched in the block or has another committed version, or a range
query has other results. -/
def TxRwSet.Conflicts (H : HashFunc) (rwset : TxRwSet) (committed state : State)
    (before : List (Transaction × TxValidationCode)) : Prop :=
  (∃ a ∈ rwset.reads, (∃ p ∈ before, p.2 = .valid ∧ p.1.rwset.Touches a.space a.item.key) ∨
    (committed a.space a.item.key).map VersionedValue.version ≠ a.item.version) ∨
  ∃ q ∈ rwset.rangeQueries, ∃ results,
    Rerun state q.1 q.2.startKey q.2.endKey (!q.2.itrExhausted) results ∧
      ¬ Records H q.2.readsInfo results

def Block.stateBefore (blk : Block) (committed : State) (codes : List TxValidationCode) (i : Nat) :
    State :=
  stateAfter blk.num committed ((blk.txs.zip codes).take i)

theorem valid_holds (h : (validateTx H db updates rt).result = .ok .valid) :
    rt.HoldsIn H (updates.apply db.state) := by
  obtain ⟨hrd,hqu⟩ := validate_tx_valid.mp h
  constructor
  · intro a ha
    obtain ⟨hg,hv⟩ := hrd a ha
    rw [Batch.apply_none hg]
    exact hv
  · intro q hq
    obtain ⟨rs,hre,⟨_,hrc⟩ | ⟨hf,_⟩ | ⟨ca,he,_⟩⟩ :=
      range_query_outcome H db updates q.1 q.2
    · exact ⟨rs,hre,hrc,fun _ hr => hr.unique hrc⟩
    · exact absurd ((hqu q hq).symm.trans hf) (by simp)
    · exact absurd ((hqu q hq).symm.trans he) (by simp)

theorem invalid_conflicts (h : (validateTx H db updates rt).result = .ok co) (hi : co ≠ .valid)
    (hd : ∀ s k, updates.get s k ≠ none → ∃ p ∈ before, p.2 = .valid ∧ p.1.rwset.Touches s k) :
    rt.Conflicts H db.state (updates.apply db.state) before := by
  rcases validate_tx_invalid h hi with ⟨a,ha,hn⟩ | ⟨q,hq,hf⟩
  · refine .inl ⟨a,ha,?_⟩
    by_cases hg : updates.get a.space a.item.key = none
    · exact .inr fun hv => hn ⟨hg,hv⟩
    · exact .inl (hd _ _ hg)
  · obtain ⟨rs,hre,⟨ht,_⟩ | ⟨_,hr⟩ | ⟨ca,he,_⟩⟩ :=
      range_query_outcome H db updates q.1 q.2
    · exact absurd (hf.symm.trans ht) (by simp)
    · exact .inr ⟨q,hq,rs,hre,hr.1⟩
    · exact absurd (hf.symm.trans he) (by simp)

/-- What MVCC validation is to come to: whoever is valid has read the state before it, whoever is not
has a conflict, and the batch leads to the state after the valid transactions. -/
structure Serialized (H : HashFunc) (db : Db) (blk : Block) (batch : Batch)
    (codes : List TxValidationCode) : Prop where
  length : codes.length = blk.txs.length
  valid : ∀ (i : Nat) (tx : Transaction), blk.txs[i]? = some tx → codes[i]? = some .valid →
    tx.rwset.HoldsIn H (blk.stateBefore db.state codes i)
  invalid : ∀ (i : Nat) (tx : Transaction) (code : TxValidationCode), blk.txs[i]? = some tx →
    codes[i]? = some code → code ≠ .valid →
    tx.rwset.Conflicts H db.state (blk.stateBefore db.state codes i) ((blk.txs.zip codes).take i)
  state : (db.applyUpdates batch).state = blk.stateBefore db.state codes blk.txs.length

section
variable {blk : Block}

theorem named_serialized (named : ∀ tx ∈ blk.txs, tx.rwset.WritesNamed)
    (once : ∀ tx ∈ blk.txs, tx.rwset.WritesOnce)
    (prepared : validateAndPrepareBatch H db (fun _ => false) true blk = .ok (batch,codes)) :
    Serialized H db blk batch codes := by
  obtain ⟨t,hr⟩ := prepare_batch_validated prepared
  have hc : Batch.Clean ∅ := fun s k vv h => nomatch h
  have each : ∀ (i : Nat) (tx : Transaction) (code : TxValidationCode), blk.txs[i]? = some tx →
      codes[i]? = some code →
      (code = .valid → tx.rwset.HoldsIn H (blk.stateBefore db.state codes i)) ∧
      (code ≠ .valid → tx.rwset.Conflicts H db.state (blk.stateBefore db.state codes i)
        ((blk.txs.zip codes).take i)) := by
    intro i tx code htx hco
    obtain ⟨hi,rfl⟩ := List.getElem?_eq_some_iff.mp htx
    have hs : blk.txs = blk.txs.take i ++ blk.txs[i] :: blk.txs.drop (i + 1) := by
      rw [← drop_eq_getElem_cons hi,take_append_drop]
    rw [hs] at hr
    obtain ⟨mi,t',codesBefore,ca,rfl,hl,hb,ha⟩ := hr.split
    rw [length_take_of_le (Nat.le_of_lt hi)] at hl
    have hz : (blk.txs.zip (codesBefore ++ ca)).take i = (blk.txs.take i).zip codesBefore := by
      rw [List.zip,take_zipWith,take_left' hl]
    have n' : ∀ tx ∈ blk.txs.take i, tx.rwset.WritesNamed :=
      fun tx htx => named tx (mem_of_mem_take htx)
    have o' : ∀ tx ∈ blk.txs.take i, tx.rwset.WritesOnce :=
      fun tx htx => once tx (mem_of_mem_take htx)
    have hst : mi.apply db.state = blk.stateBefore db.state (codesBefore ++ ca) i := by
      rw [(hb.state n' o' hc).2,Block.stateBefore,hz]
      rfl
    cases ha with
    | cons first _ =>
      rw [List.getElem?_append_right (Nat.le_of_eq hl),hl,Nat.sub_self] at hco
      cases hco
      have hv := processed_validated first
      rw [← hst,hz]
      constructor
      · rintro rfl
        exact valid_holds hv
      · intro hin
        refine invalid_conflicts hv hin fun s k hg => ?_
        exact (hb.touched n' o' hg).resolve_left fun h => h rfl
  refine ⟨hr.length,fun i tx ht hco => (each i tx _ ht hco).1 rfl,
    fun i tx code ht hco => (each i tx code ht hco).2,?_⟩
  rw [Db.apply_updates_state,(hr.state named once hc).2,Block.stateBefore,take_of_length_le]
  · rfl
  · rw [length_zip]
    exact Nat.min_le_left _ _

/-- Nothing gets into the hashed data of a collection without a name. -/
theorem Validated.unnamed (h : Validated H db (fun _ => false) dm num updates t txs final cs)
    (hu : updates.get (.hashed ns []) k = none) : final.get (.hashed ns []) k = none := by
  induction h with
  | nil => exact hu
  | @cons tx updates t co u' t' ts f cs first _ ih =>
    refine ih ?_
    obtain ⟨_,rfl⟩ | ⟨_,hap⟩ := processed_applied first
    · exact hu
    · have hn : written tx.rwset updates db (.hashed ns []) k = none := rfl
      rw [(apply_write_set_ok hap).2,hn,hu]
      rfl

theorem state_after_untouched {txs : List (Transaction × TxValidationCode)} {state : State}
    (h : ∀ p ∈ txs, p.2 = .valid → ¬ p.1.rwset.Touches s k) :
    stateAfter num state txs s k = state s k := by
  induction txs generalizing state with
  | nil => rfl
  | cons p txs ih =>
    obtain ⟨hp,h⟩ := forall_mem_cons.mp h
    rw [stateAfter,foldl_cons]
    refine (ih h).trans ?_
    split
    · next hv =>
      have hn := hp hv
      rw [Touches,not_or,not_not,not_not] at hn
      rw [apply,hn.1,hn.2]
      rfl
    · rfl

/-- A value that a valid transaction puts in a collection without a name is not in the state after
the block. -/
theorem unnamed_lost (once : ∀ tx ∈ blk.txs, tx.rwset.WritesOnce)
    (prepared : validateAndPrepareBatch H db (fun _ => false) true blk = .ok (batch,codes))
    (split : blk.txs.zip codes = earlier ++ (tx,.valid) :: later)
    (write : ⟨.hashed ns [],w⟩ ∈ tx.rwset.writes) (put : w.isDelete = false)
    (last : ∀ p ∈ later, p.2 = .valid → ¬ p.1.rwset.Touches (.hashed ns []) w.key)
    (other : (db.state (.hashed ns []) w.key).map VersionedValue.version ≠
      some ⟨blk.num,tx.indexInBlock⟩) : ¬ Serialized H db blk batch codes := by
  intro hs
  obtain ⟨t,hr⟩ := prepare_batch_validated prepared
  have hg : batch.get (.hashed ns []) w.key = none := hr.unnamed rfl
  have hst := congrFun (congrFun hs.state (.hashed ns [])) w.key
  have htx : tx ∈ blk.txs := by
    have hm : (tx,TxValidationCode.valid) ∈ blk.txs.zip codes := by
      rw [split]
      simp
    exact (of_mem_zip hm).1
  rw [Db.apply_updates_state,Batch.apply_none hg,Block.stateBefore,take_of_length_le (by
    rw [length_zip]; exact Nat.min_le_left _ _),split,stateAfter,foldl_append,foldl_cons,
    ← stateAfter,state_after_untouched last,if_pos rfl,apply,(once tx htx).head write,put] at hst
  rw [hst] at other
  refine other ?_
  cases (tx.rwset.metadataAt (.hashed ns []) w.key).head? <;> rfl

end

def noRwSet : KVRWSet := ⟨[],[],[],[]⟩

/-- The first transaction has a query with all its results and one with the hash of its results. -/
def sampleBlock : Block where
  num := 2
  txs := [
    ⟨0,⟨[⟨[97],⟨[⟨[1],some ⟨1,0⟩⟩],[⟨[1],[3],true,.rawReads [⟨[1],some ⟨1,0⟩⟩]⟩,
        ⟨[1],[9],true,.readsMerkleHashes ⟨2,1,[[1,4,5]]⟩⟩],
      [⟨[2],false,[7]⟩],[⟨[1],[⟨[5],[6]⟩]⟩]⟩,[⟨[98],⟨[⟨[4],none⟩],[⟨[4],false,[9]⟩],[]⟩,[]⟩]⟩]⟩⟩,
    ⟨1,⟨[⟨[97],⟨[⟨[1],some ⟨1,0⟩⟩],[],[⟨[3],false,[8]⟩],[]⟩,[]⟩]⟩⟩,
    ⟨2,⟨[⟨[97],⟨[],[⟨[],[2],false,.rawReads [⟨[1],some ⟨2,0⟩⟩,⟨[2],some ⟨2,0⟩⟩]⟩],
      [⟨[1],true,[]⟩],[]⟩,[]⟩]⟩⟩]
  indexed := by decide

def unnamedBlock : Block where
  num := 1
  txs := [
    ⟨0,⟨[⟨[97],noRwSet,[⟨[],⟨[],[⟨[1],false,[2]⟩],[]⟩,[]⟩]⟩]⟩⟩,
    ⟨1,⟨[⟨[97],noRwSet,[⟨[],⟨[⟨[1],none⟩],[],[]⟩,[]⟩]⟩]⟩⟩]
  indexed := by decide

end PluggableHcs.Txmgmt
