import PluggableHcs.Lib.Maps
import PluggableHcs.Txmgmt.RwSet

namespace PluggableHcs.Txmgmt
open Readings Tables List

structure CompositeKey where
  ns : Bytes
  coll : Bytes
  key : Bytes
deriving DecidableEq

/-- A key without a collection is a public one. -/
def CompositeKey.space (ck : CompositeKey) : Space :=
  if ck.coll = [] then .pub ck.ns else .hashed ck.ns ck.coll

def Space.compositeKey (s : Space) (key : Bytes) : Option CompositeKey :=
  match s with
  | .pub ns => some ⟨ns,[],key⟩
  | .hashed ns coll => if coll = [] then none else some ⟨ns,coll,key⟩
  | .pvt _ _ => none

theorem composite_key_iff {ck : CompositeKey} :
    s.compositeKey k = some ck ↔ ck.space = s ∧ ck.key = k := by
  obtain ⟨ns,co,ke⟩ := ck
  unfold Space.compositeKey CompositeKey.space
  cases s with
  | pub n' => by_cases hc : co = [] <;> simp [hc,eq_comm]
  | hashed n' c' =>
    by_cases hc : co = []
    · by_cases hc' : c' = [] <;> simp [hc,hc']
    by_cases hc' : c' = []
    · simp [hc,hc']
    · simp only [if_neg hc',if_neg hc,Option.some.injEq,CompositeKey.mk.injEq,Space.hashed.injEq]
      exact ⟨fun h => ⟨⟨h.1.symm,h.2.1.symm⟩,h.2.2.symm⟩,fun h => ⟨h.1.1.symm,h.1.2.symm,h.2.symm⟩⟩
  | pvt n' c' => by_cases hc : co = [] <;> simp [hc]

def upsertVal : UInt8 := 1

def metadataUpdate : UInt8 := 2

def metadataDelete : UInt8 := 4

def keyDelete : UInt8 := 8

structure KeyOps where
  flag : UInt8
  value : Bytes
  metadata : List MetadataEntry
deriving DecidableEq

inductive Op where
  | write (isDelete : Bool) (value : Bytes)
  | metadata (entries : List MetadataEntry)
deriving DecidableEq

namespace KeyOps

variable (ops : KeyOps)

def isDelete : Bool := ops.flag &&& keyDelete = keyDelete

def isUpsertAndMetadataUpdate : Bool :=
  if ops.flag &&& upsertVal = upsertVal then
    ops.flag &&& metadataUpdate = metadataUpdate || ops.flag &&& metadataDelete = metadataDelete
  else false

def isOnlyUpsert : Bool := ops.flag ||| upsertVal = upsertVal

def init : KeyOps := ⟨0,[],[]⟩

/-- The flags are added up. -/
def record : Op → KeyOps
  | .write true _ => { ops with flag := ops.flag + keyDelete }
  | .write false value => { ops with flag := ops.flag + upsertVal, value := value }
  | .metadata [] => { ops with flag := ops.flag + metadataDelete }
  | .metadata entries => { ops with flag := ops.flag + metadataUpdate, metadata := entries }

/-- The state of the key is completed from its last entry. A key that has no value and gets none is
left out. -/
def merge (latest : Option VersionedValue) : Option KeyOps :=
  if ops.isDelete || ops.isUpsertAndMetadataUpdate then some ops
  else if ops.isOnlyUpsert then
    some { ops with metadata := latest.elim [] VersionedValue.metadata }
  else latest.map fun vv => { ops with value := vv.value }

def entry (txHeight : Height) : VersionedValue :=
  if ops.isDelete then ⟨[],[],txHeight⟩ else ⟨ops.value,ops.metadata,txHeight⟩

end KeyOps

inductive Merging where
  | delete
  | both
  | value
  | metadata
deriving DecidableEq

def KeyOps.merging (ops : KeyOps) : Merging :=
  if ops.isDelete then .delete
  else if ops.isUpsertAndMetadataUpdate then .both
  else if ops.isOnlyUpsert then .value
  else .metadata

theorem merge_entry (os : KeyOps) (l : Option VersionedValue) (th : Height) :
    (os.merge l).map (KeyOps.entry · th) = match os.merging with
      | .delete => some ⟨[],[],th⟩
      | .both => some ⟨os.value,os.metadata,th⟩
      | .value => some ⟨os.value,l.elim [] VersionedValue.metadata,th⟩
      | .metadata => l.map fun vv => ⟨vv.value,os.metadata,th⟩ := by
  obtain ⟨f,va,me⟩ := os
  unfold KeyOps.merge KeyOps.merging KeyOps.entry
  cases hd : KeyOps.isDelete ⟨f,va,me⟩ with
  | true => simp [hd]
  | false =>
    cases hu : KeyOps.isUpsertAndMetadataUpdate ⟨f,va,me⟩ with
    | true => simp [hd]
    | false =>
      cases ho : KeyOps.isOnlyUpsert ⟨f,va,me⟩ with
      | true =>
        have : ∀ md, KeyOps.isDelete ⟨f,va,md⟩ = false := fun _ => hd
        simp [this]
      | false =>
        have : ∀ v, KeyOps.isDelete ⟨f,v,me⟩ = false := fun _ => hd
        simp [this,Function.comp_def]

theorem merge_flag {os o' : KeyOps} {l : Option VersionedValue} (h : os.merge l = some o') :
    o'.flag = os.flag := by
  unfold KeyOps.merge at h
  split at h
  · cases h
    rfl
  split at h
  · cases h
    rfl
  · obtain ⟨vv,_,rfl⟩ := Option.map_eq_some_iff.mp h
    rfl

abbrev TxOps := AList fun _ : CompositeKey => KeyOps

namespace TxRwSet

def operations (rwset : TxRwSet) : List (CompositeKey × Op) :=
  rwset.nsRwSets.flatMap fun n =>
    n.kvRwSet.writes.map (fun w => (⟨n.nameSpace,[],w.key⟩,.write w.isDelete w.value)) ++
    n.kvRwSet.metadataWrites.map (fun w => (⟨n.nameSpace,[],w.key⟩,.metadata w.entries)) ++
    n.collHashedRwSets.flatMap fun c =>
      c.hashedRwSet.hashedWrites.map (fun w =>
        (⟨n.nameSpace,c.collectionName,w.keyHash⟩,.write w.isDelete w.valueHash)) ++
      c.hashedRwSet.metadataWrites.map fun w =>
        (⟨n.nameSpace,c.collectionName,w.keyHash⟩,.metadata w.entries)

def operationsOn (rwset : TxRwSet) (ck : CompositeKey) : List Op :=
  (rwset.operations.filter fun o => o.1 = ck).map Prod.snd

end TxRwSet

namespace TxOps

def record (txops : TxOps) (o : CompositeKey × Op) : TxOps :=
  txops.insert o.1 (((txops.lookup o.1).getD KeyOps.init).record o.2)

def applyTxRwset (rwset : TxRwSet) : TxOps := rwset.operations.foldl record ∅

theorem lookup_foldl (os : List (CompositeKey × Op)) (ts : TxOps) (ck : CompositeKey) :
    (os.foldl record ts).lookup ck = match (os.filter fun o => o.1 = ck).map Prod.snd with
      | [] => ts.lookup ck
      | ops => some (ops.foldl KeyOps.record ((ts.lookup ck).getD .init)) := by
  induction os generalizing ts with
  | nil => rfl
  | cons o os ih =>
    rw [foldl_cons,ih]
    by_cases hck : o.1 = ck
    · subst hck
      rw [filter_cons_of_pos (by simp),map_cons,record,AList.lookup_insert]
      cases (os.filter fun o' => o'.1 = o.1).map Prod.snd <;> rfl
    · rw [filter_cons_of_neg (by simpa using hck),record,
        AList.lookup_insert_ne fun heq => hck heq.symm]

theorem lookup_apply_tx_rwset (rt : TxRwSet) (ck : CompositeKey) :
    (applyTxRwset rt).lookup ck = if rt.operationsOn ck = [] then none
      else some ((rt.operationsOn ck).foldl KeyOps.record .init) := by
  rw [applyTxRwset,lookup_foldl,TxRwSet.operationsOn,AList.lookup_empty]
  cases (rt.operations.filter fun o => o.1 = ck).map Prod.snd <;> simp

end TxOps

section
variable (updates : Batch) (db : Db)

def retrieveLatestMetadata (s : Space) (k : Bytes) : Reading Failure (List MetadataEntry) :=
  match updates.get s k with
  | some vv => pure vv.metadata
  | none => db.getStateMetadata s k

def KeyOps.prepare (ck : CompositeKey) (ops : KeyOps) : Reading Failure (Option KeyOps) :=
  if ops.isDelete || ops.isUpsertAndMetadataUpdate then pure (some ops)
  else if ops.isOnlyUpsert then do
    let latestMetadata ← retrieveLatestMetadata updates db ck.space ck.key
    pure (some { ops with metadata := latestMetadata })
  else do
    match ← retrieveLatest updates db ck.space ck.key with
    | some latestVal => pure (some { ops with value := latestVal.value })
    | none => pure none

def prepareTxOps (rwset : TxRwSet) : Reading Failure (List ((_ : CompositeKey) × KeyOps)) :=
  collect (fun e => do
    let ops ← e.2.prepare updates db e.1
    pure (ops.map fun ops => ⟨e.1,ops⟩)) (TxOps.applyTxRwset rwset).entries

variable {updates db}

theorem retrieve_latest_metadata_result : (retrieveLatestMetadata updates db s k).result =
      .ok ((latest updates db s k).elim [] VersionedValue.metadata) := by
  unfold retrieveLatestMetadata latest
  cases updates.get s k with
  | some vv => rfl
  | none => exact Db.get_state_metadata_result

theorem prepare_result {os : KeyOps} :
    (os.prepare updates db ck).result = .ok (os.merge (latest updates db ck.space ck.key)) := by
  unfold KeyOps.prepare KeyOps.merge
  split
  · rfl
  split
  · rw [result_bind_ok retrieve_latest_metadata_result]
    rfl
  · rw [result_bind_ok retrieve_latest_result]
    cases latest updates db ck.space ck.key <;> rfl

def finalOps (rwset : TxRwSet) (updates : Batch) (db : Db) (ck : CompositeKey) : Option KeyOps :=
  ((TxOps.applyTxRwset rwset).lookup ck).bind fun ops =>
    ops.merge (latest updates db ck.space ck.key)

theorem prepare_tx_ops_result (updates : Batch) (db : Db) (rt : TxRwSet) :
    ∃ ts, (prepareTxOps updates db rt).result = .ok ts ∧ ts.NodupKeys ∧
      ∀ ck, ts.dlookup ck = finalOps rt updates db ck := by
  have hk : (prepareTxOps updates db rt).result =
      .ok (Maps.keep (fun ck os => os.merge (latest updates db ck.space ck.key))
        (TxOps.applyTxRwset rt).entries) :=
    collect_ok fun e _ => result_bind_ok prepare_result
  refine ⟨_,hk,?_,?_⟩
  · exact Maps.keep_keys.nodup (TxOps.applyTxRwset rt).nodupKeys
  · intro ck
    exact Maps.keep_lookup (TxOps.applyTxRwset rt).nodupKeys

end

def applyOps (txHeight : Height) : List ((_ : CompositeKey) × KeyOps) → Batch → Reading Failure Batch
  | [],updates => pure updates
  | ⟨ck,ops⟩ :: rest,updates => do
    let updates' ← if ops.isDelete then pure (updates.delete ck.space ck.key txHeight)
      else updates.putValAndMetadata ck.space ck.key ops.value ops.metadata txHeight
    applyOps txHeight rest updates'

def applyWriteSet (updates : Batch) (rwset : TxRwSet) (txHeight : Height) (db : Db) :
    Reading Failure Batch := do
  let txops ← prepareTxOps updates db rwset
  applyOps txHeight txops updates

/-- A value that is not there is about to be put. -/
def KeyOps.Nil (ops : KeyOps) : Prop := ops.isDelete = false ∧ ops.value = []

theorem apply_ops_cons {us : Batch} (ho : ¬ ops.Nil) (re : List ((_ : CompositeKey) × KeyOps)) :
    (applyOps th (⟨ck,ops⟩ :: re) us).result =
      (applyOps th re (us.update ck.space ck.key (ops.entry th))).result := by
  rw [applyOps,KeyOps.entry]
  cases hd : ops.isDelete with
  | true => rfl
  | false =>
    have hv : ops.value ≠ [] := fun h => ho ⟨hd,h⟩
    simp [Batch.putValAndMetadata,hv]

theorem apply_ops_result {ts : List ((_ : CompositeKey) × KeyOps)} (hks : ts.NodupKeys)
    (us : Batch) (th : Height) :
    (applyOps th ts us).result = .error (.panic .nilValue) ∧
      (∃ ck os, ts.dlookup ck = some os ∧ os.Nil) ∨
    ∃ u', (applyOps th ts us).result = .ok u' ∧ (∀ ck os, ts.dlookup ck = some os → ¬ os.Nil) ∧
      ∀ s k, u'.get s k =
        (((s.compositeKey k).bind fun ck => ts.dlookup ck).map (KeyOps.entry · th)).or
          (us.get s k) := by
  induction ts generalizing us with
  | nil =>
    refine .inr ⟨us,rfl,?_,?_⟩
    · intro ck os h
      cases h
    · intro s k
      cases s.compositeKey k <;> rfl
  | cons e re ih =>
    obtain ⟨ck,os⟩ := e
    obtain ⟨hck,hr⟩ := nodupKeys_cons.mp hks
    by_cases ho : os.Nil
    · exact .inl ⟨by simp [applyOps,Batch.putValAndMetadata,ho.1,ho.2],ck,os,dlookup_cons_eq _ _ _,ho⟩
    rw [apply_ops_cons ho]
    have hlk : ∀ ck', List.dlookup ck' (⟨ck,os⟩ :: re) =
        if ck' = ck then some os else re.dlookup ck' := by
      intro ck'
      by_cases hne : ck' = ck
      · subst hne
        rw [dlookup_cons_eq,if_pos rfl]
      · rw [if_neg hne]
        exact dlookup_cons_ne _ _ hne
    have hn : re.dlookup ck = none := dlookup_eq_none.mpr hck
    rcases ih hr (us.update ck.space ck.key (os.entry th)) with
      ⟨hp,ck',o',hl,hni⟩ | ⟨u',hok,hno,hg⟩
    · refine .inl ⟨hp,ck',o',?_,hni⟩
      rw [hlk,if_neg fun heq => by rw [heq,hn] at hl; cases hl]
      exact hl
    · refine .inr ⟨u',hok,?_,?_⟩
      · intro ck' o' hl
        rw [hlk] at hl
        split at hl
        · exact Option.some.inj hl ▸ ho
        · exact hno ck' o' hl
      · intro s k
        rw [hg,Batch.get_update]
        cases hke : s.compositeKey k with
        | none =>
          rw [if_neg]
          · rfl
          · rintro ⟨rfl,rfl⟩
            rw [composite_key_iff.mpr ⟨rfl,rfl⟩] at hke
            cases hke
        | some ck' =>
          obtain ⟨rfl,rfl⟩ := composite_key_iff.mp hke
          rw [Option.bind_some,Option.bind_some,hlk]
          by_cases heq : ck' = ck
          · subst heq
            rw [if_pos rfl,if_pos ⟨rfl,rfl⟩,hn]
            rfl
          · rw [if_neg heq,if_neg]
            rintro ⟨hs,hk⟩
            have := composite_key_iff.mpr ⟨hs.symm,hk.symm⟩
            rw [hke] at this
            exact heq (Option.some.inj this)

def written (rwset : TxRwSet) (updates : Batch) (db : Db) (s : Space) (k : Bytes) : Option KeyOps :=
  (s.compositeKey k).bind (finalOps rwset updates db)

theorem apply_write_set_result (us : Batch) (rt : TxRwSet) (th : Height) (db : Db) :
    (applyWriteSet us rt th db).result = .error (.panic .nilValue) ∧
      (∃ ck os, finalOps rt us db ck = some os ∧ os.Nil) ∨
    ∃ u', (applyWriteSet us rt th db).result = .ok u' ∧
      (∀ ck os, finalOps rt us db ck = some os → ¬ os.Nil) ∧
      ∀ s k, u'.get s k = ((written rt us db s k).map (KeyOps.entry · th)).or (us.get s k) := by
  obtain ⟨ts,hp,hk,hlk⟩ := prepare_tx_ops_result us db rt
  have := apply_ops_result hk us th
  simp only [hlk] at this
  rw [applyWriteSet,result_bind_ok hp]
  exact this

theorem apply_write_set_ok (h : (applyWriteSet updates rt th db).result = .ok us') :
    (∀ ck os, finalOps rt updates db ck = some os → ¬ os.Nil) ∧ ∀ s k, us'.get s k =
        ((written rt updates db s k).map (KeyOps.entry · th)).or (updates.get s k) := by
  rcases apply_write_set_result updates rt th db with ⟨hp,_⟩ | ⟨u,hok,hn,hg⟩
  · exact absurd (hp.symm.trans h) (by simp)
  · obtain rfl := Except.ok.inj (hok.symm.trans h)
    exact ⟨hn,hg⟩

theorem apply_write_set_read : (applyWriteSet updates rt th db).result ≠ .error .database := by
  rcases apply_write_set_result updates rt th db with ⟨hp,_⟩ | ⟨u,hok,_⟩
  · rw [hp]
    simp
  · rw [hok]
    simp

theorem entry_version (os : KeyOps) (txHeight : Height) :
    (os.entry txHeight).version = txHeight := by
  unfold KeyOps.entry
  split <;> rfl

theorem apply_write_set_nil (h : finalOps rt updates db ck = some ops) (hn : ops.Nil) :
    (applyWriteSet updates rt th db).result = .error (.panic .nilValue) := by
  rcases apply_write_set_result updates rt th db with ⟨hp,_⟩ | ⟨_,_,hno,_⟩
  · exact hp
  · exact absurd hn (hno ck ops h)

end PluggableHcs.Txmgmt
