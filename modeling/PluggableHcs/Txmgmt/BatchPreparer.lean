import Mathlib.Data.List.Dedup
import PluggableHcs.Txmgmt.Validator

namespace PluggableHcs.Txmgmt
open Readings List Option

/-- What is computed elsewhere: SHA-256, hashes of Merkle trees, the decoding of a private
read/write set, and what the state database says of a key and a value. -/
structure Primitives where
  computeHash : Bytes → Bytes
  hashFunc : HashFunc
  unmarshalKVRWSet : Bytes → Option KVRWSet
  validateKeyValue : Bytes → Bytes → Bool

structure CollectionPvtReadWriteSet where
  collectionName : Bytes
  rwset : Bytes

structure NsPvtReadWriteSet where
  nameSpace : Bytes
  collectionPvtRwset : List CollectionPvtReadWriteSet

structure TxPvtData where
  seqInBlock : Nat
  writeSet : List NsPvtReadWriteSet

structure CollPvtRwSet where
  collectionName : Bytes
  kvRwSet : KVRWSet

structure NsPvtRwSet where
  nameSpace : Bytes
  collPvtRwSets : List CollPvtRwSet

structure TxPvtRwSet where
  nsPvtRwSet : List NsPvtRwSet

/-- A private key. -/
structure CollKey where
  ns : Bytes
  coll : Bytes
  key : Bytes
deriving DecidableEq

def CollKey.space (k : CollKey) : Space := .pvt k.ns k.coll

def CollKey.hashSpace (k : CollKey) : Space := .hashed k.ns k.coll

def Space.collKey (s : Space) (key : Bytes) : Option CollKey :=
  match s with
  | .pvt ns coll => some ⟨ns,coll,key⟩
  | .pub _ | .hashed _ _ => none

theorem coll_key_iff {k : CollKey} : s.collKey key = some k ↔ k.space = s ∧ k.key = key := by
  obtain ⟨ns,co,k'⟩ := k
  cases s <;> simp [Space.collKey,CollKey.space,eq_comm,and_assoc]

theorem coll_key_self (k : CollKey) : k.space.collKey k.key = some k := rfl

structure PvtWrite where
  key : CollKey
  isDelete : Bool
  value : Bytes

/-- A value that is not there is about to be put. -/
def PvtWrite.Nil (w : PvtWrite) : Prop := w.isDelete = false ∧ w.value = []
deriving Decidable

def PvtWrite.entry (w : PvtWrite) (ver : Height) : VersionedValue :=
  if w.isDelete then ⟨[],[],ver⟩ else ⟨w.value,[],ver⟩

namespace TxPvtRwSet

def writes (p : TxPvtRwSet) : List PvtWrite :=
  p.nsPvtRwSet.flatMap fun n => n.collPvtRwSets.flatMap fun c =>
    c.kvRwSet.writes.map fun w => ⟨⟨n.nameSpace,c.collectionName,w.key⟩,w.isDelete,w.value⟩

def metadataKeys (p : TxPvtRwSet) : List CollKey :=
  p.nsPvtRwSet.flatMap fun n => n.collPvtRwSets.flatMap fun c =>
    c.kvRwSet.metadataWrites.map fun w => ⟨n.nameSpace,c.collectionName,w.key⟩

end TxPvtRwSet

namespace TxRwSet

def containsPvtWrites (rwset : TxRwSet) : Bool :=
  rwset.nsRwSets.any fun n => n.collHashedRwSets.any fun c => !c.pvtRwSetHash.isEmpty

def retrieveHash (rwset : TxRwSet) (ns coll : Bytes) : Bytes :=
  (rwset.nsRwSets.findSome? fun n =>
    if n.nameSpace = ns then
      (n.collHashedRwSets.find? fun c => c.collectionName = coll).map CollHashedRwSet.pvtRwSetHash
    else none).getD []

end TxRwSet

section
variable (x : Primitives)

def collPvtRwSetFromProtoMsg (c : CollectionPvtReadWriteSet) : Option CollPvtRwSet :=
  (x.unmarshalKVRWSet c.rwset).map (⟨c.collectionName,·⟩)

def nsPvtRwSetFromProtoMsg (n : NsPvtReadWriteSet) : Option NsPvtRwSet :=
  (n.collectionPvtRwset.mapM (collPvtRwSetFromProtoMsg x)).map (⟨n.nameSpace,·⟩)

def txPvtRwSetFromProtoMsg (p : TxPvtData) : Option TxPvtRwSet :=
  (p.writeSet.mapM (nsPvtRwSetFromProtoMsg x)).map (⟨·⟩)

def TxPvtData.collections (p : TxPvtData) : List (Bytes × CollectionPvtReadWriteSet) :=
  p.writeSet.flatMap fun n => n.collectionPvtRwset.map (n.nameSpace,·)

def validatePvtdata (rwset : TxRwSet) : List
    (Bytes × CollectionPvtReadWriteSet) → Except Failure Unit
  | [] => .ok ()
  | (ns,c) :: rest =>
    let collPvtdataHash := x.computeHash c.rwset
    let hashInPubdata := rwset.retrieveHash ns c.collectionName
    if collPvtdataHash = hashInPubdata then validatePvtdata rwset rest
    else .error (.hashMismatch ns c.collectionName hashInPubdata collPvtdataHash)

def putPvtWrite (ver : Height) (b : Batch) (w : PvtWrite) : Batch :=
  b.update w.key.space w.key.key (w.entry ver)

def addPvtRWSetToPvtUpdateBatch (ver : Height) : List PvtWrite → Batch → Reading Failure Batch
  | [],b => pure b
  | w :: ws,b => do
    let b' ← if w.isDelete then pure (b.delete w.key.space w.key.key ver)
      else b.putValAndMetadata w.key.space w.key.key w.value [] ver
    addPvtRWSetToPvtUpdateBatch ver ws b'

/-- The private data of one transaction: it is checked against the hashes, decoded and put. The keys
whose metadata it writes are kept. -/
def preparePvtTx (num : Nat) (tx : Transaction) (p : TxPvtData) (acc : Batch × List CollKey) :
    Reading Failure (Batch × List CollKey) :=
  match validatePvtdata x tx.rwset p.collections with
  | .error e => raise e
  | .ok _ =>
    match txPvtRwSetFromProtoMsg x p with
    | none => raise .unmarshal
    | some pvtRWSet => do
      let b ← addPvtRWSetToPvtUpdateBatch ⟨num,tx.indexInBlock⟩ pvtRWSet.writes acc.1
      pure (b,acc.2 ++ pvtRWSet.metadataKeys)

def preparePvtTxs (num : Nat) : List (Transaction × TxPvtData) → Batch × List CollKey →
    Reading Failure (Batch × List CollKey)
  | [],acc => pure acc
  | (tx,p) :: rest,acc => do
    let acc' ← preparePvtTx x num tx p acc
    preparePvtTxs num rest acc'

def pvtEntries (blk : Block) (codes : List TxValidationCode) (pvtdata : Nat → Option TxPvtData) :
    List (Transaction × TxPvtData) :=
  (blk.txs.zip codes).filterMap fun e =>
    if e.2 = .valid ∧ e.1.rwset.containsPvtWrites = true then
      (pvtdata e.1.indexInBlock).map (e.1,·)
    else none

variable (hashUpdates : Batch) (db : Db)

def incrementPvtdataVersion (k : CollKey) (b : Batch) : Reading Failure Batch :=
  match hashUpdates.get k.hashSpace (x.computeHash k.key) with
  | none => pure b
  | some hashedVal => do
    match ← retrieveLatest b db k.space k.key with
    | none => pure b
    | some latestVal =>
      if latestVal.version = hashedVal.version then pure b
      else if x.computeHash latestVal.value = hashedVal.value then
        b.putValAndMetadata k.space k.key latestVal.value [] hashedVal.version
      else pure b

def incrementPvtdataVersionIfNeeded : List CollKey → Batch → Reading Failure Batch
  | [],b => pure b
  | k :: ks,b => do
    let b' ← incrementPvtdataVersion x hashUpdates db k b
    incrementPvtdataVersionIfNeeded ks b'

/-- Each key whose metadata was written is looked at once. -/
def validateAndPreparePvtBatch (num : Nat) (entries : List (Transaction × TxPvtData)) :
    Reading Failure Batch := do
  let acc ← preparePvtTxs x num entries (∅,[])
  incrementPvtdataVersionIfNeeded x hashUpdates db acc.2.dedup acc.1

end

section
variable {x : Primitives} {b : Batch}

theorem validate_pvtdata_ok : validatePvtdata x rt cs = .ok () ↔
      ∀ c ∈ cs, x.computeHash c.2.rwset = rt.retrieveHash c.1 c.2.collectionName := by
  induction cs with
  | nil => simp [validatePvtdata]
  | cons c cs ih =>
    obtain ⟨ns,c⟩ := c
    rw [validatePvtdata,forall_mem_cons,← ih]
    split
    · rename_i heq
      exact (and_iff_right heq).symm
    rename_i hne
    constructor
    · intro h
      cases h
    · exact fun h => absurd h.1 hne

theorem validate_pvtdata_error (h : validatePvtdata x rt cs = .error e) :
    ∃ ns co ph pvtdataHash, e = .hashMismatch ns co ph pvtdataHash := by
  induction cs with
  | nil => cases h
  | cons c cs ih =>
    obtain ⟨ns,c⟩ := c
    rw [validatePvtdata] at h
    split at h
    · exact ih h
    · cases h
      exact ⟨_,_,_,_,rfl⟩

theorem add_pvt_result (ve : Height) (ws : List PvtWrite) (b : Batch) :
    (addPvtRWSetToPvtUpdateBatch ve ws b).result = .error (.panic .nilValue) ∧ (∃ w ∈ ws, w.Nil) ∨
    (addPvtRWSetToPvtUpdateBatch ve ws b).result = .ok (ws.foldl (putPvtWrite ve) b) ∧
      ∀ w ∈ ws, ¬ w.Nil := by
  induction ws generalizing b with
  | nil => exact .inr ⟨rfl,forall_mem_nil _⟩
  | cons w ws ih =>
    by_cases hw : w.Nil
    · refine .inl ⟨?_,w,mem_cons_self,hw⟩
      simp [addPvtRWSetToPvtUpdateBatch,Batch.putValAndMetadata,hw.1,hw.2]
    have hpu : (addPvtRWSetToPvtUpdateBatch ve (w :: ws) b).result =
        (addPvtRWSetToPvtUpdateBatch ve ws (putPvtWrite ve b w)).result := by
      rw [addPvtRWSetToPvtUpdateBatch,putPvtWrite,PvtWrite.entry]
      cases hd : w.isDelete with
      | true => rfl
      | false =>
        have hv : w.value ≠ [] := fun h => hw ⟨hd,h⟩
        simp [Batch.putValAndMetadata,hv]
    rw [hpu,foldl_cons]
    rcases ih (putPvtWrite ve b w) with ⟨hp,w',hw',hn⟩ | ⟨hok,hno⟩
    · exact .inl ⟨hp,w',mem_cons_of_mem _ hw',hn⟩
    · exact .inr ⟨hok,forall_mem_cons.mpr ⟨hw,hno⟩⟩

theorem get_puts {ws : List PvtWrite} (h : (ws.foldl (putPvtWrite ver) b).get s key = some vv) :
    (∃ w ∈ ws, s.collKey key = some w.key ∧ vv = w.entry ver) ∨ b.get s key = some vv := by
  induction ws generalizing b with
  | nil => exact .inr h
  | cons w ws ih =>
    rcases ih h with ⟨w',hw',hr⟩ | hg
    · exact .inl ⟨w',mem_cons_of_mem _ hw',hr⟩
    rw [putPvtWrite,Batch.get_update] at hg
    split at hg
    · rename_i heq
      obtain ⟨rfl,rfl⟩ := heq
      exact .inl ⟨w,mem_cons_self,coll_key_self _,(Option.some.inj hg).symm⟩
    · exact .inr hg

variable (x)

def admitted (e : Transaction × TxPvtData) : Option TxPvtRwSet :=
  if ∀ c ∈ e.2.collections, x.computeHash c.2.rwset = e.1.rwset.retrieveHash c.1 c.2.collectionName
  then txPvtRwSetFromProtoMsg x e.2 else none

def pvtWrites (e : Transaction × TxPvtData) : List PvtWrite :=
  (admitted x e).elim [] TxPvtRwSet.writes

def Admits (e : Transaction × TxPvtData) : Prop :=
  (admitted x e).isSome = true ∧ ∀ w ∈ pvtWrites x e, ¬ w.Nil

def putPvtEntry (num : Nat) (b : Batch) (e : Transaction × TxPvtData) : Batch :=
  (pvtWrites x e).foldl (putPvtWrite ⟨num,e.1.indexInBlock⟩) b

def pvtMetadataKeys (entries : List (Transaction × TxPvtData)) : List CollKey :=
  entries.flatMap fun e => (admitted x e).elim [] TxPvtRwSet.metadataKeys

variable {x}

theorem prepare_pvt_tx_result (nu : Nat) (e : Transaction × TxPvtData) (a1 : Batch × List CollKey) :
    (preparePvtTx x nu e.1 e.2 a1).result =
      .ok (putPvtEntry x nu a1.1 e,a1.2 ++ pvtMetadataKeys x [e]) ∧ Admits x e ∨
    (preparePvtTx x nu e.1 e.2 a1).result = .error (.panic .nilValue) ∧
      (∃ w ∈ pvtWrites x e, w.Nil) ∨
    ∃ f, (preparePvtTx x nu e.1 e.2 a1).result = .error f ∧ (∀ ca, f ≠ .panic ca) ∧
      admitted x e = none := by
  unfold preparePvtTx Admits pvtWrites putPvtEntry pvtMetadataKeys pvtWrites
  cases hv : validatePvtdata x e.1.rwset e.2.collections with
  | error f =>
    refine .inr (.inr ⟨f,rfl,?_,if_neg ?_⟩)
    · obtain ⟨_,_,_,_,rfl⟩ := validate_pvtdata_error hv
      simp
    · intro hl
      rw [validate_pvtdata_ok.mpr hl] at hv
      cases hv
  | ok _ =>
    have hl := validate_pvtdata_ok.mp hv
    have ha : admitted x e = txPvtRwSetFromProtoMsg x e.2 := if_pos hl
    rw [flatMap_singleton,ha]
    cases txPvtRwSetFromProtoMsg x e.2 with
    | none => exact .inr (.inr ⟨_,rfl,by simp,rfl⟩)
    | some set =>
      dsimp only [elim_some]
      rcases add_pvt_result ⟨nu,e.1.indexInBlock⟩ set.writes a1.1 with ⟨hp,hn⟩ | ⟨hok,hno⟩
      · refine .inr (.inl ⟨?_,hn⟩)
        rw [result_bind,hp]
        rfl
      · exact .inl ⟨result_bind_ok hok,rfl,hno⟩

theorem prepare_pvt_txs_result (nu : Nat) (en : List (Transaction × TxPvtData))
    (a1 : Batch × List CollKey) :
    (preparePvtTxs x nu en a1).result =
        .ok (en.foldl (putPvtEntry x nu) a1.1,a1.2 ++ pvtMetadataKeys x en) ∧
      (∀ e ∈ en, Admits x e) ∨
    ∃ e, First (Admits x) en e ∧ ((preparePvtTxs x nu en a1).result = .error (.panic .nilValue) ∧
          (∃ w ∈ pvtWrites x e, w.Nil) ∨
        ∃ f, (preparePvtTxs x nu en a1).result = .error f ∧ (∀ ca, f ≠ .panic ca) ∧
          admitted x e = none) := by
  induction en generalizing a1 with
  | nil =>
    refine .inl ⟨?_,forall_mem_nil _⟩
    rw [pvtMetadataKeys,flatMap_nil,append_nil]
    rfl
  | cons e re ih =>
    rcases prepare_pvt_tx_result nu e a1 with ⟨hok,ha⟩ | ⟨hp,w,hw,hn⟩ | ⟨f,he,hnt,hno⟩
    · have hr : (preparePvtTxs x nu (e :: re) a1).result =
          (preparePvtTxs x nu re (putPvtEntry x nu a1.1 e,
            a1.2 ++ pvtMetadataKeys x [e])).result := result_bind_ok hok
      rw [hr]
      rcases ih (putPvtEntry x nu a1.1 e,a1.2 ++ pvtMetadataKeys x [e]) with
        ⟨hall,had⟩ | ⟨e',hf,ho⟩
      · refine .inl ⟨?_,forall_mem_cons.mpr ⟨ha,had⟩⟩
        rw [hall,append_assoc,pvtMetadataKeys,pvtMetadataKeys,pvtMetadataKeys,← flatMap_append]
        rfl
      · exact .inr ⟨e',.tail ha hf,ho⟩
    · refine .inr ⟨e,.head fun ha => ha.2 w hw hn,.inl ⟨?_,w,hw,hn⟩⟩
      rw [preparePvtTxs,result_bind,hp]
      rfl
    · refine .inr ⟨e,.head fun ha => ?_,.inr ⟨f,?_,hnt,hno⟩⟩
      · rw [Admits,hno] at ha
        exact Bool.false_ne_true ha.1
      · rw [preparePvtTxs,result_bind,he]
        rfl

theorem get_put_entries {en : List (Transaction × TxPvtData)}
    (h : (en.foldl (putPvtEntry x num) b).get s key = some vv) :
    (∃ e ∈ en, ∃ w ∈ pvtWrites x e, s.collKey key = some w.key ∧
      vv = w.entry ⟨num,e.1.indexInBlock⟩) ∨ b.get s key = some vv := by
  induction en generalizing b with
  | nil => exact .inr h
  | cons e re ih =>
    rcases ih h with ⟨e',he',hr⟩ | hg
    · exact .inl ⟨e',mem_cons_of_mem _ he',hr⟩
    rcases get_puts hg with ⟨w,hw,hr⟩ | hg
    · exact .inl ⟨e,mem_cons_self,w,hw,hr⟩
    · exact .inr hg

variable (x : Primitives) (hashUpdates : Batch) (db : Db)

def renewed (b : Batch) (k : CollKey) : Option VersionedValue :=
  (hashUpdates.get k.hashSpace (x.computeHash k.key)).bind fun hashedVal =>
    (latest b db k.space k.key).bind fun latestVal =>
      if latestVal.version ≠ hashedVal.version ∧ x.computeHash latestVal.value = hashedVal.value then
        some ⟨latestVal.value,[],hashedVal.version⟩
      else none

variable {x hashUpdates db}

theorem renewed_some (h : renewed x hashUpdates db b k = some vv) :
    ∃ hv lv, hashUpdates.get k.hashSpace (x.computeHash k.key) = some hv ∧
      latest b db k.space k.key = some lv ∧ lv.version ≠ hv.version ∧
      x.computeHash lv.value = hv.value ∧
      vv = ⟨lv.value,[],hv.version⟩ := by
  obtain ⟨hv,hh,h⟩ := bind_eq_some_iff.mp h
  obtain ⟨lv,hl,h⟩ := bind_eq_some_iff.mp h
  split at h
  · rename_i hc
    exact ⟨hv,lv,hh,hl,hc.1,hc.2,(Option.some.inj h).symm⟩
  · cases h

theorem increment_result (k : CollKey) (b : Batch) :
    (incrementPvtdataVersion x hashUpdates db k b).result = match renewed x hashUpdates db b k with
      | none => .ok b
      | some vv => if vv.value = [] then .error (.panic .nilValue)
          else .ok (b.update k.space k.key vv) := by
  unfold incrementPvtdataVersion renewed
  cases hashUpdates.get k.hashSpace (x.computeHash k.key) with
  | none => rfl
  | some ha =>
    dsimp only
    rw [result_bind_ok retrieve_latest_result,bind_some]
    cases latest b db k.space k.key with
    | none => rfl
    | some lv =>
      dsimp only [bind_some]
      by_cases hv : lv.version = ha.version
      · rw [if_pos hv,if_neg fun h => h.1 hv]
        rfl
      rw [if_neg hv]
      by_cases hh : x.computeHash lv.value = ha.value
      · rw [if_pos hh,if_pos ⟨hv,hh⟩,Batch.putValAndMetadata]
        dsimp only
        split <;> rfl
      · rw [if_neg hh,if_neg fun h => hh h.2]
        rfl

theorem renewed_update {k k' : CollKey} (hne : k' ≠ k) :
    renewed x hashUpdates db (b.update k.space k.key vv) k' = renewed x hashUpdates db b k' := by
  have hg : (b.update k.space k.key vv).get k'.space k'.key = b.get k'.space k'.key := by
    rw [Batch.get_update,if_neg]
    rintro ⟨hs,hke⟩
    have hk := coll_key_self k
    rw [coll_key_iff.mpr ⟨hs,hke⟩] at hk
    exact hne (Option.some.inj hk)
  unfold renewed latest
  rw [hg]

theorem increment_step (k : CollKey) (b : Batch) :
    (incrementPvtdataVersion x hashUpdates db k b).result = .error (.panic .nilValue) ∧
      (∃ vv, renewed x hashUpdates db b k = some vv ∧ vv.value = []) ∨
    ∃ b', (incrementPvtdataVersion x hashUpdates db k b).result = .ok b' ∧
      (∀ vv, renewed x hashUpdates db b k = some vv → vv.value ≠ []) ∧
      (∀ k', k' ≠ k → renewed x hashUpdates db b' k' = renewed x hashUpdates db b k') ∧
      ∀ s key, b'.get s key =
        if s.collKey key = some k then (renewed x hashUpdates db b k).or (b.get s key)
        else b.get s key := by
  rw [increment_result]
  cases hr : renewed x hashUpdates db b k with
  | none =>
    refine .inr ⟨b,rfl,fun _ h => (nomatch h),fun _ _ => rfl,fun s key => ?_⟩
    rw [none_or,ite_self]
  | some vv =>
    dsimp only
    by_cases hv : vv.value = []
    · exact .inl ⟨if_pos hv,vv,rfl,hv⟩
    refine .inr ⟨_,if_neg hv,?_,fun _ => renewed_update,fun s key => ?_⟩
    · intro v' heq
      exact Option.some.inj heq ▸ hv
    · rw [Batch.get_update,some_or]
      exact if_congr ((and_congr eq_comm eq_comm).trans coll_key_iff.symm) rfl rfl

theorem increments_result (ha : ks.Nodup) (b : Batch) :
    (incrementPvtdataVersionIfNeeded x hashUpdates db ks b).result = .error (.panic .nilValue) ∧
      (∃ k ∈ ks, ∃ vv, renewed x hashUpdates db b k = some vv ∧ vv.value = []) ∨
    ∃ b', (incrementPvtdataVersionIfNeeded x hashUpdates db ks b).result = .ok b' ∧
      (∀ k ∈ ks, ∀ vv, renewed x hashUpdates db b k = some vv → vv.value ≠ []) ∧
      ∀ s ke, b'.get s ke =
        ((s.collKey ke).bind fun k => if k ∈ ks then renewed x hashUpdates db b k else none).or
          (b.get s ke) := by
  induction ks generalizing b with
  | nil =>
    refine .inr ⟨b,rfl,forall_mem_nil _,fun s ke => ?_⟩
    cases s.collKey ke <;> rfl
  | cons k ks ih =>
    obtain ⟨hk,ha⟩ := nodup_cons.mp ha
    have ho : ∀ k' ∈ ks, k' ≠ k := fun k' hk' heq => hk (heq ▸ hk')
    rw [incrementPvtdataVersionIfNeeded,result_bind]
    rcases increment_step (x := x) k b with ⟨hp,vv,hr,hn⟩ | ⟨b₁,hok,hno,hs,hg₁⟩
    · rw [hp]
      exact .inl ⟨rfl,k,mem_cons_self,vv,hr,hn⟩
    rw [hok,ok_bind]
    rcases ih ha b₁ with ⟨hp,k',hk',vv,hr,hn⟩ | ⟨b₂,hok₂,hno₂,hg₂⟩
    · rw [hs k' (ho k' hk')] at hr
      exact .inl ⟨hp,k',mem_cons_of_mem _ hk',vv,hr,hn⟩
    refine .inr ⟨b₂,hok₂,forall_mem_cons.mpr ⟨hno,?_⟩,fun s ke => ?_⟩
    · intro k' hk' vv hr
      exact hno₂ k' hk' vv ((hs k' (ho k' hk')).trans hr)
    · rw [hg₂,hg₁]
      cases hke : s.collKey ke with
      | none => rfl
      | some k' =>
        by_cases hm : k' ∈ ks
        · have hne := ho k' hm
          simp [hm,hne,hs k' hne]
        by_cases heq : k' = k
        · subst heq
          simp [hm]
        · simp [hm,heq]

/-- A crash over private data: the first that cannot be put have a value that is missing, or such a
value has to follow its hash. -/
inductive PvtCrash (x : Primitives) (hashUpdates : Batch) (db : Db) (num : Nat)
    (entries : List (Transaction × TxPvtData)) : Prop
  | write (first : First (Admits x) entries e) (mem : w ∈ pvtWrites x e) (nil : w.Nil)
  | increment (admits : ∀ e ∈ entries, Admits x e) (mem : k ∈ pvtMetadataKeys x entries)
      (renews : renewed x hashUpdates db (entries.foldl (putPvtEntry x num) ∅) k = some vv)
      (nil : vv.value = [])

/-- What the private part of the batch is, where it is prepared. -/
structure PvtPrepared (x : Primitives) (hashUpdates : Batch) (db : Db) (num : Nat)
    (entries : List (Transaction × TxPvtData)) (b : Batch) : Prop where
  admits : ∀ e ∈ entries, Admits x e
  valued : ∀ k ∈ pvtMetadataKeys x entries, ∀ vv,
    renewed x hashUpdates db (entries.foldl (putPvtEntry x num) ∅) k = some vv → vv.value ≠ []
  entries : ∀ s key, b.get s key =
    ((s.collKey key).bind fun k => if k ∈ pvtMetadataKeys x entries then
      renewed x hashUpdates db (entries.foldl (putPvtEntry x num) ∅) k else none).or
      ((entries.foldl (putPvtEntry x num) ∅).get s key)

theorem pvt_batch_result (x : Primitives) (hashUpdates : Batch) (db : Db) (nu : Nat)
    (entries : List (Transaction × TxPvtData)) :
    (∃ b, (validateAndPreparePvtBatch x hashUpdates db nu entries).result = .ok b ∧
      PvtPrepared x hashUpdates db nu entries b) ∨
    (validateAndPreparePvtBatch x hashUpdates db nu entries).result = .error (.panic .nilValue) ∧
      PvtCrash x hashUpdates db nu entries ∨
    ∃ f e, (validateAndPreparePvtBatch x hashUpdates db nu entries).result = .error f ∧
      (∀ ca, f ≠ .panic ca) ∧ First (Admits x) entries e ∧ admitted x e = none := by
  rw [validateAndPreparePvtBatch,result_bind]
  rcases prepare_pvt_txs_result (x := x) nu entries (∅,[]) with
    ⟨hok,ha⟩ | ⟨e,hf,⟨hp,w,hw,hn⟩ | ⟨f,he,hno,hne⟩⟩
  · rw [hok,ok_bind]
    have hnd : (([] : List CollKey) ++ pvtMetadataKeys x entries).dedup.Nodup :=
      nodup_dedup _
    have hm : ∀ {k}, k ∈ (([] : List CollKey) ++ pvtMetadataKeys x entries).dedup ↔
        k ∈ pvtMetadataKeys x entries := mem_dedup
    rcases increments_result hnd (entries.foldl (putPvtEntry x nu) ∅) with
      ⟨hp,k,hk,vv,hr,hn⟩ | ⟨b,hok,hno,hg⟩
    · exact .inr (.inl ⟨hp,.increment ha (hm.mp hk) hr hn⟩)
    · refine .inl ⟨b,hok,ha,fun k hk => hno k (hm.mpr hk),fun s ke => ?_⟩
      simp only [hg,hm]
  · rw [hp]
    exact .inr (.inl ⟨rfl,.write hf hw hn⟩)
  · rw [he]
    exact .inr (.inr ⟨f,e,rfl,hno,hf,hne⟩)

theorem pvt_batch_panics {entries : List (Transaction × TxPvtData)} :
    (validateAndPreparePvtBatch x hashUpdates db num entries).result = .error (.panic ca) ↔
      ca = .nilValue ∧ PvtCrash x hashUpdates db num entries := by
  rcases pvt_batch_result x hashUpdates db num entries with
    ⟨b,hok,hp⟩ | ⟨hpa,hc⟩ | ⟨f,e,he,hnt,hf,hno⟩
  · rw [hok]
    constructor
    · intro h
      cases h
    · rintro ⟨_,⟨hf,hw,hn⟩ | ⟨_,hk,hr,hn⟩⟩
      · exact absurd (hp.admits _ hf.mem) hf.fails
      · exact absurd hn (hp.valued _ hk _ hr)
  · rw [hpa]
    constructor
    · intro h
      cases h
      exact ⟨rfl,hc⟩
    · rintro ⟨rfl,_⟩
      rfl
  · rw [he]
    constructor
    · intro h
      exact absurd (Except.error.inj h) (hnt ca)
    · rintro ⟨_,⟨hf',hw,_⟩ | ⟨ha,_⟩⟩
      · rw [← hf.unique hf',pvtWrites,hno] at hw
        cases hw
      · exact absurd (ha e hf.mem) hf.fails

end

variable (x : Primitives)

/-- Without the transactions that are not endorser transactions, are already invalid or have results
that cannot be decoded. -/
structure ProtoBlock where
  num : Nat
  results : List (Option TxRwSet)

def validateWriteset (rwset : TxRwSet) : Bool :=
  rwset.nsRwSets.all fun n => n.kvRwSet.writes.all fun w => x.validateKeyValue w.key w.value

def preprocessTx (index : Nat) (results : Option TxRwSet) : Option Transaction :=
  results.bind fun rwset => if validateWriteset x rwset then some ⟨index,rwset⟩ else none

theorem preprocess_index {rs : List (Option TxRwSet)} :
    (((rs.zipIdx i).filterMap fun e => preprocessTx x e.2 e.1).map
      Transaction.indexInBlock).Pairwise (· < ·) := by
  have hi : ∀ {e : Option TxRwSet × Nat} {tx}, preprocessTx x e.2 e.1 = some tx →
      tx.indexInBlock = e.2 := by
    intro e tx h
    obtain ⟨rt,_,h⟩ := bind_eq_some_iff.mp h
    split at h
    · rw [← Option.some.inj h]
    · cases h
  induction rs generalizing i with
  | nil => exact .nil
  | cons o rs ih =>
    rw [zipIdx_cons,filterMap_cons]
    cases ho : preprocessTx x i o with
    | none => exact ih
    | some tx =>
      refine pairwise_cons.mpr ⟨fun j hj => ?_,ih⟩
      obtain ⟨t',htx',rfl⟩ := List.mem_map.mp hj
      obtain ⟨e,he,hp⟩ := mem_filterMap.mp htx'
      rw [hi (e := (o,i)) ho,hi hp]
      exact (mem_zipIdx he).1

def preprocessProtoBlock (blk : ProtoBlock) : Block where
  num := blk.num
  txs := blk.results.zipIdx.filterMap fun e => preprocessTx x e.2 e.1
  indexed := preprocess_index x

/-- Updates to public and hashed data, and to private data. -/
structure UpdateBatch where
  pubAndHashUpdates : Batch
  pvtUpdates : Batch

/-- The whole preparation of a block while no read fails. -/
def CommitBatchPreparer.validateAndPrepareBatch (db : Db) (blk : ProtoBlock)
    (pvtdata : Nat → Option TxPvtData) (doMVCCValidation : Bool) :
    Except Failure (UpdateBatch × List TxValidationCode) := do
  let internalBlock := preprocessProtoBlock x blk
  let out ← Txmgmt.validateAndPrepareBatch x.hashFunc db (fun _ => false) doMVCCValidation internalBlock
  let pvtUpdates ← (validateAndPreparePvtBatch x out.1 db internalBlock.num
    (pvtEntries internalBlock out.2 pvtdata)).result
  pure (⟨out.1,pvtUpdates⟩,out.2)

variable {x}

theorem preparer_ok (h : CommitBatchPreparer.validateAndPrepareBatch x db blk pv dm = .ok (u,cs)) :
    Txmgmt.validateAndPrepareBatch x.hashFunc db (fun _ => false) dm
        (preprocessProtoBlock x blk) = .ok (u.pubAndHashUpdates,cs) ∧
      PvtPrepared x u.pubAndHashUpdates db blk.num
        (pvtEntries (preprocessProtoBlock x blk) cs pv) u.pvtUpdates := by
  obtain ⟨o,ho,h⟩ := Outcomes.bind_ok.mp h
  obtain ⟨pu,hp,h⟩ := Outcomes.bind_ok.mp h
  cases h
  refine ⟨ho,?_⟩
  rcases pvt_batch_result x o.1 db blk.num (pvtEntries (preprocessProtoBlock x blk) o.2 pv) with
    ⟨b,hok,hpr⟩ | ⟨hpa,_⟩ | ⟨f,_,he,_⟩
  · obtain rfl := Except.ok.inj (hok.symm.trans hp)
    exact hpr
  · exact absurd (hpa.symm.trans hp) (by simp)
  · exact absurd (he.symm.trans hp) (by simp)

theorem PvtPrepared.source {en : List (Transaction × TxPvtData)}
    (h : PvtPrepared x hashUpdates db num en b) (hg : b.get s key = some vv) :
    ∃ k, s.collKey key = some k ∧
      ((∃ e ∈ en, ∃ w ∈ pvtWrites x e, w.key = k ∧ vv = w.entry ⟨num,e.1.indexInBlock⟩) ∨
        ∃ hv, hashUpdates.get k.hashSpace (x.computeHash k.key) = some hv ∧
          vv.version = hv.version ∧ x.computeHash vv.value = hv.value ∧ vv.value ≠ []) := by
  rw [h.entries,or_eq_some_iff] at hg
  rcases hg with hr | ⟨_,hp⟩
  · obtain ⟨k,hk,hr⟩ := bind_eq_some_iff.mp hr
    split at hr
    · rename_i hm
      obtain ⟨hv,lv,hh,_,_,hva,rfl⟩ := renewed_some hr
      exact ⟨k,hk,.inr ⟨hv,hh,rfl,hva,h.valued k hm _ hr⟩⟩
    · cases hr
  · rcases get_put_entries hp with ⟨e,he,w,hw,hk,hvv⟩ | hn
    · exact ⟨w.key,hk,.inl ⟨e,he,w,hw,rfl,hvv⟩⟩
    · cases hn

end PluggableHcs.Txmgmt
