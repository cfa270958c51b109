import PluggableHcs.Txmgmt.Serializability
import PluggableHcs.Txmgmt.TxMgr

namespace PluggableHcs.Txmgmt
open Runs List Option

def Ledger.committed (l : Ledger) : List (Height × TxRwSet) :=
  l.blocks.flatMap fun b => (b.1.txs.zip b.2).filterMap fun e =>
    if e.2 = .valid then some (⟨b.1.num,e.1.indexInBlock⟩,e.1.rwset) else none

theorem mem_committed {l : Ledger} : (ver,rt) ∈ l.committed ↔
    ∃ b ∈ l.blocks, ∃ tx, (tx,.valid) ∈ b.1.txs.zip b.2 ∧ ver = ⟨b.1.num,tx.indexInBlock⟩ ∧
      rt = tx.rwset := by
  simp only [Ledger.committed,mem_flatMap,mem_filterMap]
  constructor
  · rintro ⟨b,hb,⟨tx,co⟩,htx,h⟩
    split at h
    · rename_i hc
      obtain rfl : co = .valid := hc
      cases h
      exact ⟨b,hb,tx,htx,rfl,rfl⟩
    · cases h
  · rintro ⟨b,hb,tx,htx,rfl,rfl⟩
    exact ⟨b,hb,_,htx,rfl⟩

def LedgerEvent.delivered (ver : Height) : LedgerEvent → List TxPvtData
  | .commit blk pvtdata _ => if ver.blockNum = blk.num then (pvtdata ver.txNum).toList else []
  | .reconcile data =>
    (data.filter fun d => d.1 = ver.blockNum ∧ d.2.seqInBlock = ver.txNum).map Prod.snd

section
variable (x : Primitives)

def PvtWrite.hashed (w : PvtWrite) : Bool × Bytes :=
  (w.isDelete,if w.isDelete then [] else x.computeHash w.value)

/-- The private writes are among the hashed writes of the transaction. -/
def Matches (rwset : TxRwSet) (p : TxPvtData) : Prop :=
  ∀ w ∈ (txPvtRwSetFromProtoMsg x p).elim [] TxPvtRwSet.writes,
    w.hashed x ∈ rwset.valuesAt w.key.hashSpace (x.computeHash w.key.key)
deriving Decidable

def Matching (e : Transition Ledger LedgerEvent) : Prop :=
  ∀ c ∈ e.after.committed, ∀ p ∈ e.label.delivered c.1, Matches x c.2 p
deriving Decidable

end

def TxRwSet.HashedOnce (rwset : TxRwSet) : Prop :=
  ∀ ns coll keyHash, (rwset.valuesAt (.hashed ns coll) keyHash).length ≤ 1 ∧
    (rwset.metadataAt (.hashed ns coll) keyHash).length ≤ 1

theorem TxRwSet.WritesOnce.hashed {rt : TxRwSet} (o : rt.WritesOnce) : rt.HashedOnce := by
  intro ns co kh
  rw [o.values_at,o.metadata_at]
  exact ⟨length_toList_le,length_toList_le⟩

def CommitsOnce (e : Transition Ledger LedgerEvent) : Prop :=
  ∀ c ∈ e.after.committed, c.2.HashedOnce

section
variable {x : Primitives} {btlPolicy : BTLPolicy}

/-- Private data of the version of their key hash have the value that was hashed. -/
def PrivateAgrees (x : Primitives) (db : Db) : Prop :=
  ∀ (k : CollKey) vv hv, db.state k.space k.key = some vv →
    db.state k.hashSpace (x.computeHash k.key) = some hv → vv.version = hv.version →
    x.computeHash vv.value = hv.value

def Ledger.Sourced (l : Ledger) (s : Space) (keyHash : Bytes) (hv : VersionedValue) : Prop :=
  ∃ rwset, (hv.version,rwset) ∈ l.committed ∧ ∀ value, (false,value) ∈ rwset.valuesAt s keyHash →
    hv.value = value

structure Ledger.Settled (x : Primitives) (l : Ledger) : Prop where
  sourced : ∀ (k : HashedCompositeKey) hv, l.txmgr.db.state k.space k.keyHash = some hv →
    hv.version.blockNum < l.blocks.length ∧ l.Sourced k.space k.keyHash hv
  below : ∀ (k : CollKey) vv, l.txmgr.db.state k.space k.key = some vv →
    vv.version.blockNum < l.blocks.length
  agrees : PrivateAgrees x l.txmgr.db

open Ledger

theorem settled_initial (bo : Bool) : (Ledger.initial bo).Settled x := by
  refine ⟨?_,?_,?_⟩
  · intro k hv h
    cases h
  · intro k vv h
    cases h
  · intro k vv hv h
    cases h

theorem once_value (o : rt.HashedOnce) (hm : (false,value) ∈ rt.valuesAt (.hashed ns co) kh)
    (hw : written rt be db (.hashed ns co) kh = some ops) (ve : Height) :
    (ops.entry ve).value = value := by
  obtain ⟨hvs,hme⟩ := o ns co kh
  refine written_value ?_ ?_ hw ve
  · match hl : rt.valuesAt (.hashed ns co) kh with
    | [] =>
      rw [hl] at hm
      cases hm
    | [w] =>
      rw [hl,mem_singleton] at hm
      rw [hm]
    | _ :: _ :: _ =>
      rw [hl] at hvs
      simp at hvs
  · match hl : rt.metadataAt (.hashed ns co) kh with
    | [] => rfl
    | [m] => rfl
    | _ :: _ :: _ =>
      rw [hl] at hme
      simp at hme

theorem mem_pvt_entries (h : e ∈ pvtEntries blk cs pv) :
    (e.1,.valid) ∈ blk.txs.zip cs ∧ pv e.1.indexInBlock = some e.2 := by
  obtain ⟨⟨tx,co⟩,htx,h⟩ := mem_filterMap.mp h
  split at h
  · rename_i hv
    obtain ⟨p,hp,rfl⟩ := map_eq_some_iff.mp h
    rw [← hv.1]
    exact ⟨htx,hp⟩
  · cases h

theorem mem_pvt_writes (h : w ∈ pvtWrites x e) :
    ∃ set, txPvtRwSetFromProtoMsg x e.2 = some set ∧ w ∈ set.writes := by
  unfold pvtWrites admitted at h
  split at h
  · cases hs : txPvtRwSetFromProtoMsg x e.2 with
    | none =>
      rw [hs] at h
      cases h
    | some set =>
      rw [hs] at h
      exact ⟨set,rfl,h⟩
  · cases h

theorem Matches.write (h : Matches x rt p)
    (hs : txPvtRwSetFromProtoMsg x p = some pr) (hw : w ∈ pr.writes) :
    w.hashed x ∈ rt.valuesAt w.key.hashSpace (x.computeHash w.key.key) := by
  refine h w ?_
  rw [hs]
  exact hw

theorem put_hashed {w : PvtWrite} (hv : (w.entry ver).value ≠ []) :
    w.hashed x = (false,x.computeHash (w.entry ver).value) := by
  unfold PvtWrite.entry PvtWrite.hashed at *
  cases hd : w.isDelete with
  | true => simp [hd] at hv
  | false => rfl

theorem committed_mono {l l' : Ledger} (hs : l.blocks ⊆ l'.blocks) :
    l.committed ⊆ l'.committed := by
  rintro ⟨ve,rt⟩ h
  obtain ⟨b,hb,hc⟩ := mem_committed.mp h
  exact mem_committed.mpr ⟨b,hs hb,hc⟩

section
variable {l : Ledger} {bl : ProtoBlock} {u : UpdateBatch} {cs : List TxValidationCode}

section
variable (se : l.Settled x) (next : bl.num = l.blocks.length)
  (pr : Prepared x l.txmgr.db (preprocessProtoBlock x bl) cs entries u)
include se next pr

theorem Ledger.Settled.commit_sourced (o : ∀ c ∈ committed ⟨l.blocks ++ [(preprocessProtoBlock x bl,cs)],m⟩,
      c.2.HashedOnce)
    {k : HashedCompositeKey}
    (h : (l.txmgr.commit x btlPolicy bl.num u).db.state k.space k.keyHash = some hv) :
    hv.version.blockNum < l.blocks.length + 1 ∧
      Sourced ⟨l.blocks ++ [(preprocessProtoBlock x bl,cs)],m⟩ k.space k.keyHash hv := by
  rcases commit_hashed_source pr.apart h with hn | ⟨_,ho⟩
  · refine ⟨?_,?_⟩
    · rw [pr.hash_block hn]
      exact next ▸ Nat.lt_succ_self _
    obtain ⟨tx,be,os,hva,hwr,_,rfl⟩ := pr.hash hn
    have hc : ((os.entry ⟨bl.num,tx.indexInBlock⟩).version,tx.rwset) ∈
        committed ⟨l.blocks ++ [(preprocessProtoBlock x bl,cs)],m⟩ := by
      rw [entry_version]
      exact mem_committed.mpr
        ⟨_,mem_append_right _ mem_cons_self,tx,hva,rfl,rfl⟩
    exact ⟨tx.rwset,hc,fun va hm =>
      once_value (o _ hc) hm hwr _⟩
  · obtain ⟨hb,rt,hc,hvu⟩ := se.sourced k hv ho
    exact ⟨Nat.lt_succ_of_lt hb,rt,committed_mono (subset_append_left _ _) hc,hvu⟩

theorem Ledger.Settled.commit_below {k : CollKey}
    (h : (l.txmgr.commit x btlPolicy bl.num u).db.state k.space k.key = some vv) :
    vv.version.blockNum < l.blocks.length + 1 := by
  rcases commit_pvt_source pr.apart h with hn | ⟨_,ho⟩
  · rw [pr.pvt_block hn]
    exact next ▸ Nat.lt_succ_self _
  · exact Nat.lt_succ_of_lt (se.below k vv ho)

end

theorem Ledger.Settled.commit_agrees (ha : l.Settled x) (next : bl.num = l.blocks.length)
    (hr : Prepared x l.txmgr.db (preprocessProtoBlock x bl) cs
      (pvtEntries (preprocessProtoBlock x bl) cs pv) u)
    (hb : ∀ (k : HashedCompositeKey) hv,
      (l.txmgr.commit x btlPolicy bl.num u).db.state k.space k.keyHash = some hv →
      Sourced l' k.space k.keyHash hv)
    (hf : ∀ i p rt, pv i = some p → (⟨bl.num,i⟩,rt) ∈ l'.committed → Matches x rt p) :
    PrivateAgrees x (l.txmgr.commit x btlPolicy bl.num u).db := by
  intro k vv hv hpv hh hve
  have hvu := (l.txmgr.commit x btlPolicy bl.num u).db.valued hpv
  rcases commit_pvt_source hr.apart hpv with h1 | ⟨_,hp⟩
  · rcases commit_hashed_source (k := k.hashed x) hr.apart hh with hn | ⟨_,hho⟩
    · obtain ⟨k',hk',⟨e,he,w,hw,rfl,rfl⟩ | ⟨hv',hg,_,hva,_⟩⟩ := hr.pvt.source h1
      · obtain rfl := Option.some.inj ((coll_key_self k).symm.trans hk')
        obtain ⟨_,hd⟩ := mem_pvt_entries he
        obtain ⟨set,hs,hwr⟩ := mem_pvt_writes hw
        obtain ⟨rt,hc,hva⟩ := hb (w.key.hashed x) hv hh
        rw [← hve,PvtWrite.entry_version] at hc
        have hm := (hf _ _ _ hd hc).write hs hwr
        rw [put_hashed hvu] at hm
        exact (hva _ hm).symm
      · obtain rfl := Option.some.inj ((coll_key_self k).symm.trans hk')
        rw [hva,Option.some.inj (hg.symm.trans hn)]
    · have ho := (ha.sourced (k.hashed x) hv hho).1
      rw [← hve,hr.pvt_block h1] at ho
      exact absurd ho (next ▸ Nat.lt_irrefl _)
  · rcases commit_hashed_source (k := k.hashed x) hr.apart hh with hn | ⟨_,hho⟩
    · have ho := ha.below k vv hp
      rw [hve,hr.hash_block hn] at ho
      exact absurd ho (next ▸ Nat.lt_irrefl _)
    · exact ha.agrees k vv hv hp hho hve

end

section
variable {l : Ledger} {m : LockBasedTxMgr}

theorem Ledger.Settled.reconcile (he : l.Settled x)
    (h : l.txmgr.removeStaleAndCommitPvtDataOfOldBlocks x btlPolicy data = .ok m)
    (ha : ∀ n p rt, (n,p) ∈ data → (⟨n,p.seqInBlock⟩,rt) ∈ l.committed → Matches x rt p) :
    Settled x ⟨l.blocks,m⟩ := by
  obtain ⟨ws,pu,hws,hf,_,hdb⟩ := reconcile_ok h
  have hha : ∀ k : HashedCompositeKey, m.db.state k.space k.keyHash =
      l.txmgr.db.state k.space k.keyHash := by
    intro k
    rw [hdb]
    exact hf.other_state rfl
  refine ⟨fun k hv hst => ?_,fun k vv hst => ?_,fun k vv hv hst hh hve => ?_⟩
  · rw [hha] at hst
    exact he.sourced k hv hst
  · dsimp only at hst
    rw [hdb] at hst
    rcases hf.pvt_state hst with ⟨_,_,hv,_,hh,hve,_⟩ | ho
    · rw [hve]
      exact (he.sourced (k.hashed x) hv hh).1
    · exact he.below k vv ho
  · dsimp only at hst
    rw [hdb] at hst
    replace hh := (hha (k.hashed x)).symm.trans hh
    rcases hf.pvt_state hst with ⟨w,hw,hv',hwr,hh',_,hcu⟩ | ho
    · obtain rfl := Option.some.inj (hh'.symm.trans hh)
      rcases hcu with hhe | hva
      · obtain ⟨n,p,set,hd,hs,hme,hvr⟩ := reconciled_writes_source hws hw
        obtain ⟨_,rt,hc,hva⟩ := he.sourced (k.hashed x) hv' hh'
        rw [hhe,hvr] at hc
        have hm := (ha n p rt hd hc).write hs hme
        rw [hwr] at hm
        exact (hva _ hm).symm
      · exact hva.symm
    · exact he.agrees k vv hv ho hh hve

end

theorem Ledger.Settled.next {l l' : Ledger} (hs : l.Settled x)
    (h : l.next x btlPolicy e = some l') (hm : Matching x ⟨l,e,l'⟩)
    (o : CommitsOnce ⟨l,e,l'⟩) : l'.Settled x := by
  cases next_step h with
  | commit next pr =>
    have hp := preparer_prepared pr
    refine ⟨fun k hv hst => ?_,fun k vv hst => ?_,?_⟩
    · rw [length_append]
      exact hs.commit_sourced next hp o hst
    · rw [length_append]
      exact hs.commit_below next hp hst
    refine hs.commit_agrees next hp
      (fun k hv hst => (hs.commit_sourced next hp o hst).2) ?_
    intro i p rt hd hc
    refine hm _ hc p ?_
    simp [LedgerEvent.delivered,hd]
  | reconcile re =>
    refine hs.reconcile re fun n p rt hd hc => ?_
    refine hm _ hc p ?_
    simp [LedgerEvent.delivered]
    exact hd

theorem PrivateAgrees.get_private_data {m : LockBasedTxMgr} (ha : PrivateAgrees x m.db)
    (h : m.getPrivateData x k = some value) :
    value.map x.computeHash =
      (m.db.state k.hashSpace (x.computeHash k.key)).map VersionedValue.value := by
  unfold LockBasedTxMgr.getPrivateData at h
  dsimp only at h
  split at h
  · rename_i hve
    cases h
    cases hp : m.db.state k.space k.key with
    | none =>
      rw [hp,map_none,map_eq_none_iff] at hve
      rw [hve]
      rfl
    | some vv =>
      rw [hp,map_some] at hve
      obtain ⟨hv,hh,heq⟩ := map_eq_some_iff.mp hve
      rw [hh]
      exact congrArg some (ha k vv hv hp hh heq.symm)
  · cases h

/-- As long as no transaction writes a key hash twice, private state agrees with hashed state. -/
theorem private_state_agrees
    (run : Run (fun l e l' => l.next x btlPolicy e = some l') (Ledger.initial bulkOptimizable) es l)
    (matching : ∀ e ∈ es, Matching x e) (once : ∀ e ∈ es, CommitsOnce e) :
    PrivateAgrees x l.txmgr.db ∧ ∀ k value, l.txmgr.getPrivateData x k = some value →
      value.map x.computeHash =
        (l.txmgr.db.state k.hashSpace (x.computeHash k.key)).map VersionedValue.value := by
  have hs : l.Settled x :=
    (run.invariant_when (C := fun e => Matching x e ∧ CommitsOnce e)
      (fun e se h hc => se.next h hc.1 hc.2) (settled_initial bulkOptimizable)
      (fun e he => ⟨matching e he,once e he⟩)).1
  exact ⟨hs.agrees,fun k value => hs.agrees.get_private_data⟩

end

def sampleBtl : BTLPolicy := ⟨fun _ _ => 0⟩

def sampleEvents : List LedgerEvent :=
  [.commit ⟨0,[some (sampleRwSet [1,2])]⟩ (fun _ => none) true,
   .reconcile [(0,samplePvtData 0 [1,2])],
   .commit ⟨1,[some (sampleRwSet [1,3,4,5])]⟩ (fun _ => some (samplePvtData 0 [1,3,4,5])) true]

def sampleTrace : Option (Ledger × List (Transition Ledger LedgerEvent)) :=
  trace (fun l e => l.next samplePrimitives sampleBtl e) (Ledger.initial false) sampleEvents

theorem sample_private_state : ∃ out, sampleTrace = some out ∧
    PrivateAgrees samplePrimitives out.1.txmgr.db ∧
    out.1.txmgr.getPrivateData samplePrimitives ⟨[97],[99],[1]⟩ = some (some [3]) := by
  have hm : ∀ e ∈ (sampleTrace.get rfl).2, Matching samplePrimitives e := by decide
  have ho : ∀ e ∈ (sampleTrace.get rfl).2, ∀ c ∈ e.after.committed, c.2.WritesOnce := by decide
  have ha := private_state_agrees (trace_get_run rfl) hm
    (fun e he c hc => (ho e he c hc).hashed)
  exact ⟨sampleTrace.get rfl,(some_get rfl).symm,ha.1,rfl⟩

def twiceEvents : List LedgerEvent :=
  [.commit ⟨0,[some (sampleRwSet [1,2])]⟩ (fun _ => some (samplePvtData 0 [1,2])) true,
   .commit ⟨1,[some (sampleRwSet [1,3,1,4])]⟩ (fun _ => some (samplePvtData 0 [1,3,1,4])) true]

def twiceTrace : Option (Ledger × List (Transition Ledger LedgerEvent)) :=
  trace (fun l e => l.next samplePrimitives sampleBtl e) (Ledger.initial false) twiceEvents

/-- The value that is returned was never the one of the key hash. -/
theorem twice_written_disagrees : ∃ out, twiceTrace = some out ∧
    (∀ e ∈ out.2, Matching samplePrimitives e) ∧
    out.1.txmgr.getPrivateData samplePrimitives ⟨[97],[99],[1]⟩ = some (some [4]) ∧
    (out.1.txmgr.db.state (.hashed [97] [99]) [7,1]).map VersionedValue.value = some [7,2] ∧
    ¬ PrivateAgrees samplePrimitives out.1.txmgr.db := by
  refine ⟨twiceTrace.get rfl,(some_get rfl).symm,by decide,rfl,rfl,fun h => ?_⟩
  exact absurd (h ⟨[97],[99],[1]⟩ _ _ rfl rfl rfl) (by decide)

end PluggableHcs.Txmgmt
