import Mathlib.Data.Set.Card
import PluggableHcs.Pvtdatastorage.Conversions
import PluggableHcs.Pvtdatastorage.OldBlocks
import PluggableHcs.Pvtdatastorage.Purges

namespace PluggableHcs.Pvtdatastorage
open Batches Runs Txmgmt List AList Transition StoreDb
open MissingDataKey (item nsCollBlk)

open PvtStore

variable {p : BTLPolicy} {s : PvtStore} {h : Holdings} {db : StoreDb}

section
variable {conf : Conf}

def OpUnmixed : PvtStoreOp → Prop
  | .commit _ _ missingPvtData => Unmixed missingPvtData
  | _ => True

theorem next_agrees {s s' : PvtStore} {h : Holdings} (ha : Agrees conf.btlPolicy s h)
    (he : s.next conf op = some s') (hu : OpUnmixed op) :
    Agrees conf.btlPolicy s' (h.next op) := by
  cases op with
  | commit bn pd mp =>
    simp only [PvtStore.next] at he
    split at he
    · rename_i hnu
      cases he
      subst hnu
      exact ha.commit hu pd
    · nomatch he
  | processCollsEligibilityEnabled cb cs =>
    cases he
    exact ha.enable cb cs
  | commitPvtDataOfOldBlocks bp =>
    cases he
    exact ha.reconcile bp
  | purge mb =>
    simp only [PvtStore.next] at he
    split at he
    · rename_i hn
      cases he
      exact ha.purge hn
    · nomatch he
  | processCollElgEvents =>
    cases he
    exact ha.convert conf.maxBatchSize

theorem run_agrees (h : Run (fun s op s' => PvtStore.next conf s op = some s') .initial es s)
    (hc : ∀ e ∈ es, OpUnmixed e.label) :
    Agrees conf.btlPolicy s (Holdings.after (es.map label)) := by
  induction es using List.reverseRecOn generalizing s with
  | nil =>
    cases h
    exact initial_agrees conf.btlPolicy
  | append_singleton es e ih =>
    obtain ⟨hr,hs,ht⟩ := h.split_cons
    cases ht
    have hb := ih hr fun e' he' => hc e' (mem_append_left _ he')
    have ha : Holdings.after ((es ++ [e]).map label) =
        (Holdings.after (es.map label)).next e.label := by
      unfold Holdings.after
      rw [map_append,foldl_append]
      rfl
    rw [ha]
    exact next_agrees hb hs (hc e (mem_append_right _ mem_cons_self))

def Outstanding (p : BTLPolicy) (h : Holdings) (last : Nat) (i : MissingPvtDataInfo) : Prop :=
  0 < i.blkNum ∧ (⟨i.ns,i.coll,i.blkNum⟩,i.txNum) ∈ h.missing true ∧
    isExpired p ⟨i.ns,i.coll,i.blkNum⟩ last = false

theorem live_iff {p : BTLPolicy} {s : PvtStore} (hl : s.lastCommittedBlock = some last)
    (ke : NsCollBlk) : s.Live p ke ↔ isExpired p ke last = false := by
  constructor
  · exact fun hli => hli last hl
  intro hli l' hl'
  cases hl.symm.trans hl'
  exact hli

theorem Agrees.outstanding {p : BTLPolicy} {s : PvtStore} {h : Holdings} (ha : Agrees p s h)
    (hla : s.lastCommittedBlock = some last) (i : MissingPvtDataInfo) :
    Outstanding p h last i ↔ 0 < i.blkNum ∧ i.blkNum ≤ last ∧
      isExpired p ⟨i.ns,i.coll,i.blkNum⟩ last = false ∧
      ∃ bitmap, s.db.missing.lookup ⟨⟨i.ns,i.coll,i.blkNum⟩,true⟩ = some bitmap ∧
        i.txNum ∈ bitmap := by
  have hn : s.nextBlockNum = last + 1 := by
    rw [nextBlockNum,hla]
  constructor
  · rintro ⟨hp,hm,hl⟩
    have hb := ha.reported true _ hm
    dsimp only at hb
    have ht := (ha.missing _ true _ ((live_iff hla _).mpr hl)).mpr hm
    refine ⟨hp,by omega,hl,?_⟩
    cases hlk : s.db.missing.lookup ⟨⟨i.ns,i.coll,i.blkNum⟩,true⟩ with
    | none =>
      rw [hlk] at ht
      cases ht
    | some bitmap =>
      rw [hlk] at ht
      exact ⟨bitmap,rfl,ht⟩
  · rintro ⟨hp,_,hl,bitmap,hlk,ht⟩
    refine ⟨hp,(ha.missing _ true _ ((live_iff hla _).mpr hl)).mp ?_,hl⟩
    rw [hlk]
    exact ht

theorem Agrees.live_blocks (ha : Agrees p s h) (hla : s.lastCommittedBlock = some last) (b : Nat) :
    b ∈ liveBlocks p last (s.db.eligibleMissing last) ↔
      ∃ j, Outstanding p h last j ∧ j.blkNum = b := by
  rw [mem_live_blocks]
  constructor
  · rintro ⟨⟨⟨ns,co,bl⟩,bi⟩,he,hl,rfl⟩
    obtain ⟨hlk,hp,hle⟩ := mem_eligible_missing.mp he
    obtain ⟨t,ht⟩ := exists_mem_of_ne_nil _ (ha.bitmaps _ _ hlk)
    exact ⟨⟨bl,t,ns,co⟩,(ha.outstanding hla _).mpr ⟨hp,hle,hl,bi,hlk,ht⟩,rfl⟩
  rintro ⟨j,hj,rfl⟩
  obtain ⟨hp,hle,hl,bi,hlk,_⟩ := (ha.outstanding hla j).mp hj
  exact ⟨(⟨j.ns,j.coll,j.blkNum⟩,bi),mem_eligible_missing.mpr ⟨hlk,hp,hle⟩,hl,rfl⟩

/-- The queries answer with what was committed and with what is outstanding in the most recent
blocks that have any. -/
theorem store_reports_exactly
    (h : Run (fun s op s' => PvtStore.next conf s op = some s') .initial es s)
    (hc : ∀ e ∈ es, OpUnmixed e.label) (hlast : s.lastCommittedBlock = some last) :
    (∀ b filter, b ≤ last → ∃ r,
      s.db.getPvtDataByBlockNum conf.btlPolicy s.lastCommittedBlock b filter = some r ∧ InOrder r ∧
      ∀ k v, (k,v) ∈ prepareDataEntries b r ↔ k.nsCollBlk.blkNum = b ∧
        (Holdings.after (es.map label)).committed k = some v ∧
        isExpired conf.btlPolicy k.nsCollBlk last = false ∧ passesFilter k filter = true) ∧
    ∀ maxBlock i, 0 < maxBlock →
      (i ∈ s.db.getMissingPvtDataInfoForMostRecentBlocks conf.btlPolicy s.lastCommittedBlock
        maxBlock ↔
      Outstanding conf.btlPolicy (Holdings.after (es.map label)) last i ∧
        { b | i.blkNum < b ∧ ∃ j, Outstanding conf.btlPolicy
          (Holdings.after (es.map label)) last j ∧ j.blkNum = b }.ncard < maxBlock) := by
  have ha := run_agrees h hc
  generalize Holdings.after (es.map label) = hs at ha ⊢
  rw [hlast]
  refine ⟨fun b filter hb => ?_,fun maxBlock i hm => ?_⟩
  · obtain ⟨r,hr,ho,hi⟩ := get_pvt_data_entries conf.btlPolicy s.db filter hb
    refine ⟨r,hr,ho,fun k v => ?_⟩
    rw [hi]
    refine and_congr_right fun _ => ?_
    constructor
    · rintro ⟨hlk,hl,hps⟩
      exact ⟨(ha.data k ((live_iff hlast _).mpr hl)).symm.trans hlk,hl,hps⟩
    · rintro ⟨hco,hl,hps⟩
      exact ⟨(ha.data k ((live_iff hlast _).mpr hl)).trans hco,hl,hps⟩
  · rw [get_missing_entries ha.bitmaps hm,← ha.outstanding hlast]
    have hse : { b | i.blkNum < b ∧ ∃ j, Outstanding conf.btlPolicy hs last j ∧ j.blkNum = b } =
        ((liveBlocks conf.btlPolicy last (s.db.eligibleMissing last)).filter (i.blkNum < ·) :
          Finset Nat) := by
      ext b
      rw [Finset.mem_coe,Finset.mem_filter,ha.live_blocks hlast]
      exact and_comm
    rw [hse,Set.ncard_coe_finset]
    rfl

end

instance : Decidable (OpUnmixed op) := by
  unfold OpUnmixed
  split <;> infer_instance

def opsTrace (ops : List PvtStoreOp) : Option (PvtStore × List (Transition PvtStore PvtStoreOp)) :=
  trace (PvtStore.next sampleConf) .initial ops

def missingTwice (first second : Bool) : List (Nat × List MissingPvtData) :=
  [(0,[⟨[1],[2],first⟩]),(1,[⟨[1],[2],second⟩])]

def suppliedOps : List PvtStoreOp :=
  [.commit 0 [] [],.commit 1 [] (missingTwice false false),
   .processCollsEligibilityEnabled 1 [([1],[2])],.processCollElgEvents,
   .commitPvtDataOfOldBlocks [(1,samplePvtData 0)]]

theorem sample_reports : ∃ out, opsTrace suppliedOps = some out ∧
    (∃ r, out.1.db.getPvtDataByBlockNum sampleConf.btlPolicy (some 1) 1 none = some r ∧ InOrder r ∧
      (⟨⟨[1],[2],1⟩,0⟩,[9]) ∈ prepareDataEntries 1 r) ∧
    ⟨1,1,[1],[2]⟩ ∈ out.1.db.getMissingPvtDataInfoForMostRecentBlocks sampleConf.btlPolicy
      (some 1) 1 ∧
    Outstanding sampleConf.btlPolicy (Holdings.after (out.2.map label)) 1
      ⟨1,1,[1],[2]⟩ := by
  have hu : ∀ e ∈ ((opsTrace suppliedOps).get rfl).2, OpUnmixed e.label := by decide
  have hl : ((opsTrace suppliedOps).get rfl).1.lastCommittedBlock = some 1 := rfl
  have hm : (⟨1,1,[1],[2]⟩ : MissingPvtDataInfo) ∈
      ((opsTrace suppliedOps).get rfl).1.db.getMissingPvtDataInfoForMostRecentBlocks
        sampleConf.btlPolicy (some 1) 1 := by decide
  obtain ⟨hd,hmi⟩ := store_reports_exactly (trace_get_run rfl) hu hl
  obtain ⟨r,hr,ho,_⟩ := hd 1 none le_rfl
  refine ⟨_,(Option.some_get rfl).symm,⟨r,hr,ho,?_⟩,hm,((hmi 1 _ Nat.one_pos).mp hm).1⟩
  have hr' : ((opsTrace suppliedOps).get rfl).1.db.getPvtDataByBlockNum sampleConf.btlPolicy
      (some 1) 1 none = some (samplePvtData 0) := rfl
  cases hr'.symm.trans hr
  decide

def mixedOps : List PvtStoreOp :=
  [.commit 0 [] [],.commit 1 [] (missingTwice true false),
   .processCollsEligibilityEnabled 1 [([1],[2])],.processCollElgEvents]

/-- The conversion forgets what was missing as eligible. -/
theorem eligible_forgotten : ∃ out, opsTrace mixedOps = some out ∧
    out.1.lastCommittedBlock = some 1 ∧
    Outstanding sampleConf.btlPolicy (Holdings.after (out.2.map label)) 1
      ⟨1,0,[1],[2]⟩ ∧
    ⟨1,0,[1],[2]⟩ ∉ out.1.db.getMissingPvtDataInfoForMostRecentBlocks sampleConf.btlPolicy
      (some 1) 5 := by
  refine ⟨_,(Option.some_get rfl).symm,rfl,⟨by decide,?_,by decide⟩,by decide⟩
  exact .inl (.inr ⟨rfl,_,mem_cons_self,rfl,_,mem_cons_self,rfl,rfl,rfl⟩)

end PluggableHcs.Pvtdatastorage
