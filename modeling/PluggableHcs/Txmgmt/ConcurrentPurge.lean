import PluggableHcs.Txmgmt.PrivateExpiry

namespace PluggableHcs.Txmgmt
open Runs Tables List

inductive PrepareJob where
  | done
  | launched (expiringAtBlk : Nat)
  | retrieved (expiringAtBlk : Nat) (expiryInfo : List (Nat × List PvtdataKey))
  | evaluated (ws : Workingset)

inductive OldBlockCommit where
  | free
  | committing
  | reconciling (reconciledPvtdata : List (Nat × TxPvtData))
  | patched (pvtUpdates : Batch) (toTrack : ScheduleEntries)
  | tracked (pvtUpdates : Batch)

/-- The block that was validated last and is not yet committed. -/
structure Current where
  blk : Block
  codes : List TxValidationCode
  batch : UpdateBatch

structure ConcurrentLedger extends Ledger where
  current : Option Current
  usedOnce : Bool
  job : PrepareJob
  oldBlockCommit : OldBlockCommit
  /-- Private data of old blocks whose commit has waited for the job, but has not got the lock. -/
  waited : Option (List (Nat × TxPvtData))

inductive PurgeEvent where
  | validateAndPrepare (blk : ProtoBlock) (pvtdata : Nat → Option TxPvtData) (doMVCCValidation : Bool)
  | lockCommit
  | commit
  | retrieve
  | evaluate
  | publish
  | waitForPrepareToFinish (reconciledPvtdata : List (Nat × TxPvtData))
  | lockReconcile
  | patch
  | track
  | apply

section
variable (x : Primitives) (btlPolicy : BTLPolicy)

def reconciledUpdates (m : LockBasedTxMgr) (reconciledPvtdata : List (Nat × TxPvtData)) :
    Except Failure (Batch × ScheduleEntries) := do
  let pvtUpdates ← freshPvtUpdates x m.db reconciledPvtdata
  let toTrack ← appendToSchedule m.expKeeper
    (expiryScheduleOf btlPolicy (pvtScheduled x pvtUpdates)).entries
  pure (pvtUpdates,toTrack)

/-- The first commit launches the job for its own block. -/
def ConcurrentLedger.lockCommit (l : ConcurrentLedger) (c : Current) : ConcurrentLedger :=
  { l with
    usedOnce := true
    job := if l.usedOnce then l.job else .launched c.blk.num
    oldBlockCommit := .committing
    txmgr := { l.txmgr with
      expKeeper := l.txmgr.expKeeper.update
        (buildExpirySchedule x btlPolicy c.batch.pvtUpdates c.batch.pubAndHashUpdates) [] } }

/-- The lock is released with the job for the next block launched. -/
def ConcurrentLedger.commit (l : ConcurrentLedger) (c : Current) (ws : Workingset) :
    ConcurrentLedger :=
  { l with
    blocks := l.blocks ++ [(c.blk,c.codes)]
    txmgr := {
      db := l.txmgr.db.applyPrivacyAwareUpdates (addExpiredEntriesToUpdateBatch ws c.batch)
      expKeeper := l.txmgr.expKeeper.update ∅ ws.toClearFromSchedule
      workingset := none }
    current := none
    job := .launched (c.blk.num + 1)
    oldBlockCommit := .free }

def ConcurrentLedger.next (l : ConcurrentLedger) : PurgeEvent → Option ConcurrentLedger
  | .validateAndPrepare blk pvtdata doMVCCValidation =>
    match l.job,l.oldBlockCommit,l.current with
    | .done,.free,none =>
      if blk.num = l.blocks.length then
        match CommitBatchPreparer.validateAndPrepareBatch x l.txmgr.db blk pvtdata doMVCCValidation with
        | .error _ => none
        | .ok (u,codes) => some { l with current := some ⟨preprocessProtoBlock x blk,codes,u⟩ }
      else none
    | _,_,_ => none
  | .lockCommit =>
    match l.oldBlockCommit,l.current with
    | .free,some c => some (l.lockCommit x btlPolicy c)
    | _,_ => none
  | .commit =>
    match l.oldBlockCommit,l.job,l.current,l.txmgr.workingset with
    | .committing,.done,some c,some ws => some (l.commit c ws)
    | _,_,_,_ => none
  | .retrieve =>
    match l.job with
    | .launched n => some { l with job := .retrieved n (l.txmgr.expKeeper.retrieve n) }
    | _ => none
  | .evaluate =>
    match l.job with
    | .retrieved n expiryInfo =>
      some { l with job := .evaluated (evaluateWorkingset l.txmgr.db expiryInfo n) }
    | _ => none
  | .publish =>
    match l.job with
    | .evaluated ws => some { l with job := .done, txmgr := { l.txmgr with workingset := some ws } }
    | _ => none
  | .waitForPrepareToFinish data =>
    match l.job,l.waited with
    | .done,none => some { l with waited := some data }
    | _,_ => none
  | .lockReconcile =>
    match l.oldBlockCommit,l.waited with
    | .free,some data => some { l with waited := none, oldBlockCommit := .reconciling data }
    | _,_ => none
  | .patch =>
    match l.oldBlockCommit with
    | .reconciling data =>
      match reconciledUpdates x btlPolicy l.txmgr data with
      | .error _ => none
      | .ok (b,toTrack) => some { l with
          oldBlockCommit := .patched b toTrack
          txmgr := { l.txmgr with
            workingset := l.txmgr.workingset.map fun ws =>
              addMissingPvtDataToWorkingSet x ws (b.pvtKeys.map Prod.fst) } }
    | _ => none
  | .track =>
    match l.oldBlockCommit with
    | .patched b toTrack => some { l with
        oldBlockCommit := .tracked b
        txmgr := { l.txmgr with expKeeper := l.txmgr.expKeeper.update toTrack [] } }
    | _ => none
  | .apply =>
    match l.oldBlockCommit with
    | .tracked b => some { l with
        oldBlockCommit := .free
        txmgr := { l.txmgr with db := l.txmgr.db.applyPrivacyAwareUpdates ⟨∅,b⟩ } }
    | _ => none

def ConcurrentLedger.initial (bulkOptimizable : Bool) : ConcurrentLedger where
  toLedger := .initial bulkOptimizable
  current := none
  usedOnce := false
  job := .done
  oldBlockCommit := .free
  waited := none

/-- What a step does. -/
inductive PurgeStep : ConcurrentLedger → PurgeEvent → ConcurrentLedger → Prop
  | validateAndPrepare (job : l.job = .done) (lock : l.oldBlockCommit = .free)
      (next : blk.num = l.blocks.length)
      (prepared : CommitBatchPreparer.validateAndPrepareBatch x l.txmgr.db blk pvtdata
        doMVCCValidation = .ok (u,codes)) :
      PurgeStep l (.validateAndPrepare blk pvtdata doMVCCValidation)
        { l with current := some ⟨preprocessProtoBlock x blk,codes,u⟩ }
  | lockCommit (lock : l.oldBlockCommit = .free) (current : l.current = some c) :
      PurgeStep l .lockCommit (l.lockCommit x btlPolicy c)
  | commit (lock : l.oldBlockCommit = .committing) (job : l.job = .done)
      (current : l.current = some c) (prepared : l.txmgr.workingset = some ws) :
      PurgeStep l .commit (l.commit c ws)
  | retrieve (job : l.job = .launched n) :
      PurgeStep l .retrieve { l with job := .retrieved n (l.txmgr.expKeeper.retrieve n) }
  | evaluate (job : l.job = .retrieved n expiryInfo) : PurgeStep l .evaluate { l with
        job := .evaluated (evaluateWorkingset l.txmgr.db expiryInfo n) }
  | publish (job : l.job = .evaluated ws) : PurgeStep l .publish { l with
        job := .done, txmgr := { l.txmgr with workingset := some ws } }
  | waitForPrepareToFinish :
      PurgeStep l (.waitForPrepareToFinish data) { l with waited := some data }
  | lockReconcile (lock : l.oldBlockCommit = .free) :
      PurgeStep l .lockReconcile { l with waited := none, oldBlockCommit := .reconciling data }
  | patch (lock : l.oldBlockCommit = .reconciling data)
      (updates : reconciledUpdates x btlPolicy l.txmgr data = .ok (b,toTrack)) :
      PurgeStep l .patch { l with
        oldBlockCommit := .patched b toTrack
        txmgr := { l.txmgr with
          workingset := l.txmgr.workingset.map fun ws =>
            addMissingPvtDataToWorkingSet x ws (b.pvtKeys.map Prod.fst) } }
  | track (lock : l.oldBlockCommit = .patched b toTrack) : PurgeStep l .track { l with
        oldBlockCommit := .tracked b
        txmgr := { l.txmgr with expKeeper := l.txmgr.expKeeper.update toTrack [] } }
  | apply (lock : l.oldBlockCommit = .tracked b) : PurgeStep l .apply { l with
        oldBlockCommit := .free
        txmgr := { l.txmgr with db := l.txmgr.db.applyPrivacyAwareUpdates ⟨∅,b⟩ } }

variable {x btlPolicy} in
theorem purge_step (h : l.next x btlPolicy e = some l') : PurgeStep x btlPolicy l e l' := by
  cases e <;> simp only [ConcurrentLedger.next] at h
  case validateAndPrepare blk pvtdata doMVCCValidation =>
    split at h
    · rename_i hj hl _
      split at h
      · rename_i hn
        split at h
        · nomatch h
        rename_i hp
        cases h
        exact .validateAndPrepare hj hl hn hp
      · nomatch h
    · nomatch h
  case lockCommit =>
    split at h
    · cases h
      exact .lockCommit ‹_› ‹_›
    · nomatch h
  case commit =>
    split at h
    · cases h
      exact .commit ‹_› ‹_› ‹_› ‹_›
    · nomatch h
  case retrieve =>
    split at h
    · cases h
      exact .retrieve ‹_›
    · nomatch h
  case evaluate =>
    split at h
    · cases h
      exact .evaluate ‹_›
    · nomatch h
  case publish =>
    split at h
    · cases h
      exact .publish ‹_›
    · nomatch h
  case waitForPrepareToFinish data =>
    split at h
    · cases h
      exact .waitForPrepareToFinish
    · nomatch h
  case lockReconcile =>
    split at h
    · cases h
      exact .lockReconcile ‹_›
    · nomatch h
  case patch =>
    split at h
    · rename_i hl
      split at h
      · nomatch h
      rename_i hu
      cases h
      exact .patch hl hu
    · nomatch h
  case track =>
    split at h
    · cases h
      exact .track ‹_›
    · nomatch h
  case apply =>
    split at h
    · cases h
      exact .apply ‹_›
    · nomatch h

end

section
variable (x : Primitives) (btlPolicy : BTLPolicy)

inductive JobSound (n : Nat) (db : Db) (ek : ExpiryKeeper) : PrepareJob → Option Workingset → Prop
  | unprepared : JobSound n db ek .done none
  | done (due : n < maxUint64 → DueAt x btlPolicy db ws n) : JobSound n db ek .done (some ws)
  | launched : JobSound n db ek (.launched n) none
  | retrieved : JobSound n db ek (.retrieved n (ek.retrieve n)) none
  | evaluated (due : n < maxUint64 → DueAt x btlPolicy db ws n) :
      JobSound n db ek (.evaluated ws) none

structure Current.Sound (n : Nat) (c : Current) : Prop where
  num : c.blk.num = n
  bound : n < maxUint64
  apart : c.batch.Apart
  block : AtBlock c.batch n
  consistent : Consistent x c.batch

inductive LockSound (n : Nat) (m : LockBasedTxMgr) (current : Option Current) :
    PrepareJob → OldBlockCommit → Prop
  | free (scheduled : ScheduledBefore x btlPolicy m.db m.expKeeper n)
      (prepares : JobSound x btlPolicy n m.db m.expKeeper job m.workingset) :
      LockSound n m current job .free
  | committing (scheduled : ScheduledBefore x btlPolicy m.db ek n) (validated : current = some c)
      (tracked : m.expKeeper = ek.update
        (buildExpirySchedule x btlPolicy c.batch.pvtUpdates c.batch.pubAndHashUpdates) [])
      (prepares : JobSound x btlPolicy n m.db m.expKeeper job m.workingset) :
      LockSound n m current job .committing
  | reconciling (scheduled : ScheduledBefore x btlPolicy m.db m.expKeeper n)
      (prepares : JobSound x btlPolicy n m.db m.expKeeper .done m.workingset) :
      LockSound n m current .done (.reconciling data)
  | patched
      (scheduled : ScheduledBefore x btlPolicy (m.db.applyPrivacyAwareUpdates ⟨∅,b⟩)
        (m.expKeeper.update toTrack []) n)
      (due : ∀ ws, m.workingset = some ws → n < maxUint64 →
        DueAt x btlPolicy (m.db.applyPrivacyAwareUpdates ⟨∅,b⟩) ws n) :
      LockSound n m current .done (.patched b toTrack)
  | tracked
      (scheduled : ScheduledBefore x btlPolicy (m.db.applyPrivacyAwareUpdates ⟨∅,b⟩) m.expKeeper n)
      (due : ∀ ws, m.workingset = some ws → n < maxUint64 →
        DueAt x btlPolicy (m.db.applyPrivacyAwareUpdates ⟨∅,b⟩) ws n) :
      LockSound n m current .done (.tracked b)

structure ConcurrentLedger.Sound (l : ConcurrentLedger) : Prop where
  bound : l.blocks.length ≤ maxUint64
  current : ∀ c, l.current = some c → c.Sound x l.blocks.length
  unused : l.usedOnce = false → l.job = .done ∧ l.txmgr.workingset = none
  lock : LockSound x btlPolicy l.blocks.length l.txmgr l.current l.job l.oldBlockCommit

/-- A block deletes no private key whose hash it puts, no private key is empty, the block number is
not the largest, and private data of old blocks get the lock when no job runs. -/
def Undisturbed (e : Transition ConcurrentLedger PurgeEvent) : Prop :=
  match e.label with
  | .validateAndPrepare blk pvtdata doMVCCValidation =>
    match CommitBatchPreparer.validateAndPrepareBatch x e.before.txmgr.db blk pvtdata
        doMVCCValidation with
    | .ok (u,_) => blk.num < maxUint64 ∧ Consistent x u
    | .error _ => True
  | .lockReconcile =>
    match e.before.job with
    | .done => True
    | _ => False
  | .patch =>
    match e.before.oldBlockCommit with
    | .reconciling data => ∀ w ∈ (reconciledWrites x data).getD [], w.1.key.key ≠ []
    | _ => True
  | _ => True

end

section
variable {x : Primitives} {btlPolicy : BTLPolicy} {db : Db} {ek : ExpiryKeeper}

theorem retrieve_puts {l : List ((_ : ExpiryInfoKey) × List PvtdataKey)}
    (h : ∀ e ∈ l, e.1.expiryBlk ≠ n) (ek : ExpiryKeeper) :
    (l.foldl ExpiryKeeper.put ek).retrieve n = ek.retrieve n := by
  induction l generalizing ek with
  | nil => rfl
  | cons e l ih =>
    obtain ⟨he,hl⟩ := forall_mem_cons.mp h
    rw [foldl_cons,ih hl]
    unfold ExpiryKeeper.retrieve ExpiryKeeper.put
    rw [Table.get_insert,if_neg (Ne.symm he)]

theorem retrieve_tracked {u : UpdateBatch} (hu : AtBlock u n) (hn : n < maxUint64)
    (ek : ExpiryKeeper) :
    (ek.update (buildExpirySchedule x btlPolicy u.pvtUpdates u.pubAndHashUpdates) []).retrieve n =
      ek.retrieve n := by
  refine retrieve_puts ?_ ek
  rintro ⟨k,ks⟩ he
  have hlk := AList.mem_lookup_iff.mpr he
  unfold buildExpirySchedule at hlk
  rw [schedule_lookup] at hlk
  split at hlk
  · nomatch hlk
  rename_i hne
  obtain ⟨p,hp⟩ := exists_mem_of_ne_nil _ hne
  obtain ⟨_,hex,_⟩ := scheduled_for_block hu hp
  rw [hex]
  exact (expiring_lt hn).ne'

theorem JobSound.tracked (h : JobSound x btlPolicy n db ek job ws)
    (heq : ek'.retrieve n = ek.retrieve n) : JobSound x btlPolicy n db ek' job ws := by
  cases h with
  | unprepared => exact .unprepared
  | done du => exact .done du
  | launched => exact .launched
  | retrieved =>
    rw [← heq]
    exact .retrieved
  | evaluated du => exact .evaluated du

theorem JobSound.due (h : JobSound x btlPolicy n db ek .done (some ws)) (hn : n < maxUint64) :
    DueAt x btlPolicy db ws n := by
  cases h with
  | done due => exact due hn

theorem initial_sound (bo : Bool) : (ConcurrentLedger.initial bo).Sound x btlPolicy :=
  ⟨Nat.zero_le _,fun _ hc => (nomatch hc),fun _ => ⟨rfl,rfl⟩,
    .free (initial_timed bo).scheduled .unprepared⟩

section
variable {m : LockBasedTxMgr} {j j' : PrepareJob}

theorem LockSound.of_free (h : LockSound x btlPolicy n m current j .free) :
    ScheduledBefore x btlPolicy m.db m.expKeeper n ∧
      JobSound x btlPolicy n m.db m.expKeeper j m.workingset := by
  cases h with
  | free hs hj => exact ⟨hs,hj⟩

theorem LockSound.of_committing (h : LockSound x btlPolicy n m current j .committing) :
    ∃ ek c, ScheduledBefore x btlPolicy m.db ek n ∧ current = some c ∧ m.expKeeper = ek.update
        (buildExpirySchedule x btlPolicy c.batch.pvtUpdates c.batch.pubAndHashUpdates) [] ∧
      JobSound x btlPolicy n m.db m.expKeeper j m.workingset := by
  cases h with
  | committing hs hv ht hj => exact ⟨_,_,hs,hv,ht,hj⟩

theorem LockSound.goes_on (h : LockSound x btlPolicy n m current j lock)
    (hcu : ∀ c, current = some c → c.Sound x n) (hjo : j ≠ .done)
    (hk : ∀ ek, ScheduledBefore x btlPolicy m.db ek n → m.expKeeper.retrieve n = ek.retrieve n →
      JobSound x btlPolicy n m.db m.expKeeper j m.workingset →
      JobSound x btlPolicy n m.db m.expKeeper j' ws) :
    LockSound x btlPolicy n { m with workingset := ws } current j' lock := by
  cases h with
  | free hs hj => exact .free hs (hk _ hs rfl hj)
  | committing hs hv ht hj =>
    have hc := hcu _ hv
    refine .committing hs hv ht (hk _ hs ?_ hj)
    rw [ht]
    exact retrieve_tracked hc.block hc.bound _
  | reconciling | patched | tracked => exact absurd rfl hjo

theorem job_done (h : ∀ ws, m.workingset = some ws → n < maxUint64 →
    DueAt x btlPolicy m.db ws n) : JobSound x btlPolicy n m.db m.expKeeper .done m.workingset := by
  cases hws : m.workingset with
  | none => exact .unprepared
  | some ws => exact .done (h ws hws)

end

/-- Done at one go, the steps of the reconciliation are what the transaction manager does. -/
theorem reconciled_updates {m : LockBasedTxMgr}
    (h : reconciledUpdates x btlPolicy m data = .ok (b,tt)) :
    m.removeStaleAndCommitPvtDataOfOldBlocks x btlPolicy data = .ok
      { db := m.db.applyPrivacyAwareUpdates ⟨∅,b⟩
        expKeeper := m.expKeeper.update tt []
        workingset := m.workingset.map fun ws =>
          addMissingPvtDataToWorkingSet x ws (b.pvtKeys.map Prod.fst) } := by
  obtain ⟨pu,hf,h⟩ := Outcomes.bind_ok.mp h
  obtain ⟨o,ho,h⟩ := Outcomes.bind_ok.mp h
  cases h
  refine Outcomes.bind_ok.mpr ⟨b,hf,?_⟩
  unfold updateExpiryInfoOfPvtDataOfOldBlocks
  dsimp only
  rw [ho]
  rfl

namespace ConcurrentLedger.Sound
variable {l : ConcurrentLedger} (h : l.Sound x btlPolicy)
include h

theorem validated (hlo : l.oldBlockCommit = .free) (hn : blk.num = l.blocks.length)
    (hp : CommitBatchPreparer.validateAndPrepareBatch x l.txmgr.db blk pvtdata mvcc =
      .ok (u,codes)) (hb : blk.num < maxUint64) (hco : Consistent x u) :
    ConcurrentLedger.Sound x btlPolicy
      { l with current := some ⟨preprocessProtoBlock x blk,codes,u⟩ } := by
  have hpr := preparer_prepared hp
  refine ⟨h.bound,?_,h.unused,?_⟩
  · intro c hc
    cases hc
    exact ⟨hn,hn ▸ hb,hpr.apart,hpr.at_block hn,hco⟩
  have hl := h.lock
  dsimp only
  rw [hlo] at hl ⊢
  obtain ⟨hs,hj⟩ := hl.of_free
  exact .free hs hj

theorem commit_locked (hlo : l.oldBlockCommit = .free) (hcr : l.current = some c) :
    (l.lockCommit x btlPolicy c).Sound x btlPolicy := by
  have hl := h.lock
  rw [hlo] at hl
  obtain ⟨hs,hj⟩ := hl.of_free
  have hc := h.current c hcr
  refine ⟨h.bound,h.current,fun hu => (nomatch hu),.committing hs hcr rfl ?_⟩
  cases hus : l.usedOnce with
  | true =>
    simp only [lockCommit,hus,if_true]
    exact hj.tracked (retrieve_tracked hc.block hc.bound _)
  | false =>
    simp only [lockCommit,hus,(h.unused hus).2,hc.num,Bool.false_eq_true,if_false]
    exact .launched

/-- The working set holds all that is due with the block, so that nothing of it is left. -/
theorem committed (hi : Function.Injective x.computeHash) (hlo : l.oldBlockCommit = .committing)
    (hjo : l.job = .done) (hcr : l.current = some c) (hws : l.txmgr.workingset = some ws) :
    (l.commit c ws).Sound x btlPolicy := by
  have hl := h.lock
  rw [hlo,hjo] at hl
  obtain ⟨ek,c',hs,hv,ht,hj⟩ := hl.of_committing
  cases hv.symm.trans hcr
  have hc := h.current c hcr
  rw [hws] at hj
  have hs' := hs.commit (m := ⟨l.txmgr.db,ek,some ws⟩) hi (hj.due hc.bound) hc.bound
    hc.apart hc.block hc.consistent
  have hle : (l.commit c ws).blocks.length = l.blocks.length + 1 := length_append
  have hnu : (l.commit c ws).job = .launched (l.blocks.length + 1) := by
    rw [← hc.num]
    rfl
  refine ⟨hle ▸ hc.bound,fun c hno => (nomatch hno),fun hu => ?_,?_⟩
  · cases (h.unused hu).2.symm.trans hws
  rw [hle,hnu]
  refine .free ?_ .launched
  have hek : (l.commit c ws).txmgr.expKeeper =
      (LockBasedTxMgr.commit x btlPolicy ⟨l.txmgr.db,ek,some ws⟩ l.blocks.length
        c.batch).expKeeper := by
    simp only [ConcurrentLedger.commit,ht]
    rfl
  rw [hek]
  exact hs'

/-- The job works on whoever has the lock. -/
theorem job_step (hjo : l.job ≠ .done)
    (hk : ∀ ek, ScheduledBefore x btlPolicy l.txmgr.db ek l.blocks.length →
      l.txmgr.expKeeper.retrieve l.blocks.length = ek.retrieve l.blocks.length →
      JobSound x btlPolicy l.blocks.length l.txmgr.db l.txmgr.expKeeper l.job l.txmgr.workingset →
      JobSound x btlPolicy l.blocks.length l.txmgr.db l.txmgr.expKeeper j ws) :
    ConcurrentLedger.Sound x btlPolicy
      { l with job := j, txmgr := { l.txmgr with workingset := ws } } :=
  ⟨h.bound,h.current,fun hu => absurd (h.unused hu).1 hjo,h.lock.goes_on h.current hjo hk⟩

/-- What the working set lacks of the data of old blocks is added to it. -/
theorem patched (hi : Function.Injective x.computeHash)
    (hlo : l.oldBlockCommit = .reconciling data)
    (hup : reconciledUpdates x btlPolicy l.txmgr data = .ok (b,toTrack))
    (hke : ∀ w ∈ (reconciledWrites x data).getD [], w.1.key.key ≠ []) :
    ConcurrentLedger.Sound x btlPolicy { l with
      oldBlockCommit := .patched b toTrack
      txmgr := { l.txmgr with
        workingset := l.txmgr.workingset.map fun ws =>
          addMissingPvtDataToWorkingSet x ws (b.pvtKeys.map Prod.fst) } } := by
  have hl := h.lock
  have hun := h.unused
  rw [hlo] at hl
  generalize l.job = job at hun hl ⊢
  cases hl with
  | reconciling hs hj =>
    obtain ⟨hs',hdu,hno⟩ := hs.reconciled hi (reconciled_updates hup) hke
    refine ⟨h.bound,h.current,fun hu => ⟨rfl,hno (hun hu).2⟩,.patched hs' fun ws hws hn => ?_⟩
    cases hold : l.txmgr.workingset with
    | none =>
      rw [hold] at hws
      nomatch hws
    | some old =>
      rw [hold] at hj
      obtain ⟨ws',hws',hd⟩ := hdu old hold (hj.due hn)
      cases hws'.symm.trans hws
      exact hd

end ConcurrentLedger.Sound

/-- Every step of the three actors keeps the schedule and the working set sound. -/
theorem purge_step_sound (hi : Function.Injective x.computeHash)
    (e : Transition ConcurrentLedger PurgeEvent) (h : e.before.Sound x btlPolicy)
    (he : e.before.next x btlPolicy e.label = some e.after) (hud : Undisturbed x e) :
    e.after.Sound x btlPolicy := by
  obtain ⟨l,label,l'⟩ := e
  replace h : l.Sound x btlPolicy := h
  have hst : PurgeStep x btlPolicy l label l' := purge_step he
  cases hst with
  | validateAndPrepare hjo hf hn hp =>
    simp only [Undisturbed,hp] at hud
    exact h.validated hf hn hp hud.1 hud.2
  | lockCommit hf hcr => exact h.commit_locked hf hcr
  | commit hlo hjo hcr hws => exact h.committed hi hlo hjo hcr hws
  | retrieve hjo =>
    refine h.job_step (by simp [hjo]) fun ek _ _ hj => ?_
    rw [hjo] at hj
    generalize l.txmgr.workingset = ws at hj ⊢
    cases hj
    exact .retrieved
  | evaluate hjo =>
    refine h.job_step (by simp [hjo]) fun ek hs hr hj => ?_
    rw [hjo] at hj
    generalize l.txmgr.workingset = ws at hj ⊢
    cases hj
    refine .evaluated fun hn => ?_
    rw [hr]
    exact hs.due hn
  | publish hjo =>
    refine h.job_step (by simp [hjo]) fun ek _ _ hj => ?_
    rw [hjo] at hj
    generalize l.txmgr.workingset = ws at hj
    cases hj with
    | evaluated hdu => exact .done hdu
  | waitForPrepareToFinish => exact ⟨h.bound,h.current,h.unused,h.lock⟩
  | lockReconcile hf =>
    have hjo : l.job = .done := by
      simp only [Undisturbed] at hud
      cases hjo : l.job <;> simp [hjo] at hud ⊢
    have hl := h.lock
    rw [hf,hjo] at hl
    obtain ⟨hs,hj⟩ := hl.of_free
    refine ⟨h.bound,h.current,h.unused,?_⟩
    dsimp only
    rw [hjo]
    exact .reconciling hs hj
  | patch hlo hup =>
    simp only [Undisturbed,hlo] at hud
    exact h.patched hi hlo hup hud
  | track hlo =>
    obtain ⟨hb,hcu,hun,hl⟩ := h
    rw [hlo] at hl
    generalize l.job = job at hun hl ⊢
    cases hl with
    | patched hs hdu => exact ⟨hb,hcu,hun,.tracked hs hdu⟩
  | apply hlo =>
    obtain ⟨hb,hcu,hun,hl⟩ := h
    rw [hlo] at hl
    generalize l.job = job at hun hl ⊢
    cases hl with
    | tracked hs hdu => exact ⟨hb,hcu,hun,.free hs (job_done hdu)⟩

theorem commit_left {l : ConcurrentLedger} {c : Current} (hc : c.Sound x l.blocks.length)
    (ws : Workingset) (k : CollKey) :
    (∀ vv, (l.commit c ws).txmgr.db.state k.space k.key = some vv →
      vv.version.blockNum = l.blocks.length ∨ l.txmgr.db.state k.space k.key = some vv) ∧
    ∀ hv, (l.commit c ws).txmgr.db.state (k.hashed x).space (k.hashed x).keyHash = some hv →
      hv.version.blockNum = l.blocks.length ∨
        l.txmgr.db.state (k.hashed x).space (k.hashed x).keyHash = some hv := by
  let m : LockBasedTxMgr := ⟨l.txmgr.db,l.txmgr.expKeeper,some ws⟩
  have hdb : (l.commit c ws).txmgr.db =
      (m.commit x ⟨fun _ _ => 0⟩ l.blocks.length c.batch).db := rfl
  rw [hdb]
  refine ⟨fun vv hvv => ?_,fun hv hhv => ?_⟩
  · rcases commit_pvt_source hc.apart hvv with hg | ⟨_,ho⟩
    · exact .inl (hc.block.2 _ _ _ hg)
    · exact .inr ho
  rcases commit_hashed_source hc.apart hhv with hg | ⟨_,ho⟩
  · exact .inl (hc.block.1 _ _ _ hg)
  · exact .inr ho

/-- After the commit of the block with which a private key and its hash expire, neither is there
unless the block itself has written it. -/
theorem purge_complete (hinj : Function.Injective x.computeHash)
    (h : Run (fun l e l' => ConcurrentLedger.next x btlPolicy l e = some l')
      (.initial bulkOptimizable) es l)
    (hc : ∀ e ∈ es, Undisturbed x e) :
    ∀ e ∈ es, e.label = .commit → ∀ (k : CollKey) (vv hv : VersionedValue),
      e.before.txmgr.db.state k.space k.key = some vv →
      e.before.txmgr.db.state k.hashSpace (x.computeHash k.key) = some hv →
      vv.version = hv.version →
      btlPolicy.getExpiringBlock k.ns k.coll hv.version.blockNum = e.before.blocks.length →
      (∀ vv', e.after.txmgr.db.state k.space k.key = some vv' →
        vv'.version.blockNum = e.before.blocks.length) ∧
      ∀ hv', e.after.txmgr.db.state k.hashSpace (x.computeHash k.key) = some hv' →
        hv'.version.blockNum = e.before.blocks.length := by
  intro e he hl k vv hv hvv hhv hve hex
  obtain ⟨hbe,ha⟩ := (h.invariant_when (purge_step_sound hinj)
    (initial_sound bulkOptimizable) hc).2 e he
  have hn := h.step_of_mem he
  obtain ⟨l₀,label,l₁⟩ := e
  cases hl
  have hst : PurgeStep x btlPolicy l₀ .commit l₁ := purge_step hn
  cases hst with
  | @commit c ws _ hlo hj hcr hws =>
    have hcu := hbe.current c hcr
    obtain ⟨hp,hh⟩ := commit_left hcu ws k
    obtain ⟨hs,_⟩ := ha.lock.of_free
    have hln : (l₀.commit c ws).blocks.length = l₀.blocks.length + 1 := length_append
    have hbo := hcu.bound
    dsimp only at hbo hex hs hvv hhv ⊢
    refine ⟨fun vv' hvv' => ?_,fun hv' hhv' => ?_⟩
    · rcases hp vv' hvv' with hb | ho
      · exact hb
      cases ho.symm.trans hvv
      have hex' : expiryOf btlPolicy k.ns k.coll vv = l₀.blocks.length := by
        rw [expiryOf,hve]
        exact hex
      obtain ⟨hle,_⟩ := (hs.pvt k vv hvv').2.2 (by omega)
      omega
    · rcases hh hv' hhv' with hb | ho
      · exact hb
      cases ho.symm.trans hhv
      have hex' : expiryOf btlPolicy (k.hashed x).ns (k.hashed x).coll hv = l₀.blocks.length := hex
      obtain ⟨hle,_⟩ := (hs.hashed (k.hashed x) hv hhv').2 (by omega)
      omega

end

instance : Decidable (Undisturbed x e) := by
  unfold Undisturbed
  split
  · split <;> infer_instance
  · split <;> infer_instance
  · split <;> infer_instance
  · infer_instance

def purgeTrace (events : List PurgeEvent) :
    Option (ConcurrentLedger × List (Transition ConcurrentLedger PurgeEvent)) :=
  trace (fun l e => l.next samplePrimitives oneBlockToLive e) (.initial false) events

def firstCommit : List PurgeEvent :=
  [.validateAndPrepare ⟨0,[some (sampleRwSet [1,2])]⟩ (fun _ => none) true,.lockCommit,
   .retrieve,.evaluate,.publish,.commit,.retrieve,.evaluate,.publish]

def emptyCommit (num : Nat) : List PurgeEvent :=
  [.validateAndPrepare ⟨num,[]⟩ (fun _ => none) true,.lockCommit,.commit]

def quietEvents : List PurgeEvent :=
  firstCommit ++ emptyCommit 1 ++
    [.retrieve,.evaluate,.publish,.waitForPrepareToFinish [(0,samplePvtData 0 [1,2])],
     .lockReconcile,.patch,.track,.apply] ++ emptyCommit 2

def racingEvents : List PurgeEvent :=
  firstCommit ++ [.waitForPrepareToFinish [(0,samplePvtData 0 [1,2])]] ++ emptyCommit 1 ++
    [.retrieve,.lockReconcile,.patch,.track,.apply,.evaluate,.publish] ++ emptyCommit 2

theorem sample_purged : ∃ out e, purgeTrace quietEvents = some out ∧ e ∈ out.2 ∧
    e.label = .commit ∧ e.before.blocks.length = 2 ∧
    e.before.txmgr.db.state (.pvt [97] [99]) [1] = some ⟨[2],[],⟨0,0⟩⟩ ∧
    e.before.txmgr.db.state (.hashed [97] [99]) [7,1] = some ⟨[7,2],[],⟨0,0⟩⟩ ∧
    ∀ vv, e.after.txmgr.db.state (.pvt [97] [99]) [1] = some vv → vv.version.blockNum = 2 := by
  have hu : ∀ e ∈ ((purgeTrace quietEvents).get rfl).2, Undisturbed samplePrimitives e := by decide
  have hm := getLast_mem (l := ((purgeTrace quietEvents).get rfl).2) (by decide)
  refine ⟨_,_,(Option.some_get rfl).symm,hm,rfl,rfl,rfl,rfl,?_⟩
  exact (purge_complete sample_hash_injective (trace_get_run rfl) hu _ hm rfl
    ⟨[97],[99],[1]⟩ ⟨[2],[],⟨0,0⟩⟩ ⟨[7,2],[],⟨0,0⟩⟩ rfl rfl rfl (by decide)).1

/-- The private key and its hash expire with the commit of block 2, which deletes the hash and
leaves the key. -/
theorem racing_key_stays : ∃ out e, purgeTrace racingEvents = some out ∧ e ∈ out.2 ∧
    e.label = .commit ∧ e.before.blocks.length = 2 ∧
    oneBlockToLive.getExpiringBlock [97] [99] 0 = 2 ∧
    e.before.txmgr.db.state (.pvt [97] [99]) [1] = some ⟨[2],[],⟨0,0⟩⟩ ∧
    e.before.txmgr.db.state (.hashed [97] [99]) [7,1] = some ⟨[7,2],[],⟨0,0⟩⟩ ∧
    e.after.txmgr.db.state (.hashed [97] [99]) [7,1] = none ∧
    e.after.txmgr.db.state (.pvt [97] [99]) [1] = some ⟨[2],[],⟨0,0⟩⟩ :=
  ⟨_,_,(Option.some_get rfl).symm,
    getLast_mem (l := ((purgeTrace racingEvents).get rfl).2) (by decide),
    rfl,rfl,by decide,rfl,rfl,rfl,rfl⟩

end PluggableHcs.Txmgmt
