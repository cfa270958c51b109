import PluggableHcs.Txmgmt.BatchPreparer
import PluggableHcs.Txmgmt.Serializability

namespace PluggableHcs.Txmgmt
open Readings

/-- One comparison of a validation: of a key or of an interval. -/
inductive Check where
  | read (a : Access KVRead)
  | rangeQuery (ns : Bytes) (info : RangeQueryInfo)

def NsRwSet.checks (n : NsRwSet) : List Check :=
  n.kvRwSet.reads.map (fun r => .read ⟨.pub n.nameSpace,r⟩) ++
    (n.kvRwSet.rangeQueriesInfo.map (.rangeQuery n.nameSpace) ++
      n.collHashedRwSets.flatMap fun c => c.hashedRwSet.hashedReads.map fun r =>
        .read ⟨.hashed n.nameSpace c.collectionName,r.toRead⟩)

def TxRwSet.checks (rwset : TxRwSet) (doMVCCValidation : Bool) : List Check :=
  if doMVCCValidation then rwset.nsRwSets.flatMap NsRwSet.checks else []

section
variable (H : HashFunc) (db : Db) (updates : Batch)

namespace Check

def validate : Check → Reading Failure Bool
  | read a => validateRead db updates a.space a.item
  | rangeQuery ns info => validateRangeQuery H db updates ns info

def Holds : Check → Prop
  | read a => ReadHolds db updates a
  | rangeQuery ns info => ∃ results,
      Rerun (updates.apply db.state) ns info.startKey info.endKey (!info.itrExhausted) results ∧
        Records H info.readsInfo results

def Crash : Check → Cause → Prop
  | read _,_ => False
  | rangeQuery ns info,cause => ∃ results,
      Rerun (updates.apply db.state) ns info.startKey info.endKey (!info.itrExhausted) results ∧
        QueryCrash H info.readsInfo results cause

end Check

variable {H db updates}

theorem check_holds {c : Check} : (c.validate H db updates).result = .ok true ↔ c.Holds H db updates := by
  cases c with
  | read a => exact validate_read_true
  | rangeQuery ns io => exact range_query_passes

theorem check_panics {c : Check} :
    (c.validate H db updates).result = .error (.panic cause) ↔ c.Crash H db updates cause := by
  cases c with
  | read a =>
    obtain ⟨pa,hok,_⟩ : ∃ pa, (validateRead db updates a.space a.item).result = .ok pa ∧ _ :=
      validate_read_ok a.space a.item
    rw [Check.validate,hok]
    constructor
    · intro h
      cases h
    · exact False.elim
  | rangeQuery ns io => exact range_query_panics

/-- A validation fails or passes as the loop over its comparisons does. -/
structure Agrees (m : Reading Failure TxValidationCode) (cs : List Check)
    (H : HashFunc) (db : Db) (updates : Batch) : Prop where
  fails : ∀ e, m.result = .error e ↔ (every (Check.validate H db updates) cs).result = .error e
  passes : m.result = .ok .valid ↔ (every (Check.validate H db updates) cs).result = .ok true

theorem Agrees.check {check : Reading Failure Bool} {next : Reading Failure TxValidationCode}
    (hn : Agrees next cs' H db updates) (hco : co ≠ .valid)
    (hc : check.result = (every (Check.validate H db updates) cs).result) :
    Agrees (checkThat check co next) (cs ++ cs') H db updates := by
  by_cases hp : check.result = .ok true
  · have heq : (checkThat check co next).result = next.result := result_bind_ok hp
    have he : (every (Check.validate H db updates) (cs ++ cs')).result = _ :=
      every_append (hc.symm.trans hp)
    exact ⟨fun e => by rw [heq,he]; exact hn.fails e,by rw [heq,he]; exact hn.passes⟩
  have he : (every (Check.validate H db updates) (cs ++ cs')).result = _ :=
    every_append_stop (fun h => hp (hc.trans h))
  constructor
  · intro e
    rw [he,← hc,checkThat,result_bind]
    cases hr : check.result with
    | error f => simp
    | ok pa =>
      cases pa with
      | true => exact absurd hr hp
      | false => simp
  · rw [he,← hc,check_that_valid hco]
    exact ⟨fun h => h.1,fun h => absurd h hp⟩

theorem namespaces_agree (ns : List NsRwSet) :
    Agrees (validateNamespaces H db updates ns) (ns.flatMap NsRwSet.checks) H db updates := by
  induction ns with
  | nil => exact ⟨fun e => by simp [validateNamespaces,every],by simp [validateNamespaces,every]⟩
  | cons n ns ih =>
    rw [List.flatMap_cons,NsRwSet.checks,List.append_assoc,List.append_assoc,validateNamespaces]
    refine .check (.check (.check ih (by decide) ?_) (by decide) ?_) (by decide) ?_
    · rw [every_flat_map]
      refine every_congr fun c _ => ?_
      rw [every_map]
      rfl
    · rw [every_map]
      rfl
    · rw [every_map]
      rfl

theorem endorser_agrees (dm : Bool) (rt : TxRwSet) :
    Agrees (validateEndorserTX H db updates dm rt) (rt.checks dm)
      H db updates := by
  cases dm with
  | false => exact ⟨fun e => by simp [validateEndorserTX,TxRwSet.checks,every],
      by simp [validateEndorserTX,TxRwSet.checks,every]⟩
  | true => exact namespaces_agree rt.nsRwSets

theorem endorser_valid {rt : TxRwSet} :
    (validateEndorserTX H db updates dm rt).result = .ok .valid ↔
      ∀ c ∈ rt.checks dm, c.Holds H db updates := by
  rw [(endorser_agrees dm rt).passes,every_true]
  exact forall₂_congr fun c _ => check_holds

theorem endorser_panics {rt : TxRwSet} :
    (validateEndorserTX H db updates dm rt).result = .error (.panic cause) ↔
      ∃ c, First (Check.Holds H db updates) (rt.checks dm) c ∧ c.Crash H db updates cause := by
  have hh : (fun c => (Check.validate H db updates c).result = .ok true) =
      Check.Holds H db updates := funext fun c => propext check_holds
  rw [(endorser_agrees dm rt).fails,← hh]
  constructor
  · intro h
    obtain ⟨c,hf,heq⟩ := every_stopped (by rw [h]; simp)
    exact ⟨c,hf,check_panics.mp (heq.symm.trans h)⟩
  rintro ⟨c,hf,hc⟩
  rw [every_first hf]
  exact check_panics.mpr hc

end

section
variable (H : HashFunc) (db : Db) (doMVCCValidation : Bool) (num : Nat)

inductive TxsCrash : Batch → List Transaction → Cause → Prop
  | check (first : First (Check.Holds H db updates) (tx.rwset.checks doMVCCValidation) c)
      (crash : c.Crash H db updates cause) : TxsCrash updates (tx :: txs) cause
  | write (held : ∀ c ∈ tx.rwset.checks doMVCCValidation, c.Holds H db updates)
      (final : finalOps tx.rwset updates db ck = some ops) (nil : ops.Nil) :
      TxsCrash updates (tx :: txs) .nilValue
  | invalid
      (validated : (validateEndorserTX H db updates doMVCCValidation tx.rwset).result = .ok code)
      (invalid : code ≠ .valid) (rest : TxsCrash updates txs cause) :
      TxsCrash updates (tx :: txs) cause
  | valid (held : ∀ c ∈ tx.rwset.checks doMVCCValidation, c.Holds H db updates)
      (applied : (applyWriteSet updates tx.rwset ⟨num,tx.indexInBlock⟩ db).result = .ok updates')
      (rest : TxsCrash updates' txs cause) : TxsCrash updates (tx :: txs) cause

variable {H db doMVCCValidation num}

section
variable {tx : Transaction} {us u' : Batch}

theorem process_error
    (h : (validateEndorserTX H db us doMVCCValidation tx.rwset).result = .error e) (t : Nat) :
    processTx H db (fun _ => false) doMVCCValidation num tx us t = .error e := by
  unfold processTx
  rw [run_quiet,h]

theorem process_invalid (h : (validateEndorserTX H db us doMVCCValidation tx.rwset).result = .ok co)
    (hc : co ≠ .valid) (t : Nat) :
    ∃ t', processTx H db (fun _ => false) doMVCCValidation num tx us t = .ok (co,us,t') := by
  unfold processTx
  rw [run_quiet,h]
  cases co with
  | valid => exact absurd rfl hc
  | mvccReadConflict | phantomReadConflict => exact ⟨_,rfl⟩

variable (h : (validateEndorserTX H db us doMVCCValidation tx.rwset).result = .ok .valid)
include h

theorem process_nil (hn : (applyWriteSet us tx.rwset ⟨num,tx.indexInBlock⟩ db).result =
      .error (.panic .nilValue)) (t : Nat) :
    processTx H db (fun _ => false) doMVCCValidation num tx us t = .error (.panic .nilValue) := by
  unfold processTx
  rw [run_quiet,h]
  dsimp only
  rw [run_quiet,hn]

theorem process_applied (hok : (applyWriteSet us tx.rwset ⟨num,tx.indexInBlock⟩ db).result = .ok u')
    (t : Nat) :
    ∃ t', processTx H db (fun _ => false) doMVCCValidation num tx us t = .ok (.valid,u',t') := by
  unfold processTx
  rw [run_quiet,h]
  dsimp only
  rw [run_quiet,hok]
  exact ⟨_,rfl⟩

end

theorem validate_txs_error
    (h : processTx H db (fun _ => false) doMVCCValidation num tx updates t = .error e) :
    validateTxs H db (fun _ => false) doMVCCValidation num (tx :: txs) updates t = .error e := by
  rw [validateTxs,h]
  rfl

theorem validate_txs_next
    (h : processTx H db (fun _ => false) doMVCCValidation num tx updates t = .ok out) :
    validateTxs H db (fun _ => false) doMVCCValidation num (tx :: txs) updates t = .error e ↔
      validateTxs H db (fun _ => false) doMVCCValidation num txs out.2.1 out.2.2 = .error e := by
  rw [validateTxs,h]
  exact Outcomes.bind_pure_error

theorem TxsCrash.panics (h : TxsCrash H db doMVCCValidation num updates txs ca) (t : Nat) :
    validateTxs H db (fun _ => false) doMVCCValidation num txs updates t = .error (.panic ca) := by
  induction h generalizing t with
  | check first cr => exact validate_txs_error (process_error (endorser_panics.mpr ⟨_,first,cr⟩) t)
  | write he f ni =>
    exact validate_txs_error (process_nil (endorser_valid.mpr he) (apply_write_set_nil f ni) t)
  | invalid va invalid _ ih =>
    obtain ⟨t',hp⟩ := process_invalid va invalid t
    exact (validate_txs_next hp).mpr (ih t')
  | valid he ap _ ih =>
    obtain ⟨t',hp⟩ := process_applied (endorser_valid.mpr he) ap t
    exact (validate_txs_next hp).mpr (ih t')

theorem crash_of_panics (h : validateTxs H db (fun _ => false) doMVCCValidation num ts updates t =
      .error (.panic cause)) : TxsCrash H db doMVCCValidation num updates ts cause := by
  induction ts generalizing updates t with
  | nil => cases h
  | cons tx ts ih =>
    cases hv : (validateEndorserTX H db updates doMVCCValidation tx.rwset).result with
    | error e =>
      rw [validate_txs_error (process_error hv t)] at h
      cases h
      obtain ⟨c,first,cr⟩ := endorser_panics.mp hv
      exact .check first cr
    | ok co =>
      by_cases hc : co = .valid
      · subst hc
        have he := endorser_valid.mp hv
        rcases apply_write_set_result updates tx.rwset ⟨num,tx.indexInBlock⟩ db with
          ⟨hpa,ck,ops,final,nil⟩ | ⟨updates',hok,_,_⟩
        · rw [validate_txs_error (process_nil hv hpa t)] at h
          cases h
          exact .write he final nil
        · obtain ⟨t',hp⟩ := process_applied hv hok t
          exact .valid he hok (ih ((validate_txs_next hp).mp h))
      · obtain ⟨t',hp⟩ := process_invalid hv hc t
        exact .invalid hv hc (ih ((validate_txs_next hp).mp h))

theorem prepare_batch_panics :
    validateAndPrepareBatch H db (fun _ => false) doMVCCValidation blk = .error (.panic cause) ↔
      TxsCrash H db doMVCCValidation blk.num ∅ blk.txs cause := by
  have hl : (preLoad db blk).result = .ok () := by
    unfold preLoad preLoadCommittedVersionOfRSet
    split
    · split <;> rfl
    · rfl
  unfold validateAndPrepareBatch
  rw [run_quiet,hl]
  exact ⟨crash_of_panics,fun h => h.panics _⟩

end

inductive Crashes (x : Primitives) (db : Db) (doMVCCValidation : Bool) (blk : Block)
    (pvtdata : Nat → Option TxPvtData) : Cause → Prop
  | txs (crash : TxsCrash x.hashFunc db doMVCCValidation blk.num ∅ blk.txs cause) :
      Crashes x db doMVCCValidation blk pvtdata cause
  | pvt (prepared : validateAndPrepareBatch x.hashFunc db (fun _ => false) doMVCCValidation blk =
        .ok (updates,codes))
      (crash : PvtCrash x updates db blk.num (pvtEntries blk codes pvtdata)) :
      Crashes x db doMVCCValidation blk pvtdata .nilValue

theorem preparer_panics : CommitBatchPreparer.validateAndPrepareBatch x db blk pv dm =
      .error (.panic cause) ↔
    Crashes x db dm (preprocessProtoBlock x blk) pv cause := by
  unfold CommitBatchPreparer.validateAndPrepareBatch
  dsimp only
  cases hp : validateAndPrepareBatch x.hashFunc db (fun _ => false) dm
      (preprocessProtoBlock x blk) with
  | error e =>
    have he : ((Except.error e : Except Failure (Batch × List TxValidationCode)) =
        .error (.panic cause)) ↔ Crashes x db dm (preprocessProtoBlock x blk) pv
          cause := by
      rw [← hp,prepare_batch_panics]
      constructor
      · exact .txs
      rintro (cr | ⟨pr,_⟩)
      · exact cr
      · rw [hp] at pr
        cases pr
    exact ⟨fun h => he.mp (congrArg _ (Except.error.inj h)),
      fun h => congrArg _ (Except.error.inj (he.mpr h))⟩
  | ok o =>
    have hpv : Crashes x db dm (preprocessProtoBlock x blk) pv cause ↔
        cause = .nilValue ∧ PvtCrash x o.1 db (preprocessProtoBlock x blk).num
          (pvtEntries (preprocessProtoBlock x blk) o.2 pv) := by
      constructor
      · rintro (cr | ⟨pr,cr⟩)
        · rw [prepare_batch_panics.mpr cr] at hp
          cases hp
        rw [hp] at pr
        cases pr
        exact ⟨rfl,cr⟩
      · rintro ⟨rfl,cr⟩
        exact .pvt hp cr
    rw [hpv,← pvt_batch_panics]
    exact Outcomes.bind_pure_error

theorem prepare_never_panics (x : Primitives) (db : Db) (doMVCCValidation : Bool)
    (blk : ProtoBlock) (pvtdata : Nat → Option TxPvtData) :
    (∀ cause, CommitBatchPreparer.validateAndPrepareBatch x db blk pvtdata doMVCCValidation ≠
      .error (.panic cause)) ↔
    ∀ cause, ¬ Crashes x db doMVCCValidation (preprocessProtoBlock x blk) pvtdata cause :=
  forall_congr' fun _ => not_congr preparer_panics

def plainPrimitives : Primitives where
  computeHash b := b
  hashFunc := ⟨fun _ => [],fun _ => []⟩
  unmarshalKVRWSet _ := none
  validateKeyValue _ _ := true

def singleBlock (rwset : KVRWSet) : ProtoBlock := ⟨2,[some ⟨[⟨[97],rwset,[]⟩]⟩]⟩

def nineKeysDb : Db :=
  emptyDb.applyUpdates ([1,2,3,4,5,6,7,8,9].foldl
    (fun b k => b.update (.pub [97]) [k] ⟨[5],[],⟨1,0⟩⟩) ∅)

/-- A write without a value, a read result without a version, a tree that does not branch, and a tree
that is higher than recorded. -/
theorem endorsed_transaction_panics :
    CommitBatchPreparer.validateAndPrepareBatch plainPrimitives nineKeysDb
      (singleBlock ⟨[],[],[⟨[1],false,[]⟩],[]⟩) (fun _ => none) true = .error (.panic .nilValue) ∧
    CommitBatchPreparer.validateAndPrepareBatch plainPrimitives nineKeysDb
      (singleBlock ⟨[],[⟨[],[],true,.rawReads [⟨[1],none⟩]⟩],[],[]⟩) (fun _ => none) true =
        .error (.panic .nilVersion) ∧
    CommitBatchPreparer.validateAndPrepareBatch plainPrimitives nineKeysDb
      (singleBlock ⟨[],[⟨[],[],true,.readsMerkleHashes ⟨0,1,[]⟩⟩],[],[]⟩) (fun _ => none) true =
        .error (.panic .nilHelper) ∧
    CommitBatchPreparer.validateAndPrepareBatch plainPrimitives nineKeysDb
      (singleBlock ⟨[],[⟨[],[],true,.readsMerkleHashes ⟨2,1,[[],[]]⟩⟩],[],[]⟩) (fun _ => none) true =
        .error (.panic .indexOutOfRange) :=
  ⟨rfl,rfl,rfl,rfl⟩

end PluggableHcs.Txmgmt
