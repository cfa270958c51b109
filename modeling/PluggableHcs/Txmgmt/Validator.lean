import PluggableHcs.Txmgmt.RangeQuery
import PluggableHcs.Txmgmt.TxOps

namespace PluggableHcs.Txmgmt
open Readings TxRwSet

inductive TxValidationCode where
  | valid
  | mvccReadConflict
  | phantomReadConflict
deriving DecidableEq

structure Transaction where
  indexInBlock : Nat
  rwset : TxRwSet

/-- The endorser transactions of a block in their order. -/
structure Block where
  num : Nat
  txs : List Transaction
  indexed : (txs.map Transaction.indexInBlock).Pairwise (· < ·)

section
variable (H : HashFunc) (db : Db) (updates : Batch)

def validateRead (s : Space) (r : KVRead) : Reading Failure Bool :=
  if (updates.get s r.key).isSome then pure false
  else do
    let committedVersion ← db.getVersion s r.key
    pure (committedVersion = r.version)

def validateReadSet (ns : Bytes) (kvReads : List KVRead) : Reading Failure Bool :=
  every (validateRead db updates (.pub ns)) kvReads

def validateRangeQueries (ns : Bytes) (infos : List RangeQueryInfo) : Reading Failure Bool :=
  every (validateRangeQuery H db updates ns) infos

def validateCollHashedReadSet (ns coll : Bytes) (kvReadHashes : List KVReadHash) :
    Reading Failure Bool :=
  every (fun r => validateRead db updates (.hashed ns coll) r.toRead) kvReadHashes

def validateNsHashedReadSets (ns : Bytes) (collHashedRwSets : List CollHashedRwSet) :
    Reading Failure Bool :=
  every (fun c => validateCollHashedReadSet db updates ns c.collectionName c.hashedRwSet.hashedReads)
    collHashedRwSets

/-- The code of a check that is not passed is the code of the transaction. -/
def checkThat (check : Reading Failure Bool) (code : TxValidationCode)
    (next : Reading Failure TxValidationCode) : Reading Failure TxValidationCode := do
  if ← check then next else pure code

def validateNamespaces : List NsRwSet → Reading Failure TxValidationCode
  | [] => pure .valid
  | n :: rest =>
    checkThat (validateReadSet db updates n.nameSpace n.kvRwSet.reads) .mvccReadConflict <|
    checkThat (validateRangeQueries H db updates n.nameSpace n.kvRwSet.rangeQueriesInfo)
      .phantomReadConflict <|
    checkThat (validateNsHashedReadSets db updates n.nameSpace n.collHashedRwSets)
      .mvccReadConflict <|
    validateNamespaces rest

def validateTx (rwset : TxRwSet) : Reading Failure TxValidationCode :=
  validateNamespaces H db updates rwset.nsRwSets

def validateEndorserTX (doMVCCValidation : Bool) (rwset : TxRwSet) :
    Reading Failure TxValidationCode :=
  if doMVCCValidation then validateTx H db updates rwset else pure .valid

variable {H db updates}

def ReadHolds (db : Db) (updates : Batch) (a : Access KVRead) : Prop :=
  updates.get a.space a.item.key = none ∧
    (db.state a.space a.item.key).map VersionedValue.version = a.item.version

theorem validate_read_ok (s : Space) (r : KVRead) :
    ∃ pa, (validateRead db updates s r).result = .ok pa ∧
      (pa = true ↔ ReadHolds db updates ⟨s,r⟩) := by
  unfold validateRead ReadHolds
  by_cases hg : updates.get s r.key = none
  · rw [hg,if_neg (by simp),result_bind_ok Db.get_version_result]
    exact ⟨_,rfl,by simp⟩
  · rw [if_pos (Option.isSome_iff_ne_none.mpr hg)]
    exact ⟨false,rfl,by simp [hg]⟩

theorem validate_read_true :
    (validateRead db updates s r).result = .ok true ↔ ReadHolds db updates ⟨s,r⟩ := by
  obtain ⟨pa,hok,hi⟩ : ∃ pa, (validateRead db updates s r).result = .ok pa ∧ _ :=
    validate_read_ok s r
  rw [hok,← hi,Except.ok.injEq]

theorem validate_read_false
    (h : (validateRead db updates s r).result = .ok false) : ¬ ReadHolds db updates ⟨s,r⟩ := by
  rw [← validate_read_true,h]
  simp

theorem check_that_valid (hc : co ≠ .valid) : (checkThat check co next).result = .ok .valid ↔
      check.result = .ok true ∧ next.result = .ok .valid := by
  rw [checkThat,result_bind]
  cases check.result with
  | error e => simp
  | ok pa => cases pa <;> simp [hc]

theorem check_that_invalid (h : (checkThat check co next).result = .ok code') :
    check.result = .ok false ∨ next.result = .ok code' := by
  rw [checkThat,result_bind] at h
  cases hc : check.result with
  | error e =>
    rw [hc] at h
    cases h
  | ok pa =>
    cases pa with
    | false => exact .inl rfl
    | true =>
      rw [hc] at h
      exact .inr h

theorem reads_cons (n : NsRwSet) (re : List NsRwSet) :
    reads ⟨n :: re⟩ = (n.kvRwSet.reads.map (⟨.pub n.nameSpace,·⟩) ++
      n.collHashedRwSets.flatMap fun c => c.hashedRwSet.hashedReads.map
        fun r => ⟨.hashed n.nameSpace c.collectionName,r.toRead⟩) ++ reads ⟨re⟩ := by
  simp [reads,accesses,Function.comp_def]

theorem range_queries_cons (n : NsRwSet) (re : List NsRwSet) : rangeQueries ⟨n :: re⟩ =
      n.kvRwSet.rangeQueriesInfo.map (n.nameSpace,·) ++ rangeQueries ⟨re⟩ := by
  simp [rangeQueries]

theorem validate_tx_valid : (validateTx H db updates rt).result = .ok .valid ↔
      (∀ a ∈ rt.reads, ReadHolds db updates a) ∧
      ∀ q ∈ rt.rangeQueries, (validateRangeQuery H db updates q.1 q.2).result = .ok true := by
  obtain ⟨nr⟩ := rt
  unfold validateTx
  induction nr with
  | nil => simp [validateNamespaces,reads,accesses,rangeQueries]
  | cons n re ih =>
    rw [validateNamespaces,check_that_valid (by decide),check_that_valid (by decide),
      check_that_valid (by decide),ih,validateReadSet,validateRangeQueries,
      validateNsHashedReadSets,every_true,every_true,every_true,reads_cons,range_queries_cons]
    simp only [validate_read_true,validateCollHashedReadSet,every_true,List.forall_mem_append,
      List.forall_mem_map,List.forall_mem_flatMap]
    constructor
    · rintro ⟨hrd,hq,hh,hr⟩
      exact ⟨⟨⟨hrd,hh⟩,hr.1⟩,hq,hr.2⟩
    · rintro ⟨⟨⟨hrd,hh⟩,hr⟩,hq,hr'⟩
      exact ⟨hrd,hq,hh,hr,hr'⟩

theorem validate_tx_invalid (h : (validateTx H db updates rt).result = .ok co) (hco : co ≠ .valid) :
    (∃ a ∈ rt.reads, ¬ ReadHolds db updates a) ∨
    ∃ q ∈ rt.rangeQueries, (validateRangeQuery H db updates q.1 q.2).result = .ok false := by
  obtain ⟨nr⟩ := rt
  induction nr with
  | nil =>
    cases h
    exact absurd rfl hco
  | cons n re ih =>
    rw [reads_cons,range_queries_cons]
    rcases check_that_invalid h with hrd | h
    · obtain ⟨r,hr,hf⟩ := every_false hrd
      exact .inl ⟨_,List.mem_append_left _ (List.mem_append_left _ (List.mem_map_of_mem hr)),
        validate_read_false hf⟩
    · rcases check_that_invalid h with hqu | h
      · obtain ⟨q,hq,hf⟩ := every_false hqu
        exact .inr ⟨_,List.mem_append_left _ (List.mem_map_of_mem hq),hf⟩
      rcases check_that_invalid h with hh | h
      · obtain ⟨c,hc,hcl⟩ := every_false hh
        obtain ⟨r,hr,hf⟩ := every_false hcl
        exact .inl ⟨_,List.mem_append_left _ (List.mem_append_right _
          (List.mem_flatMap.mpr ⟨c,hc,List.mem_map_of_mem hr⟩)),validate_read_false hf⟩
      · rcases ih h with ⟨a,ha,hn⟩ | ⟨q,hq,hf⟩
        · exact .inl ⟨a,List.mem_append_right _ ha,hn⟩
        · exact .inr ⟨q,List.mem_append_right _ hq,hf⟩

end

variable (H : HashFunc) (db : Db) (fault : Nat → Bool) (doMVCCValidation : Bool)

/-- The versions of all keys that the block read are loaded at once. -/
def preLoadCommittedVersionOfRSet (blk : Block) : Reading Failure Unit :=
  if blk.txs.all fun tx => tx.rwset.reads.isEmpty then pure () else read ()

/-- One transaction. What is read from the database may fail, and such an error is dropped while the
write set is applied. -/
def processTx (num : Nat) (tx : Transaction) (updates : Batch) (t : Nat) :
    Except Failure (TxValidationCode × Batch × Nat) :=
  match (validateEndorserTX H db updates doMVCCValidation tx.rwset).run fault .database t with
  | (.error e,_) => .error e
  | (.ok .valid,t') =>
    match (applyWriteSet updates tx.rwset ⟨num,tx.indexInBlock⟩ db).run fault .database t' with
    | (.ok updates',t'') => .ok (.valid,updates',t'')
    | (.error (.panic cause),_) => .error (.panic cause)
    | (.error _,t'') => .ok (.valid,updates,t'')
  | (.ok code,t') => .ok (code,updates,t')

def validateTxs (num : Nat) : List Transaction → Batch → Nat →
    Except Failure (Batch × List TxValidationCode)
  | [],updates,_ => .ok (updates,[])
  | tx :: txs,updates,t => do
    let out ← processTx H db fault doMVCCValidation num tx updates t
    let rest ← validateTxs num txs out.2.1 out.2.2
    pure (rest.1,out.1 :: rest.2)

def preLoad (blk : Block) : Reading Failure Unit :=
  if db.bulkOptimizable then preLoadCommittedVersionOfRSet blk else pure ()

def validateAndPrepareBatch (blk : Block) : Except Failure (Batch × List TxValidationCode) :=
  match (preLoad db blk).run fault .database 0 with
  | (.error e,_) => .error e
  | (.ok _,t) => validateTxs H db fault doMVCCValidation blk.num blk.txs ∅ t

variable {H db fault doMVCCValidation}

theorem apply_write_set_failure
    (h : ((applyWriteSet updates rt th db).run fault .database t).1 = .error e) :
    e = .database ∨ e = .panic .nilValue := by
  by_cases hq : (applyWriteSet updates rt th db).Undisturbed fault t
  · rw [run_undisturbed hq] at h
    rcases apply_write_set_result updates rt th db with ⟨hp,_⟩ | ⟨u',hok,_⟩
    · rw [hp] at h
      cases h
      exact .inr rfl
    · rw [hok] at h
      cases h
  · rw [run_disturbed hq] at h
    cases h
    exact .inl rfl

variable (H db fault doMVCCValidation)

inductive Processed (num : Nat) (tx : Transaction) (updates : Batch) (t : Nat) :
    TxValidationCode → Batch → Nat → Prop
  | invalid (t' : Nat)
      (validated : (validateEndorserTX H db updates doMVCCValidation tx.rwset).run fault .database t =
        (.ok code,t'))
      (invalid : code ≠ .valid) : Processed num tx updates t code updates t'
  | applied (t' : Nat)
      (validated : (validateEndorserTX H db updates doMVCCValidation tx.rwset).run fault .database t =
        (.ok .valid,t'))
      (applied : (applyWriteSet updates tx.rwset ⟨num,tx.indexInBlock⟩ db).run fault .database t' =
        (.ok updates',t'')) : Processed num tx updates t .valid updates' t''
  | dropped (t' : Nat)
      (validated : (validateEndorserTX H db updates doMVCCValidation tx.rwset).run fault .database t =
        (.ok .valid,t'))
      (dropped : (applyWriteSet updates tx.rwset ⟨num,tx.indexInBlock⟩ db).run fault .database t' =
        (.error .database,t'')) : Processed num tx updates t .valid updates t''

/-- A run over the transactions of a block. -/
inductive Validated (num : Nat) :
    Batch → Nat → List Transaction → Batch → List TxValidationCode → Prop
  | nil : Validated num updates t [] updates []
  | cons (first : Processed H db fault doMVCCValidation num tx updates t code updates' t')
      (rest : Validated num updates' t' txs final codes) :
      Validated num updates t (tx :: txs) final (code :: codes)

variable {H db fault doMVCCValidation}

theorem process_tx_processed
    (h : processTx H db fault doMVCCValidation num tx updates t = .ok out) :
    Processed H db fault doMVCCValidation num tx updates t out.1 out.2.1 out.2.2 := by
  unfold processTx at h
  split at h
  · cases h
  · rename_i t' hv
    split at h
    · rename_i u' t'' ha
      cases h
      exact .applied t' hv ha
    · cases h
    · rename_i e t'' hn ha
      cases h
      rcases apply_write_set_failure (congrArg Prod.fst ha) with rfl | rfl
      · exact .dropped t' hv ha
      · exact absurd rfl (hn _)
  · rename_i co t' hn hv
    cases h
    exact .invalid t' hv fun heq => hn heq

theorem validate_txs_validated
    (h : validateTxs H db fault doMVCCValidation num ts updates t = .ok (final,codes)) :
    Validated H db fault doMVCCValidation num updates t ts final codes := by
  induction ts generalizing updates t final codes with
  | nil =>
    cases h
    exact .nil
  | cons tx ts ih =>
    obtain ⟨o,ho,h⟩ := Outcomes.bind_ok.mp h
    obtain ⟨re,hr,h⟩ := Outcomes.bind_ok.mp h
    cases h
    exact .cons (process_tx_processed ho) (ih hr)

section
variable (h : validateAndPrepareBatch H db fault doMVCCValidation blk = .ok (batch,codes))
include h

theorem prepare_batch_ok : validateTxs H db fault doMVCCValidation blk.num blk.txs ∅
      ((preLoad db blk).run fault .database 0).2 = .ok (batch,codes) := by
  unfold validateAndPrepareBatch at h
  split at h
  · cases h
  rename_i hl
  rw [hl]
  exact h

theorem prepare_batch_validated :
    ∃ t, Validated H db fault doMVCCValidation blk.num ∅ t blk.txs batch codes :=
  ⟨_,validate_txs_validated (prepare_batch_ok h)⟩

end

theorem Validated.source (h : Validated H db fault doMVCCValidation num us t ts f cs)
    (hg : f.get s k = some vv) :
    us.get s k = some vv ∨ ∃ tx be os, (tx,.valid) ∈ ts.zip cs ∧
      written tx.rwset be db s k = some os ∧ ¬ os.Nil ∧
      vv = os.entry ⟨num,tx.indexInBlock⟩ := by
  induction h with
  | nil => exact .inl hg
  | @cons tx us t co u' t' ts f cs first _ ih =>
    rcases ih hg with hg | ⟨tx',be,os,hm,hr⟩
    · cases first with
      | invalid | dropped => exact .inl hg
      | applied _ _ applied =>
        obtain ⟨hn,hes⟩ := apply_write_set_ok (run_ok applied).2
        rw [hes,Option.or_eq_some_iff] at hg
        rcases hg with hw | ⟨_,hg⟩
        · obtain ⟨os,ho,rfl⟩ := Option.map_eq_some_iff.mp hw
          obtain ⟨ck,_,hf⟩ := Option.bind_eq_some_iff.mp ho
          exact .inr ⟨tx,us,os,List.mem_cons_self,ho,hn ck os hf,rfl⟩
        · exact .inl hg
    · exact .inr ⟨tx',be,os,List.mem_cons_of_mem _ hm,hr⟩

end PluggableHcs.Txmgmt
