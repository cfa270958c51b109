import PluggableHcs.Txvalidator.ParallelValidation

namespace PluggableHcs.Txvalidator
open Runs Txmgmt List

/-- What the policy checks read of the committed state. -/
structure Committed where
  /-- The validation parameter in the metadata of a public key, empty when there is none. -/
  stateMetadata : Bytes → Bytes → Bytes
  /-- The same for a private key hash; nothing when the collection is not defined. -/
  privateDataMetadataByHash : Bytes → Bytes → Bytes → Option Bytes
  /-- CollectionValidationInfo, with nothing for its validation error. -/
  collectionValidationInfo : Bytes → Bytes → Option Bytes
  ccEP : Bytes → Bytes
  /-- A SignaturePolicyEnvelope that is decoded and marshaled as a field of another message. -/
  signaturePolicy : Bytes → Option Bytes

open Committed

/-- A transaction of a block with its endorsements. -/
structure EndorsedTx where
  results : Option (Option TxRwSet)
  accepted : Bool
  ccID : Bytes
  infoFound : Bytes → Bool
  /-- Whether its signature set satisfies an application policy. -/
  satisfies : Bytes → Bool
  /-- Whether the read of the metadata of a key fails. -/
  keyFails : LedgerKeyID → Bool
  /-- Whether the read of the policy of a collection fails. -/
  collFails : Bytes → Bool

inductive LookupError where
  /-- CollConfigNotDefinedError or InvalidCollNameError. -/
  | collection
  | other
deriving DecidableEq

inductive PolicyError where
  | endorsementPolicy
  | executionFailure
deriving DecidableEq

/-- The policyCheckerV20 of one transaction and namespace. -/
structure PolicyChecker where
  someEPChecked : Bool
  nsEPChecked : List Bytes

def PolicyChecker.new : PolicyChecker := ⟨false,[]⟩

def Committed.metadata (s : Committed) (kid : LedgerKeyID) : Option Bytes :=
  if kid.coll = [] then some (s.stateMetadata kid.cc kid.key)
  else s.privateDataMetadataByHash kid.cc kid.coll kid.key

def Committed.translate (s : Committed) (b : Bytes) : Option Bytes :=
  if b = [] then some b else (s.signaturePolicy b).map (10 :: ·)

section
variable (s : Committed) (tx : EndorsedTx)

def fetchCollEP (cc coll : Bytes) : Except PolicyError Bytes :=
  if tx.collFails coll then .error .executionFailure
  else match s.collectionValidationInfo cc coll with
    | none => .error .endorsementPolicy
    | some collEP => .ok collEP

section
variable (p : PolicyChecker)

/-- An evaluated policy is noted under the name of the collection, or under no name. -/
def evaluateEP (coll ep : Bytes) : Except PolicyError PolicyChecker :=
  if tx.satisfies ep then .ok ⟨true,coll :: p.nsEPChecked⟩ else .error .endorsementPolicy

def checkCCEP (cc : Bytes) : Except PolicyError PolicyChecker :=
  if [] ∈ p.nsEPChecked then .ok p else evaluateEP tx p [] (s.ccEP cc)

def checkCCEPIfNotChecked (cc coll : Bytes) : Except PolicyError PolicyChecker :=
  if coll = [] then checkCCEP s tx p cc
  else if coll ∈ p.nsEPChecked then .ok p
  else match fetchCollEP s tx cc coll with
    | .error e => .error e
    | .ok collEP =>
      if collEP = [] then checkCCEP s tx p cc else evaluateEP tx p coll collEP

def checkCCEPIfNoEPChecked (cc : Bytes) : Except PolicyError PolicyChecker :=
  if p.someEPChecked then .ok p else evaluateEP tx p [] (s.ccEP cc)

/-- GetValidationParameterForKey once it has waited for the earlier transactions. -/
def getValidationParameterForKey (kid : LedgerKeyID) : Except LookupError Bytes :=
  if tx.keyFails kid then .error .other
  else match s.metadata kid with
    | none => .error .collection
    | some b =>
      match s.translate b with
      | none => .error .other
      | some policy => .ok policy

def checkSBAndCCEP (kid : LedgerKeyID) : Except PolicyError PolicyChecker :=
  match getValidationParameterForKey s tx kid with
  | .error .other => .error .executionFailure
  -- the ledger is left to deal with collections it does not know
  | .error .collection => checkCCEPIfNotChecked s tx p kid.cc kid.coll
  | .ok vp =>
    if vp = [] then checkCCEPIfNotChecked s tx p kid.cc kid.coll
    else if tx.satisfies vp then .ok { p with someEPChecked := true }
    else .error .endorsementPolicy

def checkKeys (keys : List LedgerKeyID) : Except PolicyError PolicyChecker :=
  keys.foldlM (checkSBAndCCEP s tx) p

end

def evaluate (rwset : TxRwSet) (ns : Bytes) : Except PolicyError PolicyChecker :=
  match checkKeys s tx .new (evaluatedKeys rwset ns) with
  | .error e => .error e
  | .ok p => checkCCEPIfNoEPChecked s tx p ns

/-- The transaction as its worker sees it. A key is checked with what the keys before it left in
the policy checker. -/
def EndorsedTx.blockTx : BlockTx where
  results := tx.results
  accepted := tx.accepted
  ccID := tx.ccID
  infoFound := tx.infoFound
  keyPolicy kid :=
    match tx.results with
    | some (some rwset) =>
      let keys := evaluatedKeys rwset kid.cc
      (checkKeys s tx .new (keys.take (keys.idxOf kid + 1))).isOk
    | _ => false
  chaincodePolicy ns :=
    match tx.results with
    | some (some rwset) => (evaluate s tx rwset ns).isOk
    | _ => false

end

/-- A key that a transaction writes, or whose metadata it writes. -/
inductive WrittenKey where
  | pub (key : Bytes)
  | pvt (coll keyHash : Bytes)

def WrittenKey.id (ns : Bytes) : WrittenKey → LedgerKeyID
  | .pub key => ⟨ns,[],key⟩
  | .pvt coll keyHash => ⟨ns,coll,keyHash⟩

def writtenKeys (rwset : TxRwSet) (ns : Bytes) : List WrittenKey :=
  (rwset.nsRwSets.filter fun rws => rws.nameSpace = ns).flatMap fun rws =>
    rws.kvRwSet.writes.map (fun w => .pub w.key) ++
    rws.kvRwSet.metadataWrites.map (fun mw => .pub mw.key) ++
    (rws.collHashedRwSets.flatMap fun cw =>
      cw.hashedRwSet.hashedWrites.map fun w => .pvt cw.collectionName w.keyHash) ++
    rws.collHashedRwSets.flatMap fun cw =>
      cw.hashedRwSet.metadataWrites.map fun mw => .pvt cw.collectionName mw.keyHash

def Committed.defaultPolicy (s : Committed) (ns coll : Bytes) : Bytes :=
  let collEP := if coll = [] then [] else (s.collectionValidationInfo ns coll).getD []
  if collEP = [] then s.ccEP ns else collEP

def Committed.parameter (s : Committed) (ns : Bytes) : WrittenKey → Bytes
  | .pub key => s.stateMetadata ns key
  | .pvt coll keyHash => (s.privateDataMetadataByHash ns coll keyHash).getD []

def Committed.policyInForce (s : Committed) (ns : Bytes) (w : WrittenKey) : Option Bytes :=
  if s.parameter ns w = [] then some (s.defaultPolicy ns (w.id ns).coll)
  else s.translate (s.parameter ns w)

def EndorsedTx.written (tx : EndorsedTx) (ns : Bytes) : List WrittenKey :=
  match tx.results with
  | some (some rwset) => writtenKeys rwset ns
  | _ => []

def WrittenKey.named : WrittenKey → Bool
  | .pub _ => true
  | .pvt coll _ => coll ≠ []

theorem evaluated_written (rt : TxRwSet) (ns : Bytes) :
    evaluatedKeys rt ns = (writtenKeys rt ns).map (WrittenKey.id ns) := by
  unfold evaluatedKeys writtenKeys
  simp only [map_flatMap,map_append,map_map]
  rfl

@[simp] theorem WrittenKey.id_cc (w : WrittenKey) : (w.id ns).cc = ns := by
  cases w <;> rfl

theorem evaluated_of_written {tx : EndorsedTx} (h : w ∈ tx.written ns) :
    w.id ns ∈ (tx.blockTx s).evaluated ns := by
  unfold EndorsedTx.written at h
  unfold BlockTx.evaluated EndorsedTx.blockTx
  split at h
  · rename_i hr
    simp only [hr,evaluated_written]
    exact mem_map_of_mem h
  · cases h

variable {s : Committed} {tx : EndorsedTx} {cc : Bytes}

def PolicyChecker.Right (s : Committed) (tx : EndorsedTx) (cc : Bytes) (p : PolicyChecker) : Prop :=
  ∀ coll ∈ p.nsEPChecked, tx.satisfies (s.defaultPolicy cc coll)

theorem evaluate_ep_right (hp : p.Right s tx cc)
    (h : evaluateEP tx p co (s.defaultPolicy cc co) = .ok q) :
    q.Right s tx cc ∧ tx.satisfies (s.defaultPolicy cc co) := by
  unfold evaluateEP at h
  split at h
  · rename_i hs
    cases h
    refine ⟨?_,hs⟩
    intro c hc
    rcases mem_cons.mp hc with rfl | hc
    · exact hs
    · exact hp c hc
  · cases h

theorem check_ccep_right (hp : p.Right s tx cc)
    (h : checkCCEP s tx p cc = .ok q) : q.Right s tx cc ∧ tx.satisfies (s.ccEP cc) := by
  unfold checkCCEP at h
  split at h
  · rename_i hm
    cases h
    exact ⟨hp,hp [] hm⟩
  · have hd : s.defaultPolicy cc [] = s.ccEP cc := rfl
    exact evaluate_ep_right hp h

theorem check_if_not_checked_right (hp : p.Right s tx cc)
    (h : checkCCEPIfNotChecked s tx p cc co = .ok q) :
    q.Right s tx cc ∧ tx.satisfies (s.defaultPolicy cc co) := by
  unfold checkCCEPIfNotChecked at h
  split at h
  · rename_i hc
    subst hc
    exact check_ccep_right hp h
  rename_i hc
  split at h
  · rename_i hm
    cases h
    exact ⟨hp,hp co hm⟩
  unfold fetchCollEP at h
  split at h
  · cases h
  rename_i collEP hf
  split at hf
  · cases hf
  split at hf
  · cases hf
  rename_i hi
  cases hf
  split at h
  · rename_i hn
    have hd : s.defaultPolicy cc co = s.ccEP cc := by
      simp [defaultPolicy,hc,hi,hn]
    rw [hd]
    exact check_ccep_right hp h
  · rename_i hs
    have hd : s.defaultPolicy cc co = collEP := by
      simp [defaultPolicy,hc,hi,hs]
    rw [← hd] at h
    exact evaluate_ep_right hp h

theorem metadata_parameter (h : w.named) : (s.metadata (w.id ns)).getD [] = s.parameter ns w := by
  cases w with
  | pub ke => rfl
  | pvt co kh =>
    have hc : co ≠ [] := of_decide_eq_true h
    simp [metadata,WrittenKey.id,hc,parameter]

theorem parameter_read (s : Committed) (tx : EndorsedTx) (ki : LedgerKeyID) :
    getValidationParameterForKey s tx ki = .error .other ∨
    (getValidationParameterForKey s tx ki = .error .collection ∧ (s.metadata ki).getD [] = []) ∨
    ∃ vp, getValidationParameterForKey s tx ki = .ok vp ∧
      s.translate ((s.metadata ki).getD []) = some vp := by
  unfold getValidationParameterForKey
  split
  · exact .inl rfl
  cases hm : s.metadata ki with
  | none => exact .inr (.inl ⟨rfl,rfl⟩)
  | some b =>
    cases hb : s.translate b with
    | none => exact .inl (by simp only [hb])
    | some vp => exact .inr (.inr ⟨vp,by simp only [hb],hb⟩)

theorem check_sb_right (hp : p.Right s tx ns)
    (hna : w.named) (h : checkSBAndCCEP s tx p (w.id ns) = .ok q) :
    q.Right s tx ns ∧ (s.policyInForce ns w).any tx.satisfies := by
  have hd : s.parameter ns w = [] → checkCCEPIfNotChecked s tx p ns (w.id ns).coll = .ok q →
      q.Right s tx ns ∧ (s.policyInForce ns w).any tx.satisfies := by
    intro hn h
    obtain ⟨hq,hs⟩ := check_if_not_checked_right hp h
    exact ⟨hq,by simp [policyInForce,hn,hs]⟩
  unfold checkSBAndCCEP at h
  rcases parameter_read s tx (w.id ns) with hr | ⟨hr,hn⟩ | ⟨vp,hr,hvp⟩
  · rw [hr] at h
    cases h
  · rw [hr,WrittenKey.id_cc] at h
    exact hd ((metadata_parameter hna).symm.trans hn) h
  rw [hr,WrittenKey.id_cc] at h
  rw [metadata_parameter hna] at hvp
  simp only at h
  by_cases hn : s.parameter ns w = []
  · have he : vp = [] := by
      rw [hn] at hvp
      exact (Option.some.inj hvp).symm
    rw [if_pos he] at h
    exact hd hn h
  · have hso : vp ≠ [] := by
      rintro rfl
      rw [Committed.translate,if_neg hn] at hvp
      simp at hvp
    rw [if_neg hso] at h
    split at h
    · rename_i hs
      cases h
      exact ⟨hp,by simp [policyInForce,hn,hvp,hs]⟩
    · cases h

theorem check_keys_right {ws : List WrittenKey} (hp : p.Right s tx ns) (hn : ∀ w ∈ ws, w.named)
    (h : checkKeys s tx p (ws.map (WrittenKey.id ns)) = .ok q) :
    ∀ w ∈ ws, (s.policyInForce ns w).any tx.satisfies := by
  induction ws generalizing p with
  | nil => exact forall_mem_nil _
  | cons w ws ih =>
    rw [checkKeys,map_cons,foldlM_cons] at h
    cases hw : checkSBAndCCEP s tx p (w.id ns) with
    | error e =>
      rw [hw] at h
      cases h
    | ok r =>
      rw [hw] at h
      obtain ⟨hr,hs⟩ := check_sb_right hp (hn w mem_cons_self) hw
      exact forall_mem_cons.mpr
        ⟨hs,ih hr (fun w hw => hn w (mem_cons_of_mem _ hw)) h⟩

theorem evaluate_right (hn : ∀ w ∈ tx.written ns, w.named)
    (h : (tx.blockTx s).chaincodePolicy ns = true) :
    (∀ w ∈ tx.written ns, (s.policyInForce ns w).any tx.satisfies) ∧
      (tx.written ns = [] → tx.satisfies (s.ccEP ns)) := by
  simp only [EndorsedTx.blockTx] at h
  unfold EndorsedTx.written at hn ⊢
  split at h
  · rename_i rt hr
    simp only [hr] at hn ⊢
    rw [evaluate,evaluated_written] at h
    cases hk : checkKeys s tx .new ((writtenKeys rt ns).map (WrittenKey.id ns)) with
    | error e =>
      rw [hk] at h
      cases h
    | ok p =>
      have hne : PolicyChecker.new.Right s tx ns := forall_mem_nil _
      refine ⟨check_keys_right hne hn hk,?_⟩
      intro hno
      rw [hno] at hk
      cases hk
      rw [hno] at h
      by_contra hs
      simp [checkKeys,checkCCEPIfNoEPChecked,evaluateEP,PolicyChecker.new,hs,Except.isOk,
        Except.toBool,pure,Except.pure] at h
  · cases h

end PluggableHcs.Txvalidator
