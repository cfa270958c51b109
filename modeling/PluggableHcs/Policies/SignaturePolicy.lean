import Mathlib.Data.List.Basic

namespace PluggableHcs.Policies

abbrev Bytes := List UInt8

instance : LawfulBEq Bytes := inferInstanceAs (LawfulBEq (List UInt8))

structure MSPPrincipal where
  principalClassification : Int
  principal : Bytes
deriving DecidableEq

/-- Indices and thresholds are int32 in the source. A nil pointer is `absent`, a message whose
type is not set is `unknown`. -/
inductive SignaturePolicy
  | signedBy (index : Int)
  | nOutOf (n : Int) (rules : List SignaturePolicy)
  | absent
  | unknown

structure SignaturePolicyEnvelope where
  version : Int
  rule : SignaturePolicy
  identities : List MSPPrincipal

theorem SignaturePolicy.induct {P : SignaturePolicy → Prop}
    (signedBy : ∀ index, P (.signedBy index))
    (nOutOf : ∀ n rules, (∀ rule ∈ rules, P rule) → P (.nOutOf n rules)) (absent : P .absent)
    (unknown : P .unknown) (policy : SignaturePolicy) : P policy := by
  refine @SignaturePolicy.rec P (fun rules => ∀ rule ∈ rules, P rule) signedBy nOutOf absent
    unknown ?_ ?_ policy
  · intro rule hr
    cases hr
  · intro rule rules hr hrs other ho
    cases ho with
    | head => exact hr
    | tail _ ho => exact hrs other ho

/-- What compile builds. The flags of the used identities, changed in place in the source, are
returned with the verdict. -/
abbrev Evaluator (Identity : Type) := List Identity → List Bool → Bool × List Bool

section
variable {Identity : Type}

/-- The first identity that is not used yet and satisfies the principal is used. -/
def signedByEvaluator (satisfies : Identity → Bool) : Evaluator Identity
  | sd :: signedData,u :: used =>
    if u = true ∨ satisfies sd = false then
      let (verified,rest) := signedByEvaluator satisfies signedData used
      (verified,u :: rest)
    else (true,true :: used)
  | _,used => (false,used)

/-- Every rule of a gate is visited, also past its threshold. A rule that fails leaves no
traces in the flags. -/
def nOutOfLoop (signedData : List Identity) :
    List (Evaluator Identity) → Nat → List Bool → Nat × List Bool
  | [],verified,used => (verified,used)
  | policy :: policies,verified,used =>
    match policy signedData used with
    | (true,_used) => nOutOfLoop signedData policies (verified + 1) _used
    | (false,_) => nOutOfLoop signedData policies verified used

/-- The function for a gate. A message has fewer than 2^31 rules, so the counter cannot wrap. -/
def nOutOfEvaluator (n : Int) (policies : List (Evaluator Identity)) : Evaluator Identity :=
  fun signedData used =>
    let (verified,used) := nOutOfLoop signedData policies 0 used
    (decide (n ≤ verified),used)

inductive CompileError
  | emptyPolicyElement
  | identityIndexOutOfRange (requested : Int) (length : Nat)
  | unknownType
deriving DecidableEq

def principalAt (identities : List MSPPrincipal) (index : Int) : Option MSPPrincipal :=
  if index < 0 then none else identities[index.toNat]?

mutual
def compile (satisfies : Identity → MSPPrincipal → Bool) (identities : List MSPPrincipal) :
    SignaturePolicy → Except CompileError (Evaluator Identity)
  | .absent => .error .emptyPolicyElement
  | .nOutOf n rules =>
    match compileRules satisfies identities rules with
    | .error err => .error err
    | .ok policies => .ok (nOutOfEvaluator n policies)
  | .signedBy index =>
    match principalAt identities index with
    | none => .error (.identityIndexOutOfRange index identities.length)
    | some signedByID => .ok (signedByEvaluator fun sd => satisfies sd signedByID)
  | .unknown => .error .unknownType
def compileRules (satisfies : Identity → MSPPrincipal → Bool) (identities : List MSPPrincipal) :
    List SignaturePolicy → Except CompileError (List (Evaluator Identity))
  | [] => .ok []
  | rule :: rules =>
    match compile satisfies identities rule with
    | .error err => .error err
    | .ok policy =>
      match compileRules satisfies identities rules with
      | .error err => .error err
      | .ok policies => .ok (policy :: policies)
end

mutual
def evaluate (satisfies : Identity → MSPPrincipal → Bool) (identities : List MSPPrincipal) :
    SignaturePolicy → Evaluator Identity
  | .signedBy index,signedData,used =>
    match principalAt identities index with
    | none => (false,used)
    | some principal => signedByEvaluator (fun sd => satisfies sd principal) signedData used
  | .nOutOf n rules,signedData,used =>
    let (verified,used) := evaluateRules satisfies identities rules signedData used
    (decide (n ≤ verified),used)
  | .absent,_,used => (false,used)
  | .unknown,_,used => (false,used)
def evaluateRules (satisfies : Identity → MSPPrincipal → Bool) (identities : List MSPPrincipal) :
    List SignaturePolicy → List Identity → List Bool → Nat × List Bool
  | [],_,used => (0,used)
  | rule :: rules,signedData,used =>
    match evaluate satisfies identities rule signedData used with
    | (true,_used) =>
      let (verified,used) := evaluateRules satisfies identities rules signedData _used
      (verified + 1,used)
    | (false,_) => evaluateRules satisfies identities rules signedData used
end

variable {satisfies : Identity → MSPPrincipal → Bool} {ie : List MSPPrincipal}

theorem n_out_of_loop_eq (h : List.Forall₂ (fun po ru => po = evaluate satisfies ie ru) ps
      rs) (si : List Identity) (ve : Nat) (us : List Bool) :
    nOutOfLoop si ps ve us = ((evaluateRules satisfies ie rs si us).1 + ve,
        (evaluateRules satisfies ie rs si us).2) := by
  induction h generalizing ve us with
  | nil => simp [nOutOfLoop,evaluateRules]
  | @cons po ru ps rs hp _ ih =>
    subst hp
    rw [nOutOfLoop,evaluateRules]
    obtain ⟨pa,_used⟩ := evaluate satisfies ie ru si us
    cases pa with
    | false => exact ih ve us
    | true =>
      simp only [ih]
      rw [show ∀ a : Nat, a + (ve + 1) = a + 1 + ve by omega]

theorem compile_rules_ok : compileRules satisfies ie rules = .ok ps ↔
      List.Forall₂ (fun po ru => compile satisfies ie ru = .ok po) ps
        rules := by
  induction rules generalizing ps with
  | nil =>
    rw [compileRules]
    constructor
    · rintro ⟨⟩
      exact .nil
    · rintro ⟨⟩
      rfl
  | cons ru rules ih =>
    rw [compileRules]
    constructor
    · intro h
      cases hc : compile satisfies ie ru with
      | error er => simp [hc] at h
      | ok po =>
        cases hcs : compileRules satisfies ie rules with
        | error er => simp [hc,hcs] at h
        | ok re =>
          simp only [hc,hcs] at h
          cases h
          exact .cons hc (ih.mp hcs)
    · rintro (_ | ⟨hc,hr⟩)
      rw [hc,ih.mpr hr]

theorem compile_signed_by_ok {ix : Int} : compile satisfies ie (.signedBy ix) = .ok ev ↔
      ∃ principal, principalAt ie ix = some principal ∧
        ev = signedByEvaluator fun sd => satisfies sd principal := by
  rw [compile]
  cases hat : principalAt ie ix with
  | none => simp
  | some principal => simp [eq_comm]

theorem compile_gate_ok : compile satisfies ie (.nOutOf n rs) = .ok ev ↔
      ∃ policies, compileRules satisfies ie rs = .ok policies ∧
        ev = nOutOfEvaluator n policies := by
  rw [compile]
  cases hrs : compileRules satisfies ie rs with
  | error er => simp
  | ok policies => simp [eq_comm]

theorem compile_evaluate (h : compile satisfies ie policy = .ok ev) :
    ev = evaluate satisfies ie policy := by
  induction policy using SignaturePolicy.induct generalizing ev with
  | absent | unknown =>
    rw [compile] at h
    cases h
  | signedBy ix =>
    obtain ⟨pr,hat,rfl⟩ := compile_signed_by_ok.mp h
    funext signedData used
    simp only [evaluate,hat]
  | nOutOf n rules ih =>
    obtain ⟨ps,hrs,rfl⟩ := compile_gate_ok.mp h
    have ha : List.Forall₂ (fun policy ru => policy = evaluate satisfies ie ru)
        ps rules := by
      have hco := compile_rules_ok.mp hrs
      clear h hrs
      induction hco with
      | nil => exact .nil
      | cons hc _ ir =>
        obtain ⟨hru,hr⟩ := List.forall_mem_cons.mp ih
        exact .cons (hru hc) (ir hr)
    funext signedData used
    simp only [nOutOfEvaluator,evaluate,n_out_of_loop_eq ha,Nat.add_zero]

theorem compile_eq_evaluate (h : (compile satisfies ie policy).isOk = true) :
    compile satisfies ie policy = .ok (evaluate satisfies ie policy) := by
  cases hc : compile satisfies ie policy with
  | error er =>
    rw [hc] at h
    cases h
  | ok ev => rw [compile_evaluate hc]

theorem evaluate_gate (n : Int) (rs : List SignaturePolicy) (si : List Identity)
    (us : List Bool) : evaluate satisfies ie (.nOutOf n rs) si us =
      (decide (n ≤ (evaluateRules satisfies ie rs si us).1),
        (evaluateRules satisfies ie rs si us).2) := by
  rw [evaluate]

theorem evaluate_rules_passed {us _used : List Bool}
    (h : evaluate satisfies ie ru signedData us = (true,_used)) :
    evaluateRules satisfies ie (ru :: rs) signedData us =
      ((evaluateRules satisfies ie rs signedData _used).1 + 1,
        (evaluateRules satisfies ie rs signedData _used).2) := by
  rw [evaluateRules,h]

theorem evaluate_rules_failed {used _used : List Bool}
    (h : evaluate satisfies ie ru signedData used = (false,_used)) :
    evaluateRules satisfies ie (ru :: rs) signedData used =
      evaluateRules satisfies ie rs signedData used := by
  rw [evaluateRules,h]

def firstUnused (satisfies : Identity → Bool) (signedData : List Identity) (used : List Bool) :
    Option Nat :=
  (signedData.zip used).findIdx? fun x => !x.2 && satisfies x.1

theorem signed_by_eq (satisfies : Identity → Bool) (si : List Identity)
    (us : List Bool) : signedByEvaluator satisfies si us = match firstUnused satisfies si us with
      | none => (false,us)
      | some i => (true,us.set i true) := by
  unfold firstUnused
  induction si generalizing us with
  | nil => simp [signedByEvaluator]
  | cons sd si ih =>
    cases us with
    | nil => simp [signedByEvaluator]
    | cons u us =>
      rw [signedByEvaluator,List.zip_cons_cons,List.findIdx?_cons]
      by_cases hsk : u = true ∨ satisfies sd = false
      · have hno : (!u && satisfies sd) = false := by
          obtain rfl | hs := hsk
          · rfl
          · rw [hs,Bool.and_false]
        simp only [if_pos hsk,hno,ih us]
        cases (si.zip us).findIdx? fun x => !x.2 && satisfies x.1 with
        | none => simp
        | some i => simp
      · obtain ⟨hu,hs⟩ := not_or.mp hsk
        have hy : (!u && satisfies sd) = true := by
          rw [Bool.not_eq_true] at hu
          rw [Bool.not_eq_false] at hs
          rw [hu,hs]
          rfl
        simp only [if_neg hsk,hy]
        simp

def Free (satisfies : Identity → Bool) (signedData : List Identity) (used : List Bool) (i : Nat) :
    Prop :=
  ∃ id, signedData[i]? = some id ∧ satisfies id = true ∧ used[i]? = some false

variable {satisfies : Identity → Bool}

theorem first_unused_some (h : firstUnused satisfies signedData us = some i) :
    Free satisfies signedData us i ∧ ∀ j < i, ¬ Free satisfies signedData us j := by
  obtain ⟨hlt,hi,hb⟩ := List.findIdx?_eq_some_iff_getElem.mp h
  have hg : (signedData.zip us)[i]? = some ((signedData.zip us)[i]) :=
    List.getElem?_eq_getElem hlt
  constructor
  · rw [List.getElem?_zip_eq_some] at hg
    simp only [Bool.and_eq_true,Bool.not_eq_true'] at hi
    exact ⟨_,hg.1,hi.2,by rw [hg.2,hi.1]⟩
  · rintro j hj ⟨id,hid,hs,hu⟩
    have hjl : j < (signedData.zip us).length := Nat.lt_trans hj hlt
    have hjg : (signedData.zip us)[j] = (id,false) := by
      have := List.getElem?_zip_eq_some.mpr (show signedData[j]? = some (id,false).1 ∧
        us[j]? = some (id,false).2 from ⟨hid,hu⟩)
      rw [List.getElem?_eq_getElem hjl] at this
      exact Option.some.inj this
    have := hb j hj
    rw [hjg] at this
    simp [hs] at this

theorem first_unused_none (h : firstUnused satisfies signedData used = none) (i : Nat) :
    ¬ Free satisfies signedData used i := by
  rintro ⟨id,hid,hs,hu⟩
  have hm : (id,false) ∈ signedData.zip used :=
    List.mem_of_getElem? (List.getElem?_zip_eq_some.mpr
      (show signedData[i]? = some (id,false).1 ∧ used[i]? = some (id,false).2 from ⟨hid,hu⟩))
  have := List.findIdx?_eq_none_iff.mp h _ hm
  simp [hs] at this

theorem first_unused_eq_some (hi : Free satisfies signedData us i)
    (hb : ∀ j < i, ¬ Free satisfies signedData us j) :
    firstUnused satisfies signedData us = some i := by
  cases h : firstUnused satisfies signedData us with
  | none => exact absurd hi (first_unused_none h i)
  | some k =>
    obtain ⟨hk,he⟩ := first_unused_some h
    obtain hlt | rfl | hlt := Nat.lt_trichotomy i k
    · exact absurd hi (he i hlt)
    · rfl
    · exact absurd hk (hb k hlt)

theorem first_unused_eq_none (h : ∀ i, ¬ Free satisfies signedData us i) :
    firstUnused satisfies signedData us = none := by
  cases hf : firstUnused satisfies signedData us with
  | none => rfl
  | some i => exact absurd (first_unused_some hf).1 (h i)

theorem signed_by_cases (h : signedByEvaluator satisfies signedData us = (passed,_used)) :
    (passed = false ∧ _used = us ∧ firstUnused satisfies signedData us = none) ∨
      ∃ i, passed = true ∧ _used = us.set i true ∧
        firstUnused satisfies signedData us = some i := by
  rw [signed_by_eq] at h
  cases hf : firstUnused satisfies signedData us with
  | none =>
    rw [hf] at h
    cases h
    exact .inl ⟨rfl,rfl,rfl⟩
  | some i =>
    rw [hf] at h
    cases h
    exact .inr ⟨i,rfl,rfl,rfl⟩

end

/-- What a signature in a set names, and the bytes that it covers. -/
structure SignedData where
  data : Bytes
  identity : Bytes
  signature : Bytes
deriving DecidableEq

structure Membership (Identity : Type) where
  deserializeIdentity : Bytes → Option Identity
  mspid : Identity → Bytes
  id : Identity → Bytes
  verify : Identity → Bytes → Bytes → Bool
  satisfiesPrincipal : Identity → MSPPrincipal → Bool

section
variable {Identity : Type} (msp : Membership Identity)

def Membership.key (identity : Identity) : Bytes := msp.mspid identity ++ msp.id identity

/-- The loop of SignatureSetToValidIdentities, with the keys that it has seen. -/
def validIdentities : List Bytes → List SignedData → List Identity
  | _,[] => []
  | idMap,sd :: signedData =>
    match msp.deserializeIdentity sd.identity with
    | none => validIdentities idMap signedData
    | some identity =>
      if msp.key identity ∈ idMap then validIdentities idMap signedData
      else if msp.verify identity sd.data sd.signature = false then
        validIdentities idMap signedData
      else identity :: validIdentities (msp.key identity :: idMap) signedData

def signatureSetToValidIdentities (signedData : List SignedData) : List Identity :=
  validIdentities msp [] signedData

inductive PolicyError
  | signatureSetDidNotSatisfyPolicy
deriving DecidableEq

def evaluateIdentities (evaluator : Evaluator Identity) (identities : List Identity) :
    Except PolicyError Unit :=
  if (evaluator identities (List.replicate identities.length false)).1 then .ok ()
  else .error .signatureSetDidNotSatisfyPolicy

def evaluateSignedData (evaluator : Evaluator Identity) (signatureSet : List SignedData) :
    Except PolicyError Unit :=
  evaluateIdentities evaluator (signatureSetToValidIdentities msp signatureSet)

end

theorem evaluate_identities_ok {Identity : Type} {ev : Evaluator Identity}
    {ie : List Identity} : evaluateIdentities ev ie = .ok () ↔
      (ev ie (List.replicate ie.length false)).1 = true := by
  unfold evaluateIdentities
  split
  · rename_i h
    simp [h]
  · rename_i h
    simp [h]

end PluggableHcs.Policies
