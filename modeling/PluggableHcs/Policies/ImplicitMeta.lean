import PluggableHcs.Policies.SignaturePolicy

namespace PluggableHcs.Policies
open List

structure CompiledPolicy {Identity : Type} (msp : Membership Identity) where
  signaturePolicyEnvelope : SignaturePolicyEnvelope
  evaluator : Evaluator Identity
  compiled : compile msp.satisfiesPrincipal signaturePolicyEnvelope.identities
    signaturePolicyEnvelope.rule = .ok evaluator

/-- The policies of a channel. A policy manager gives out a `reject` for names that it does not
have. -/
inductive Policy {Identity : Type} (msp : Membership Identity)
  | signature (policy : CompiledPolicy msp)
  | implicitMeta (threshold : Int) (subPolicies : List (Policy msp)) (subPolicyName : String)
  | reject (name : String)

open Policy

section
variable {Identity : Type} {msp : Membership Identity}

theorem Policy.induct {P : Policy msp → Prop} (signature : ∀ policy, P (.signature policy))
    (implicitMeta : ∀ threshold subPolicies name, (∀ policy ∈ subPolicies, P policy) →
      P (.implicitMeta threshold subPolicies name)) (reject : ∀ name, P (.reject name))
    (policy : Policy msp) : P policy := by
  refine @Policy.rec Identity msp P (fun policies => ∀ policy ∈ policies, P policy) signature
    implicitMeta reject ?_ ?_ policy
  · intro policy hp
    cases hp
  intro policy policies hp hpoli other ho
  cases ho with
  | head => exact hp
  | tail _ ho => exact hpoli other ho

/-- The rule of a definition, an open enumeration. -/
inductive ImplicitMetaRule
  | any
  | all
  | majority
  | unrecognized (value : Int)
deriving DecidableEq

/-- An unrecognized rule leaves the threshold at its zero value. -/
def implicitMetaThreshold (rule : ImplicitMetaRule) (subPolicies : Nat) : Int :=
  if subPolicies = 0 then 0
  else
    match rule with
    | .any => 1
    | .all => subPolicies
    | .majority => (subPolicies / 2 + 1 : Nat)
    | .unrecognized _ => 0

def newImplicitMetaPolicy (rule : ImplicitMetaRule) (subPolicies : List (Policy msp))
    (subPolicyName : String) : Policy msp :=
  .implicitMeta (implicitMetaThreshold rule subPolicies.length) subPolicies subPolicyName

inductive EvaluationError
  | signaturePolicy (err : PolicyError)
  | implicitPolicy (satisfied required : Int) (subPolicyName : String)
  | noSuchPolicy (name : String)
deriving DecidableEq

mutual
def evaluateWith (verdict : CompiledPolicy msp → Except PolicyError Unit) :
    Policy msp → Except EvaluationError Unit
  | .signature policy =>
    match verdict policy with
    | .ok () => .ok ()
    | .error err => .error (.signaturePolicy err)
  | .implicitMeta threshold subPolicies subPolicyName =>
    let remaining := remainingAfter verdict threshold subPolicies
    if remaining = 0 then .ok ()
    else .error (.implicitPolicy (threshold - remaining) threshold subPolicyName)
  | .reject name => .error (.noSuchPolicy name)
/-- The loop over the subpolicies, left as soon as nothing remains. -/
def remainingAfter (verdict : CompiledPolicy msp → Except PolicyError Unit) :
    Int → List (Policy msp) → Int
  | remaining,[] => remaining
  | remaining,policy :: subPolicies =>
    match evaluateWith verdict policy with
    | .ok () =>
      if remaining - 1 = 0 then 0 else remainingAfter verdict (remaining - 1) subPolicies
    | .error _ => remainingAfter verdict remaining subPolicies
end

def Policy.evaluateSignedData (policy : Policy msp) (signatureSet : List SignedData) :
    Except EvaluationError Unit :=
  evaluateWith (fun leaf => Policies.evaluateSignedData msp leaf.evaluator signatureSet) policy

def Policy.evaluateIdentities (policy : Policy msp) (identities : List Identity) :
    Except EvaluationError Unit :=
  evaluateWith (fun leaf => Policies.evaluateIdentities leaf.evaluator identities) policy

def satisfied (verdict : CompiledPolicy msp → Except PolicyError Unit)
    (subPolicies : List (Policy msp)) : Nat :=
  subPolicies.countP fun policy => (evaluateWith verdict policy).isOk

theorem satisfied_ok (h : evaluateWith ve po = .ok ()) (sp : List (Policy msp)) :
    satisfied ve (po :: sp) = satisfied ve sp + 1 :=
  countP_cons_of_pos (by rw [h]; rfl)

theorem satisfied_error (h : evaluateWith ve po = .error err) (subPolicies : List (Policy msp)) :
    satisfied ve (po :: subPolicies) = satisfied ve subPolicies :=
  countP_cons_of_neg (by rw [h]; exact Bool.false_ne_true)

theorem remaining_after_zero (h : 1 ≤ th) : remainingAfter ve th subPolicies = 0 ↔
      th ≤ satisfied ve subPolicies := by
  induction subPolicies generalizing th with
  | nil =>
    simp only [remainingAfter,satisfied,countP_nil]
    omega
  | cons po subPolicies ih =>
    rw [remainingAfter]
    cases hv : evaluateWith ve po with
    | error er =>
      rw [satisfied_error hv]
      exact ih h
    | ok _ =>
      rw [satisfied_ok hv]
      by_cases hl : th - 1 = 0
      · rw [if_pos hl]
        have hle : th ≤ ((satisfied ve subPolicies + 1 : Nat) : Int) := by omega
        exact ⟨fun _ => hle,fun _ => rfl⟩
      · rw [if_neg hl,ih (by omega)]
        omega

def Asks (threshold : Int) (subPolicies : Nat) : Prop :=
  1 ≤ threshold ∨ threshold = 0 ∧ subPolicies = 0

theorem asks_threshold (hk : ∀ va, rule ≠ .unrecognized va)
    (subPolicies : Nat) : Asks (implicitMetaThreshold rule subPolicies) subPolicies := by
  unfold implicitMetaThreshold
  by_cases hz : subPolicies = 0
  · rw [if_pos hz]
    exact .inr ⟨rfl,hz⟩
  rw [if_neg hz]
  left
  cases rule with
  | any => exact Int.le_refl 1
  | all | majority =>
    simp only
    omega
  | unrecognized va => exact absurd rfl (hk va)

theorem evaluate_implicit_meta {na : String} (ha : Asks th subPolicies.length) :
    evaluateWith ve (.implicitMeta th subPolicies na) = .ok () ↔ th ≤ satisfied ve subPolicies := by
  have hz : evaluateWith ve (.implicitMeta th subPolicies na) = .ok () ↔
      remainingAfter ve th subPolicies = 0 := by
    rw [evaluateWith]
    split
    · rename_i h
      simp [h]
    · rename_i h
      simp [h]
  rw [hz]
  obtain ho | ⟨rfl,hn⟩ := ha
  · exact remaining_after_zero ho
  · rw [eq_nil_of_length_eq_zero hn]
    simp [remainingAfter]

theorem implicit_meta_mono (ha : Asks th sp.length) (hm : ∀ po ∈ sp, evaluateWith ve po = .ok () →
      evaluateWith v' po = .ok ())
    (h : evaluateWith ve (.implicitMeta th sp name) = .ok ()) :
    evaluateWith v' (.implicitMeta th sp name) = .ok () := by
  rw [evaluate_implicit_meta ha] at h ⊢
  refine Int.le_trans h (Int.ofNat_le.mpr (countP_mono_left fun po hp hok => ?_))
  cases hv : evaluateWith ve po with
  | error er => simp [hv,Except.isOk,Except.toBool] at hok
  | ok _ => rw [hm po hp hv]; rfl

theorem remaining_after_negative (h : th < 0) : remainingAfter ve th sp ≠ 0 := by
  induction sp generalizing th with
  | nil => exact Int.ne_of_lt h
  | cons po sp ih =>
    rw [remainingAfter]
    split
    · rw [if_neg (by omega)]
      exact ih (by omega)
    · exact ih h

/-- With nothing asked for, the first subpolicy that is satisfied takes the count below zero. -/
theorem remaining_after_nothing : remainingAfter ve 0 sp = 0 ↔ satisfied ve sp = 0 := by
  induction sp with
  | nil => simp [remainingAfter,satisfied]
  | cons po sp ih =>
    rw [remainingAfter]
    cases hv : evaluateWith ve po with
    | error er => rw [satisfied_error hv,← ih]
    | ok _ =>
      rw [satisfied_ok hv]
      simp [remaining_after_negative]

theorem satisfied_none : satisfied ve sp = 0 ↔ ∀ po ∈ sp, evaluateWith ve po ≠ .ok () := by
  simp only [satisfied,countP_eq_zero]
  refine forall₂_congr fun po _ => ?_
  cases evaluateWith ve po <;> simp [Except.isOk,Except.toBool]

/-- The rules that NewImplicitMetaPolicy gives a threshold. -/
def ImplicitMetaRule.Known (rule : ImplicitMetaRule) : Prop := ∀ value, rule ≠ .unrecognized value

theorem evaluate_unknown (h : ¬ rule.Known) :
    evaluateWith ve (newImplicitMetaPolicy rule sp name) = .ok () ↔
      ∀ po ∈ sp, evaluateWith ve po ≠ .ok () := by
  simp only [ImplicitMetaRule.Known,not_forall,not_not] at h
  obtain ⟨value,rfl⟩ := h
  have ht : implicitMetaThreshold (.unrecognized value) sp.length = 0 := by
    simp [implicitMetaThreshold]
  rw [newImplicitMetaPolicy,evaluateWith,ht,← satisfied_none,← remaining_after_nothing]
  split <;> simp_all

theorem counts_iff : (evaluateWith ve (newImplicitMetaPolicy rule sp name) = .ok () ↔
      implicitMetaThreshold rule sp.length ≤ satisfied ve sp) ↔
    (rule.Known ∨ ∀ po ∈ sp, evaluateWith ve po ≠ .ok ()) := by
  by_cases kn : rule.Known
  · exact iff_of_true (evaluate_implicit_meta (asks_threshold kn _)) (.inl kn)
  have ht : implicitMetaThreshold rule sp.length ≤ satisfied ve sp := by
    cases rule <;> simp_all [ImplicitMetaRule.Known,implicitMetaThreshold]
  simp only [evaluate_unknown kn,ht,kn,iff_true,false_or]

theorem mono_iff (hm : ∀ po ∈ sp, evaluateWith ve po = .ok () → evaluateWith v' po = .ok ()) :
    (evaluateWith ve (newImplicitMetaPolicy rule sp name) = .ok () →
      evaluateWith v' (newImplicitMetaPolicy rule sp name) = .ok ()) ↔
    (rule.Known ∨ (∃ po ∈ sp, evaluateWith ve po = .ok ()) ∨
      ∀ po ∈ sp, evaluateWith v' po ≠ .ok ()) := by
  by_cases kn : rule.Known
  · exact iff_of_true (implicit_meta_mono (asks_threshold kn _) hm) (.inl kn)
  simp only [evaluate_unknown kn,kn,false_or]
  rw [imp_iff_not_or]
  simp

/-- Both evaluations succeed exactly if the threshold is reached, and go on to succeed when more
subpolicies are satisfied: for the known rules always, for another one as long as no subpolicy is
satisfied. -/
theorem implicit_meta_counts (rule : ImplicitMetaRule) (subPolicies : List (Policy msp))
    (name : String) :
    let imp := newImplicitMetaPolicy rule subPolicies name
    let th := implicitMetaThreshold rule subPolicies.length
    (∀ ss, (imp.evaluateSignedData ss = .ok () ↔
        th ≤ subPolicies.countP fun po => (po.evaluateSignedData ss).isOk) ↔
      (rule.Known ∨ ∀ po ∈ subPolicies, po.evaluateSignedData ss ≠ .ok ())) ∧
    (∀ ie, (imp.evaluateIdentities ie = .ok () ↔
        th ≤ subPolicies.countP fun po => (po.evaluateIdentities ie).isOk) ↔
      (rule.Known ∨ ∀ po ∈ subPolicies, po.evaluateIdentities ie ≠ .ok ())) ∧
    (∀ few more, (∀ po ∈ subPolicies, po.evaluateSignedData few = .ok () →
        po.evaluateSignedData more = .ok ()) →
      ((imp.evaluateSignedData few = .ok () → imp.evaluateSignedData more = .ok ()) ↔
        (rule.Known ∨ (∃ po ∈ subPolicies, po.evaluateSignedData few = .ok ()) ∨
          ∀ po ∈ subPolicies, po.evaluateSignedData more ≠ .ok ()))) ∧
    ∀ few more, (∀ po ∈ subPolicies, po.evaluateIdentities few = .ok () →
        po.evaluateIdentities more = .ok ()) →
      ((imp.evaluateIdentities few = .ok () → imp.evaluateIdentities more = .ok ()) ↔
        (rule.Known ∨ (∃ po ∈ subPolicies, po.evaluateIdentities few = .ok ()) ∨
          ∀ po ∈ subPolicies, po.evaluateIdentities more ≠ .ok ())) :=
  ⟨fun _ => counts_iff,fun _ => counts_iff,fun _ _ => mono_iff,fun _ _ => mono_iff⟩

mutual
def Policy.standard : Policy msp → Prop
  | .signature _ => True
  | .implicitMeta threshold subPolicies _ =>
    (∃ rule, (∀ value, rule ≠ ImplicitMetaRule.unrecognized value) ∧
      threshold = implicitMetaThreshold rule subPolicies.length) ∧ standards subPolicies
  | .reject _ => False
def Policy.standards : List (Policy msp) → Prop
  | [] => True
  | policy :: subPolicies => standard policy ∧ standards subPolicies
end

theorem standards_iff : standards sp ↔ ∀ po ∈ sp, po.standard := by
  induction sp with
  | nil => simp [standards]
  | cons po sp ih => simp [standards,ih]

mutual
def Policy.leaves : Policy msp → List (CompiledPolicy msp)
  | .signature policy => [policy]
  | .implicitMeta _ subPolicies _ => leavesOf subPolicies
  | .reject _ => []
def Policy.leavesOf : List (Policy msp) → List (CompiledPolicy msp)
  | [] => []
  | policy :: subPolicies => leaves policy ++ leavesOf subPolicies
end

end

def noMembership : Membership Unit :=
  ⟨fun _ => none,fun _ => [],fun _ => [],fun _ _ _ => false,fun _ _ => false⟩

def overOne (rule : ImplicitMetaRule) (policy : Policy noMembership) : Policy noMembership :=
  newImplicitMetaPolicy rule [policy] "Admins"

/-- Two of three are a majority, with the third not there. -/
theorem majority_counts : let satisfied : Policy noMembership := newImplicitMetaPolicy .any [] "Admins"
    (newImplicitMetaPolicy .majority [satisfied,.reject "Admins",satisfied]
      "Admins").evaluateIdentities [()] = .ok () := by
  intro satisfied
  refine (((implicit_meta_counts .majority [satisfied,.reject "Admins",satisfied] "Admins").2.1
    [()]).mpr (.inl fun _ => by simp)).mpr ?_
  decide

/-- A rule number that is not known asks for nothing, and a subpolicy that is satisfied makes it
fail. -/
theorem unknown_rule_fails : let met : Policy noMembership := newImplicitMetaPolicy .any [] "Admins"
    met.evaluateSignedData [] = .ok () ∧ met.evaluateIdentities [] = .ok () ∧
    (overOne (.unrecognized 3) (.reject "Admins")).evaluateSignedData [] = .ok () ∧
    (overOne (.unrecognized 3) (.reject "Admins")).evaluateIdentities [] = .ok () ∧
    (overOne (.unrecognized 3) met).evaluateSignedData [] ≠ .ok () ∧
    (overOne (.unrecognized 3) met).evaluateIdentities [] ≠ .ok () := by
  refine ⟨rfl,rfl,rfl,rfl,?_,?_⟩ <;> decide

end PluggableHcs.Policies
