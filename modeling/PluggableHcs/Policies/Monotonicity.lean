import PluggableHcs.Policies.Soundness
import PluggableHcs.Policies.Consumption

namespace PluggableHcs.Policies
open List SignaturePolicy

mutual
/-- Every gate of the policy asks for at most one of its rules. -/
def lenient : SignaturePolicy → Bool
  | .nOutOf n rules => decide (n ≤ 1) && lenientRules rules
  | .signedBy _ => true
  | .absent => true
  | .unknown => true
def lenientRules : List SignaturePolicy → Bool
  | [] => true
  | rule :: rules => lenient rule && lenientRules rules
end

theorem lenient_rules_iff : lenientRules rs = true ↔ ∀ ru ∈ rs, lenient ru = true := by
  induction rs with
  | nil => simp [lenientRules]
  | cons ru rs ih => simp [lenientRules,ih]

section
variable {Identity : Type} (satisfies : Identity → MSPPrincipal → Bool)
  (identities : List MSPPrincipal) (signers : List Identity)

mutual
/-- What may happen to the rules that the signers do not satisfy. The principals that are evaluated
after the policy and the flags before it are given. -/
def firm : List MSPPrincipal → SignaturePolicy → List Bool → Bool
  | later,.nOutOf n rules,used =>
    firmRules (!shares satisfies signers (leafPrincipalsOfRules identities rules) later) n later
      rules used
  | _,.signedBy _,_ => true
  | _,.absent,_ => true
  | _,.unknown,_ => true
/-- A rule that fails asks for one signature at most, or shares no signer with what is evaluated
after it, or would be the last of the n that are missing in a gate that stands alone. -/
def firmRules (alone : Bool) :
    Int → List MSPPrincipal → List SignaturePolicy → List Bool → Bool
  | _,_,[],_ => true
  | n,later,rule :: rules,used =>
    match evaluate satisfies identities rule signers used with
    | (true,next) =>
      firm (leafPrincipalsOfRules identities rules ++ later) rule used &&
        firmRules alone (n - 1) later rules next
    | (false,_) =>
      (lenient rule || !shares satisfies signers (leafPrincipals identities rule)
        (leafPrincipalsOfRules identities rules ++ later) || (alone && decide (n ≤ 1))) &&
        firmRules alone n later rules used
end

end

section
variable {Identity : Type} {satisfies : Identity → MSPPrincipal → Bool}
  {identities : List MSPPrincipal} {signers : List Identity} {extra : Identity}

variable {sa : Identity → Bool}

theorem free_append (h : i < signers.length) :
    Free sa (signers ++ [extra]) us i ↔ Free sa signers us i := by
  unfold Free
  rw [List.getElem?_append_left h]

theorem place_append {i : Nat} (h : signers[i]? = some identity) :
    (signers ++ [extra])[i]? = some identity := by
  obtain ⟨hlt,_⟩ := List.getElem?_eq_some_iff.mp h
  rw [List.getElem?_append_left hlt,h]

theorem Free.lt (h : Free sa signers us i) : i < signers.length := by
  obtain ⟨iy,pl,_⟩ := h
  exact (List.getElem?_eq_some_iff.mp pl).1

variable {S : Identity → Prop}

section
variable (h : AgreeOn signers S used used')
  (wi : ∀ identity, sa identity = true → S identity)
include h wi

theorem append_first_unused_some (f : firstUnused sa signers used = some i) :
    firstUnused sa (signers ++ [extra]) used' = some i := by
  obtain ⟨hi,hb⟩ := first_unused_some f
  have hlt := hi.lt
  apply first_unused_eq_some
  · exact (free_append hlt).mpr ((h.free_iff wi).mp hi)
  intro j hj hf
  have hjl : j < signers.length := by omega
  exact hb j hj ((h.free_iff wi).mpr ((free_append hjl).mp hf))

theorem append_first_unused_none (hm : firstUnused sa signers used = none)
    (f : firstUnused sa (signers ++ [extra]) used' = some i) : i = signers.length := by
  obtain ⟨hi,_⟩ := first_unused_some f
  have hle := hi.lt
  rw [length_append,length_singleton] at hle
  by_contra hne
  have hlt : i < signers.length := by omega
  exact first_unused_none hm i ((h.free_iff wi).mpr ((free_append hlt).mp hi))

end

theorem lenient_rules_flip (ih : ∀ ru ∈ rs, ∀ us used', AgreeOn signers S us used' →
      (evaluate satisfies identities ru signers us).1 = false →
      (evaluate satisfies identities ru (signers ++ [extra]) used').1 = true →
      AgreeOn signers (fun _ => True)
        (evaluate satisfies identities ru (signers ++ [extra]) used').2 used')
    (h : AgreeOn signers S us used')
    (f : (evaluateRules satisfies identities rs signers us).1 = 0) :
    AgreeOn signers (fun _ => True)
      (evaluateRules satisfies identities rs (signers ++ [extra]) used').2 used' := by
  induction rs generalizing used' with
  | nil =>
    rw [evaluateRules]
    exact fun _ _ _ _ => rfl
  | cons ru rs ir =>
    obtain ⟨hr,hrs⟩ := forall_mem_cons.mp ih
    cases he : evaluate satisfies identities ru signers us with
    | mk pa next =>
      cases pa with
      | true =>
        rw [evaluate_rules_passed he] at f
        cases f
      | false =>
        rw [evaluate_rules_failed he] at f
        cases he' : evaluate satisfies identities ru (signers ++ [extra]) used' with
        | mk p' next' =>
          cases p' with
          | false =>
            rw [evaluate_rules_failed he']
            exact ir hrs h f
          | true =>
            rw [evaluate_rules_passed he']
            have hf := hr us used' h (by rw [he]) (by rw [he'])
            rw [he'] at hf
            have hn : AgreeOn signers S us next' :=
              h.trans (hf.mono fun _ _ => trivial).symm
            exact (ir hrs hn f).trans hf

theorem lenient_flip (hl : lenient policy = true)
    (hi : ∀ identity, Serves satisfies (leafPrincipals identities policy) identity → S identity)
    (h : AgreeOn signers S us used')
    (f : (evaluate satisfies identities policy signers us).1 = false)
    (ha : (evaluate satisfies identities policy (signers ++ [extra]) used').1 = true) :
    AgreeOn signers (fun _ => True)
      (evaluate satisfies identities policy (signers ++ [extra]) used').2 used' := by
  induction policy using induct generalizing us used' with
  | absent | unknown =>
    rw [evaluate] at ha
    cases ha
  | signedBy ix =>
    rw [evaluate] at f ha ⊢
    cases hat : principalAt identities ix with
    | none =>
      rw [hat] at ha
      cases ha
    | some pr =>
      rw [hat] at f ha
      have hw := serves_signed_by hat hi
      simp only [signed_by_eq] at f ha ⊢
      cases hf : firstUnused (fun sd => satisfies sd pr) signers us with
      | some i => simp [hf] at f
      | none =>
        cases hf' : firstUnused (fun sd => satisfies sd pr) (signers ++ [extra]) used' with
        | none => simp [hf'] at ha
        | some k =>
          have hk := append_first_unused_none h hw hf hf'
          intro i identity pl _
          obtain ⟨hlt,_⟩ := List.getElem?_eq_some_iff.mp pl
          exact List.getElem?_set_ne (by omega)
  | nOutOf n rs ih =>
    simp only [lenient,Bool.and_eq_true,decide_eq_true_eq,lenient_rules_iff] at hl
    have hz : (evaluateRules satisfies identities rs signers us).1 = 0 := by
      have := of_decide_eq_false f
      omega
    refine lenient_rules_flip (S := S) ?_ h hz
    intro ru hr us used' h
    refine ih ru hr (hl.2 ru hr) ?_ h
    intro identity hs
    exact hi identity (hs.mono fun p hp => leaf_principals_mem hr hp)

/-- With one identity more a policy that passes still passes, and the flags that matter afterwards
agree. -/
def Keeps (satisfies : Identity → MSPPrincipal → Bool) (identities : List MSPPrincipal)
    (signers : List Identity) (extra : Identity) (later : List MSPPrincipal)
    (policy : SignaturePolicy) (used : List Bool) : Prop :=
  ∀ used', AgreeOn signers (Serves satisfies (leafPrincipals identities policy ++ later)) used used' →
    (evaluate satisfies identities policy signers used).1 = true →
    (evaluate satisfies identities policy (signers ++ [extra]) used').1 = true ∧
      AgreeOn signers (Serves satisfies later)
        (evaluate satisfies identities policy signers used).2
        (evaluate satisfies identities policy (signers ++ [extra]) used').2

variable {later : List MSPPrincipal}

theorem agree_after {first second : List MSPPrincipal}
    (h : AgreeOn signers (Serves satisfies ((first ++ second) ++ later)) used used') :
    AgreeOn signers (Serves satisfies (first ++ (second ++ later))) used used' ∧
      AgreeOn signers (Serves satisfies (second ++ later)) used used' := by
  rw [append_assoc] at h
  exact ⟨h,h.mono fun _ hs => serves_append.mpr (.inr hs)⟩

theorem flip_agrees {ru : SignaturePolicy} {af : List MSPPrincipal} (hc : lenient ru = true ∨
      shares satisfies signers (leafPrincipals identities ru) af = false)
    (h : AgreeOn signers (Serves satisfies (leafPrincipals identities ru ++ af)) us used')
    (f : (evaluate satisfies identities ru signers us).1 = false)
    (hp : (evaluate satisfies identities ru (signers ++ [extra]) used').1 = true) :
    AgreeOn signers (Serves satisfies af) us
      (evaluate satisfies identities ru (signers ++ [extra]) used').2 := by
  have ha : AgreeOn signers (Serves satisfies af) us used' :=
    h.mono fun _ hs => serves_append.mpr (.inr hs)
  obtain hl | hs := hc
  · have hf := lenient_flip hl (fun _ hs => serves_append.mpr (.inl hs)) h f hp
    exact ha.trans (hf.mono fun _ _ => trivial).symm
  intro i iy pl hse
  rw [ha i iy pl hse]
  exact (evaluate_frame (place_append pl) (not_shares hs pl hse) used').symm

theorem signed_by_keeps (ix : Int) (later : List MSPPrincipal) (used : List Bool) :
    Keeps satisfies identities signers extra later (.signedBy ix) used := by
  intro used' h pa
  rw [evaluate] at pa ⊢
  rw [evaluate]
  cases hat : principalAt identities ix with
  | none =>
    rw [hat] at pa
    cases pa
  | some pr =>
    rw [hat] at pa
    rw [leaf_principals_signed_by hat] at h
    have hw : ∀ identity, satisfies identity pr = true → Serves satisfies ([pr] ++ later) identity :=
      fun identity hs => ⟨pr,mem_cons_self,hs⟩
    simp only [signed_by_eq] at pa ⊢
    cases hf : firstUnused (fun sd => satisfies sd pr) signers used with
    | none => simp [hf] at pa
    | some i =>
      obtain ⟨⟨id,hid,hs,hi⟩,_⟩ := first_unused_some hf
      have hi' := (h i id hid (hw id hs)) ▸ hi
      rw [append_first_unused_some h hw hf]
      refine ⟨rfl,?_⟩
      exact (h.mono fun _ hs => serves_append.mpr (.inr hs)).set hi hi'

/-- The count goes up, or it is enough at the flip that decides the gate. -/
theorem firm_rules_keep {alone : Bool} {n : Int} (ih : ∀ rule ∈ rules, ∀ after used,
      firm satisfies identities signers after rule used = true →
        Keeps satisfies identities signers extra after rule used)
    (hf : firmRules satisfies identities signers alone n later rules used = true)
    (h : AgreeOn signers (Serves satisfies (leafPrincipalsOfRules identities rules ++ later)) used
      used') :
    ((evaluateRules satisfies identities rules signers used).1 ≤
        (evaluateRules satisfies identities rules (signers ++ [extra]) used').1 ∧
      AgreeOn signers (Serves satisfies later)
        (evaluateRules satisfies identities rules signers used).2
        (evaluateRules satisfies identities rules (signers ++ [extra]) used').2) ∨
    (alone = true ∧
      n ≤ (evaluateRules satisfies identities rules (signers ++ [extra]) used').1) := by
  induction rules generalizing n used used' with
  | nil =>
    rw [evaluateRules,evaluateRules]
    exact .inl ⟨Nat.le_refl _,h⟩
  | cons rule rules ir =>
    obtain ⟨hrule,hrules⟩ := forall_mem_cons.mp ih
    obtain ⟨hboth,hrest⟩ := agree_after h
    rw [firmRules] at hf
    cases he : evaluate satisfies identities rule signers used with
    | mk passes next =>
      cases he' : evaluate satisfies identities rule (signers ++ [extra]) used' with
      | mk passes' next' =>
        rw [he] at hf
        cases passes with
        | true =>
          obtain ⟨hfirst,hf⟩ := Bool.and_eq_true_iff.mp hf
          obtain ⟨hp,hn⟩ := hrule _ used hfirst used' hboth (by rw [he])
          rw [he'] at hp
          cases hp
          rw [he,he'] at hn
          dsimp only at hn
          rw [evaluate_rules_passed he,evaluate_rules_passed he']
          dsimp only
          exact (ir hrules hf hn).imp (And.imp_left Nat.succ_le_succ)
            (And.imp_right fun hle => by omega)
        | false =>
          obtain ⟨hflip,hf⟩ := Bool.and_eq_true_iff.mp hf
          rw [evaluate_rules_failed he]
          cases passes' with
          | false =>
            rw [evaluate_rules_failed he']
            exact ir hrules hf hrest
          | true =>
            rw [evaluate_rules_passed he']
            dsimp only
            simp only [Bool.or_eq_true,Bool.and_eq_true,decide_eq_true_eq,
              Bool.not_eq_true'] at hflip
            obtain hflip | ⟨hal,hle⟩ := hflip
            · have hn := flip_agrees hflip hboth (by rw [he]) (by rw [he'])
              rw [he'] at hn
              dsimp only at hn
              exact (ir hrules hf hn).imp (And.imp_left Nat.le_succ_of_le)
                (And.imp_right fun hle => by omega)
            · exact .inr ⟨hal,by omega⟩

/-- Flags of signers that the policy does not concern stay as they are. -/
theorem apart_agrees {policy : SignaturePolicy}
    (hs : shares satisfies signers (leafPrincipals identities policy) later = false)
    (h : AgreeOn signers (Serves satisfies (leafPrincipals identities policy ++ later)) used used') :
    AgreeOn signers (Serves satisfies later) (evaluate satisfies identities policy signers used).2
      (evaluate satisfies identities policy (signers ++ [extra]) used').2 := by
  intro i identity hi hl
  have ho := not_shares hs hi hl
  rw [evaluate_frame hi ho,evaluate_frame (place_append hi) ho]
  exact h i identity hi (serves_append.mpr (.inr hl))

theorem firm_keeps (hf : firm satisfies identities signers later policy used = true) :
    Keeps satisfies identities signers extra later policy used := by
  induction policy using induct generalizing later used with
  | absent | unknown =>
    intro used' _ passes
    cases passes
  | signedBy ix => exact signed_by_keeps ix later used
  | nOutOf n rules ih =>
    intro used' h passes
    rw [firm] at hf
    have hn := of_decide_eq_true passes
    obtain ⟨hle,hfl⟩ | ⟨hal,hle⟩ :=
      firm_rules_keep (fun rule hr after used hf => @ih rule hr after used hf) hf h
    · exact ⟨decide_eq_true (by omega),hfl⟩
    · have hs : shares satisfies signers (leafPrincipals identities (.nOutOf n rules)) later =
        false := Bool.not_eq_true' _ ▸ hal
      exact ⟨decide_eq_true hle,apart_agrees hs h⟩

end

variable {Identity : Type} {msp : Membership Identity}

def pairsEnvelope : SignaturePolicyEnvelope where
  version := 0
  rule := .nOutOf 1 [.nOutOf 2 [.signedBy 0,.signedBy 1],.nOutOf 2 [.signedBy 1,.signedBy 2]]
  identities := [⟨0,[1]⟩,⟨0,[2]⟩,⟨0,[3]⟩]

def greedyEnvelope : SignaturePolicyEnvelope where
  version := 0
  rule := .nOutOf 2 [.nOutOf 1 [.nOutOf 2 [.signedBy 0,.signedBy 1],.signedBy 2],.signedBy 1]
  identities := [⟨0,[1]⟩,⟨0,[2]⟩,⟨0,[3]⟩]

end PluggableHcs.Policies
