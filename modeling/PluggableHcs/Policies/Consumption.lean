import PluggableHcs.Policies.SignaturePolicy

namespace PluggableHcs.Policies
open List

mutual
def leafPrincipals (identities : List MSPPrincipal) : SignaturePolicy → List MSPPrincipal
  | .signedBy index => (principalAt identities index).toList
  | .nOutOf _ rules => leafPrincipalsOfRules identities rules
  | .absent => []
  | .unknown => []
def leafPrincipalsOfRules (identities : List MSPPrincipal) :
    List SignaturePolicy → List MSPPrincipal
  | [] => []
  | rule :: rules => leafPrincipals identities rule ++ leafPrincipalsOfRules identities rules
end

variable {Identity : Type} {satisfies : Identity → MSPPrincipal → Bool}
  {ids : List MSPPrincipal} {signedData : List Identity}

def Serves (satisfies : Identity → MSPPrincipal → Bool) (principals : List MSPPrincipal)
    (identity : Identity) : Prop :=
  ∃ principal ∈ principals, satisfies identity principal = true

variable {first second : List MSPPrincipal}

theorem Serves.mono (h : Serves satisfies first identity) (hu : ∀ p ∈ first, p ∈ second) :
    Serves satisfies second identity := by
  obtain ⟨principal,hm,hs⟩ := h
  exact ⟨principal,hu principal hm,hs⟩

theorem serves_append : Serves satisfies (first ++ second) identity ↔
      Serves satisfies first identity ∨ Serves satisfies second identity := by
  simp only [Serves,mem_append]
  constructor
  · rintro ⟨principal,hm | hm,hs⟩
    · exact .inl ⟨principal,hm,hs⟩
    · exact .inr ⟨principal,hm,hs⟩
  rintro (⟨principal,hm,hs⟩ | ⟨principal,hm,hs⟩)
  · exact ⟨principal,.inl hm,hs⟩
  · exact ⟨principal,.inr hm,hs⟩

theorem leaf_principals_mem (hr : rule ∈ rules)
    (hp : p ∈ leafPrincipals ids rule) : p ∈ leafPrincipalsOfRules ids rules := by
  induction rules with
  | nil => cases hr
  | cons o rules ih =>
    rw [leafPrincipalsOfRules,mem_append]
    cases hr with
    | head => exact .inl hp
    | tail _ hr => exact .inr (ih hr)

def shares (satisfies : Identity → MSPPrincipal → Bool) (signers : List Identity)
    (first second : List MSPPrincipal) : Bool :=
  signers.any fun identity => first.any (satisfies identity) && second.any (satisfies identity)

variable {i : Nat}

theorem not_shares
    (h : shares satisfies signedData first second = false) (hl : signedData[i]? = some identity)
    (hs : Serves satisfies second identity) : ¬ Serves satisfies first identity := by
  rintro ⟨p,hp,hsa⟩
  obtain ⟨q,hq,hsa'⟩ := hs
  have hy : shares satisfies signedData first second = true := by
    unfold shares
    rw [any_eq_true]
    refine ⟨identity,mem_of_getElem? hl,?_⟩
    rw [Bool.and_eq_true,any_eq_true,any_eq_true]
    exact ⟨⟨p,hp,hsa⟩,q,hq,hsa'⟩
  rw [h] at hy
  cases hy

theorem leaf_principals_signed_by {index : Int} (h : principalAt ids index = some principal) :
    leafPrincipals ids (.signedBy index) = [principal] := by
  rw [leafPrincipals,h]
  rfl

theorem serves_signed_by {S : Identity → Prop} (hat : principalAt ids index = some principal)
    (hi : ∀ identity, Serves satisfies (leafPrincipals ids (.signedBy index)) identity →
      S identity) (identity : Identity) (hs : satisfies identity principal = true) : S identity := by
  apply hi
  rw [leaf_principals_signed_by hat]
  exact ⟨principal,mem_singleton_self _,hs⟩

theorem evaluate_rules_frame
    (ih : ∀ rule ∈ rs, ∀ used, ¬ Serves satisfies (leafPrincipals ids rule) signer →
      (evaluate satisfies ids rule signedData used).2[i]? = used[i]?)
    (o : ¬ Serves satisfies (leafPrincipalsOfRules ids rs) signer)
    (used : List Bool) :
    (evaluateRules satisfies ids rs signedData used).2[i]? = used[i]? := by
  induction rs generalizing used with
  | nil => rw [evaluateRules]
  | cons rule rs ir =>
    obtain ⟨hr,hrs⟩ := forall_mem_cons.mp ih
    rw [leafPrincipalsOfRules,serves_append,not_or] at o
    cases he : evaluate satisfies ids rule signedData used with
    | mk passed _used =>
      cases passed with
      | false =>
        rw [evaluate_rules_failed he]
        exact ir hrs o.2 used
      | true =>
        have hf := hr used o.1
        rw [he] at hf
        rw [evaluate_rules_passed he]
        exact (ir hrs o.2 _used).trans hf

theorem evaluate_frame (hp : signedData[i]? = some signer)
    (o : ¬ Serves satisfies (leafPrincipals ids policy) signer) (used : List Bool) :
    (evaluate satisfies ids policy signedData used).2[i]? = used[i]? := by
  induction policy using SignaturePolicy.induct generalizing used with
  | absent | unknown => rw [evaluate]
  | nOutOf n rs ih =>
    rw [evaluate]
    exact evaluate_rules_frame (fun rule hr used h => ih rule hr h used) o used
  | signedBy index =>
    rw [evaluate]
    cases hat : principalAt ids index with
    | none => rfl
    | some principal =>
      simp only
      rw [leaf_principals_signed_by hat] at o
      cases he : signedByEvaluator (fun sd => satisfies sd principal) signedData used with
      | mk passed _used =>
        obtain ⟨_,rfl,_⟩ | ⟨j,_,rfl,hf⟩ := signed_by_cases he
        · rfl
        obtain ⟨⟨id,hid,hs,_⟩,_⟩ := first_unused_some hf
        have hne : j ≠ i := by
          rintro rfl
          rw [hp] at hid
          cases hid
          exact o ⟨principal,mem_singleton_self _,hs⟩
        exact List.getElem?_set_ne hne

def AgreeOn (signedData : List Identity) (S : Identity → Prop) (used used' : List Bool) : Prop :=
  ∀ (i : Nat) identity, signedData[i]? = some identity → S identity → used[i]? = used'[i]?

variable {S : Identity → Prop}

theorem AgreeOn.mono {T : Identity → Prop}
    (h : AgreeOn signedData T used used') (hu : ∀ signer, S signer → T signer) :
    AgreeOn signedData S used used' :=
  fun i signer pl hs => h i signer pl (hu signer hs)

theorem AgreeOn.symm (h : AgreeOn signedData S used u') : AgreeOn signedData S u' used :=
  fun i signer pl hs => (h i signer pl hs).symm

theorem AgreeOn.trans (h₁ : AgreeOn signedData S u₁ u₂) (h₂ : AgreeOn signedData S u₂ used₃) :
    AgreeOn signedData S u₁ used₃ :=
  fun i signer pl hs => (h₁ i signer pl hs).trans (h₂ i signer pl hs)

section
variable {sa : Identity → Bool} (h : AgreeOn signedData S used used')
  (wi : ∀ identity, sa identity = true → S identity)
include h wi

theorem AgreeOn.free_iff : Free sa signedData used i ↔ Free sa signedData used' i := by
  constructor
  · rintro ⟨signer,pl,hs,hf⟩
    exact ⟨signer,pl,hs,(h i signer pl (wi signer hs)) ▸ hf⟩
  · rintro ⟨signer,pl,hs,hf⟩
    exact ⟨signer,pl,hs,(h i signer pl (wi signer hs)).symm ▸ hf⟩

theorem AgreeOn.first_unused :
    firstUnused sa signedData used = firstUnused sa signedData used' := by
  cases hf : firstUnused sa signedData used with
  | none =>
    symm
    apply first_unused_eq_none
    intro i hi
    exact first_unused_none hf i ((h.free_iff wi).mpr hi)
  | some k =>
    obtain ⟨hk,hb⟩ := first_unused_some hf
    symm
    apply first_unused_eq_some ((h.free_iff wi).mp hk)
    intro j hj hfr
    exact hb j hj ((h.free_iff wi).mpr hfr)

end

theorem AgreeOn.set (h : AgreeOn signedData S used u') (hk : used[k]? = some false)
    (hk' : u'[k]? = some false) : AgreeOn signedData S (used.set k true) (u'.set k true) := by
  intro i signer pl hs
  have hi := h i signer pl hs
  obtain ⟨hlt,_⟩ := List.getElem?_eq_some_iff.mp hk
  obtain ⟨hlt',_⟩ := List.getElem?_eq_some_iff.mp hk'
  by_cases hki : k = i
  · subst hki
    simp [hlt,hlt']
  · simp [hki,hi]

theorem evaluate_congr
    (hi : ∀ identity, Serves satisfies (leafPrincipals ids policy) identity → S identity)
    (h : AgreeOn signedData S used u') :
    (evaluate satisfies ids policy signedData used).1 =
        (evaluate satisfies ids policy signedData u').1 ∧
      AgreeOn signedData S (evaluate satisfies ids policy signedData used).2
        (evaluate satisfies ids policy signedData u').2 := by
  induction policy using SignaturePolicy.induct generalizing used u' with
  | absent | unknown =>
    rw [evaluate,evaluate]
    exact ⟨rfl,h⟩
  | signedBy index =>
    rw [evaluate,evaluate]
    cases hat : principalAt ids index with
    | none => exact ⟨rfl,h⟩
    | some principal =>
      simp only
      have hw := serves_signed_by hat hi
      rw [signed_by_eq,signed_by_eq,← h.first_unused hw]
      cases hf : firstUnused (fun sd => satisfies sd principal) signedData used with
      | none => exact ⟨rfl,h⟩
      | some k =>
        obtain ⟨⟨id,hid,hs,hk⟩,_⟩ := first_unused_some hf
        have hk' := (h k id hid (hw id hs)) ▸ hk
        exact ⟨rfl,h.set hk hk'⟩
  | nOutOf n rs ih =>
    have hrs : (evaluateRules satisfies ids rs signedData used).1 =
          (evaluateRules satisfies ids rs signedData u').1 ∧
        AgreeOn signedData S (evaluateRules satisfies ids rs signedData used).2
          (evaluateRules satisfies ids rs signedData u').2 := by
      rw [leafPrincipals] at hi
      clear n
      induction rs generalizing used u' with
      | nil =>
        rw [evaluateRules,evaluateRules]
        exact ⟨rfl,h⟩
      | cons rule rs ir =>
        obtain ⟨hru,hr⟩ := forall_mem_cons.mp ih
        simp only [leafPrincipalsOfRules,serves_append] at hi
        obtain ⟨hv,ha⟩ := hru (fun identity hs => hi identity (.inl hs)) h
        have hw := fun identity hs => hi identity (.inr hs)
        cases he : evaluate satisfies ids rule signedData used with
        | mk passed next =>
          cases he' : evaluate satisfies ids rule signedData u' with
          | mk p' n' =>
            rw [he,he'] at hv ha
            subst hv
            cases passed with
            | false =>
              rw [evaluate_rules_failed he,evaluate_rules_failed he']
              exact ir hr hw h
            | true =>
              rw [evaluate_rules_passed he,evaluate_rules_passed he']
              obtain ⟨hc,hfl⟩ := ir hr hw ha
              exact ⟨by rw [hc],hfl⟩
    rw [evaluate_gate,evaluate_gate]
    exact ⟨by simp only [hrs.1],hrs.2⟩

end PluggableHcs.Policies
