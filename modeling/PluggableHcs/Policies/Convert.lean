import PluggableHcs.Lib.Outcomes
import PluggableHcs.Lib.Text
import PluggableHcs.Policies.Consumption
import PluggableHcs.Policies.ImplicitMeta
import PluggableHcs.Policies.Soundness

namespace PluggableHcs.Policies
open List Policy

def classificationName (classification : Int) : List Char :=
  if classification = 0 then ['R','O','L','E']
  else if classification = 1 then
    ['O','R','G','A','N','I','Z','A','T','I','O','N','_','U','N','I','T']
  else if classification = 2 then ['I','D','E','N','T','I','T','Y']
  else if classification = 3 then ['A','N','O','N','Y','M','I','T','Y']
  else if classification = 4 then ['C','O','M','B','I','N','E','D']
  else Text.decimal classification

def principalKey (id : MSPPrincipal) : Bytes :=
  (classificationName id.principalClassification).map Char.toUInt8 ++ id.principal

inductive ConvertPanic
  | programmingError
  | invalidPolicyType
  | nilPointer
  | interfaceConversion
deriving DecidableEq

mutual
def remap (idRemap : List Nat) : SignaturePolicy → Except ConvertPanic SignaturePolicy
  | .nOutOf n rules =>
    match remapRules idRemap rules with
    | .error reason => .error reason
    | .ok rules => .ok (.nOutOf n rules)
  | .signedBy index =>
    match if index < 0 then none else idRemap[index.toNat]? with
    | none => .error .programmingError
    | some newID => .ok (.signedBy newID)
  | .absent => .error .nilPointer
  | .unknown => .error .invalidPolicyType
def remapRules (idRemap : List Nat) :
    List SignaturePolicy → Except ConvertPanic (List SignaturePolicy)
  | [] => .ok []
  | rule :: rules =>
    match remap idRemap rule with
    | .error reason => .error reason
    | .ok rule =>
      match remapRules idRemap rules with
      | .error reason => .error reason
      | .ok rules => .ok (rule :: rules)
end

def mergeIdentities : List MSPPrincipal → List (Bytes × Nat) → List MSPPrincipal →
    List Nat × List MSPPrincipal
  | [],_,ids => ([],ids)
  | id :: that,idMap,ids =>
    match idMap.lookup (principalKey id) with
    | some j =>
      let (idRemap,merged) := mergeIdentities that idMap ids
      (j :: idRemap,merged)
    | none =>
      let (idRemap,merged) :=
        mergeIdentities that ((principalKey id,ids.length) :: idMap) (ids ++ [id])
      (ids.length :: idRemap,merged)

/-- The map of the principals of the first policy, the last one of a key first. -/
def identityMap (ids : List MSPPrincipal) : List (Bytes × Nat) :=
  (ids.zipIdx.map fun id => (principalKey id.1,id.2)).reverse

def merge (this that : SignaturePolicyEnvelope) : Except ConvertPanic SignaturePolicyEnvelope :=
  let (idRemap,ids) := mergeIdentities that.identities (identityMap this.identities) this.identities
  match remap idRemap that.rule with
  | .error reason => .error reason
  | .ok newEntry =>
    match this.rule with
    | .nOutOf n existingRules =>
      .ok { this with rule := .nOutOf n (existingRules ++ [newEntry]), identities := ids }
    | _ => .error .interfaceConversion

inductive ConvertFailure
  | panic (reason : ConvertPanic)
  | notConverter
  | notConvertible (number : Nat) (subPolicyName : String)
  | failedToConvert (number : Nat) (subPolicyName : String) (err : ConvertFailure)

def ConvertFailure.ofSubpolicy (number : Nat) (subPolicyName : String) :
    ConvertFailure → ConvertFailure
  | .panic reason => .panic reason
  | .notConverter => .notConvertible number subPolicyName
  | err => .failedToConvert number subPolicyName err

section
variable {Identity : Type} {msp : Membership Identity}

mutual
def Policy.convert : Policy msp → Except ConvertFailure SignaturePolicyEnvelope
  | .signature policy => .ok policy.signaturePolicyEnvelope
  | .implicitMeta threshold subPolicies subPolicyName =>
    convertLoop subPolicyName 0 ⟨0,.nOutOf threshold [],[]⟩ subPolicies
  | .reject _ => .error .notConverter
def Policy.convertLoop (subPolicyName : String) : Nat → SignaturePolicyEnvelope →
    List (Policy msp) → Except ConvertFailure SignaturePolicyEnvelope
  | _,converted,[] => .ok converted
  | i,converted,subPolicy :: subPolicies =>
    match convert subPolicy with
    | .error err => .error (err.ofSubpolicy i subPolicyName)
    | .ok spe =>
      match merge converted spe with
      | .error reason => .error (.panic reason)
      | .ok converted => convertLoop subPolicyName (i + 1) converted subPolicies
end

end

def known (classification : Int) : Bool := decide (0 ≤ classification ∧ classification ≤ 4)

theorem name_of_unknown (h : known classification = false) :
    classificationName classification = Text.decimal classification := by
  have hne : ¬ (0 ≤ classification ∧ classification ≤ 4) := of_decide_eq_false h
  unfold classificationName
  repeat rw [if_neg (by omega)]

theorem digit_byte_lt {c : Char} (h : c.isDigit = true) : c.toUInt8.toNat < 65 := by
  simp only [Char.isDigit,Bool.and_eq_true,decide_eq_true_eq] at h
  have hle : c.val.toNat ≤ 57 := h.2
  simp only [Char.toUInt8,UInt32.toNat_toUInt8]
  omega

theorem decimal_ne_nil (n : Int) : Text.decimal n ≠ [] := by
  cases n with
  | ofNat n => exact Nat.toDigits_ne_nil
  | negSucc n => exact cons_ne_nil _ _

theorem key_of_unknown {id : MSPPrincipal} (h : known id.principalClassification = false) :
    ∃ b re, principalKey id = b :: re ∧ b.toNat < 65 := by
  unfold principalKey
  rw [name_of_unknown h]
  cases hd : Text.decimal id.principalClassification with
  | nil => exact absurd hd (decimal_ne_nil _)
  | cons c re =>
    refine ⟨c.toUInt8,_,rfl,?_⟩
    obtain rfl | hdi := Text.decimal_digits (hd ▸ mem_cons_self : c ∈ Text.decimal _)
    · decide
    · exact digit_byte_lt hdi

theorem known_cases (h : known cl = true) : cl = 0 ∨ cl = 1 ∨ cl = 2 ∨ cl = 3 ∨ cl = 4 := by
  have := of_decide_eq_true h
  omega

def initial (classification : Int) : UInt8 := [82,79,73,65,67].getD classification.toNat 0

theorem initial_letter (h : known cl = true) : 65 ≤ (initial cl).toNat := by
  obtain rfl | rfl | rfl | rfl | rfl := known_cases h <;> decide

theorem initial_injective (ha : known a = true) (hb : known b = true)
    (h : initial a = initial b) : a = b := by
  obtain rfl | rfl | rfl | rfl | rfl := known_cases ha <;>
    obtain rfl | rfl | rfl | rfl | rfl := known_cases hb <;>
    revert h <;> decide

theorem key_of_known {id : MSPPrincipal} (h : known id.principalClassification = true) :
    ∃ rest, principalKey id = initial id.principalClassification :: rest := by
  unfold principalKey
  obtain h | h | h | h | h := known_cases h <;> rw [h] <;> exact ⟨_,rfl⟩

theorem known_of_key (h : principalKey p = principalKey q) :
    known p.principalClassification = known q.principalClassification := by
  cases hp : known p.principalClassification <;> cases hq : known q.principalClassification
  · rfl
  · obtain ⟨b,re,hb,hlt⟩ := key_of_unknown hp
    obtain ⟨r',hb'⟩ := key_of_known hq
    have hle := initial_letter hq
    rw [hb,hb'] at h
    rw [← (List.cons.inj h).1] at hle
    omega
  · obtain ⟨re,hb⟩ := key_of_known hp
    obtain ⟨b',r',hb',hlt⟩ := key_of_unknown hq
    have hle := initial_letter hp
    rw [hb,hb'] at h
    rw [(List.cons.inj h).1] at hle
    omega
  · rfl

theorem key_injective (hp : known p.principalClassification = true)
    (h : principalKey p = principalKey q) : p = q := by
  have hq := (known_of_key h).symm.trans hp
  obtain ⟨re,hb⟩ := key_of_known hp
  obtain ⟨r',hb'⟩ := key_of_known hq
  have hc : p.principalClassification = q.principalClassification := by
    rw [hb,hb'] at h
    exact initial_injective hp hq (List.cons.inj h).1
  unfold principalKey at h
  rw [hc] at h
  exact (MSPPrincipal.mk.injEq ..).mpr ⟨hc,append_cancel_left h⟩

section
variable {Identity : Type} {msp : Membership Identity}

def Alike (msp : Membership Identity) (p q : MSPPrincipal) : Prop :=
  (fun identity => msp.satisfiesPrincipal identity p) =
    fun identity => msp.satisfiesPrincipal identity q

/-- Membership services reject principals of an unknown classification. -/
def Membership.RejectsUnknown (msp : Membership Identity) : Prop :=
  ∀ identity principal, known principal.principalClassification = false →
    msp.satisfiesPrincipal identity principal = false

theorem key_alike (hr : msp.RejectsUnknown)
    (h : principalKey p = principalKey q) : Alike msp p q := by
  cases hp : known p.principalClassification with
  | true =>
    rw [key_injective hp h]
    rfl
  | false =>
    have hq := (known_of_key h).symm.trans hp
    funext identity
    rw [hr identity p hp,hr identity q hq]

def MapsInto (idMap : List (Bytes × Nat)) (ids : List MSPPrincipal) : Prop :=
  ∀ key j, idMap.lookup key = some j → ∃ p, ids[j]? = some p ∧ principalKey p = key

theorem mem_of_lookup {idMap : List (Bytes × Nat)} {ke : Bytes} {j : Nat}
    (h : idMap.lookup ke = some j) : (ke,j) ∈ idMap := by
  induction idMap with
  | nil => cases h
  | cons en idMap ih =>
    obtain ⟨k,v⟩ := en
    rw [lookup_cons] at h
    by_cases hk : ke = k
    · subst hk
      simp only [beq_self_eq_true] at h
      cases h
      exact mem_cons_self
    · simp only [beq_eq_false_iff_ne.mpr hk] at h
      exact mem_cons_of_mem _ (ih h)

theorem identity_map_into (ids : List MSPPrincipal) : MapsInto (identityMap ids) ids := by
  intro ke j h
  have hm := mem_of_lookup h
  unfold identityMap at hm
  rw [mem_reverse] at hm
  obtain ⟨⟨id,i⟩,hid,heq⟩ := mem_map.mp hm
  cases heq
  exact ⟨id,mem_zipIdx_iff_getElem?.mp hid,rfl⟩

variable {i1 : List MSPPrincipal}

theorem MapsInto.cons (h : MapsInto idMap i1) (id : MSPPrincipal) :
    MapsInto ((principalKey id,i1.length) :: idMap) (i1 ++ [id]) := by
  intro ke j hj
  rw [lookup_cons] at hj
  by_cases hk : ke = principalKey id
  · subst hk
    simp only [beq_self_eq_true] at hj
    cases hj
    exact ⟨id,by simp,rfl⟩
  simp only [beq_eq_false_iff_ne.mpr hk] at hj
  obtain ⟨p,hp,hke⟩ := h ke j hj
  obtain ⟨hlt,_⟩ := List.getElem?_eq_some_iff.mp hp
  exact ⟨p,by rw [List.getElem?_append_left hlt,hp],hke⟩

theorem merge_identities_spec (th : List MSPPrincipal) (h : MapsInto idMap i1) :
    (∃ mo, (mergeIdentities th idMap i1).2 = i1 ++ mo) ∧ ∀ (i : Nat) p, th[i]? = some p →
        ∃ j q, (mergeIdentities th idMap i1).1[i]? = some j ∧
          (mergeIdentities th idMap i1).2[j]? = some q ∧ principalKey q = principalKey p := by
  induction th generalizing idMap i1 with
  | nil =>
    refine ⟨⟨[],(append_nil _).symm⟩,?_⟩
    intro i p hp
    simp at hp
  | cons id th ih =>
    rw [mergeIdentities]
    cases hl : idMap.lookup (principalKey id) with
    | some j =>
      obtain ⟨⟨mo,hm⟩,hr⟩ := ih h
      refine ⟨⟨mo,hm⟩,?_⟩
      intro i p hp
      cases i with
      | zero =>
        cases hp
        obtain ⟨q,hq,hk⟩ := h _ j hl
        obtain ⟨hlt,_⟩ := List.getElem?_eq_some_iff.mp hq
        refine ⟨j,q,rfl,?_,hk⟩
        rw [hm,List.getElem?_append_left hlt,hq]
      | succ i => exact hr i p hp
    | none =>
      obtain ⟨⟨mo,hm⟩,hr⟩ := ih (h.cons id)
      refine ⟨⟨id :: mo,by simp only [hm,append_assoc,singleton_append]⟩,?_⟩
      intro i p hp
      cases i with
      | zero =>
        cases hp
        refine ⟨i1.length,id,rfl,?_,rfl⟩
        rw [hm,append_assoc,List.getElem?_append_right (Nat.le_refl _),Nat.sub_self]
        rfl
      | succ i => exact hr i p hp

theorem remap_rules_ok : remapRules ir rs = .ok rules' ↔
      List.Forall₂ (fun ru r' => remap ir ru = .ok r') rs rules' := by
  induction rs generalizing rules' with
  | nil =>
    rw [remapRules]
    constructor
    · rintro ⟨⟩
      exact .nil
    · rintro ⟨⟩
      rfl
  | cons ru rs ih =>
    rw [remapRules]
    constructor
    · intro h
      cases hr : remap ir ru with
      | error re => simp [hr] at h
      | ok first =>
        cases hrs : remapRules ir rs with
        | error re => simp [hr,hrs] at h
        | ok rt =>
          simp only [hr,hrs] at h
          cases h
          exact .cons hr (ih.mp hrs)
    · rintro (_ | ⟨hr,hre⟩)
      rw [hr,ih.mpr hre]

theorem principal_at_some {ix : Int} :
    principalAt i1 ix = some p ↔ 0 ≤ ix ∧ i1[ix.toNat]? = some p := by
  unfold principalAt
  by_cases h : ix < 0
  · rw [if_pos h]
    simp only [reduceCtorEq,false_iff,not_and]
    omega
  rw [if_neg h]
  simp only [iff_and_self]
  omega

theorem compile_remap {me : List MSPPrincipal} (hb : ∀ (i : Nat) p, i1[i]? = some p →
      ∃ j q, ir[i]? = some j ∧ me[j]? = some q ∧ Alike msp q p)
    (ho : compile msp.satisfiesPrincipal i1 po = .ok evaluator) :
    ∃ p', remap ir po = .ok p' ∧ compile msp.satisfiesPrincipal me p' = .ok evaluator := by
  induction po using SignaturePolicy.induct generalizing evaluator with
  | absent | unknown =>
    rw [compile] at ho
    cases ho
  | signedBy ix =>
    obtain ⟨pr,hat,rfl⟩ := compile_signed_by_ok.mp ho
    obtain ⟨hp,hid⟩ := principal_at_some.mp hat
    obtain ⟨j,q,hj,hq,ha⟩ := hb _ pr hid
    refine ⟨.signedBy j,?_,?_⟩
    · rw [remap,if_neg (by omega),hj]
    · refine compile_signed_by_ok.mpr ⟨q,principal_at_some.mpr ⟨by omega,hq⟩,?_⟩
      exact congrArg signedByEvaluator ha.symm
  | nOutOf n rs ih =>
    obtain ⟨ps,hru,rfl⟩ := compile_gate_ok.mp ho
    have hl : ∃ rules', List.Forall₂ (fun ru r' => remap ir ru = .ok r') rs
        rules' ∧ List.Forall₂ (fun po r' =>
          compile msp.satisfiesPrincipal me r' = .ok po) ps rules' := by
      have hcp := compile_rules_ok.mp hru
      clear ho hru
      induction hcp with
      | nil => exact ⟨[],.nil,.nil⟩
      | cons hc _ i2 =>
        obtain ⟨hrl,hrt⟩ := forall_mem_cons.mp ih
        obtain ⟨r',hr,hc'⟩ := hrl hc
        obtain ⟨rules',hrs,hcs'⟩ := i2 hrt
        exact ⟨r' :: rules',.cons hr hrs,.cons hc' hcs'⟩
    obtain ⟨rules',hre,hco⟩ := hl
    refine ⟨.nOutOf n rules',?_,?_⟩
    · rw [remap,remap_rules_ok.mpr hre]
    · exact compile_gate_ok.mpr ⟨ps,compile_rules_ok.mpr hco,rfl⟩

theorem compile_extend (ho : compile msp.satisfiesPrincipal i1 policy = .ok evaluator)
    (mo : List MSPPrincipal) :
    compile msp.satisfiesPrincipal (i1 ++ mo) policy = .ok evaluator := by
  induction policy using SignaturePolicy.induct generalizing evaluator with
  | absent | unknown =>
    rw [compile] at ho
    cases ho
  | signedBy ix =>
    obtain ⟨pr,hat,rfl⟩ := compile_signed_by_ok.mp ho
    obtain ⟨hp,hid⟩ := principal_at_some.mp hat
    obtain ⟨hlt,_⟩ := List.getElem?_eq_some_iff.mp hid
    refine compile_signed_by_ok.mpr ⟨pr,principal_at_some.mpr ⟨hp,?_⟩,rfl⟩
    rw [List.getElem?_append_left hlt,hid]
  | nOutOf n rs ih =>
    obtain ⟨ps,hrs,rfl⟩ := compile_gate_ok.mp ho
    refine compile_gate_ok.mpr ⟨ps,compile_rules_ok.mpr ?_,rfl⟩
    have hco := compile_rules_ok.mp hrs
    clear ho hrs
    induction hco with
    | nil => exact .nil
    | cons hc _ ir =>
      obtain ⟨hru,hr⟩ := forall_mem_cons.mp ih
      exact .cons (hru hc) (ir hr)

def GateOf (msp : Membership Identity) (env : SignaturePolicyEnvelope) (n : Int)
    (policies : List (Evaluator Identity)) : Prop :=
  ∃ rules, env.rule = .nOutOf n rules ∧
    compileRules msp.satisfiesPrincipal env.identities rules = .ok policies

theorem merge_gate (hs : msp.RejectsUnknown) (g : GateOf msp this n ps)
    (ho : compile msp.satisfiesPrincipal th.identities th.rule = .ok ev) :
    ∃ me, merge this th = .ok me ∧ GateOf msp me n (ps ++ [ev]) := by
  obtain ⟨ru,hru,hrs⟩ := g
  obtain ⟨⟨mo,hm⟩,hre⟩ :=
    merge_identities_spec th.identities (identity_map_into this.identities)
  have ha : ∀ (i : Nat) p, th.identities[i]? = some p → ∃ j q,
      (mergeIdentities th.identities (identityMap this.identities) this.identities).1[i]? =
        some j ∧ (this.identities ++ mo)[j]? = some q ∧ Alike msp q p := by
    intro i p hp
    obtain ⟨j,q,hj,hq,hk⟩ := hre i p hp
    exact ⟨j,q,hj,hm ▸ hq,key_alike hs hk⟩
  obtain ⟨ny,hr,hn⟩ := compile_remap ha ho
  refine ⟨⟨this.version,.nOutOf n (ru ++ [ny]),this.identities ++ mo⟩,?_,ru ++ [ny],rfl,?_⟩
  · unfold merge
    simp only [hr,hru,hm]
  apply compile_rules_ok.mpr
  refine rel_append ?_ (.cons hn .nil)
  exact (compile_rules_ok.mp hrs).imp fun _ _ hc => compile_extend hc mo

mutual
/-- The policy with one set of used identities for all of its leaves. -/
def Policy.shared : Policy msp → Evaluator Identity
  | .signature policy => policy.evaluator
  | .implicitMeta threshold subPolicies _ => nOutOfEvaluator threshold (sharedOf subPolicies)
  | .reject _ => fun _ used => (false,used)
def Policy.sharedOf : List (Policy msp) → List (Evaluator Identity)
  | [] => []
  | policy :: subPolicies => shared policy :: sharedOf subPolicies
end

theorem convert_loop_gate (ha : msp.RejectsUnknown) {sp : List (Policy msp)}
    (ih : ∀ po ∈ sp, ∃ en, po.convert = .ok en ∧
      compile msp.satisfiesPrincipal en.identities en.rule = .ok po.shared)
    {co : SignaturePolicyEnvelope} {ps : List (Evaluator Identity)}
    (g : GateOf msp co n ps) (na : String) (i : Nat) :
    ∃ en, convertLoop na i co sp = .ok en ∧ GateOf msp en n (ps ++ sharedOf sp) := by
  induction sp generalizing co ps i with
  | nil =>
    rw [convertLoop,sharedOf,append_nil]
    exact ⟨co,rfl,g⟩
  | cons po sp ir =>
    obtain ⟨⟨se,hs,hc⟩,hr⟩ := forall_mem_cons.mp ih
    obtain ⟨me,hm,hg⟩ := merge_gate ha g hc
    obtain ⟨en,he,hg'⟩ := ir hr hg (i + 1)
    rw [convertLoop,sharedOf]
    refine ⟨en,by simp only [hs,hm,he],?_⟩
    rw [append_assoc] at hg'
    exact hg'

theorem convert_shared (hs : msp.RejectsUnknown) {po : Policy msp}
    (ha : po.standard) : ∃ en, po.convert = .ok en ∧
      compile msp.satisfiesPrincipal en.identities en.rule = .ok po.shared := by
  induction po using induct with
  | signature po =>
    rw [convert,shared]
    exact ⟨_,rfl,po.compiled⟩
  | reject na =>
    rw [Policy.standard] at ha
    cases ha
  | implicitMeta th sp na ih =>
    rw [Policy.standard,standards_iff] at ha
    have hg : GateOf msp ⟨0,.nOutOf th [],[]⟩ th [] := ⟨[],rfl,rfl⟩
    obtain ⟨en,he,ru,hr,hrs⟩ := convert_loop_gate hs
      (fun po hp => ih po hp (ha.2 po hp)) hg na 0
    refine ⟨en,he,?_⟩
    rw [hr]
    exact compile_gate_ok.mpr ⟨_,hrs,rfl⟩

end

section
variable {Identity : Type} {msp : Membership Identity} {signers : List Identity}

def CompiledPolicy.principals (policy : CompiledPolicy msp) : List MSPPrincipal :=
  leafPrincipals policy.signaturePolicyEnvelope.identities policy.signaturePolicyEnvelope.rule

def principalsOf (leaves : List (CompiledPolicy msp)) : List MSPPrincipal :=
  leaves.flatMap CompiledPolicy.principals

theorem principals_of_append (first second : List (CompiledPolicy msp)) :
    principalsOf (first ++ second) = principalsOf first ++ principalsOf second :=
  flatMap_append

theorem serves_principals_of {ls : List (CompiledPolicy msp)} :
    Serves msp.satisfiesPrincipal (principalsOf ls) identity ↔
      ∃ l ∈ ls, Serves msp.satisfiesPrincipal l.principals identity := by
  unfold Serves principalsOf
  simp only [mem_flatMap]
  constructor
  · rintro ⟨p,⟨l,hl,hp⟩,hs⟩
    exact ⟨l,hl,p,hp,hs⟩
  · rintro ⟨l,hl,p,hp,hs⟩
    exact ⟨p,⟨l,hl,hp⟩,hs⟩

def Apart (signers : List Identity) (leaves : List (CompiledPolicy msp)) : Prop :=
  leaves.Pairwise fun a b =>
    shares msp.satisfiesPrincipal signers a.principals b.principals = false

theorem Apart.append {first se : List (CompiledPolicy msp)} (h : Apart signers (first ++ se)) :
    Apart signers first ∧ Apart signers se ∧ ∀ (i : Nat) identity, signers[i]? = some identity →
        Serves msp.satisfiesPrincipal (principalsOf se) identity →
        ¬ Serves msp.satisfiesPrincipal (principalsOf first) identity := by
  obtain ⟨hf,hse,hbe⟩ := pairwise_append.mp h
  refine ⟨hf,hse,?_⟩
  intro i identity pl hs hs'
  obtain ⟨b,hb,hs⟩ := serves_principals_of.mp hs
  obtain ⟨a,ha,hs'⟩ := serves_principals_of.mp hs'
  exact not_shares (hbe a ha b hb) pl hs hs'

theorem shared_frame {po : Policy msp} {iy : Identity} {i : Nat} (hl : signers[i]? = some iy)
    (o : ¬ Serves msp.satisfiesPrincipal (principalsOf po.leaves) iy)
    (us : List Bool) : (po.shared signers us).2[i]? = us[i]? := by
  induction po using induct generalizing us with
  | signature po =>
    rw [shared,compile_evaluate po.compiled]
    refine evaluate_frame hl ?_ us
    intro hs
    apply o
    exact serves_principals_of.mpr ⟨po,mem_singleton_self _,hs⟩
  | reject na => rw [shared]
  | implicitMeta th sp na ih =>
    rw [Policy.leaves] at o
    rw [shared]
    simp only [nOutOfEvaluator]
    generalize 0 = verified
    induction sp generalizing verified us with
    | nil => rw [sharedOf,nOutOfLoop]
    | cons po sp ir =>
      obtain ⟨hp,hr⟩ := forall_mem_cons.mp ih
      rw [leavesOf,principals_of_append,serves_append,not_or] at o
      have hf := hp o.1 us
      rw [sharedOf,nOutOfLoop]
      cases he : po.shared signers us with
      | mk pa next =>
        rw [he] at hf
        cases pa with
        | true => exact (ir hr o.2 next _).trans hf
        | false => exact ir hr o.2 us _

def Fresh (signers : List Identity) (leaves : List (CompiledPolicy msp)) (used : List Bool) :
    Prop :=
  ∀ (i : Nat) identity, signers[i]? = some identity →
    Serves msp.satisfiesPrincipal (principalsOf leaves) identity → used[i]? = some false

theorem shared_loop_count {subPolicies : List (Policy msp)}
    (ih : ∀ po ∈ subPolicies, ∀ used, Apart signers po.leaves → Fresh signers po.leaves used →
      (po.shared signers used).1 = (po.evaluateIdentities signers).isOk)
    (ha : Apart signers (leavesOf subPolicies)) {used : List Bool}
    (f : Fresh signers (leavesOf subPolicies) used) (ve : Nat) :
    (nOutOfLoop signers (sharedOf subPolicies) ve used).1 = ve +
      satisfied (fun l => evaluateIdentities l.evaluator signers) subPolicies := by
  induction subPolicies generalizing used ve with
  | nil => rfl
  | cons po subPolicies ir =>
    obtain ⟨hp,hre⟩ := forall_mem_cons.mp ih
    rw [leavesOf] at ha f
    obtain ⟨hfs,hse,hb⟩ := ha.append
    have hf : Fresh signers po.leaves used := by
      intro i iy pl hs
      exact f i iy pl (by rw [principals_of_append]; exact serves_append.mpr (.inl hs))
    have hr : Fresh signers (leavesOf subPolicies) used := by
      intro i iy pl hs
      exact f i iy pl (by rw [principals_of_append]; exact serves_append.mpr (.inr hs))
    have hn : Fresh signers (leavesOf subPolicies) (po.shared signers used).2 := by
      intro i iy pl hs
      rw [shared_frame pl (hb i iy pl hs) used]
      exact hr i iy pl hs
    have hve := hp used hfs hf
    rw [sharedOf,nOutOfLoop]
    cases he : po.shared signers used with
    | mk pa next =>
      rw [he] at hve hn
      cases hv : evaluateWith (fun l => evaluateIdentities l.evaluator signers) po with
      | ok _ =>
        rw [Policy.evaluateIdentities,hv] at hve
        cases hve
        rw [ir hre hse hn,satisfied_ok hv]
        omega
      | error er =>
        rw [Policy.evaluateIdentities,hv] at hve
        cases hve
        rw [ir hre hse hr,satisfied_error hv]

theorem shared_verdict {po : Policy msp} (hb : po.standard)
    (hd : Apart signers po.leaves) {us : List Bool}
    (f : Fresh signers po.leaves us) :
    (po.shared signers us).1 = (po.evaluateIdentities signers).isOk := by
  induction po using induct generalizing us with
  | reject na =>
    rw [Policy.standard] at hb
    cases hb
  | signature po =>
    have ha : AgreeOn signers (Serves msp.satisfiesPrincipal po.principals) us
        (List.replicate signers.length false) := by
      intro i iy pl hs
      rw [Policy.leaves] at f
      obtain ⟨hlt,_⟩ := List.getElem?_eq_some_iff.mp pl
      rw [f i iy pl
        (serves_principals_of.mpr ⟨po,mem_singleton_self _,hs⟩),
        List.getElem?_replicate,if_pos hlt]
    have hc := (evaluate_congr (fun _ hs => hs) ha).1
    rw [← compile_evaluate po.compiled] at hc
    rw [shared,Policy.evaluateIdentities,evaluateWith,hc]
    unfold evaluateIdentities
    cases (po.evaluator signers (List.replicate signers.length false)).1 <;> rfl
  | implicitMeta th sp na ih =>
    rw [Policy.standard,standards_iff] at hb
    obtain ⟨⟨ru,hr,hh⟩,hsu⟩ := hb
    have hcn := shared_loop_count
      (fun po hp us hd f => ih po hp (hsu po hp) hd f)
      hd f 0
    have has : Asks th sp.length := hh ▸ asks_threshold hr _
    rw [shared,Policy.evaluateIdentities]
    simp only [nOutOfEvaluator,hcn,Nat.zero_add]
    rw [Bool.eq_iff_iff,decide_eq_true_eq,← evaluate_implicit_meta has,Outcomes.is_ok_unit]

/-- Converting a policy of ANY, ALL and MAJORITY over signature policies keeps its meaning for
identities of which none satisfies principals of two of the signature policies. -/
theorem convert_equivalent (rejects : msp.RejectsUnknown) {policy : Policy msp}
    (standard : policy.standard) (apart : Apart signers policy.leaves) :
    ∃ env evaluator, policy.convert = .ok env ∧
      compile msp.satisfiesPrincipal env.identities env.rule = .ok evaluator ∧
      (policy.evaluateIdentities signers = .ok () ↔
        evaluateIdentities evaluator signers = .ok ()) := by
  obtain ⟨env,hco,hc⟩ := convert_shared rejects standard
  refine ⟨env,policy.shared,hco,hc,?_⟩
  have hf : Fresh signers policy.leaves (List.replicate signers.length false) := by
    intro i iy pl _
    obtain ⟨hlt,_⟩ := List.getElem?_eq_some_iff.mp pl
    rw [List.getElem?_replicate,if_pos hlt]
  rw [evaluate_identities_ok,shared_verdict standard apart hf,Outcomes.is_ok_unit]

end

def roleMembership : Membership UInt8 where
  deserializeIdentity bytes := bytes.head?
  mspid _ := []
  id identity := [identity]
  verify identity _ signature := decide (signature = [identity])
  satisfiesPrincipal identity principal :=
    decide (principal.principalClassification = 0 ∧ principal.principal = [identity])

theorem role_rejects_unknown : roleMembership.RejectsUnknown := by
  intro iy pr h
  apply decide_eq_false
  rintro ⟨hc,_⟩
  rw [hc] at h
  cases h

def signedByRole (role : UInt8) : Policy roleMembership :=
  .signature ⟨⟨0,.signedBy 0,[⟨0,[role]⟩]⟩,_,rfl⟩

def samplePolicy : Policy roleMembership :=
  newImplicitMetaPolicy .majority [
    newImplicitMetaPolicy .all [signedByRole 1,signedByRole 2] "Endorsement",
    newImplicitMetaPolicy .any [signedByRole 3,signedByRole 4] "Endorsement"] "Endorsement"

theorem sample_policy_standard : samplePolicy.standard := by
  refine ⟨⟨.majority,by simp,rfl⟩,⟨⟨.all,by simp,rfl⟩,?_⟩,⟨⟨.any,by simp,rfl⟩,?_⟩,trivial⟩
  · exact ⟨trivial,trivial,trivial⟩
  · exact ⟨trivial,trivial,trivial⟩

theorem sample_policy_converted : samplePolicy.evaluateIdentities [4,2,1] = .ok () ∧
      ∃ env evaluator, samplePolicy.convert = .ok env ∧
        compile roleMembership.satisfiesPrincipal env.identities env.rule = .ok evaluator ∧
        (samplePolicy.evaluateIdentities [4,2,1] = .ok () ↔
          evaluateIdentities evaluator [4,2,1] = .ok ()) :=
  ⟨by decide,convert_equivalent role_rejects_unknown sample_policy_standard
    (show List.Pairwise _ _ by decide)⟩

def repeatedPolicy : Policy roleMembership :=
  newImplicitMetaPolicy .all [signedByRole 1,signedByRole 1] "Endorsement"

/-- One signer satisfies both subpolicies, each on its own. In the converted policy the second
one finds the signer used. -/
theorem repeated_policy_converted :
    repeatedPolicy.standard ∧ repeatedPolicy.evaluateIdentities [1] = .ok () ∧
      ∃ env evaluator, repeatedPolicy.convert = .ok env ∧
        compile roleMembership.satisfiesPrincipal env.identities env.rule = .ok evaluator ∧
        evaluateIdentities evaluator [1] = .error .signatureSetDidNotSatisfyPolicy :=
  ⟨⟨⟨.all,by simp,rfl⟩,trivial,trivial,trivial⟩,by decide,
    ⟨0,.nOutOf 2 [.signedBy 0,.signedBy 0],[⟨0,[1]⟩]⟩,_,rfl,compile_eq_evaluate rfl,by decide⟩

end PluggableHcs.Policies
