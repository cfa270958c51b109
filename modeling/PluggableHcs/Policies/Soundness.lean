import PluggableHcs.Policies.SignaturePolicy
import Mathlib.Data.List.Nodup

namespace PluggableHcs.Policies
open List hiding count

abbrev Path := List Nat

def underRule (i : Nat) (a : Path × α) : Path × α := (i :: a.1,a.2)

section
variable {Identity : Type} (satisfies : Identity → MSPPrincipal → Bool)
  (identities : List MSPPrincipal)

mutual
/-- A policy is met by identities assigned to some of its leaves. Each satisfies the principal of
its leaf, and every gate above has as many rules met as it asks. -/
inductive Meets : SignaturePolicy → List (Path × Identity) → Prop
  | signedBy (listed : principalAt identities index = some principal)
      (satisfied : satisfies signer principal = true) : Meets (.signedBy index) [([],signer)]
  | nOutOf (met : MeetsSome rules 0 count assigned) (enough : n ≤ (count : Int)) :
      Meets (.nOutOf n rules) assigned
/-- So many of the rules of a gate are met, where the first one stands at the given place.
Nothing is assigned below the others. -/
inductive MeetsSome : List SignaturePolicy → Nat → Nat → List (Path × Identity) → Prop
  | nil : MeetsSome [] i 0 []
  | skip (rest : MeetsSome rules (i + 1) count assigned) :
      MeetsSome (rule :: rules) i count assigned
  | met (first : Meets rule own) (rest : MeetsSome rules (i + 1) count assigned) :
      MeetsSome (rule :: rules) i (count + 1) (own.map (underRule i) ++ assigned)
end

end

section
variable {Identity : Type}

/-- The identities at these places, none of them used before, are what a call used. -/
structure Spent (signedData : List Identity) (used _used : List Bool)
    (spent : List (Nat × Identity)) : Prop where
  nodup : (spent.map Prod.fst).Nodup
  taken : ∀ x ∈ spent, signedData[x.1]? = some x.2 ∧ used[x.1]? = some false
  flags : ∀ i, _used[i]? = if i ∈ spent.map Prod.fst then some true else used[i]?

theorem Spent.nothing (si : List Identity) (us : List Bool) : Spent si us us [] := by
  refine ⟨nodup_nil,by simp,?_⟩
  intro i
  simp

theorem Spent.one {id : Identity} (hid : signedData[i]? = some id) (hu : us[i]? = some false) :
    Spent signedData us (us.set i true) [(i,id)] := by
  refine ⟨by simp,?_,?_⟩
  · intro x hx
    rw [mem_singleton.mp hx]
    exact ⟨hid,hu⟩
  intro j
  obtain ⟨hlt,_⟩ := List.getElem?_eq_some_iff.mp hu
  by_cases hj : i = j
  · subst hj
    simp [hlt]
  · simp [hj,Ne.symm hj]

theorem Spent.append {first se : List (Nat × Identity)} (h₁ : Spent signedData us u₁ first)
    (h₂ : Spent signedData u₁ u₂ se) : Spent signedData us u₂ (first ++ se) := by
  have hn : ∀ x ∈ se, x.1 ∉ first.map Prod.fst := by
    intro x hx ho
    have hf := (h₂.taken x hx).2
    rw [h₁.flags,if_pos ho] at hf
    cases hf
  refine ⟨?_,?_,?_⟩
  · rw [map_append]
    refine nodup_append.mpr ⟨h₁.nodup,h₂.nodup,?_⟩
    rintro a ha b hb rfl
    obtain ⟨x,hx,rfl⟩ := mem_map.mp hb
    exact hn x hx ha
  · intro x hx
    rcases mem_append.mp hx with hx | hx
    · exact h₁.taken x hx
    obtain ⟨hid,hf⟩ := h₂.taken x hx
    rw [h₁.flags,if_neg (hn x hx)] at hf
    exact ⟨hid,hf⟩
  · intro i
    rw [h₂.flags,h₁.flags,map_append]
    by_cases hs : i ∈ se.map Prod.fst
    · simp [hs]
    · simp only [hs,if_false,mem_append,or_false]

end

section
variable {Identity : Type} {ss : Identity → MSPPrincipal → Bool}
  {ie : List MSPPrincipal} {si : List Identity}

abbrev Assigned (Identity : Type) := Path × Nat × Identity

def Assigned.leaf (a : Assigned Identity) : Path × Identity := (a.1,a.2.2)

theorem evaluate_rules_meets (rs : List SignaturePolicy) (ih : ∀ ru ∈ rs, ∀ us _used,
      evaluate ss ie ru si us = (true,_used) →
      ∃ ad : List (Assigned Identity), Meets ss ie ru (ad.map Assigned.leaf) ∧
          Spent si us _used (ad.map Prod.snd)) (i : Nat) (us : List Bool) :
    ∃ ad : List (Assigned Identity), MeetsSome ss ie rs i
          (evaluateRules ss ie rs si us).1
          (ad.map Assigned.leaf) ∧
        Spent si us (evaluateRules ss ie rs si us).2
          (ad.map Prod.snd) := by
  induction rs generalizing i us with
  | nil =>
    rw [evaluateRules]
    exact ⟨[],.nil,.nothing si us⟩
  | cons ru rs ir =>
    obtain ⟨hru,hrs⟩ := forall_mem_cons.mp ih
    cases he : evaluate ss ie ru si us with
    | mk pa _used =>
      cases pa with
      | false =>
        rw [evaluate_rules_failed he]
        obtain ⟨ad,hm,hs⟩ := ir hrs (i + 1) us
        exact ⟨ad,.skip hm,hs⟩
      | true =>
        rw [evaluate_rules_passed he]
        obtain ⟨o,ho,hs⟩ := hru us _used he
        obtain ⟨ad,hm,hr⟩ := ir hrs (i + 1) _used
        refine ⟨o.map (underRule i) ++ ad,?_,?_⟩
        · rw [map_append,map_map]
          have hl : o.map (Assigned.leaf ∘ underRule i) =
              (o.map Assigned.leaf).map (underRule i) := by
            rw [map_map]
            rfl
          rw [hl]
          exact .met ho hm
        · rw [map_append,map_map]
          exact hs.append hr

theorem evaluate_meets {us _used : List Bool} (h : evaluate ss ie policy si us = (true,_used)) :
    ∃ ad : List (Assigned Identity), Meets ss ie policy (ad.map Assigned.leaf) ∧
        Spent si us _used (ad.map Prod.snd) := by
  induction policy using SignaturePolicy.induct generalizing us _used with
  | absent | unknown =>
    rw [evaluate] at h
    cases h
  | signedBy ix =>
    rw [evaluate] at h
    cases hat : principalAt ie ix with
    | none =>
      rw [hat] at h
      cases h
    | some pr =>
      rw [hat] at h
      obtain ⟨hps,_⟩ | ⟨i,_,rfl,hfs⟩ := signed_by_cases h
      · cases hps
      · obtain ⟨⟨id,hid,hs,hf⟩,_⟩ := first_unused_some hfs
        exact ⟨[([],i,id)],.signedBy hat hs,.one hid hf⟩
  | nOutOf n rs ih =>
    obtain ⟨ad,hm,hsp⟩ := evaluate_rules_meets rs
      (fun ru hr us _used h => ih ru hr h) 0 us
    obtain ⟨hn,hu⟩ := Prod.mk.inj h
    subst hu
    exact ⟨ad,.nOutOf hm (of_decide_eq_true hn),hsp⟩

theorem MeetsSome.paths (ih : ∀ ru ∈ rs, ∀ ad : List (Path × Identity),
      Meets ss ie ru ad → (ad.map Prod.fst).Nodup)
    (h : MeetsSome ss ie rs i count ad) :
    (ad.map Prod.fst).Nodup ∧ ∀ a ∈ ad, ∃ j rest, i ≤ j ∧ a.1 = j :: rest := by
  induction rs generalizing i count ad with
  | nil =>
    cases h
    simp
  | cons ru rs ir =>
    obtain ⟨hr,hrs⟩ := forall_mem_cons.mp ih
    cases h with
    | skip rest =>
      obtain ⟨hn,h1⟩ := ir hrs rest
      refine ⟨hn,?_⟩
      intro a ha
      obtain ⟨j,pa,hj,hp⟩ := h1 a ha
      exact ⟨j,pa,by omega,hp⟩
    | @met _ o _ _ ad _ first rest =>
      obtain ⟨hn,h1⟩ := ir hrs rest
      have how : (o.map (underRule i)).map Prod.fst = (o.map Prod.fst).map (i :: ·) := by
        rw [map_map,map_map]
        rfl
      constructor
      · rw [map_append,how]
        refine nodup_append.mpr ⟨(hr o first).map cons_injective,hn,?_⟩
        rintro pa hp _ ho rfl
        obtain ⟨rest,_,rfl⟩ := mem_map.mp hp
        obtain ⟨a,ha,hap⟩ := mem_map.mp ho
        obtain ⟨j,pa,hj,hp⟩ := h1 a ha
        rw [hap] at hp
        have := (List.cons.inj hp).1
        omega
      · intro a ha
        rcases mem_append.mp ha with ha | ha
        · obtain ⟨b,_,rfl⟩ := mem_map.mp ha
          exact ⟨i,b.1,Nat.le_refl i,rfl⟩
        · obtain ⟨j,pa,hj,hp⟩ := h1 a ha
          exact ⟨j,pa,by omega,hp⟩

theorem Meets.paths_nodup (h : Meets ss ie policy ad) : (ad.map Prod.fst).Nodup := by
  induction policy using SignaturePolicy.induct generalizing ad with
  | absent | unknown => cases h
  | signedBy ix =>
    cases h
    simp
  | nOutOf n rs ih =>
    cases h with
    | nOutOf me => exact (me.paths fun ru hr ad h => ih ru hr h).1

end

variable {Identity : Type} {msp : Membership Identity}

def Membership.Signed (msp : Membership Identity) (signatureSet : List SignedData)
    (identity : Identity) : Prop :=
  ∃ sd ∈ signatureSet, msp.deserializeIdentity sd.identity = some identity ∧
    msp.verify identity sd.data sd.signature = true

theorem Membership.Signed.cons (h : msp.Signed ss identity) (sd : SignedData) :
    msp.Signed (sd :: ss) identity := by
  obtain ⟨s',hm,hs⟩ := h
  exact ⟨s',mem_cons_of_mem _ hm,hs⟩

theorem valid_identities_spec (msp : Membership Identity) (im : List Bytes) (ss : List SignedData) :
    ((validIdentities msp im ss).map msp.key).Nodup ∧ ∀ identity ∈ validIdentities msp im ss,
        msp.key identity ∉ im ∧ msp.Signed ss identity := by
  induction ss generalizing im with
  | nil => simp [validIdentities]
  | cons sd ss ih =>
    have hsk : ((validIdentities msp im ss).map msp.key).Nodup ∧
        ∀ identity ∈ validIdentities msp im ss,
          msp.key identity ∉ im ∧ msp.Signed (sd :: ss) identity := by
      obtain ⟨hno,ha⟩ := ih im
      refine ⟨hno,?_⟩
      intro identity hm
      obtain ⟨hn,hs⟩ := ha identity hm
      exact ⟨hn,hs.cons sd⟩
    rw [validIdentities]
    cases hd : msp.deserializeIdentity sd.identity with
    | none => exact hsk
    | some identity =>
      simp only
      split_ifs with hse hb
      · exact hsk
      · exact hsk
      obtain ⟨hno,ha⟩ := ih (msp.key identity :: im)
      constructor
      · rw [map_cons,nodup_cons]
        refine ⟨?_,hno⟩
        intro hm
        obtain ⟨o,ho,hk⟩ := mem_map.mp hm
        have hn := (ha o ho).1
        rw [hk] at hn
        exact hn mem_cons_self
      · intro o ho
        rcases mem_cons.mp ho with rfl | ho
        · exact ⟨hse,sd,mem_cons_self,hd,by simpa using hb⟩
        · obtain ⟨hn,hs⟩ := ha o ho
          exact ⟨fun h => hn (mem_cons_of_mem _ h),hs.cons sd⟩

theorem Spent.keys_nodup {us _used : List Bool} (h : Spent signedData us _used sp)
    (hks : (signedData.map msp.key).Nodup) : (sp.map fun x => msp.key x.2).Nodup := by
  refine List.Nodup.map_on ?_ (List.Nodup.of_map _ h.nodup)
  rintro ⟨i,id⟩ hx ⟨j,i'⟩ hy hke
  have hi := (h.taken _ hx).1
  have hj := (h.taken _ hy).1
  have hij : i = j := by
    have hk : (signedData.map msp.key)[i]? = some (msp.key id) := by
      rw [List.getElem?_map,hi]
      rfl
    have hkj : (signedData.map msp.key)[j]? = some (msp.key id) := by
      rw [List.getElem?_map,hj,hke]
      rfl
    have hlt : i < (signedData.map msp.key).length := (List.getElem?_eq_some_iff.mp hk).1
    exact (List.getElem?_inj hlt hks).mp (hk.trans hkj.symm)
  subst hij
  rw [hi] at hj
  exact congrArg (Prod.mk i) (Option.some.inj hj)

/-- Where signatures satisfy a compiled policy, different validly signing identities meet it, and
none counts for two leaves. -/
theorem evaluate_signed_data_sound {env : SignaturePolicyEnvelope} {evaluator : Evaluator Identity}
    {signatureSet : List SignedData}
    (compiled : compile msp.satisfiesPrincipal env.identities env.rule = .ok evaluator)
    (accepted : evaluateSignedData msp evaluator signatureSet = .ok ()) :
    ∃ assigned : List (Path × Identity),
      Meets msp.satisfiesPrincipal env.identities env.rule assigned ∧
      (assigned.map Prod.fst).Nodup ∧ (assigned.map fun a => msp.key a.2).Nodup ∧
      ∀ a ∈ assigned, msp.Signed signatureSet a.2 := by
  rw [evaluateSignedData,evaluate_identities_ok,compile_evaluate compiled] at accepted
  obtain ⟨hk,hsi⟩ := valid_identities_spec msp [] signatureSet
  obtain ⟨assigned,hm,hs⟩ := evaluate_meets
    (show evaluate msp.satisfiesPrincipal env.identities env.rule
      (signatureSetToValidIdentities msp signatureSet) _ = (true,_) from Prod.ext accepted rfl)
  refine ⟨assigned.map Assigned.leaf,hm,hm.paths_nodup,?_,?_⟩
  · have hn := hs.keys_nodup hk
    rw [map_map] at hn ⊢
    exact hn
  intro a ha
  obtain ⟨x,hx,rfl⟩ := mem_map.mp ha
  have hid := (hs.taken x.2 (mem_map_of_mem hx)).1
  exact (hsi _ (mem_of_getElem? hid)).2

def byteMembership : Membership UInt8 where
  deserializeIdentity bytes := bytes.head?
  mspid _ := []
  id identity := [identity]
  verify identity _ signature := decide (signature = [identity])
  satisfiesPrincipal identity principal := decide (identity ∈ principal.principal)

def sampleEnvelope : SignaturePolicyEnvelope where
  version := 0
  rule := .nOutOf 2 [.nOutOf 1 [.signedBy 0,.signedBy 1],.signedBy 2]
  identities := [⟨0,[1]⟩,⟨0,[2]⟩,⟨0,[3]⟩]

def sampleSignatures : List SignedData :=
  [⟨[],[2],[2]⟩,⟨[],[2],[2]⟩,⟨[],[1],[9]⟩,⟨[],[3],[3]⟩]

theorem sample_signatures_sound : evaluateSignedData byteMembership
        (evaluate byteMembership.satisfiesPrincipal sampleEnvelope.identities sampleEnvelope.rule)
        sampleSignatures = .ok () ∧
      ∃ assigned : List (Path × UInt8),
        Meets byteMembership.satisfiesPrincipal sampleEnvelope.identities sampleEnvelope.rule
          assigned ∧
        (assigned.map Prod.fst).Nodup ∧ (assigned.map fun a => byteMembership.key a.2).Nodup ∧
        ∀ a ∈ assigned, byteMembership.Signed sampleSignatures a.2 :=
  have ad : evaluateSignedData byteMembership
      (evaluate byteMembership.satisfiesPrincipal sampleEnvelope.identities sampleEnvelope.rule)
      sampleSignatures = .ok () := by decide
  ⟨ad,evaluate_signed_data_sound (compile_eq_evaluate rfl) ad⟩

end PluggableHcs.Policies
