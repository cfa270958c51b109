import PluggableHcs.Configtx.Concurrency
import PluggableHcs.Configtx.Differences

namespace PluggableHcs.Configtx
open Trees Option Outcomes ConfigGroup

variable {μ : Type} {d : Decoders} {p : PolicyManagers μ} {vi : Validator μ} {o u t : ConfigGroup}
  {env : ConfigUpdateEnvelope} {signedData : List SignedData} {k : Kind} {ns : List Chars}

def Alike (o u : ConfigGroup) : Prop :=
  ∀ k ns, (o.elementAt k ns).map Element.content = (u.elementAt k ns).map Element.content

/-- The tree that an update from `o` to `u` leads to: `u`, where what changed is one version on,
what is new is at 0, and all else is at its old version. -/
structure Applied (o u t : ConfigGroup) : Prop where
  content : Alike t u
  unchanged : ∀ {k ns x e}, o.elementAt k ns = some x → t.elementAt k ns = some e →
    x.content = e.content → e.version = x.version
  raised : ∀ {k ns x e}, o.elementAt k ns = some x → t.elementAt k ns = some e →
    x.content ≠ e.content → e.version = x.version + 1
  fresh : ∀ {k ns e}, o.elementAt k ns = none → t.elementAt k ns = some e → e.version = 0

theorem members_of_content {x y : Element} (h : x.content = y.content) : x.members = y.members := by
  have hm : x.content.members = y.content.members := congrArg Element.members h
  exact hm

theorem change_some (h : change x y = some e) : ∃ z, y = some z ∧ e.content = z.content := by
  cases y with
  | none => cases x <;> cases h
  | some z =>
    refine ⟨z,rfl,?_⟩
    cases x with
    | none =>
      cases h
      rfl
    | some x =>
      by_cases hc : x.content = z.content
      · rw [change_same hc] at h
        cases h
      rw [change_differs hc] at h
      cases h
      rfl

theorem change_none (h : change x (some y) = none) : ∃ z, x = some z ∧ z.content = y.content := by
  cases x with
  | none => cases h
  | some x =>
    refine ⟨x,rfl,?_⟩
    by_contra hc
    rw [change_differs hc] at h
    cases h

theorem Alike.no_change (h : Alike o u) : change (o.elementAt k ns) (u.elementAt k ns) = none := by
  have hk := h k ns
  cases hu : u.elementAt k ns with
  | none => cases o.elementAt k ns <;> rfl
  | some y =>
    rw [hu,map_some] at hk
    obtain ⟨x,hx,hc⟩ := map_eq_some_iff.mp hk
    rw [hx]
    exact change_same hc

/-- That nothing is left out of the second tree is seen from the groups above, from the root on. -/
theorem alike_of_no_change (h : ∀ k ns, change (o.elementAt k ns) (u.elementAt k ns) = none) :
    Alike o u := by
  have hs : ∀ {k ns x}, o.elementAt k ns = some x → u.elementAt k ns ≠ none := by
    intro k ns
    induction ns generalizing k with
    | nil =>
      intro x hx
      cases o.element_at_closed.root hx
      rw [shape,element_at_root]
      simp
    | cons n ns ih =>
      intro x hx
      obtain ⟨v,hv,hl⟩ := o.element_at_closed.listed hx
      obtain ⟨y,hy⟩ := ne_none_iff_exists'.mp (ih hv)
      have hg := h shape.inner ns
      rw [hy] at hg
      obtain ⟨v',hv',hc⟩ := change_none hg
      cases hv.symm.trans hv'
      have hl : v.members k n := hl
      rw [members_of_content hc] at hl
      obtain ⟨z,hz⟩ := u.element_at_complete hy hl
      rw [hz]
      simp
  intro k ns
  cases hu : u.elementAt k ns with
  | none =>
    cases ho : o.elementAt k ns with
    | none => rfl
    | some x => exact absurd hu (hs ho)
  | some y =>
    have hk := h k ns
    rw [hu] at hk
    obtain ⟨x,hx,hc⟩ := change_none hk
    rw [hx,map_some,map_some,hc]

theorem Computed.updated_iff (c : Computed o u g) : g.updatedGroup = false ↔ Alike o u := by
  constructor
  · intro h
    exact alike_of_no_change fun _ _ => c.no_change h
  intro h
  by_contra hup
  obtain ⟨k,ns,hc⟩ := c.changed (by simpa using hup)
  exact hc h.no_change

section
variable {r w : Layout Kind Chars Element}
  (ss : ∀ k ns, delta r w k ns = change (o.elementAt k ns) (u.elementAt k ns))
include ss

theorem overlaid_element (hu : u.elementAt k ns = some y) :
    ∃ e, overlay (delta r w) o.elementAt k ns = some e ∧ e.content = y.content := by
  have hk := ss k ns
  cases hd : delta r w k ns with
  | none =>
    rw [hd,hu] at hk
    obtain ⟨x,hx,hc⟩ := change_none hk.symm
    exact ⟨x,(overlay_none hd).trans hx,hc⟩
  | some e =>
    rw [hd] at hk
    obtain ⟨z,hz,hc⟩ := change_some hk.symm
    cases hu.symm.trans hz
    exact ⟨e,overlay_some hd,hc⟩

theorem overlaid_reached {y : Element} (hu : u.elementAt k ns = some y) :
    ∃ e, shape.reach (overlay (delta r w) o.elementAt) k ns = some e ∧ e.content = y.content := by
  induction ns generalizing k y with
  | nil =>
    cases u.element_at_closed.root hu
    rw [Shape.reach_root]
    exact overlaid_element ss hu
  | cons n ns ih =>
    obtain ⟨v,hv,hl⟩ := u.element_at_closed.listed hu
    obtain ⟨g,hg,hc⟩ := ih hv
    obtain ⟨e,he,hce⟩ := overlaid_element ss hu
    have hl : v.members k n := hl
    rw [← members_of_content hc] at hl
    exact ⟨e,Shape.reach_cons.mpr ⟨g,hg,hl,he⟩,hce⟩

theorem overlaid_only {e : Element}
    (h : shape.reach (overlay (delta r w) o.elementAt) k ns = some e) : u.elementAt k ns ≠ none := by
  induction ns generalizing k e with
  | nil =>
    cases Shape.reach_closed.root h
    rw [shape,element_at_root]
    simp
  | cons n ns ih =>
    obtain ⟨g,hg,hl,_⟩ := Shape.reach_cons.mp h
    obtain ⟨v,hv⟩ := ne_none_iff_exists'.mp (ih hg)
    obtain ⟨g',hg',hc⟩ := overlaid_reached ss hv
    cases hg.symm.trans hg'
    have hl : g.members k n := hl
    rw [members_of_content hc] at hl
    obtain ⟨z,hz⟩ := u.element_at_complete hv hl
    rw [hz]
    simp

theorem overlaid_versions (h : overlay (delta r w) o.elementAt k ns = some e)
    (hu : u.elementAt k ns ≠ none) :
    (∀ x, o.elementAt k ns = some x → x.content = e.content → e.version = x.version) ∧
    (∀ x, o.elementAt k ns = some x → x.content ≠ e.content → e.version = x.version + 1) ∧
    (o.elementAt k ns = none → e.version = 0) := by
  obtain ⟨y,hy⟩ := ne_none_iff_exists'.mp hu
  have hk := ss k ns
  rw [hy] at hk
  cases ho : o.elementAt k ns with
  | none =>
    rw [ho] at hk
    rw [overlay_some hk] at h
    cases h
    exact ⟨by simp,by simp,fun _ => rfl⟩
  | some x =>
    rw [ho] at hk
    by_cases hc : x.content = y.content
    · rw [change_same hc] at hk
      rw [overlay_none hk,ho] at h
      cases h
      refine ⟨?_,?_,by simp⟩
      · intro z hz _
        cases hz
        rfl
      intro z hz hne
      cases hz
      exact absurd rfl hne
    · rw [change_differs hc] at hk
      rw [overlay_some hk] at h
      cases h
      refine ⟨?_,?_,by simp⟩
      · intro z hz hs
        cases hz
        exact absurd hs hc
      intro z hz _
      cases hz
      rfl

end

theorem Follows.applied (f : Follows p vi signedData o t r w on)
    (hs : ∀ k ns, delta r w k ns = change (o.elementAt k ns) (u.elementAt k ns))
    (hp : ∀ {k ns e}, u.elementAt k ns = some e → validateModPolicy e.modPolicy = .ok ()) :
    Applied o u t := by
  -- no mod_policy is empty, so that none is upgraded
  have hr : ∀ k ns, t.elementAt k ns = shape.reach (overlay (delta r w) o.elementAt) k ns := by
    intro k ns
    rw [f.result]
    cases he : shape.reach (overlay (delta r w) o.elementAt) k ns with
    | none => rfl
    | some e =>
      obtain ⟨y,hy⟩ := ne_none_iff_exists'.mp (overlaid_only hs he)
      obtain ⟨e',he',hc⟩ := overlaid_reached hs hy
      cases he.symm.trans he'
      have hmo : e.modPolicy = y.modPolicy := by
        have hm : e.content.modPolicy = y.content.modPolicy := congrArg Element.modPolicy hc
        exact hm
      rw [map_some,upgraded_set]
      rw [hmo]
      exact validate_mod_policy_set (hp hy)
  have hv : ∀ {k ns e}, t.elementAt k ns = some e → _ := fun {k ns e} he =>
    overlaid_versions hs (Shape.reach_le ((hr k ns).symm.trans he))
      (overlaid_only hs ((hr k ns).symm.trans he))
  refine ⟨?_,?_,?_,?_⟩
  · intro k ns
    rw [hr]
    cases hu : u.elementAt k ns with
    | none =>
      cases he : shape.reach (overlay (delta r w) o.elementAt) k ns with
      | none => rfl
      | some e => exact absurd hu (overlaid_only hs he)
    | some y =>
      obtain ⟨e,he,hc⟩ := overlaid_reached hs hu
      rw [he,map_some,map_some,hc]
  · intro k ns x e hx he
    exact (hv he).1 x hx
  · intro k ns x e hx he
    exact (hv he).2.1 x hx
  · intro k ns e hx he
    exact (hv he).2.2 hx

theorem Computed.admits (c : Computed o u g) (hne : ¬ Alike o u)
    (hp : ∀ {k ns e}, u.elementAt k ns = some e → validateModPolicy e.modPolicy = .ok ())
    {satisfied : Kind → List Chars → Prop}
    (hs : ∀ {k ns}, o.elementAt k ns ≠ none → satisfied k ns) :
    Admits o.elementAt g.readSet.elementAt g.writeSet.elementAt satisfied := by
  have hd : ∀ k ns, delta g.readSet.elementAt g.writeSet.elementAt k ns =
      change (o.elementAt k ns) (u.elementAt k ns) := fun k ns => (c.states k ns).delta_eq
  refine ⟨⟨?_,?_,?_⟩,?_,?_,?_⟩
  · intro k ns e he
    exact (c.states k ns).current he
  · intro k ns e he hn
    obtain ⟨y,hy,_⟩ := change_some ((hd k ns).symm.trans he)
    rw [hd,hn,hy] at he
    cases he
    rfl
  · intro k ns e x he hx
    obtain ⟨y,hy,_⟩ := change_some ((hd k ns).symm.trans he)
    rw [hd,hx,hy] at he
    by_cases hc : x.content = y.content
    · rw [change_same hc] at he
      cases he
    rw [change_differs hc] at he
    cases he
    rfl
  · have hup : g.updatedGroup = true := by
      by_contra hup
      exact hne (c.updated_iff.mp (by simpa using hup))
    obtain ⟨k,ns,hch⟩ := c.changed hup
    obtain ⟨e,he⟩ := ne_none_iff_exists'.mp hch
    exact ⟨k,ns,e,(hd k ns).trans he⟩
  · intro k ns e he
    obtain ⟨y,hy,hc⟩ := change_some ((hd k ns).symm.trans he)
    have hm : e.content.modPolicy = y.content.modPolicy := congrArg Element.modPolicy hc
    have hm : e.modPolicy = y.modPolicy := hm
    rw [hm]
    exact hp hy
  · intro k ns e x _ hx
    exact hs (by simp [hx])

theorem named_of_places (hn : Named ro (some t))
    (h : ∀ k ns, s.elementAt k ns ≠ none → t.elementAt k ns ≠ none) : Named ro (some s) := by
  refine ⟨fun _ => hn.rootLegal rfl,?_⟩
  intro k ns c hc
  have hf : s.find k ns = some c := hc
  have hp : t.elementAt k ns ≠ none := by
    apply h
    rw [elementAt,hf]
    simp
  obtain ⟨e,he⟩ := ne_none_iff_exists'.mp hp
  obtain ⟨c',hc',_⟩ := map_eq_some_iff.mp he
  exact hn.of_find hc'

theorem Computed.read_named (c : Computed o u g)
    (hn : Named ro (some o)) : Named ro (some g.readSet) := by
  apply named_of_places hn
  intro k ns h
  obtain ⟨e,he⟩ := ne_none_iff_exists'.mp h
  obtain ⟨x,hx,_⟩ := (c.states k ns).current he
  rw [hx]
  simp

theorem Computed.applies (c : Computed o u g) (hne : ¬ Alike o u)
    (hs : vi.Holds o) (hn : Named vi.rootGroupKey (some u))
    (hp : ∀ {k ns e}, u.elementAt k ns = some e → validateModPolicy e.modPolicy = .ok ())
    (hd : d.unmarshalConfigUpdate env.configUpdate =
      some ⟨vi.channelID,some g.readSet,some g.writeSet⟩)
    (hi : configUpdateEnvelopeAsSignedData d env = some signedData)
    (ha : ∀ {k ns}, o.elementAt k ns ≠ none → vi.Satisfied p signedData o k ns) :
    ∃ m t, vi.authorizeUpdate d p (some env) = .ok m ∧
      configMapToConfig m vi.rootGroupKey = .ok t ∧ Applied o u t := by
  have a : vi.Admitted d p o env ⟨vi.channelID,some g.readSet,some g.writeSet⟩ signedData :=
    ⟨hd,rfl,c.read_named hs.flattens.toNamed,
      named_of_places hn fun k ns => (c.states k ns).written,hi,
      c.admits hne hp ha⟩
  obtain ⟨m,hm⟩ := admitted_authorized hs a
  obtain ⟨t,ht⟩ := authorized_rebuilds hs hm
  have f := authorize_follows hs hd hi hm ht
  exact ⟨m,t,hm,ht,f.applied (fun k ns => (c.states k ns).delta_eq) hp⟩

theorem compute_ok {ue : ConfigUpdate} (h : compute ol updated = .ok ue) :
    ∃ o u, ol.channelGroup = some o ∧ updated.channelGroup = some u ∧
      (computeGroupUpdate u.depth o u).updatedGroup = true ∧
      ue = ⟨[],some (computeGroupUpdate u.depth o u).readSet,
        some (computeGroupUpdate u.depth o u).writeSet⟩ := by
  rw [compute] at h
  cases ho : ol.channelGroup with
  | none =>
    rw [ho] at h
    cases h
  | some o =>
    cases hu : updated.channelGroup with
    | none =>
      rw [ho,hu] at h
      cases h
    | some u =>
      simp only [ho,hu] at h
      split_ifs at h with hup
      cases h
      exact ⟨o,u,rfl,rfl,hup,rfl⟩

theorem compute_formed {ue : ConfigUpdate} (f : ol.Formed)
    (f' : updated.Formed) (h : compute ol updated = .ok ue) : ue.Formed := by
  obtain ⟨o,u,ho,hu,_,rfl⟩ := compute_ok h
  have c := compute_group_update_computed (f o ho) (f' u hu) (Nat.le_refl _)
  constructor
  · intro g hg
    cases hg
    exact c.readFormed
  intro g hg
  cases hg
  exact c.writeFormed

/-- Applying the update between two configs to the first gives the second, up to the versions, which
say what has changed. Configs that are alike have no update. -/
theorem compute_applied {channelID root : Chars} {original updated : Config} {pm : μ}
    (current : original.channelGroup = some o) (next : updated.channelGroup = some u)
    (formed : original.Formed) (formed' : updated.Formed)
    (hv : newValidatorImpl channelID (some original) root pm = .ok vi)
    (named : Named root (some u))
    (policies : ∀ {k ns e}, u.elementAt k ns = some e → validateModPolicy e.modPolicy = .ok ()) :
    (¬ Alike o u → ∃ update, compute original updated = .ok update ∧ update.Formed ∧
      ∀ (d : Decoders) (p : PolicyManagers μ) env signedData,
        d.unmarshalConfigUpdate env.configUpdate = some { update with channelId := channelID } →
        configUpdateEnvelopeAsSignedData d env = some signedData →
        (∀ {k ns}, o.elementAt k ns ≠ none → vi.Satisfied p signedData o k ns) →
        ∃ m t, vi.authorizeUpdate d p (some env) = .ok m ∧ configMapToConfig m root = .ok t ∧
          Applied o u t) ∧
    (Alike o u → compute original updated = .error .noDifferences) := by
  obtain ⟨t₀,ht₀,hs,rfl,rfl,_⟩ := new_validator_holds formed hv
  cases current.symm.trans ht₀
  have c := compute_group_update_computed (formed o current) (formed' u next) (Nat.le_refl _)
  constructor
  · intro hne
    have hup : (computeGroupUpdate u.depth o u).updatedGroup = true := by
      by_contra hup
      exact hne (c.updated_iff.mp (by simpa using hup))
    have hc : compute original updated = .ok ⟨[],some (computeGroupUpdate u.depth o u).readSet,
        some (computeGroupUpdate u.depth o u).writeSet⟩ := by
      simp only [compute,current,next,hup,if_true]
    refine ⟨_,hc,compute_formed formed formed' hc,?_⟩
    intro d p env signedData de si sa
    exact c.applies hne hs named policies de si sa
  · intro ha
    simp [compute,current,next,c.updated_iff.mpr ha]

def nextValues : ConfigGroup :=
  ⟨0,[⟨['g'],⟨7,[],[⟨['v'],⟨3,[4],['A']⟩⟩],[],['A']⟩⟩],[⟨['a'],⟨0,[9],['A']⟩⟩],[],['A']⟩

theorem two_values_config : Config.Formed ⟨0,some twoValues⟩ := by
  intro g hg
  cases hg
  decide

theorem managers_satisfied {vi : Validator Unit} (h : o.elementAt k ns ≠ none) :
    vi.Satisfied (managersOf true) signedData o k ns := by
  obtain ⟨e,he⟩ := ne_none_iff_exists'.mp h
  obtain ⟨c,hc,_⟩ := map_eq_some_iff.mp he
  exact ⟨c,_,hc,policy_for_item_answer,rfl⟩

theorem forall_mod_policy {P : Chars → Prop} (f : t.Formed)
    (h : ∀ x ∈ elements [] [] t, P x.content.modPolicy) (he : t.elementAt k ns = some e) :
    P e.modPolicy := by
  obtain ⟨c,hc,rfl⟩ := map_eq_some_iff.mp he
  rw [Content.element_mod_policy]
  exact forall_find (P := fun c => P c.modPolicy) f h hc

theorem named_of_map (f : t.Formed) (h : mapConfig (some t) ro = .ok m) : Named ro (some t) := by
  have hf := map_config_flattens (fun g hg => by cases hg; exact f) h
  exact hf.toNamed

theorem two_values_differ (h : t.elementAt .value [['b']] = none) : ¬ Alike twoValues t := by
  intro ha
  have hb := ha .value [['b']]
  rw [h] at hb
  cases hb

/-- The first value changes, the second is removed and a group is added. -/
theorem compute_applied_next : ∃ update, compute ⟨0,some twoValues⟩ ⟨0,some nextValues⟩ = .ok update ∧
    ∃ (formed : ConfigUpdate.Formed { update with channelId := ['c'] }), ∃ m t,
      twoValidator.authorizeUpdate (decodersOf _ formed) (managersOf true) (some ⟨[],[]⟩) = .ok m ∧
      configMapToConfig m "Channel".toList = .ok t ∧ Applied twoValues nextValues t := by
  have hfm : nextValues.Formed := by decide
  have hcn : Config.Formed ⟨0,some nextValues⟩ := by
    intro g hg
    cases hg
    exact hfm
  have hm : (mapConfig (some nextValues) "Channel".toList).toOption.isSome = true := by decide +kernel
  have hp : ∀ {k ns e}, nextValues.elementAt k ns = some e →
      validateModPolicy e.modPolicy = .ok () :=
    forall_mod_policy (P := fun m => validateModPolicy m = .ok ()) hfm (by decide +kernel)
  have hmi : nextValues.elementAt .value [['b']] = none := by
    have hn : (nextValues.elementAt .value [['b']]).isNone = true := by decide +kernel
    exact isNone_iff_eq_none.mp hn
  obtain ⟨hu,_⟩ := compute_applied rfl rfl two_values_config hcn
    (ok_value_eq _ : newValidatorImpl ['c'] (some ⟨0,some twoValues⟩) "Channel".toList () =
      .ok twoValidator)
    (named_of_map hfm (ok_value_eq hm)) hp
  obtain ⟨update,hco,hup,ha⟩ := hu (two_values_differ hmi)
  have hc : ConfigUpdate.Formed { update with channelId := ['c'] } := ⟨hup.readSet,hup.writeSet⟩
  refine ⟨update,hco,hc,?_⟩
  exact ha _ _ ⟨[],[]⟩ [] rfl rfl managers_satisfied

def oddPolicy : ConfigGroup := { twoValues with modPolicy := ['?'] }

theorem odd_policy_formed : oddPolicy.Formed := by
  decide

theorem odd_policy_config : Config.Formed ⟨0,some oddPolicy⟩ := by
  intro g hg
  cases hg
  exact odd_policy_formed

def oddUpdate : ConfigUpdate := Outcomes.okValue
  (compute ⟨0,some twoValues⟩ ⟨0,some oddPolicy⟩) (by decide +kernel)

theorem odd_update_formed : ConfigUpdate.Formed { oddUpdate with channelId := ['c'] } := by
  have h : oddUpdate.Formed :=
    compute_formed two_values_config odd_policy_config (ok_value_eq _)
  exact ⟨h.readSet,h.writeSet⟩

/-- With such a mod_policy an update is computed, and then not accepted although every policy is
satisfied. -/
theorem odd_policy_rejected :
    newValidatorImpl ['c'] (some ⟨0,some twoValues⟩) "Channel".toList () = .ok twoValidator ∧
    Named "Channel".toList (some oddPolicy) ∧ ¬ Alike twoValues oddPolicy ∧
    (∀ k ns e, twoValues.elementAt k ns = some e → e.modPolicy ≠ []) ∧
    (∀ k ns e, oddPolicy.elementAt k ns = some e → e.modPolicy ≠ []) ∧
    compute ⟨0,some twoValues⟩ ⟨0,some oddPolicy⟩ = .ok oddUpdate ∧
    (∀ k ns, twoValues.elementAt k ns ≠ none →
      twoValidator.Satisfied (managersOf true) [] twoValues k ns) ∧
    ∀ m, twoValidator.authorizeUpdate (decodersOf _ odd_update_formed) (managersOf true)
      (some ⟨[],[]⟩) ≠ .ok m := by
  have hma : (mapConfig (some oddPolicy) "Channel".toList).toOption.isSome = true := by
    decide +kernel
  have hs : ∀ k ns e, twoValues.elementAt k ns = some e → e.modPolicy ≠ [] := fun _ _ _ =>
    forall_mod_policy (t := twoValues) (P := (· ≠ [])) (by decide) (by decide +kernel)
  have hs' : ∀ k ns e, oddPolicy.elementAt k ns = some e → e.modPolicy ≠ [] := fun _ _ _ =>
    forall_mod_policy (P := (· ≠ [])) odd_policy_formed (by decide +kernel)
  refine ⟨ok_value_eq _,named_of_map odd_policy_formed (ok_value_eq hma),?_,
    hs,hs',ok_value_eq _,fun _ _ => managers_satisfied,?_⟩
  · intro ha
    have hr := ha .group []
    rw [element_at_root,element_at_root,map_some,map_some,Option.some.injEq] at hr
    have hmo : twoValues.modPolicy = oddPolicy.modPolicy := congrArg Element.modPolicy hr
    exact absurd hmo (by decide)
  · intro m hm
    have hf : (twoValidator.authorizeUpdate (decodersOf _ odd_update_formed) (managersOf true)
        (some ⟨[],[]⟩)).toOption.isSome = false := by decide +kernel
    rw [hm] at hf
    cases hf

end PluggableHcs.Configtx
