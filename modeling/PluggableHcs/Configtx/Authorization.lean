import PluggableHcs.Configtx.Overlay

namespace PluggableHcs.Configtx
open Trees Option Outcomes

theorem next_version_ne (v : UInt64) : v + 1 ≠ v := by
  intro h
  have := congrArg UInt64.toNat h
  simp at this
  omega

variable {μ : Type} {d : Decoders} {p : PolicyManagers μ} {vi : Validator μ} {t t' : ConfigGroup}
  {env : ConfigUpdateEnvelope} {m : ConfigMap} {signedData : List SignedData} {u : ConfigUpdate}
  {k : Kind} {ns : List Chars}

def Raised (p : PolicyManagers μ) (vi : Validator μ) (signedData : List SignedData)
    (t t' : ConfigGroup) (k : Kind) (ns : List Chars) : Prop :=
  ∃ e e', t.elementAt k ns = some e ∧ t'.elementAt k ns = some e' ∧ e'.version = e.version + 1 ∧
    vi.Satisfied p signedData t k ns

/-- Every difference between a config tree and the next one is authorized. -/
structure Authorized (p : PolicyManagers μ) (vi : Validator μ) (signedData : List SignedData)
    (t t' : ConfigGroup) : Prop where
  /-- An element of both is the same or is raised. Only an empty mod_policy may be set in a config
  that has /Channel/Orderer/Capabilities. -/
  kept : ∀ {k ns e e'}, t.elementAt k ns = some e → t'.elementAt k ns = some e' →
    e' = e ∨ Raised p vi signedData t t' k ns ∨
      (e.modPolicy = [] ∧ e' = { e with modPolicy := hackyFixNewModPolicy } ∧
        (Capable vi.rootGroupKey t.elementAt ∨ Capable vi.rootGroupKey t'.elementAt))
  /-- Above a new element the nearest group of both trees is raised. -/
  added : ∀ {k ns}, t.elementAt k ns = none → t'.elementAt k ns ≠ none →
    ∃ as, shape.Nearest t.elementAt t'.elementAt ns as ∧ Raised p vi signedData t t' .group as
  removed : ∀ {k ns}, t.elementAt k ns ≠ none → t'.elementAt k ns = none →
    ∃ as, shape.Nearest t.elementAt t'.elementAt ns as ∧ Raised p vi signedData t t' .group as

/-- The update δ of the tree has a value /Channel/Orderer/Capabilities that was not there and that
no group lists, and an element that it leaves alone has no mod_policy. -/
structure Smuggled (root : Chars) (t : ConfigGroup) (δ : Layout Kind Chars Element) : Prop where
  before : ¬ Capable root t.elementAt
  overlaid : Capable root (overlay δ t.elementAt)
  unlisted : ¬ Capable root (shape.reach (overlay δ t.elementAt))
  empty : ∃ k ns e, t.elementAt k ns = some e ∧
    shape.reach (overlay δ t.elementAt) k ns ≠ none ∧ e.modPolicy = [] ∧ δ k ns = none

structure Follows (p : PolicyManagers μ) (vi : Validator μ) (signedData : List SignedData)
    (t t' : ConfigGroup) (r w : Layout Kind Chars Element) (on : Bool) : Prop where
  admits : Admits t.elementAt r w (vi.Satisfied p signedData t)
  on_iff : on = true ↔ Capable vi.rootGroupKey (overlay (delta r w) t.elementAt)
  result : ∀ k ns, t'.elementAt k ns =
    (shape.reach (overlay (delta r w) t.elementAt) k ns).map (Element.upgraded on)

theorem authorize_follows (hs : vi.Holds t) (hu : d.unmarshalConfigUpdate env.configUpdate = some u)
    (hd : configUpdateEnvelopeAsSignedData d env = some signedData)
    (h : vi.authorizeUpdate d p (some env) = .ok m)
    (hc : configMapToConfig m vi.rootGroupKey = .ok t') :
    Follows p vi signedData t t' (treeAt u.readSet) (treeAt u.writeSet) (upgrades m) := by
  obtain ⟨u',s',a,ls⟩ := authorize_result hs h
  cases hu.symm.trans a.decoded
  cases hd.symm.trans a.signed
  exact ⟨a.admits,ls.upgrades_iff hs.root_legal,ls.rebuilt a.over_complete hc⟩

variable {r w : Layout Kind Chars Element} {on : Bool}

section
variable (f : Follows p vi signedData t t' r w on)
include f

theorem Follows.element (h : t'.elementAt k ns = some e') :
    (∃ o, delta r w k ns = some o ∧ e' = o.upgraded on) ∨
      delta r w k ns = none ∧ ∃ e, t.elementAt k ns = some e ∧ e' = e.upgraded on := by
  rw [f.result] at h
  obtain ⟨o,ho,rfl⟩ := map_eq_some_iff.mp h
  rcases overlay_cases (Shape.reach_le ho) with hd | ⟨hd,he⟩
  · exact .inl ⟨o,hd,rfl⟩
  · exact .inr ⟨hd,o,he,rfl⟩

theorem Follows.raised (hd : delta r w k ns = some o) (he : t.elementAt k ns = some e)
    (he' : t'.elementAt k ns = some e') : Raised p vi signedData t t' k ns := by
  refine ⟨e,e',he,he',?_,f.admits.satisfied hd he⟩
  obtain ⟨o',ho',rfl⟩ | ⟨hn,_⟩ := f.element he'
  · cases hd.symm.trans ho'
    change o.version = e.version + 1
    exact f.admits.raised hd he
  · rw [hd] at hn
    cases hn

theorem Follows.members_raised (he : t.elementAt k ns = some e) (he' : t'.elementAt k ns = some e')
    (hne : e.members k' a ↔ ¬ e'.members k' a) : Raised p vi signedData t t' k ns := by
  obtain ⟨o,ho,_⟩ | ⟨_,x,hx,rfl⟩ := f.element he'
  · exact f.raised ho he he'
  · cases he.symm.trans hx
    exact absurd hne (by tauto)

theorem Follows.added (hn : t.elementAt k ns = none) (h : t'.elementAt k ns ≠ none) :
    ∃ as, shape.Nearest t.elementAt t'.elementAt ns as ∧ Raised p vi signedData t t' .group as := by
  obtain ⟨e,he⟩ := ne_none_iff_exists'.mp h
  have hr : t.elementAt shape.inner [] ≠ none := by simp [shape,ConfigGroup.element_at_root]
  obtain ⟨as,k',a,x',x,hne,hx',hx,hls,hno⟩ :=
    t'.element_at_closed.nearest t.element_at_complete hr he hn
  have hd : x.members k' a ↔ ¬ x'.members k' a :=
    ⟨fun hm => absurd hm hno,fun hm => absurd hls hm⟩
  exact ⟨as,hne.symm,f.members_raised hx hx' hd⟩

theorem Follows.removed (h : t.elementAt k ns ≠ none) (hn : t'.elementAt k ns = none) :
    ∃ as, shape.Nearest t.elementAt t'.elementAt ns as ∧ Raised p vi signedData t t' .group as := by
  obtain ⟨e,he⟩ := ne_none_iff_exists'.mp h
  have hr : t'.elementAt shape.inner [] ≠ none := by simp [shape,ConfigGroup.element_at_root]
  obtain ⟨as,k',a,x,x',hne,hx,hx',hls,hno⟩ :=
    t.element_at_closed.nearest t'.element_at_complete hr he hn
  have hd : x.members k' a ↔ ¬ x'.members k' a := ⟨fun _ => hno,fun _ => hls⟩
  exact ⟨as,hne,f.members_raised hx hx' hd⟩

end

theorem upgraded_set {e : Element} (h : e.modPolicy ≠ []) : e.upgraded on = e := by
  simp [Element.upgraded,upgradeModPolicy,h]

theorem upgraded_empty {e : Element} (h : e.modPolicy = []) :
    e.upgraded true = { e with modPolicy := hackyFixNewModPolicy } := by
  simp [Element.upgraded,upgradeModPolicy,h]

section
variable (f : Follows p vi signedData t t' r w on)
include f

theorem Follows.untouched {e e' : Element}
    (hd : delta r w k ns = none) (he : t.elementAt k ns = some e)
    (he' : t'.elementAt k ns = some e') :
    e' = e ∨ on = true ∧ e.modPolicy = [] ∧ e' = { e with modPolicy := hackyFixNewModPolicy } := by
  obtain ⟨o,ho,_⟩ | ⟨_,x,hx,rfl⟩ := f.element he'
  · rw [hd] at ho
    cases ho
  cases he.symm.trans hx
  by_cases hem : e.modPolicy = []
  · cases on with
    | false => exact .inl (by simp [Element.upgraded,upgradeModPolicy])
    | true => exact .inr ⟨rfl,hem,upgraded_empty hem⟩
  · exact .inl (upgraded_set hem)

theorem Follows.reached_iff : t'.elementAt k ns ≠ none ↔
    shape.reach (overlay (delta r w) t.elementAt) k ns ≠ none := by
  rw [f.result,ne_eq,map_eq_none_iff]

theorem Follows.capable_iff : Capable vi.rootGroupKey t'.elementAt ↔
    Capable vi.rootGroupKey (shape.reach (overlay (delta r w) t.elementAt)) :=
  and_congr_right fun _ => f.reached_iff

theorem Follows.smuggled_unauthorized (s : Smuggled vi.rootGroupKey t (delta r w)) :
    ¬ Authorized p vi signedData t t' := by
  intro au
  obtain ⟨k,ns,e,he,hne,hem,hd⟩ := s.empty
  obtain ⟨e',he'⟩ := ne_none_iff_exists'.mp (f.reached_iff.mpr hne)
  have hon : on = true := f.on_iff.mpr s.overlaid
  have hc : e' = { e with modPolicy := hackyFixNewModPolicy } := by
    obtain ⟨o,ho,_⟩ | ⟨_,x,hx,rfl⟩ := f.element he'
    · rw [hd] at ho
      cases ho
    · cases he.symm.trans hx
      rw [hon,upgraded_empty hem]
  obtain rfl | hr | ⟨_,_,hca⟩ := au.kept he he'
  · rw [hc] at hem
    have hn : hackyFixNewModPolicy = [] := hem
    exact absurd hn (by decide)
  · obtain ⟨x,x',hx,hx',hv,_⟩ := hr
    cases he.symm.trans hx
    cases he'.symm.trans hx'
    rw [hc] at hv
    exact next_version_ne _ hv.symm
  · exact hca.elim s.before fun hc => s.unlisted (f.capable_iff.mp hc)

theorem Follows.authorized (hs : ¬ Smuggled vi.rootGroupKey t (delta r w)) :
    Authorized p vi signedData t t' where
  kept := by
    intro k ns e e' he he'
    cases hd : delta r w k ns with
    | some o => exact .inr (.inl (f.raised hd he he'))
    | none =>
      obtain hsa | ⟨hon,hem,hse⟩ := f.untouched hd he he'
      · exact .inl hsa
      refine .inr (.inr ⟨hem,hse,?_⟩)
      by_contra hc
      rw [not_or] at hc
      exact hs ⟨hc.1,f.on_iff.mp hon,fun hl => hc.2 (f.capable_iff.mpr hl),k,ns,e,he,
        f.reached_iff.mp (by simp [he']),hem,hd⟩
  added := f.added
  removed := f.removed

end

/-- Every difference that an accepted update makes is authorized, unless it turns the upgrade of
empty mod_policies on with a value that does not become part of the config. -/
theorem update_authorized_iff {channelID root : Chars} {config : Config} {pm : μ}
    (formed : config.Formed) (current : config.channelGroup = some t)
    (hv : newValidatorImpl channelID (some config) root pm = .ok vi)
    (hu : d.unmarshalConfigUpdate env.configUpdate = some u)
    (hdata : configUpdateEnvelopeAsSignedData d env = some signedData)
    (h : vi.authorizeUpdate d p (some env) = .ok m) (hc : configMapToConfig m root = .ok t') :
    Authorized p vi signedData t t' ↔
      ¬ Smuggled root t (delta (treeAt u.readSet) (treeAt u.writeSet)) := by
  obtain ⟨t₀,ht₀,ho,rfl,_,_⟩ := new_validator_holds formed hv
  cases current.symm.trans ht₀
  have f := authorize_follows ho hu hdata h hc
  constructor
  · intro au hs
    exact f.smuggled_unauthorized hs au
  · exact f.authorized

def decodersOf (u : ConfigUpdate) (formed : u.Formed) : Decoders where
  envelopeToConfigUpdate _ := some ⟨[],[]⟩
  unmarshalConfigUpdate _ := some u
  unmarshalSignatureHeader _ := some []
  formed h := by
    cases h
    exact formed

def managersOf (answer : Bool) : PolicyManagers Unit where
  manager _ _ := some ()
  getPolicy _ _ := some fun _ => answer

def ordererGroup (version : UInt64) (values : List ((_ : Chars) × ConfigValue)) : ConfigGroup :=
  ⟨version,[],values,[],"Admins".toList⟩

def unsetTree : ConfigGroup :=
  ⟨0,[⟨"Orderer".toList,ordererGroup 0 []⟩],[],[],[]⟩

def capabilitiesUpdate (version : UInt64) : ConfigUpdate where
  channelId := ['c']
  readSet := some ⟨0,[⟨"Orderer".toList,⟨0,[],[],[],[]⟩⟩],[],[],[]⟩
  writeSet := some ⟨0,[⟨"Orderer".toList,
    ordererGroup version [⟨"Capabilities".toList,⟨0,[],"Admins".toList⟩⟩]⟩],[],[],[]⟩

theorem capabilities_update_formed (ve : UInt64) : (capabilitiesUpdate ve).Formed := by
  constructor
  · intro g hg
    cases hg
    decide
  · intro g hg
    cases hg
    simp [ConfigGroup.Formed,GroupsFormed,ordererGroup]

def capabilitiesDecoders (version : UInt64) : Decoders :=
  decodersOf _ (capabilities_update_formed version)

def unsetValidator : Validator Unit := Outcomes.okValue
  (newValidatorImpl ['c'] (some ⟨0,some unsetTree⟩) "Channel".toList ()) (by decide +kernel)

def addedMap : ConfigMap := Outcomes.okValue
  (unsetValidator.authorizeUpdate (capabilitiesDecoders 1) (managersOf true)
    (some ⟨[],[]⟩)) (by decide +kernel)

def addedTree : ConfigGroup := Outcomes.okValue
  (configMapToConfig addedMap "Channel".toList) (by decide +kernel)

/-- The orderer group is raised with the consent of its policy: the root gets a mod_policy because
the config now has capabilities. -/
theorem update_authorized_added :
    Authorized (managersOf true) unsetValidator [] unsetTree addedTree ∧
      addedTree.modPolicy = "Admins".toList := by
  refine ⟨?_,by decide +kernel⟩
  have hfm : Config.Formed ⟨0,some unsetTree⟩ := by
    intro g hg
    cases hg
    decide
  have hv : newValidatorImpl ['c'] (some ⟨0,some unsetTree⟩) "Channel".toList () =
      .ok unsetValidator := ok_value_eq _
  obtain ⟨_,ht,ho,_⟩ := new_validator_holds hfm hv
  cases ht
  have hu : (capabilitiesDecoders 1).unmarshalConfigUpdate [] = some (capabilitiesUpdate 1) := rfl
  have hc : configMapToConfig addedMap "Channel".toList = .ok addedTree := ok_value_eq _
  apply (update_authorized_iff hfm rfl hv hu rfl (ok_value_eq _) hc).mpr
  intro s
  have f := authorize_follows ho hu rfl (ok_value_eq _) hc
  have hf : (addedTree.elementAt .value capabilities).isSome = true := by decide +kernel
  exact s.unlisted (f.capable_iff.mp ⟨rfl,isSome_iff_ne_none.mp hf⟩)

def orphanMap : ConfigMap := Outcomes.okValue
  (unsetValidator.authorizeUpdate (capabilitiesDecoders 0) (managersOf false)
    (some ⟨[],[]⟩)) (by decide +kernel)

def orphanTree : ConfigGroup := Outcomes.okValue
  (configMapToConfig orphanMap "Channel".toList) (by decide +kernel)

/-- With the orderer group at its old version the value is not part of the config. No policy is
asked, but the root gets a mod_policy. -/
theorem orphan_sets_mod_policy :
    newValidatorImpl ['c'] (some ⟨0,some unsetTree⟩) "Channel".toList () = .ok unsetValidator ∧
    unsetValidator.authorizeUpdate (capabilitiesDecoders 0) (managersOf false)
      (some ⟨[],[]⟩) = .ok orphanMap ∧
    configMapToConfig orphanMap "Channel".toList = .ok orphanTree ∧
    unsetTree.modPolicy = [] ∧ orphanTree.modPolicy = "Admins".toList ∧
    ¬ Authorized (managersOf false) unsetValidator [] unsetTree orphanTree := by
  refine ⟨ok_value_eq _,ok_value_eq _,ok_value_eq _,rfl,by decide +kernel,?_⟩
  intro au
  obtain hs | ⟨x,x',hx,hx',hv,_⟩ | ⟨_,_,⟨_,hc⟩ | ⟨_,hc⟩⟩ :=
    au.kept unsetTree.element_at_root orphanTree.element_at_root
  · have hp : orphanTree.modPolicy = unsetTree.modPolicy := congrArg Element.modPolicy hs
    exact absurd hp (by decide +kernel)
  · cases hx
    cases hx'
    exact absurd hv (by decide +kernel)
  · have hn : (unsetTree.elementAt .value capabilities).isSome = false := by decide +kernel
    exact absurd (isSome_iff_ne_none.mpr hc) (by simp [hn])
  · have hn : (orphanTree.elementAt .value capabilities).isSome = false := by decide +kernel
    exact absurd (isSome_iff_ne_none.mpr hc) (by simp [hn])

end PluggableHcs.Configtx
