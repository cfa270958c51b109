import PluggableHcs.Configtx.Authorization

namespace PluggableHcs.Configtx
open Trees List Option Outcomes

variable {μ : Type} {d : Decoders} {p : PolicyManagers μ} {vi : Validator μ} {t t' : ConfigGroup}
  {env : ConfigUpdateEnvelope} {si : List SignedData} {u : ConfigUpdate} {configtx : Bytes}
  {channelID root : Chars} {out : ConfigEnvelope} {r w : Layout Kind Chars Element} {on : Bool}

/-- The update took effect and is used up: the new tree is another one, has all of the write set,
and its validators refuse the update. -/
structure Effective (d : Decoders) (configtx : Bytes) (channelID root : Chars) (t t' : ConfigGroup)
    (u : ConfigUpdate) (config : Config) : Prop where
  result : config.channelGroup = some t'
  differs : t'.elementAt ≠ t.elementAt
  present : ∀ k ns e, treeAt u.writeSet k ns = some e → t'.elementAt k ns ≠ none
  usedUp : ∀ {ν : Type} (q : PolicyManagers ν) (pm : ν),
    ∃ next, newValidatorImpl channelID (some config) root pm = .ok next ∧
      ∃ err, next.proposeConfigUpdate d q configtx = .error err

def InChangedGroups (t : ConfigGroup) (u : ConfigUpdate) : Prop :=
  ∀ k n ns e, treeAt u.writeSet k (n :: ns) = some e → t.elementAt k (n :: ns) = none →
    delta (treeAt u.readSet) (treeAt u.writeSet) .group ns ≠ none

theorem Follows.present_iff (f : Follows p vi si t t' (treeAt u.readSet) (treeAt u.writeSet) on) :
    (∀ k ns e, treeAt u.writeSet k ns = some e → t'.elementAt k ns ≠ none) ↔
      InChangedGroups t u := by
  have pa := f.admits.toFits.patch tree_at_closed tree_at_complete
  have hr := pa.reached_iff t.element_at_closed t.element_at_complete
  simp only [ne_eq,f.result,map_eq_none_iff]
  exact hr

theorem Follows.stated (f : Follows p vi si t t' r w on) {ns : List Chars}
    (hd : delta r w k ns = some e) (h : t'.elementAt k ns ≠ none) :
    ∃ e', t'.elementAt k ns = some e' ∧ e'.version = e.version := by
  obtain ⟨e',he'⟩ := ne_none_iff_exists'.mp h
  refine ⟨e',he',?_⟩
  obtain ⟨o,ho,rfl⟩ | ⟨hn,_⟩ := f.element he'
  · cases hd.symm.trans ho
    rfl
  · rw [hd] at hn
    cases hn

section
variable (f : Follows p vi si t t' r w on)
  (pr : ∀ k ns e, w k ns = some e → t'.elementAt k ns ≠ none)
include f pr

theorem Follows.differs : t'.elementAt ≠ t.elementAt := by
  intro hs
  obtain ⟨k,ns,e,hd⟩ := f.admits.effect
  obtain ⟨e',he',hv⟩ := f.stated hd (pr k ns e (delta_some.mp hd).1)
  rw [hs] at he'
  have hr := f.admits.raised hd he'
  rw [hv] at hr
  exact next_version_ne _ hr.symm

theorem Follows.not_fits : ¬ Fits t'.elementAt r w := by
  intro fs
  obtain ⟨k,ns,e,hd⟩ := f.admits.effect
  obtain ⟨e',he',hv⟩ := f.stated hd (pr k ns e (delta_some.mp hd).1)
  have hr := fs.raised hd he'
  rw [hv] at hr
  exact next_version_ne _ hr.symm

end

theorem propose_refused {ν : Type} {q : PolicyManagers ν} {next : Validator ν}
    (hs : next.Holds t') (he : d.envelopeToConfigUpdate configtx = some env)
    (hu : d.unmarshalConfigUpdate env.configUpdate = some u)
    (hn : ¬ Fits t'.elementAt (treeAt u.readSet) (treeAt u.writeSet)) :
    ∃ err, next.proposeConfigUpdate d q configtx = .error err := by
  cases ho : next.proposeConfigUpdate d q configtx with
  | error err => exact ⟨err,rfl⟩
  | ok out =>
    obtain ⟨e',m,_,he',hm,_,_⟩ := propose_ok.mp ho
    cases he.symm.trans he'
    obtain ⟨u',_,a,_⟩ := authorize_result hs hm
    cases hu.symm.trans a.decoded
    exact absurd a.admits.toFits hn

theorem next_validator {ν : Type} {co : Config}
    (hv : newValidatorImpl channelID (some co) root pm = .ok vi) (hs : vi.Holds t)
    (hr : vi.rootGroupKey = root) (h : vi.authorizeUpdate d p (some env) = .ok m)
    (hc : configMapToConfig m vi.rootGroupKey = .ok t') (se : UInt64) (p' : ν) :
    ∃ next, newValidatorImpl channelID (some ⟨se,some t'⟩) root p' = .ok next ∧ next.Holds t' := by
  obtain ⟨_,_,a,ls⟩ := authorize_result hs h
  have hfm := ls.rebuilt_formed hc
  have hn := ls.rebuilt_named a.over_complete hs.root_legal hc
  rw [hr] at hn
  obtain ⟨cm,hm⟩ := map_config_total (by simpa using hfm) hn
  obtain ⟨_,_,_,hid,_,_⟩ := new_validator_ok.mp hv
  exact ⟨_,new_validator_ok.mpr ⟨t',cm,rfl,hid,hm,rfl⟩,hfm,
    map_config_flattens (by simpa using hfm) hm⟩

/-- An accepted update takes effect and cannot be replayed exactly when nothing new in its write
set is put into a group that it leaves unchanged. -/
theorem update_effective_iff {config : Config} {pm : μ} (formed : config.Formed)
    (current : config.channelGroup = some t)
    (hv : newValidatorImpl channelID (some config) root pm = .ok vi)
    (henv : d.envelopeToConfigUpdate configtx = some env)
    (hu : d.unmarshalConfigUpdate env.configUpdate = some u)
    (h : vi.proposeConfigUpdate d p configtx = .ok out) :
    (∃ t', Effective d configtx channelID root t t' u out.config) ↔ InChangedGroups t u := by
  obtain ⟨t₀,ht₀,hs,hr,_,_⟩ := new_validator_holds formed hv
  cases current.symm.trans ht₀
  obtain ⟨e',m,t',h',hm,hc,rfl⟩ := propose_ok.mp h
  cases henv.symm.trans h'
  obtain ⟨u',si,a,_⟩ := authorize_result hs hm
  cases hu.symm.trans a.decoded
  have f := authorize_follows hs hu a.signed hm hc
  constructor
  · rintro ⟨t'',e⟩
    cases e.result
    exact f.present_iff.mp e.present
  intro ic
  have pr := f.present_iff.mpr ic
  refine ⟨t',rfl,f.differs pr,pr,?_⟩
  intro ν q p'
  obtain ⟨next,hn,nh⟩ := next_validator hv hs hr hm hc (vi.sequence + 1) p'
  exact ⟨next,hn,propose_refused nh henv hu (f.not_fits pr)⟩

/-- Only the elements of the write set have to be looked at. -/
theorem in_changed_groups_iff (f : u.Formed) :
    (∀ w ∈ u.writeSet,∀ x ∈ elements [] [] w,x.path ≠ [] →
      t.find x.content.kind (x.key :: x.path.tail.reverse) ≠ none ∨
        delta (treeAt u.readSet) (treeAt u.writeSet) .group x.path.tail.reverse ≠ none) ↔
      InChangedGroups t u := by
  unfold InChangedGroups
  cases hw : u.writeSet with
  | none => simp [treeAt,findIn]
  | some w =>
    have hwf := f.writeSet w hw
    simp only [Option.mem_some_iff,forall_eq']
    constructor
    · intro h k n ns e he hn
      obtain ⟨c,hc,_⟩ := tree_at_some.mp he
      have hc : w.find k (n :: ns) = some c := hc
      have hx := h _ ((mem_elements hwf).mpr ⟨k,n :: ns,c,hc,rfl⟩)
      simp only [placed,nil_append,reverse_reverse,ConfigGroup.find_kind hc,List.tail_cons] at hx
      exact (hx (by simp)).resolve_left fun hf => hf (map_eq_none_iff.mp hn)
    · intro h x hx hp
      obtain ⟨k,ns,c,hc,rfl⟩ := (mem_elements hwf).mp hx
      cases ns with
      | nil => exact (hp rfl).elim
      | cons n ns =>
        simp only [placed,nil_append,reverse_reverse,ConfigGroup.find_kind hc,List.tail_cons]
        by_cases hn : t.find k (n :: ns) = none
        · refine .inr (h k n ns c.element (tree_at_some.mpr ⟨c,hc,rfl⟩) ?_)
          rw [ConfigGroup.elementAt,hn]
          rfl
        · exact .inl hn

def setTree : ConfigGroup :=
  { unsetTree with modPolicy := "Admins".toList }

def setValidator : Validator Unit := Outcomes.okValue
  (newValidatorImpl ['c'] (some ⟨0,some setTree⟩) "Channel".toList ()) (by decide +kernel)

def raisedEnvelope : ConfigEnvelope := Outcomes.okValue
  (setValidator.proposeConfigUpdate (capabilitiesDecoders 1) (managersOf true)
    []) (by decide +kernel)

/-- The orderer group is changed together with its new value. -/
theorem update_effective_raised :
    ∃ t', Effective (capabilitiesDecoders 1) [] ['c'] "Channel".toList setTree
      t' (capabilitiesUpdate 1) raisedEnvelope.config := by
  have hfm : Config.Formed ⟨0,some setTree⟩ := by
    intro g hg
    cases hg
    decide
  apply (update_effective_iff hfm rfl (ok_value_eq _) rfl rfl
    (ok_value_eq _)).mpr
  exact (in_changed_groups_iff (capabilities_update_formed 1)).mp (by decide +kernel)

def orphanEnvelope : ConfigEnvelope := Outcomes.okValue
  (setValidator.proposeConfigUpdate (capabilitiesDecoders 0) (managersOf false)
    []) (by decide +kernel)

def orphanValidator : Validator Unit := Outcomes.okValue
  (newValidatorImpl ['c'] (some orphanEnvelope.config) "Channel".toList ()) (by decide +kernel)

/-- With the orderer group at its old version the update is accepted again and again and changes
nothing: the value does not get into the tree. -/
theorem orphan_replayed :
    newValidatorImpl ['c'] (some ⟨0,some setTree⟩) "Channel".toList () = .ok setValidator ∧
    setValidator.proposeConfigUpdate (capabilitiesDecoders 0) (managersOf false)
      [] = .ok orphanEnvelope ∧
    orphanEnvelope.config.channelGroup = some setTree ∧
    setTree.elementAt .value capabilities = none ∧
    newValidatorImpl ['c'] (some orphanEnvelope.config) "Channel".toList () = .ok orphanValidator ∧
    (orphanValidator.proposeConfigUpdate (capabilitiesDecoders 0)
      (managersOf false) []).toOption.isSome = true ∧
    ¬ ∃ t', Effective (capabilitiesDecoders 0) [] ['c'] "Channel".toList setTree
      t' (capabilitiesUpdate 0) orphanEnvelope.config := by
  have hs : orphanEnvelope.config.channelGroup = some setTree := by rfl
  refine ⟨ok_value_eq _,ok_value_eq _,hs,by rfl,ok_value_eq _,by decide +kernel,?_⟩
  rintro ⟨t',e⟩
  cases hs.symm.trans e.result
  exact e.differs rfl

end PluggableHcs.Configtx
