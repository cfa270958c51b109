import PluggableHcs.Lib.Runs
import PluggableHcs.Configtx.Effectiveness

namespace PluggableHcs.Configtx
open Trees Runs List Option Outcomes ConfigGroup

/-- An update is accepted by a validator for the config, with any policies, and the next config is
the one it proposes. -/
def Config.Step (d : Decoders) (channelID root : Chars) (c : Config) (configtx : Bytes)
    (c' : Config) : Prop :=
  ∃ (μ : Type) (p : PolicyManagers μ) (pm : μ) (vi : Validator μ) (out : ConfigEnvelope),
    newValidatorImpl channelID (some c) root pm = .ok vi ∧
      vi.proposeConfigUpdate d p configtx = .ok out ∧ c' = out.config

def versionFits (configMap : ConfigMap) (key : Chars) (value : Comparable) : Prop :=
  match configMap.lookup key with
  | none => value.version = 0
  | some existing => value.version = existing.version + 1

def Acceptable (root : Chars) (c : Config) (u : ConfigUpdate) : Prop :=
  ∃ configMap readSet writeSet, mapConfig c.channelGroup root = .ok configMap ∧
    mapConfig u.readSet root = .ok readSet ∧ mapConfig u.writeSet root = .ok writeSet ∧
    verifyReadSet configMap readSet = .ok () ∧
    ∀ key value, (computeDeltaSet readSet writeSet).lookup key = some value →
      versionFits configMap key value

instance {configMap : ConfigMap} {key : Chars} {value : Comparable} :
    Decidable (versionFits configMap key value) :=
  match h : configMap.lookup key with
  | none => decidable_of_iff (value.version = 0) (by simp [versionFits,h])
  | some existing => decidable_of_iff (value.version = existing.version + 1)
      (by simp [versionFits,h])

theorem acceptable_iff (hm : mapConfig c.channelGroup ro = .ok cm)
    (hr : mapConfig u.readSet ro = .ok rs) (hw : mapConfig u.writeSet ro = .ok ws) :
    (verifyReadSet cm rs).toOption.isSome ∧
      (∀ e ∈ (computeDeltaSet rs ws).entries,versionFits cm e.1 e.2) ↔ Acceptable ro c u := by
  constructor
  · rintro ⟨hv,hf⟩
    exact ⟨cm,rs,ws,hm,hr,hw,ok_value_eq hv,fun ke va hl => hf ⟨ke,va⟩ (AList.mem_lookup_iff.mp hl)⟩
  · rintro ⟨cm',rs',ws',hm',hr',hw',hv,hf⟩
    cases hm.symm.trans hm'
    cases hr.symm.trans hr'
    cases hw.symm.trans hw'
    exact ⟨by rw [hv]; rfl,fun e he => hf e.1 e.2 (AList.mem_lookup_iff.mpr he)⟩

instance : Decidable (Acceptable ro c u) :=
  match hm : mapConfig c.channelGroup ro,hr : mapConfig u.readSet ro,
    hw : mapConfig u.writeSet ro with
  | .ok _,.ok _,.ok _ => decidable_of_iff _ (acceptable_iff hm hr hw)
  | .error _,_,_ => .isFalse fun ⟨_,_,_,h,_⟩ => nomatch hm.symm.trans h
  | _,.error _,_ => .isFalse fun ⟨_,_,_,_,h,_⟩ => nomatch hr.symm.trans h
  | _,_,.error _ => .isFalse fun ⟨_,_,_,_,_,h,_⟩ => nomatch hw.symm.trans h

/-- A config whose maps are maps and that has no empty mod_policy. -/
structure Config.Sound (c : Config) : Prop where
  formed : c.Formed
  modPolicies : ∀ {k ns e}, treeAt c.channelGroup k ns = some e → e.modPolicy ≠ []

open Config (Sound Step)

variable {d : Decoders} {channelID root : Chars} {c c' : Config} {configtx : Bytes}
  {u : ConfigUpdate} {es fs : List (Transition Config Bytes)} {k : Kind} {ns : List Chars}

theorem acceptable_fits (hc : c.Formed) (hu : u.Formed) (h : Acceptable root c u) :
    Fits (treeAt c.channelGroup) (treeAt u.readSet) (treeAt u.writeSet) := by
  obtain ⟨cm,rs,ws,hm,hr,hwr,hcu,hve⟩ := h
  have fc := map_config_flattens hc hm
  have fr := map_config_flattens hu.readSet hr
  have fw := map_config_flattens hu.writeSet hwr
  have hch : ∀ {k ns e}, delta (treeAt u.readSet) (treeAt u.writeSet) k ns = some e →
      (treeAt c.channelGroup k ns = none → e.version = 0) ∧
      ∀ x, treeAt c.channelGroup k ns = some x → e.version = x.version + 1 := by
    intro k ns e he
    obtain ⟨y,hy,rfl⟩ := tree_at_some.mp (delta_some.mp he).1
    have hf := hve _ _ ((delta_set_at fr fw (fw.names hy)).mpr ⟨y,hy,rfl,he⟩)
    rw [versionFits,fc.lookup_eq (fw.names hy),placed_version] at hf
    cases hx : findIn c.channelGroup k ns with
    | none =>
      rw [hx] at hf
      simp only [treeAt,hx]
      exact ⟨fun _ => by simpa using hf,by simp⟩
    | some x =>
      rw [hx] at hf
      simp only [map_some,placed_version] at hf
      simp only [treeAt,hx]
      refine ⟨by simp,?_⟩
      rintro z hz
      cases hz
      simpa using hf
  refine ⟨?_,fun he hn => (hch he).1 hn,fun he hx => (hch he).2 _ hx⟩
  intro k ns e he
  obtain ⟨y,hy,rfl⟩ := tree_at_some.mp he
  obtain ⟨ex,hex,hv⟩ := verify_read_set_ok.mp hcu _ _ (fr.found hy)
  rw [fc.lookup_eq (fr.names hy)] at hex
  obtain ⟨x,hx,rfl⟩ := map_eq_some_iff.mp hex
  refine ⟨x.element,tree_at_some.mpr ⟨x,hx,rfl⟩,?_⟩
  rw [placed_version,placed_version] at hv
  simpa using hv

theorem fits_acceptable (hc : c.Formed) (hu : u.Formed) (ha : Named root c.channelGroup)
    (hb : Named root u.readSet) (hw : Named root u.writeSet)
    (h : Fits (treeAt c.channelGroup) (treeAt u.readSet) (treeAt u.writeSet)) :
    Acceptable root c u := by
  obtain ⟨cm,hm⟩ := map_config_total hc ha
  obtain ⟨rs,hr⟩ := map_config_total hu.readSet hb
  obtain ⟨ws,hwr⟩ := map_config_total hu.writeSet hw
  have fc := map_config_flattens hc hm
  have fr := map_config_flattens hu.readSet hr
  have fw := map_config_flattens hu.writeSet hwr
  refine ⟨cm,rs,ws,hm,hr,hwr,verify_read_set_ok.mpr ?_,?_⟩
  · intro ke va hva
    obtain ⟨k,ns,y,hy,rfl,rfl⟩ := fr.only hva
    obtain ⟨x,hx,hv⟩ := h.current (tree_at_some.mpr ⟨y,hy,rfl⟩)
    obtain ⟨z,hz,rfl⟩ := tree_at_some.mp hx
    refine ⟨placed [] root ns z,fc.found hz,?_⟩
    rw [placed_version,placed_version]
    simpa using hv
  · intro ke va hva
    obtain ⟨k,ns,hns,rfl⟩ := delta_set_only fw hva
    obtain ⟨y,hy,rfl,he⟩ := (delta_set_at fr fw hns).mp hva
    rw [versionFits,fc.lookup_eq hns,placed_version]
    cases hx : findIn c.channelGroup k ns with
    | none =>
      have hn : treeAt c.channelGroup k ns = none := by rw [treeAt,hx]; rfl
      simpa using h.fresh he hn
    | some x =>
      simp only [map_some,placed_version]
      simpa using h.raised he (tree_at_some.mpr ⟨x,hx,rfl⟩)

variable {modPolicy : Chars}

theorem validate_mod_policy_set (h : validateModPolicy modPolicy = .ok ()) : modPolicy ≠ [] := by
  rintro rfl
  cases h

section
variable (so : c.Sound) (h : c.Step d channelID root configtx c')
include so h

theorem step_follows : ∃ (μ : Type) (p : PolicyManagers μ) (vi : Validator μ) (da : List SignedData)
      (t t' : ConfigGroup) (u : ConfigUpdate) (on : Bool),
      c.channelGroup = some t ∧ c'.channelGroup = some t' ∧ t'.Formed ∧
      Follows p vi da t t' (treeAt u.readSet) (treeAt u.writeSet) on := by
  obtain ⟨μ,p,pm,vi,o,hv,ho,rfl⟩ := h
  obtain ⟨t,ht,hs,hr,_,_⟩ := new_validator_holds so.formed hv
  obtain ⟨en,m,t',he,hm,hc,rfl⟩ := propose_ok.mp ho
  obtain ⟨u,da,a,ls⟩ := authorize_result hs hm
  exact ⟨μ,p,vi,da,t,t',u,_,ht,rfl,ls.rebuilt_formed hc,
    authorize_follows hs a.decoded a.signed hm hc⟩

theorem step_sound : c'.Sound := by
  obtain ⟨μ,p,vi,da,t,t',u,on,ht,ht',hfm,f⟩ := step_follows so h
  constructor
  · intro g hg
    cases ht'.symm.trans hg
    exact hfm
  intro k ns e he
  rw [ht'] at he
  obtain ⟨o,ho,rfl⟩ | ⟨_,x,hx,rfl⟩ := f.element he
  · have hs := validate_mod_policy_set (f.admits.modPolicy ho)
    rw [upgraded_set hs]
    exact hs
  have hs : x.modPolicy ≠ [] := so.modPolicies (by rw [ht]; exact hx)
  rw [upgraded_set hs]
  exact hs

theorem step_element (hx : treeAt c.channelGroup k ns = some x)
    (hy : treeAt c'.channelGroup k ns = some y) :
    y = x ∨ y.version = x.version + 1 := by
  obtain ⟨μ,p,vi,da,t,t',u,on,ht,ht',_,f⟩ := step_follows so h
  rw [ht'] at hy
  obtain ⟨o,ho,rfl⟩ | ⟨_,z,hz,rfl⟩ := f.element hy
  · rw [ht] at hx
    right
    change o.version = x.version + 1
    exact f.admits.raised ho hx
  rw [ht] at hx
  cases hx.symm.trans hz
  have hs : x.modPolicy ≠ [] := so.modPolicies (by rw [ht]; exact hx)
  exact .inl (upgraded_set hs)

theorem step_roots :
    treeAt c.channelGroup .group [] ≠ none ∧ treeAt c'.channelGroup .group [] ≠ none := by
  obtain ⟨_,_,_,_,t,t',_,_,ht,ht',_,_⟩ := step_follows so h
  rw [ht,ht']
  exact ⟨by simp [treeAt,findIn,find],by simp [treeAt,findIn,find]⟩

end

/-- The version of an element that stays goes down: its counter is past 2^64 - 1. -/
def Wraps (e : Transition Config Bytes) : Prop :=
  ∃ k ns x y, treeAt e.before.channelGroup k ns = some x ∧
    treeAt e.after.channelGroup k ns = some y ∧ y.version < x.version

theorem step_advances (hs : c.Sound) (h : c.Step d channelID root configtx c')
    (hw : ¬ Wraps ⟨c,configtx,c'⟩) :
    Advances (fun e : Element => e.version.toNat) (treeAt c.channelGroup) (treeAt c'.channelGroup) := by
  intro k ns x y hx hy
  rcases step_element hs h hx hy with rfl | hv
  · exact .inl rfl
  right
  have hn : ¬ y.version < x.version := fun hlt => hw ⟨k,ns,x,y,hx,hy,hlt⟩
  rw [UInt64.lt_iff_toNat_lt,not_lt] at hn
  refine lt_of_le_of_ne hn ?_
  intro he
  exact next_version_ne _ (hv.symm.trans (UInt64.toNat_inj.mp he.symm))

def layouts (es : List (Transition Config Bytes)) : List (Layout Kind Chars Element) :=
  es.map fun e => treeAt e.after.channelGroup

theorem run_history (hr : Run (Step d channelID root) c es c') (hs : c.Sound)
    (hw : ∀ e ∈ es, ¬ Wraps e) :
    History (fun e : Element => e.version.toNat) (treeAt c.channelGroup) (layouts es) ∧
      final (treeAt c.channelGroup) (layouts es) = treeAt c'.channelGroup := by
  induction hr with
  | nil => exact ⟨trivial,rfl⟩
  | cons he ta ih =>
    obtain ⟨hh,ht⟩ := forall_mem_cons.mp hw
    obtain ⟨hhi,hf⟩ := ih (step_sound hs he) ht
    exact ⟨⟨step_advances hs he hh,hhi⟩,hf⟩

theorem run_roots (hr : Run (Step d channelID root) c es c') (ho : c.Sound) (hne : es ≠ []) :
    ∀ l ∈ treeAt c.channelGroup :: layouts es,
      shape.Closed l ∧ shape.Complete l ∧ l shape.inner [] ≠ none := by
  have hs : ∀ c : Config, treeAt c.channelGroup .group [] ≠ none →
      shape.Closed (treeAt c.channelGroup) ∧ shape.Complete (treeAt c.channelGroup) ∧
        treeAt c.channelGroup shape.inner [] ≠ none :=
    fun c h => ⟨tree_at_closed,tree_at_complete,h⟩
  have ha := (hr.invariant (I := Sound) (fun _ _ _ hi h => step_sound hi h) ho).2
  refine forall_mem_cons.mpr ⟨?_,?_⟩
  · cases hr with
    | nil => exact absurd rfl hne
    | cons hd ta => exact hs c (step_roots ho hd).1
  intro l hl
  obtain ⟨e,he,rfl⟩ := List.mem_map.mp hl
  exact hs e.after (step_roots (ha e he).1 (hr.step_of_mem he)).2

/-- The places whose versions an update states: what it reads and what it changes. -/
def Pins (u : ConfigUpdate) (k : Kind) (ns : List Chars) : Prop :=
  treeAt u.readSet k ns ≠ none ∨ delta (treeAt u.readSet) (treeAt u.writeSet) k ns ≠ none

theorem Pins.at_root (h : Pins u k []) : k = .group := by
  rcases h with h | h
  · obtain ⟨e,he⟩ := ne_none_iff_exists'.mp h
    exact tree_at_closed.root he
  · obtain ⟨e,he⟩ := ne_none_iff_exists'.mp h
    exact tree_at_closed.root (delta_some.mp he).1

theorem pins_of_write (h : treeAt u.writeSet k ns = some e) : Pins u k ns := by
  by_cases hr : treeAt u.readSet k ns = none
  · right
    rw [delta_some.mpr ⟨h,by simp [hr]⟩]
    simp
  · exact .inl hr

theorem Pins.up (h : Pins u k (n :: ns)) : Pins u .group ns := by
  rcases h with h | h
  · obtain ⟨e,he⟩ := ne_none_iff_exists'.mp h
    obtain ⟨v,hv,_⟩ := tree_at_closed.listed he
    refine .inl ?_
    rw [show Kind.group = shape.inner from rfl,hv]
    simp
  · obtain ⟨e,he⟩ := ne_none_iff_exists'.mp h
    obtain ⟨v,hv,_⟩ := tree_at_closed.listed (delta_some.mp he).1
    exact pins_of_write hv

theorem pinned_versions (f : Fits m (treeAt u.readSet) (treeAt u.writeSet))
    (f' : Fits m' (treeAt u.readSet) (treeAt u.writeSet)) (h : Pins u k ns)
    (hx : m k ns = some x) (hy : m' k ns = some y) : x.version = y.version := by
  rcases h with h | h
  · obtain ⟨e,he⟩ := ne_none_iff_exists'.mp h
    obtain ⟨x',hx',hv⟩ := f.current he
    obtain ⟨y',hy',hv'⟩ := f'.current he
    cases hx.symm.trans hx'
    cases hy.symm.trans hy'
    rw [hv,hv']
  · obtain ⟨e,he⟩ := ne_none_iff_exists'.mp h
    have hv := f.raised he hx
    have hv' := f'.raised he hy
    simpa using hv.symm.trans hv'

/-- As long as no version counter wraps around, an update that is acceptable at two configs of a run
finds everything that it reads or changes as it was. -/
theorem acceptable_unchanged (hu : u.Formed) {c₀ : Config} (sound : c₀.Sound)
    (start : Run (Step d channelID root) c₀ es c)
    (run : Run (Step d channelID root) c fs c') (hw : ∀ e ∈ fs, ¬ Wraps e)
    (before : Acceptable root c u) (after : Acceptable root c' u)
    (pinned : treeAt u.readSet k ns ≠ none ∨
      delta (treeAt u.readSet) (treeAt u.writeSet) k ns ≠ none) :
    treeAt c'.channelGroup k ns = treeAt c.channelGroup k ns := by
  have hs := (start.invariant (I := Sound) (fun _ _ _ hi h => step_sound hi h) sound).1
  have hs' := (run.invariant (I := Sound) (fun _ _ _ hi h => step_sound hi h) hs).1
  have f := acceptable_fits hs.formed hu before
  have f' := acceptable_fits hs'.formed hu after
  by_cases hne : fs = []
  · subst hne
    cases run
    rfl
  obtain ⟨hh,hf⟩ := run_history run hs hw
  have hpi : ∀ l ∈ layouts fs, l k ns = treeAt c.channelGroup k ns := by
    refine hh.pinned (run_roots run hs hne) Pins.at_root Pins.up ?_ pinned
    intro k ns x y hp hx hy
    rw [hf] at hy
    rw [pinned_versions f f' hp hx hy]
  rw [← hf]
  exact hpi _ (final_mem (by simpa [layouts] using hne))

def twoValues : ConfigGroup :=
  ⟨0,[],[⟨['a'],⟨0,[1],['A']⟩⟩,⟨['b'],⟨0,[2],['A']⟩⟩],[],['A']⟩

def setValue (name : Chars) : ConfigUpdate :=
  ⟨['c'],some ⟨0,[],[],[],[]⟩,some ⟨0,[],[⟨name,⟨1,[3],['A']⟩⟩],[],[]⟩⟩

theorem set_value_formed (na : Chars) : (setValue na).Formed := by
  constructor
  · intro g hg
    cases hg
    decide
  intro g hg
  cases hg
  simp [Formed,GroupsFormed]

def twoValidator : Validator Unit := Outcomes.okValue
  (newValidatorImpl ['c'] (some ⟨0,some twoValues⟩) "Channel".toList ()) (by decide +kernel)

def secondSet : ConfigEnvelope := Outcomes.okValue
  (twoValidator.proposeConfigUpdate (decodersOf _ (set_value_formed ['b'])) (managersOf true) [])
  (by decide +kernel)

/-- The second value is set between two times at which the first could be. -/
theorem acceptable_unchanged_first :
    Acceptable "Channel".toList ⟨0,some twoValues⟩ (setValue ['a']) ∧
    Acceptable "Channel".toList secondSet.config (setValue ['a']) ∧
    treeAt secondSet.config.channelGroup .value [['a']] = twoValues.elementAt .value [['a']] := by
  have hb : Acceptable "Channel".toList ⟨0,some twoValues⟩ (setValue ['a']) := by decide +kernel
  have ha : Acceptable "Channel".toList secondSet.config (setValue ['a']) := by decide +kernel
  refine ⟨hb,ha,?_⟩
  have hfm : twoValues.Formed := by decide
  have so : Sound ⟨0,some twoValues⟩ := by
    refine ⟨by intro g hg; cases hg; exact hfm,?_⟩
    intro k ns e he
    obtain ⟨c,hc,rfl⟩ := tree_at_some.mp he
    rw [Content.element_mod_policy]
    exact forall_find (P := fun c => c.modPolicy ≠ []) hfm (by decide +kernel) hc
  have ru : Run (Step (decodersOf _ (set_value_formed ['b'])) ['c'] "Channel".toList)
      ⟨0,some twoValues⟩ [⟨⟨0,some twoValues⟩,[],secondSet.config⟩] secondSet.config :=
    .cons ⟨Unit,managersOf true,(),twoValidator,secondSet,ok_value_eq _,ok_value_eq _,rfl⟩ .nil
  refine acceptable_unchanged (set_value_formed ['a']) so .nil ru ?_ hb ha (.inr ?_)
  · rintro e he ⟨k,ns,x,y,hx,_,hlt⟩
    cases mem_singleton.mp he
    obtain ⟨c,hc,rfl⟩ := tree_at_some.mp hx
    have hz : c.version = 0 :=
      forall_find (P := fun c => c.version = 0) hfm (by decide +kernel) hc
    rw [Content.element_version,hz] at hlt
    exact absurd hlt UInt64.not_lt_zero
  · have hs : (delta (treeAt (setValue ['a']).readSet) (treeAt (setValue ['a']).writeSet) .value
        [['a']]).isSome = true := by decide +kernel
    exact isSome_iff_ne_none.mp hs

def lone (e : Element) : Layout Kind Chars Element :=
  fun k ns => if k = .group ∧ ns = [] then some e else none

theorem lone_some (h : lone e k ns = some x) : k = .group ∧ ns = [] ∧ x = e := by
  rw [lone] at h
  split_ifs at h with hk
  cases h
  exact ⟨hk.1,hk.2,rfl⟩

def rootElement (version : UInt64) (modPolicy : Chars) : Element :=
  ⟨version,modPolicy,.group,fun _ _ => False⟩

variable {version : UInt64}

theorem lone_tree :
    (⟨version,[],[],[],modPolicy⟩ : ConfigGroup).elementAt = lone (rootElement version modPolicy) := by
  have hr : (Content.group ⟨version,[],[],[],modPolicy⟩).element = rootElement version modPolicy := by
    rw [Content.element,rootElement]
    congr 1
    funext k n
    cases k <;> simp [member]
  funext k ns
  cases ns with
  | nil =>
    by_cases hk : k = .group
    · subst hk
      rw [element_at_root,hr,lone,if_pos ⟨rfl,rfl⟩]
    · simp [elementAt,find,lone,hk]
  | cons n ns =>
    rw [lone,if_neg (by simp)]
    cases hf : elementAt ⟨version,[],[],[],modPolicy⟩ k (n :: ns) with
    | none => rfl
    | some e =>
      have he : ∀ ns, (⟨version,[],[],[],modPolicy⟩ : ConfigGroup).groupAt ns =
          if ns = [] then some ⟨version,[],[],[],modPolicy⟩ else none := by
        intro ns
        induction ns with
        | nil => rfl
        | cons n ns ih =>
          rw [groupAt,ih]
          by_cases hns : ns = [] <;> simp [hns]
      rw [elementAt,find,he] at hf
      by_cases hns : ns = []
      · cases k <;> simp [hns,member] at hf
      · simp [hns] at hf

theorem lone_named (hr : Legal root) (h : t.elementAt = lone e) : Named root (some t) := by
  refine ⟨fun _ => hr,?_⟩
  intro k ns c hc
  have hf : t.find k ns = some c := hc
  have he : lone e k ns = some c.element := by
    rw [← h,elementAt,hf]
    rfl
  obtain ⟨_,rfl,_⟩ := lone_some he
  simp

def setRoot (version : UInt64) : ConfigUpdate :=
  ⟨['c'],none,some ⟨version + 1,[],[],[],['B']⟩⟩

theorem set_root_formed (version : UInt64) : (setRoot version).Formed := by
  constructor
  · intro g hg
    cases hg
  intro g hg
  cases hg
  simp [Formed,GroupsFormed]

def countDecoders : Decoders where
  envelopeToConfigUpdate configtx := some ⟨configtx,[]⟩
  unmarshalConfigUpdate data := some (setRoot (UInt64.ofNat data.length))
  unmarshalSignatureHeader _ := some []
  formed h := by
    cases h
    exact set_root_formed _

theorem policy_for_item_answer {vi : Validator Unit} {it : Comparable} :
    vi.policyForItem (managersOf answer) it = some fun _ => answer := by
  unfold Validator.policyForItem
  split_ifs
  · simp only [managersOf]
    cases it.content <;> rfl
  · rfl

theorem set_root_delta :
    delta (treeAt (setRoot version).readSet) (treeAt (setRoot version).writeSet) =
      lone (rootElement (version + 1) ['B']) := by
  have hwr : treeAt (setRoot version).writeSet = lone (rootElement (version + 1) ['B']) :=
    lone_tree
  have hr : ∀ k ns, treeAt (setRoot version).readSet k ns = none := fun _ _ => rfl
  funext k ns
  rw [delta,hwr,hr]
  cases lone (rootElement (version + 1) ['B']) k ns <;> rfl

theorem set_root_fits :
    Fits (lone (rootElement version modPolicy)) (treeAt (setRoot version).readSet)
      (treeAt (setRoot version).writeSet) where
  current h := by cases h
  fresh := by
    intro k ns e he hn
    rw [set_root_delta] at he
    obtain ⟨rfl,rfl,_⟩ := lone_some he
    cases hn
  raised := by
    intro k ns e x he hx
    rw [set_root_delta] at he
    obtain ⟨_,_,rfl⟩ := lone_some he
    obtain ⟨_,_,rfl⟩ := lone_some hx
    rfl

def Counted (c : Config) (version : UInt64) (modPolicy : Chars) : Prop :=
  ∃ t, c.channelGroup = some t ∧ t.Formed ∧ t.elementAt = lone (rootElement version modPolicy)

theorem channel_legal : Legal "Channel".toList := by
  decide +kernel

theorem counted_step {c : Config}
    (h : Counted c version modPolicy) (hle : UInt64.ofNat configtx.length = version) :
    ∃ c', c.Step countDecoders ['c'] "Channel".toList configtx c' ∧ Counted c' (version + 1) ['B'] := by
  obtain ⟨t,ht,hfm,hlo⟩ := h
  obtain ⟨cm,hma⟩ := map_config_total (o := some t) (by simpa using hfm)
    (lone_named channel_legal hlo)
  have hv : newValidatorImpl ['c'] (some c) "Channel".toList () =
      .ok ⟨['c'],c.sequence,cm,c,"Channel".toList,()⟩ :=
    new_validator_ok.mpr ⟨t,cm,ht,by rfl,hma,rfl⟩
  have hs : Validator.Holds (⟨['c'],c.sequence,cm,c,"Channel".toList,()⟩ : Validator Unit) t :=
    ⟨hfm,map_config_flattens (by simpa using hfm) hma⟩
  have hf : Fits t.elementAt (treeAt (setRoot version).readSet)
      (treeAt (setRoot version).writeSet) := by
    rw [hlo]
    exact set_root_fits
  have ad : Validator.Admitted countDecoders (managersOf true)
      (⟨['c'],c.sequence,cm,c,"Channel".toList,()⟩ : Validator Unit) t ⟨configtx,[]⟩
      (setRoot version) [] := by
    refine ⟨?_,rfl,⟨by simp [setRoot],by simp [setRoot,findIn]⟩,
      lone_named channel_legal lone_tree,rfl,⟨hf,?_,?_,?_⟩⟩
    · rw [← hle]
      rfl
    · refine ⟨.group,[],rootElement (version + 1) ['B'],?_⟩
      rw [set_root_delta]
      rfl
    · intro k ns e he
      rw [set_root_delta] at he
      obtain ⟨_,_,rfl⟩ := lone_some he
      rfl
    intro k ns e x _ hx
    obtain ⟨y,hy,_⟩ := map_eq_some_iff.mp hx
    exact ⟨y,fun _ => true,hy,policy_for_item_answer,rfl⟩
  obtain ⟨m,hm⟩ := admitted_authorized hs ad
  obtain ⟨t',hc⟩ := authorized_rebuilds hs hm
  have f := authorize_follows hs ad.decoded ad.signed hm hc
  refine ⟨⟨c.sequence + 1,some t'⟩,⟨Unit,managersOf true,(),_,_,hv,
    propose_ok.mpr ⟨⟨configtx,[]⟩,m,t',rfl,hm,hc,rfl⟩,rfl⟩,t',rfl,?_,?_⟩
  · obtain ⟨_,_,_,ls⟩ := authorize_result hs hm
    exact ls.rebuilt_formed hc
  funext k ns
  cases he : t'.elementAt k ns with
  | none =>
    cases hl : lone (rootElement (version + 1) ['B']) k ns with
    | none => rfl
    | some e =>
      obtain ⟨rfl,rfl,_⟩ := lone_some hl
      cases he
  | some e =>
    obtain ⟨o,ho,rfl⟩ | ⟨hn,x,hx,rfl⟩ := f.element he
    · rw [set_root_delta] at ho
      rw [ho]
      obtain ⟨_,_,rfl⟩ := lone_some ho
      rw [upgraded_set (by simp [rootElement])]
    rw [hlo] at hx
    obtain ⟨rfl,rfl,_⟩ := lone_some hx
    cases hn

theorem counted_run (n : Nat) : ∃ es c,
    Run (Step countDecoders ['c'] "Channel".toList) ⟨0,some ⟨0,[],[],[],['A']⟩⟩ es c ∧
      Counted c (UInt64.ofNat n) (if n = 0 then ['A'] else ['B']) := by
  induction n with
  | zero => exact ⟨[],_,.nil,_,rfl,by decide,lone_tree⟩
  | succ n ih =>
    obtain ⟨es,c,ru,co⟩ := ih
    have hl : UInt64.ofNat (List.replicate n (0 : UInt8)).length = UInt64.ofNat n := by simp
    obtain ⟨c',sp,co'⟩ := counted_step co hl
    refine ⟨_,c',ru.snoc sp,?_⟩
    simpa using co'

/-- After 2^64 updates the root has its first version again, and the first update is acceptable
again. -/
theorem versions_wrap : ∃ es c,
    Run (Step countDecoders ['c'] "Channel".toList) ⟨0,some ⟨0,[],[],[],['A']⟩⟩ es c ∧
    Sound ⟨0,some ⟨0,[],[],[],['A']⟩⟩ ∧
    Acceptable "Channel".toList ⟨0,some ⟨0,[],[],[],['A']⟩⟩ (setRoot 0) ∧
    Acceptable "Channel".toList c (setRoot 0) ∧
    delta (treeAt (setRoot 0).readSet) (treeAt (setRoot 0).writeSet) .group [] ≠ none ∧
    treeAt c.channelGroup .group [] ≠ treeAt (some ⟨0,[],[],[],['A']⟩) .group [] := by
  obtain ⟨es,c,ru,t,ht,hfm,hl⟩ := counted_run (2 ^ 64)
  have hr : Named "Channel".toList (setRoot 0).readSet := ⟨by simp [setRoot],by simp [setRoot,findIn]⟩
  refine ⟨es,c,ru,⟨?_,?_⟩,?_,?_,?_,?_⟩
  · intro g hg
    cases hg
    decide
  · intro k ns e he
    have he : lone (rootElement 0 ['A']) k ns = some e := by
      rw [← lone_tree]
      exact he
    obtain ⟨_,_,rfl⟩ := lone_some he
    simp [rootElement]
  · refine fits_acceptable ?_ (set_root_formed 0) (lone_named channel_legal lone_tree) hr
      (lone_named channel_legal lone_tree) ?_
    · intro g hg
      cases hg
      decide
    have htr : treeAt (some ⟨0,[],[],[],['A']⟩) = lone (rootElement 0 ['A']) := lone_tree
    rw [htr]
    exact set_root_fits
  · refine fits_acceptable ?_ (set_root_formed 0) ?_ hr (lone_named channel_legal lone_tree) ?_
    · intro g hg
      cases ht.symm.trans hg
      exact hfm
    · rw [ht]
      exact lone_named channel_legal hl
    have htr : treeAt c.channelGroup = lone (rootElement 0 ['B']) := by
      rw [ht]
      exact hl
    rw [htr]
    exact set_root_fits
  · rw [set_root_delta]
    simp [lone]
  · have htr : treeAt c.channelGroup = lone (rootElement 0 ['B']) := by
      rw [ht]
      exact hl
    have hf : treeAt (some ⟨0,[],[],[],['A']⟩) = lone (rootElement 0 ['A']) := lone_tree
    rw [htr,hf]
    simp [lone,rootElement]

end PluggableHcs.Configtx
