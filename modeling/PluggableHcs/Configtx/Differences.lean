import PluggableHcs.Configtx.Authorization
import PluggableHcs.Configtx.Compute

namespace PluggableHcs.Configtx
open Trees List Option ConfigGroup Element Content

def Element.content (e : Element) : Element := { e with version := 0 }

section
open Classical

/-- What has to be stated to get from one element to another: nothing for the same content,
otherwise the new content, one version on or as a first version. -/
noncomputable def change : Option Element → Option Element → Option Element
  | _,none => none
  | none,some y => some { y with version := 0 }
  | some x,some y => if x.content = y.content then none else some { y with version := x.version + 1 }

end

def deltaOf (r w : Option Element) : Option Element :=
  w.bind fun e => if r.map Element.version = some e.version then none else some e

/-- At one place, a read and a write set state the change from one element to another. -/
structure States (o u r w : Option Element) : Prop where
  current : ∀ {e}, r = some e → ∃ x, o = some x ∧ x.version = e.version
  written : w ≠ none → u ≠ none
  delta_eq : deltaOf r w = change o u

section
variable {o u r w : Option Element} {x y e : Element}

theorem change_same (h : x.content = y.content) : change (some x) (some y) = none :=
  if_pos h

theorem change_differs (h : x.content ≠ y.content) :
    change (some x) (some y) = some { y with version := x.version + 1 } :=
  if_neg h

theorem States.absent : States o none none none where
  current h := by cases h
  written h := absurd rfl h
  delta_eq := by cases o <;> rfl

theorem States.omitted (h : change o u = none) : States o u none none where
  current h := by cases h
  written h := absurd rfl h
  delta_eq := h.symm

theorem States.fresh : States none u none (u.map content) where
  current h := by cases h
  written := by
    intro h hu
    rw [hu] at h
    exact h rfl
  delta_eq := by cases u <;> rfl

theorem States.raised (h : x.content ≠ y.content) (hr : ∀ e, r = some e → e.version = x.version) :
    States (some x) (some y) r (some { y with version := x.version + 1 }) where
  current he := ⟨x,rfl,(hr _ he).symm⟩
  written _ := by simp
  delta_eq := by
    rw [change_differs h]
    refine if_neg ?_
    intro hv
    obtain ⟨e,he,hv⟩ := map_eq_some_iff.mp hv
    rw [hr e he] at hv
    exact next_version_ne _ hv.symm

theorem States.same (h : x.content = y.content) (hr : e.version = x.version)
    (hw : e'.version = x.version) : States (some x) (some y) (some e) (some e') where
  current he := by
    cases he
    exact ⟨x,rfl,hr.symm⟩
  written _ := by simp
  delta_eq := by
    rw [change_same h]
    exact if_pos (by rw [map_some,hr,hw])

end

/-- Values and policies: what is compared gives the change of one element. -/
inductive LeafChange {α : Type} (el : α → Element) (o u : α) : Change α → Prop
  | same {e : α} : (el o).content = (el u).content → (el e).version = (el o).version →
      LeafChange el o u (.same e)
  | changed {w : α} : (el o).content ≠ (el u).content →
      el w = { el u with version := (el o).version + 1 } → LeafChange el o u (.changed none w)

def valueElement (v : ConfigValue) : Element := (Content.value v).element

def policyElement (p : ConfigPolicy) : Element := (Content.policy p).element

theorem compare_values_change (o u : ConfigValue) :
    LeafChange valueElement o u (compareValues o u) := by
  rw [compareValues]
  split_ifs with h
  · obtain ⟨hp,hv⟩ := h
    refine .same ?_ rfl
    simp [valueElement,element,content,hp,hv]
  refine .changed ?_ rfl
  intro he
  apply h
  have hp := congrArg Element.modPolicy he
  have hb := congrArg body he
  exact ⟨hp,Body.value.inj hb⟩

theorem compare_policies_change (o u : ConfigPolicy) :
    LeafChange policyElement o u (comparePolicies o u) := by
  rw [comparePolicies]
  split_ifs with h
  · obtain ⟨hm,hp⟩ := h
    refine .same ?_ rfl
    simp [policyElement,element,content,hm,hp]
  refine .changed ?_ rfl
  intro he
  apply h
  have hm := congrArg Element.modPolicy he
  have hb := congrArg body he
  exact ⟨hm,Body.policy.inj hb⟩

section
variable {α : Type} {co : α → α → Change α} {fr : α → α}
  {ol ud : List ((_ : Chars) × α)} {f : Bool} {n : Chars}

theorem entry_states (ho : ol.NodupKeys) (hu : ud.NodupKeys)
    (hb : ∀ o u, ol.dlookup n = some o → ud.dlookup n = some u →
      States (el o) (el u) (((co o u).reads f).bind el) (((co o u).writes f).bind el))
    (hn : ∀ u, ud.dlookup n = some u → States none (el u) none (el (fr u))) :
    States ((ol.dlookup n).bind el) ((ud.dlookup n).bind el)
      ((((computeMapUpdate co fr ol ud).reads f).dlookup n).bind el)
      ((((computeMapUpdate co fr ol ud).writes f).dlookup n).bind el) := by
  rw [lookup_reads ho,lookup_writes ho hu]
  cases hup : ud.dlookup n with
  | none => cases ol.dlookup n <;> exact States.absent
  | some u =>
    cases hor : ol.dlookup n with
    | none => exact hn u hup
    | some o => exact hb o u hor hup

theorem leaf_states (h : LeafChange el o u c) :
    States (some (el o)) (some (el u)) ((c.reads f).bind fun a => some (el a))
      ((c.writes f).bind fun a => some (el a)) := by
  cases h with
  | same hc hv =>
    cases f with
    | false => exact .omitted (change_same hc)
    | true => exact .same hc hv hv
  | changed hc hw =>
    rw [Change.reads,Change.writes,bind_some,hw]
    exact .raised hc fun e he => by cases he

theorem leaf_entry_states (ho : ol.NodupKeys) (hu : ud.NodupKeys)
    (hc : ∀ o u, LeafChange el o u (co o u))
    (hf : ∀ u, el (fr u) = (el u).content) :
    States ((ol.dlookup n).map el) ((ud.dlookup n).map el)
      ((((computeMapUpdate co fr ol ud).reads f).dlookup n).map el)
      ((((computeMapUpdate co fr ol ud).writes f).dlookup n).map el) := by
  simp only [map_eq_bind,Function.comp_def]
  refine entry_states ho hu ?_ ?_
  · intro o u _ _
    exact leaf_states (hc o u)
  intro u _
  rw [hf]
  exact States.fresh

end

variable {o u : ConfigGroup} {policies : MapUpdate ConfigPolicy} {values : MapUpdate ConfigValue}
  {groups : MapUpdate ConfigGroup} {k : Kind} {n a : Chars} {ns : List Chars}

theorem assemble_read_set : (assembleGroup o u policies values groups).readSet =
    ⟨o.version,groups.reads (groupChanged o u policies values groups),
      values.reads (groupChanged o u policies values groups),
      policies.reads (groupChanged o u policies values groups),[]⟩ := by
  rw [assembleGroup]
  cases groupChanged o u policies values groups with
  | true => rfl
  | false =>
    rw [if_pos rfl]
    split_ifs with h
    · simp only [Bool.and_eq_true,List.isEmpty_iff] at h
      simp [MapUpdate.reads,h]
    · rfl

theorem assemble_write_set : (assembleGroup o u policies values groups).writeSet =
    ⟨if groupChanged o u policies values groups then o.version + 1 else o.version,
      groups.writes (groupChanged o u policies values groups),
      values.writes (groupChanged o u policies values groups),
      policies.writes (groupChanged o u policies values groups),
      if groupChanged o u policies values groups then u.modPolicy else []⟩ := by
  rw [assembleGroup]
  cases groupChanged o u policies values groups with
  | true => rfl
  | false =>
    rw [if_pos rfl,if_neg Bool.false_ne_true,if_neg Bool.false_ne_true]
    split_ifs with h
    · simp only [Bool.and_eq_true,List.isEmpty_iff] at h
      simp [MapUpdate.writes,h]
    · rfl

theorem assemble_updated (h : (assembleGroup o u policies values groups).updatedGroup = true) :
    groupChanged o u policies values groups = true ∨
      groupChanged o u policies values groups = false ∧
      (¬ (policies.readSet = [] ∧ policies.writeSet = []) ∨
        ¬ (values.readSet = [] ∧ values.writeSet = []) ∨
        ¬ (groups.readSet = [] ∧ groups.writeSet = [])) := by
  cases hc : groupChanged o u policies values groups with
  | true => exact .inl rfl
  | false =>
    refine .inr ⟨rfl,?_⟩
    by_contra hall
    simp only [not_or,not_not] at hall
    simp [assembleGroup,hc,hall] at h

theorem ConfigGroup.element_at_member : o.elementAt k [n] = (o.member k n).map element :=
  rfl

theorem ConfigGroup.element_at_value :
    o.elementAt .value [n] = (o.values.dlookup n).map valueElement := by
  rw [element_at_member,member,Option.map_map]
  rfl

theorem ConfigGroup.element_at_policy :
    o.elementAt .policy [n] = (o.policies.dlookup n).map policyElement := by
  rw [element_at_member,member,Option.map_map]
  rfl

theorem ConfigGroup.element_at_below (hk : ns = [] → k = .group) :
    o.elementAt k (ns ++ [a]) = (o.groups.dlookup a).bind fun g => g.elementAt k ns := by
  rw [elementAt,find_below hk,Option.map_bind]
  rfl

theorem ConfigGroup.member_some : (o.member k n).isSome = match k with
    | .group => (o.groups.dlookup n).isSome
    | .value => (o.values.dlookup n).isSome
    | .policy => (o.policies.dlookup n).isSome := by
  cases k <;> simp [member]

theorem group_content_iff : (Content.group o).element.content = (Content.group u).element.content ↔
      o.modPolicy = u.modPolicy ∧ ∀ k n, (o.member k n).isSome = (u.member k n).isSome := by
  constructor
  · intro h
    refine ⟨congrArg Element.modPolicy h,?_⟩
    intro k n
    have hm : ((o.member k n).isSome = true) = ((u.member k n).isSome = true) :=
      congrFun (congrFun (congrArg members h) k) n
    exact Bool.eq_iff_iff.mpr (iff_of_eq hm)
  · rintro ⟨hmo,hm⟩
    simp [element,content,hmo,hm]

variable {rec : ConfigGroup → ConfigGroup → GroupUpdate}

def updateBelow (rec : ConfigGroup → ConfigGroup → GroupUpdate) (o u : ConfigGroup) : GroupUpdate :=
  assembleGroup o u (computePoliciesMapUpdate o.policies u.policies)
    (computeValuesMapUpdate o.values u.values) (computeGroupsMapUpdate rec o.groups u.groups)

def changesBelow (rec : ConfigGroup → ConfigGroup → GroupUpdate) (o u : ConfigGroup) : Bool :=
  groupChanged o u (computePoliciesMapUpdate o.policies u.policies)
    (computeValuesMapUpdate o.values u.values) (computeGroupsMapUpdate rec o.groups u.groups)

theorem changes_below_iff (ho : o.Formed) (hu : u.Formed) : changesBelow rec o u = false ↔
    (Content.group o).element.content = (Content.group u).element.content := by
  obtain ⟨hog,hov,hop,_⟩ := formed_iff.mp ho
  obtain ⟨hug,huv,hup,_⟩ := formed_iff.mp hu
  rw [group_content_iff,changesBelow,groupChanged]
  simp only [Bool.or_eq_false_iff,bne_eq_false_iff_eq]
  rw [computePoliciesMapUpdate,computeValuesMapUpdate,computeGroupsMapUpdate,
    updated_members_iff hop hup,updated_members_iff hov huv,updated_members_iff hog hug]
  constructor
  · rintro ⟨⟨⟨hp,hv⟩,hg⟩,hmo⟩
    refine ⟨hmo,?_⟩
    intro k n
    rw [member_some,member_some]
    cases k with
    | group => exact hg n
    | value => exact hv n
    | policy => exact hp n
  · rintro ⟨hmo,hm⟩
    refine ⟨⟨⟨?_,?_⟩,?_⟩,hmo⟩
    · intro n
      simpa [member_some] using hm .policy n
    · intro n
      simpa [member_some] using hm .value n
    · intro n
      simpa [member_some] using hm .group n

theorem written_members (ho : o.Formed) (hu : u.Formed) (h : changesBelow rec o u = true) :
    ((updateBelow rec o u).writeSet.member k n).isSome = (u.member k n).isSome := by
  obtain ⟨hog,hov,hop,_⟩ := formed_iff.mp ho
  obtain ⟨hug,huv,hup,_⟩ := formed_iff.mp hu
  rw [changesBelow] at h
  rw [updateBelow,assemble_write_set,h,member_some,member_some]
  cases k with
  | group =>
    dsimp only
    rw [computeGroupsMapUpdate,lookup_writes hog hug,written_full]
  | value =>
    dsimp only
    rw [computeValuesMapUpdate,lookup_writes hov huv,written_full]
  | policy =>
    dsimp only
    rw [computePoliciesMapUpdate,lookup_writes hop hup,written_full]

theorem root_states (ho : o.Formed) (hu : u.Formed) :
    States (o.elementAt .group []) (u.elementAt .group [])
      ((updateBelow rec o u).readSet.elementAt .group [])
      ((updateBelow rec o u).writeSet.elementAt .group []) := by
  simp only [element_at_root]
  have hr : (Content.group (updateBelow rec o u).readSet).element.version = o.version := by
    rw [updateBelow,assemble_read_set]
    rfl
  cases hc : changesBelow rec o u with
  | false =>
    refine .same ((changes_below_iff ho hu).mp hc) hr ?_
    rw [changesBelow] at hc
    rw [updateBelow,assemble_write_set,hc]
    rfl
  | true =>
    have hd : (Content.group o).element.content ≠ (Content.group u).element.content := by
      intro h
      rw [(changes_below_iff ho hu).mpr h] at hc
      cases hc
    have hwr : (Content.group (updateBelow rec o u).writeSet).element =
        { (Content.group u).element with version := (Content.group o).element.version + 1 } := by
      have hm : ∀ k n, ((updateBelow rec o u).writeSet.member k n).isSome = (u.member k n).isSome :=
        fun k n => written_members ho hu hc
      rw [changesBelow] at hc
      have hv : (updateBelow rec o u).writeSet.version = o.version + 1 := by
        rw [updateBelow,assemble_write_set,hc]
        rfl
      have hmo : (updateBelow rec o u).writeSet.modPolicy = u.modPolicy := by
        rw [updateBelow,assemble_write_set,hc]
        rfl
      simp [element,hm,hv,hmo]
    rw [hwr]
    refine .raised hd ?_
    intro e he
    cases he
    exact hr

/-- What the update of a group has to do: at every place it states the change of that place, and
it says whether there is one. -/
structure Computed (o u : ConfigGroup) (g : GroupUpdate) : Prop where
  states : ∀ k ns, States (o.elementAt k ns) (u.elementAt k ns) (g.readSet.elementAt k ns)
    (g.writeSet.elementAt k ns)
  unchanged : g.updatedGroup = false → g.readSet = g.writeSet
  changed : g.updatedGroup = true → ∃ k ns, change (o.elementAt k ns) (u.elementAt k ns) ≠ none
  readFormed : g.readSet.Formed
  writeFormed : g.writeSet.Formed

theorem delta_of_self : deltaOf e e = none := by
  cases e with
  | none => rfl
  | some e => exact if_pos rfl

theorem Computed.no_change (c : Computed o u g) (h : g.updatedGroup = false) :
    change (o.elementAt k ns) (u.elementAt k ns) = none := by
  rw [← (c.states k ns).delta_eq,c.unchanged h,delta_of_self]

theorem new_group_empty : newConfigGroup.elementAt k (n :: ns) = none := by
  rcases place_cases k (n :: ns) with h | ⟨m,_,h⟩ | ⟨a,ms,h,hk⟩
  · cases h
  · rw [h,element_at_member]
    cases k <;> rfl
  · rw [h,element_at_below hk]
    rfl

theorem element_at_maps (hg : o.groups = u.groups) (hv : o.values = u.values)
    (hp : o.policies = u.policies) : o.elementAt k (n :: ns) = u.elementAt k (n :: ns) := by
  have hm : ∀ k n, o.member k n = u.member k n := by
    intro k n
    cases k with
    | group => simp [member,hg]
    | value => simp [member,hv]
    | policy => simp [member,hp]
  rcases place_cases k (n :: ns) with h | ⟨m,_,h⟩ | ⟨a,ms,h,hk⟩
  · cases h
  · rw [h,element_at_member,element_at_member,hm]
  · rw [h,element_at_below hk,element_at_below hk,hg]

theorem written_new (c : Computed newConfigGroup u g) :
    g.writeSet.elementAt k (n :: ns) = (u.elementAt k (n :: ns)).map content := by
  have hs := c.states k (n :: ns)
  rw [new_group_empty] at hs
  have hr : g.readSet.elementAt k (n :: ns) = none := by
    by_contra h
    obtain ⟨e,he⟩ := ne_none_iff_exists'.mp h
    obtain ⟨x,hx,_⟩ := hs.current he
    cases hx
  have hd := hs.delta_eq
  rw [hr] at hd
  have hw : deltaOf none (g.writeSet.elementAt k (n :: ns)) = g.writeSet.elementAt k (n :: ns) := by
    cases g.writeSet.elementAt k (n :: ns) <;> rfl
  rw [← hw,hd]
  cases u.elementAt k (n :: ns) <;> rfl

theorem fresh_elements (c : Computed newConfigGroup u (rec newConfigGroup u)) :
    (freshGroup rec u).elementAt k ns = (u.elementAt k ns).map content := by
  cases ns with
  | nil =>
    by_cases hk : k = .group
    · subst hk
      have hm : ∀ k n, ((freshGroup rec u).member k n).isSome = (u.member k n).isSome := by
        intro k n
        have hw : (rec newConfigGroup u).writeSet.elementAt k [n] =
            (u.elementAt k [n]).map content := written_new c
        rw [element_at_member,element_at_member] at hw
        have := congrArg Option.isSome hw
        simp only [isSome_map] at this
        rw [← this]
        cases k <;> rfl
      refine congrArg some (Element.ext rfl rfl rfl ?_)
      funext k n
      exact congrArg (· = true) (hm k n)
    · simp [elementAt,find,hk]
  | cons n ns =>
    rw [← written_new c]
    exact element_at_maps rfl rfl rfl

def RecComputes (rec : ConfigGroup → ConfigGroup → GroupUpdate) (u : ConfigGroup) : Prop :=
  ∀ a t s, ⟨a,t⟩ ∈ u.groups → s.Formed → Computed s t (rec s t)

theorem new_group_formed : newConfigGroup.Formed := by
  decide

theorem value_states (ho : o.Formed) (hu : u.Formed) :
    States (o.elementAt .value [n]) (u.elementAt .value [n])
      ((updateBelow rec o u).readSet.elementAt .value [n])
      ((updateBelow rec o u).writeSet.elementAt .value [n]) := by
  obtain ⟨_,hov,_,_⟩ := formed_iff.mp ho
  obtain ⟨_,huv,_,_⟩ := formed_iff.mp hu
  simp only [element_at_value,updateBelow,assemble_read_set,assemble_write_set]
  exact leaf_entry_states hov huv compare_values_change fun _ => rfl

theorem policy_states (ho : o.Formed) (hu : u.Formed) :
    States (o.elementAt .policy [n]) (u.elementAt .policy [n])
      ((updateBelow rec o u).readSet.elementAt .policy [n])
      ((updateBelow rec o u).writeSet.elementAt .policy [n]) := by
  obtain ⟨_,_,hop,_⟩ := formed_iff.mp ho
  obtain ⟨_,_,hup,_⟩ := formed_iff.mp hu
  simp only [element_at_policy,updateBelow,assemble_read_set,assemble_write_set]
  exact leaf_entry_states hop hup compare_policies_change fun _ => rfl

theorem compared_states (c : Computed o u (rec o u)) : States (o.elementAt k ns) (u.elementAt k ns)
      (((compareGroups rec o u).reads f).bind fun g => g.elementAt k ns)
      (((compareGroups rec o u).writes f).bind fun g => g.elementAt k ns) := by
  have hs := c.states k ns
  rw [compareGroups]
  cases hup : (rec o u).updatedGroup with
  | true => exact hs
  | false =>
    cases f with
    | false => exact .omitted (c.no_change hup)
    | true =>
      rw [← c.unchanged hup] at hs
      exact hs

theorem group_states (ho : o.Formed) (hu : u.Formed) (he : RecComputes rec u)
    (hk : ns = [] → k = .group) :
    States (o.elementAt k (ns ++ [a])) (u.elementAt k (ns ++ [a]))
      ((updateBelow rec o u).readSet.elementAt k (ns ++ [a]))
      ((updateBelow rec o u).writeSet.elementAt k (ns ++ [a])) := by
  obtain ⟨hog,_,_,hb⟩ := formed_iff.mp ho
  obtain ⟨hug,_,_,_⟩ := formed_iff.mp hu
  simp only [element_at_below hk,updateBelow,assemble_read_set,assemble_write_set]
  refine entry_states hog hug ?_ ?_
  · intro s t hs ht
    exact compared_states
      (he a t s (of_mem_dlookup ht) (hb a s (of_mem_dlookup hs)))
  intro t ht
  rw [fresh_elements (he a t _ (of_mem_dlookup ht) new_group_formed)]
  exact States.fresh

theorem update_below_states (ho : o.Formed) (hu : u.Formed) (hb : RecComputes rec u) :
    States (o.elementAt k ns) (u.elementAt k ns) ((updateBelow rec o u).readSet.elementAt k ns)
      ((updateBelow rec o u).writeSet.elementAt k ns) := by
  rcases place_cases k ns with rfl | ⟨n,hk,rfl⟩ | ⟨a,ms,rfl,hk⟩
  · by_cases hk : k = .group
    · subst hk
      exact root_states ho hu
    have hn : ∀ t : ConfigGroup, t.elementAt k [] = none := by
      intro t
      simp [elementAt,find,hk]
    simp only [hn]
    exact States.absent
  · cases k with
    | group => exact absurd rfl hk
    | value => exact value_states ho hu
    | policy => exact policy_states ho hu
  · exact group_states ho hu hb hk

theorem leaf_changed {α : Type} {el : α → Element} {o u : α} {r : Option α} {w : α}
    (h : LeafChange el o u (.changed r w)) : change (some (el o)) (some (el u)) ≠ none := by
  cases h with
  | changed hc _ =>
    rw [change_differs hc]
    simp

theorem update_below_changed (ho : o.Formed) (hu : u.Formed) (ha : RecComputes rec u)
    (h : (updateBelow rec o u).updatedGroup = true) :
    ∃ k ns, change (o.elementAt k ns) (u.elementAt k ns) ≠ none := by
  obtain ⟨hog,hov,hop,hb⟩ := formed_iff.mp ho
  obtain ⟨hug,huv,hup,_⟩ := formed_iff.mp hu
  rcases assemble_updated h with hc | ⟨hc,hse⟩
  · -- the group itself
    refine ⟨.group,[],?_⟩
    rw [element_at_root,element_at_root,change_differs]
    · simp
    intro he
    have hsa : changesBelow rec o u = false := (changes_below_iff ho hu).mpr he
    rw [changesBelow,hc] at hsa
    cases hsa
  · simp only [groupChanged,Bool.or_eq_false_iff] at hc
    obtain ⟨⟨⟨hmp,hmv⟩,hmg⟩,_⟩ := hc
    rcases hse with hp | hv | hg
    · obtain ⟨n,x,y,r,w,hx,hy,hxy⟩ := changed_of_entry hop hup hmp hp
      refine ⟨.policy,[n],?_⟩
      rw [element_at_policy,element_at_policy,hx,hy]
      have hch := compare_policies_change x y
      rw [hxy] at hch
      exact leaf_changed hch
    · obtain ⟨n,x,y,r,w,hx,hy,hxy⟩ := changed_of_entry hov huv hmv hv
      refine ⟨.value,[n],?_⟩
      rw [element_at_value,element_at_value,hx,hy]
      have hch := compare_values_change x y
      rw [hxy] at hch
      exact leaf_changed hch
    · obtain ⟨n,s,t,r,w,hs,ht,hst⟩ := changed_of_entry hog hug hmg hg
      have c := ha n t s (of_mem_dlookup ht) (hb n s (of_mem_dlookup hs))
      have hud : (rec s t).updatedGroup = true := by
        rw [compareGroups] at hst
        split_ifs at hst with hup
        exact hup
      obtain ⟨k,ns,hch⟩ := c.changed hud
      have hk : ns = [] → k = .group := by
        rintro rfl
        by_contra hk
        apply hch
        simp [elementAt,find,hk,change]
      refine ⟨k,ns ++ [n],?_⟩
      rw [element_at_below hk,element_at_below hk,hs,ht]
      exact hch

theorem fresh_formed (c : Computed newConfigGroup u (rec newConfigGroup u)) :
    (freshGroup rec u).Formed := by
  have hw := formed_iff.mp c.writeFormed
  rw [formed_iff]
  exact hw

theorem compared_formed (c : Computed o u (rec o u))
    (h : (compareGroups rec o u).reads f = some g ∨ (compareGroups rec o u).writes f = some g) :
    g.Formed := by
  rw [compareGroups] at h
  cases hup : (rec o u).updatedGroup with
  | true =>
    rw [hup] at h
    rcases h with h | h
    · cases h
      exact c.readFormed
    · cases h
      exact c.writeFormed
  | false =>
    rw [hup] at h
    cases f with
    | false => rcases h with h | h <;> cases h
    | true => rcases h with h | h <;> cases h <;> exact c.readFormed

theorem read_formed (ho : o.Formed) (he : RecComputes rec u) :
    (updateBelow rec o u).readSet.Formed := by
  obtain ⟨hog,hov,hop,hb⟩ := formed_iff.mp ho
  rw [updateBelow,assemble_read_set,formed_iff]
  refine ⟨reads_nodup hog,reads_nodup hov,reads_nodup hop,?_⟩
  intro a g hg
  have hlk := (mem_dlookup_iff (reads_nodup hog)).mpr hg
  rw [computeGroupsMapUpdate,mem_def,lookup_reads hog] at hlk
  obtain ⟨s,hs,hlk⟩ := bind_eq_some_iff.mp hlk
  obtain ⟨t,ht,hlk⟩ := bind_eq_some_iff.mp hlk
  exact compared_formed (he a t s (of_mem_dlookup ht) (hb a s (of_mem_dlookup hs)))
    (.inl hlk)

theorem write_formed (ho : o.Formed) (hu : u.Formed) (he : RecComputes rec u) :
    (updateBelow rec o u).writeSet.Formed := by
  obtain ⟨hog,hov,hop,hb⟩ := formed_iff.mp ho
  obtain ⟨hug,huv,hup,_⟩ := formed_iff.mp hu
  rw [updateBelow,assemble_write_set,formed_iff]
  refine ⟨writes_nodup hog hug,writes_nodup hov huv,writes_nodup hop hup,?_⟩
  intro a g hg
  have hlk := (mem_dlookup_iff (writes_nodup hog hug)).mpr hg
  rw [computeGroupsMapUpdate,mem_def,lookup_writes hog hug] at hlk
  cases ht : u.groups.dlookup a with
  | none =>
    rw [ht] at hlk
    cases hlk
  | some t =>
    have hm := of_mem_dlookup ht
    cases hs : o.groups.dlookup a with
    | none =>
      rw [hs,ht] at hlk
      cases hlk
      exact fresh_formed (he a t _ hm new_group_formed)
    | some s =>
      rw [hs,ht] at hlk
      exact compared_formed (he a t s hm (hb a s (of_mem_dlookup hs))) (.inr hlk)

theorem update_below_computed (ho : o.Formed) (hu : u.Formed) (hb : RecComputes rec u) :
    Computed o u (updateBelow rec o u) where
  states _ _ := update_below_states ho hu hb
  unchanged h := by
    unfold updateBelow assembleGroup at *
    split_ifs at h ⊢
    rfl
  changed := update_below_changed ho hu hb
  readFormed := read_formed ho hb
  writeFormed := write_formed ho hu hb

/-- Induction on the fuel: the depth of the updated tree goes down with it. -/
theorem compute_group_update_computed (ho : o.Formed) (hu : u.Formed)
    (h : u.depth ≤ f) : Computed o u (computeGroupUpdate f o u) := by
  induction f generalizing o u with
  | zero =>
    obtain ⟨ve,groups,values,policies,mo⟩ := u
    rw [depth] at h
    omega
  | succ f ih =>
    refine update_below_computed ho hu ?_
    intro a t s ht hs
    obtain ⟨_,_,_,hb⟩ := formed_iff.mp hu
    have := depth_lt ht
    exact ih hs (hb a t ht) (by omega)

end PluggableHcs.Configtx
