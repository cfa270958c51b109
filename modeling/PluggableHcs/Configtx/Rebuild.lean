import PluggableHcs.Configtx.ConfigMap

namespace PluggableHcs.Configtx
open Trees List Option Outcomes Maps ConfigGroup Shape

def entries (m : ConfigMap) (root : Chars) : Layout Kind Chars Element :=
  fun k ns => (m.lookup (keyAt root k ns)).map fun c => c.content.element

def Element.upgraded (on : Bool) (e : Element) : Element :=
  { e with modPolicy := upgradeModPolicy on e.modPolicy }

variable {m : ConfigMap} {root path : Chars} {fuel : Nat} {t : ConfigGroup} {k : Kind}
  {ns : List Chars}

/-- The group that is rebuilt from what a map has at a path, one level of it. -/
structure RebuiltFrom (m : ConfigMap) (fuel : Nat) (path : Chars) (g t : ConfigGroup) : Prop where
  groups : Maps.mapKeys (fun key => recurseConfigMap m fuel (path ++ '/' :: key)) g.groups =
    .ok t.groups
  values : Maps.mapKeys (fun key =>
    (valueAt m (path ++ '/' :: key)).map (upgradeValue (upgrades m))) g.values = .ok t.values
  policies : Maps.mapKeys (fun key =>
    (policyAt m (path ++ '/' :: key)).map (upgradePolicy (upgrades m))) g.policies = .ok t.policies
  version : t.version = g.version
  modPolicy : t.modPolicy = upgradeModPolicy (upgrades m) g.modPolicy

theorem recurse_config_map_ok (h : recurseConfigMap m fuel path = .ok t) :
    ∃ n it g, fuel = n + 1 ∧ m.lookup (groupPrefix ++ path) = some it ∧
      it.content = .group g ∧ RebuiltFrom m n path g t := by
  cases fuel with
  | zero => cases h
  | succ n =>
    rw [recurseConfigMap] at h
    cases hi : m.lookup (groupPrefix ++ path) with
    | none =>
      rw [hi] at h
      cases h
    | some it =>
      rw [hi] at h
      cases hg : it.content with
      | value v | policy p =>
        simp only [hg] at h
        cases h
      | group g =>
        simp only [hg] at h
        obtain ⟨gs,hgr,h⟩ := bind_ok.mp h
        obtain ⟨vs,hvs,h⟩ := bind_ok.mp h
        obtain ⟨ps,hp,h⟩ := bind_ok.mp h
        cases h
        exact ⟨n,it,g,rfl,rfl,hg,hgr,hvs,hp,rfl,rfl⟩

theorem RebuiltFrom.total {it : Comparable}
    (hi : m.lookup (groupPrefix ++ path) = some it) (hg : it.content = .group g)
    (h : ∃ t, RebuiltFrom m n path g t) : ∃ t, recurseConfigMap m (n + 1) path = .ok t := by
  obtain ⟨t,h⟩ := h
  refine ⟨⟨g.version,t.groups,t.values,t.policies,upgradeModPolicy (upgrades m) g.modPolicy⟩,?_⟩
  rw [recurseConfigMap,hi]
  simp only [hg,bind,Except.bind,h.groups,h.values,h.policies]

theorem value_at_ok : valueAt m path = .ok v ↔
    ∃ it, m.lookup (valuePrefix ++ path) = some it ∧ it.content = .value v := by
  unfold valueAt
  cases m.lookup (valuePrefix ++ path) with
  | none => simp
  | some it => cases hc : it.content <;> simp [hc]

theorem policy_at_ok : policyAt m path = .ok p ↔
    ∃ it, m.lookup (policyPrefix ++ path) = some it ∧ it.content = .policy p := by
  unfold policyAt
  cases m.lookup (policyPrefix ++ path) with
  | none => simp
  | some it => cases hc : it.content <;> simp [hc]

theorem RebuiltFrom.members (h : RebuiltFrom m n path g t) (k : Kind)
    (a : Chars) : (t.member k a).isSome = (g.member k a).isSome := by
  cases k with
  | group =>
    rw [Bool.eq_iff_iff]
    simp [member,dlookup_isSome,map_keys_keys h.groups]
  | value =>
    rw [Bool.eq_iff_iff]
    simp [member,dlookup_isSome,map_keys_keys h.values]
  | policy =>
    rw [Bool.eq_iff_iff]
    simp [member,dlookup_isSome,map_keys_keys h.policies]

theorem RebuiltFrom.element (h : RebuiltFrom m n path g t) :
    (Content.group t).element = (Content.group g).element.upgraded (upgrades m) := by
  rw [Content.element,Content.element,Element.upgraded]
  simp only [h.version,h.modPolicy,h.members]

theorem entries_some : entries m root k ns = some e ↔
    ∃ c, m.lookup (keyAt root k ns) = some c ∧ c.content.element = e :=
  map_eq_some_iff

theorem RebuiltFrom.leaf
    (h : RebuiltFrom m n (pathAt root ns) g t) (hk : k ≠ .group) (ha : (g.member k a).isSome) :
    (t.member k a).map Content.element =
      (entries m root k (a :: ns)).map (Element.upgraded (upgrades m)) := by
  cases k with
  | group => exact absurd rfl hk
  | value =>
    have hke : a ∈ g.values.keys := by simpa [member,dlookup_isSome] using ha
    obtain ⟨v,hv,hat⟩ := map_keys_lookup h.values hke
    obtain ⟨v₀,hv₀,rfl⟩ := map_ok.mp hat
    obtain ⟨it,hi,hc⟩ := value_at_ok.mp hv₀
    rw [← path_at_cons] at hi
    have he : entries m root .value (a :: ns) = some (Content.value v₀).element :=
      entries_some.mpr ⟨it,hi,congrArg _ hc⟩
    rw [he,member,hv]
    rfl
  | policy =>
    have hke : a ∈ g.policies.keys := by simpa [member,dlookup_isSome] using ha
    obtain ⟨p,hp,hat⟩ := map_keys_lookup h.policies hke
    obtain ⟨p₀,hp₀,rfl⟩ := map_ok.mp hat
    obtain ⟨it,hi,hc⟩ := policy_at_ok.mp hp₀
    rw [← path_at_cons] at hi
    have he : entries m root .policy (a :: ns) = some (Content.policy p₀).element :=
      entries_some.mpr ⟨it,hi,congrArg _ hc⟩
    rw [he,member,hp]
    rfl

def seenFrom (ns : List Chars) (l : Layout Kind Chars Element) : Layout Kind Chars Element :=
  fun k ms => l k (ms ++ ns)

theorem below_seen_from : below a (seenFrom ns l) = seenFrom (a :: ns) l := by
  funext k ms
  simp [below,seenFrom]

theorem rebuilt_from (h : recurseConfigMap m fuel (pathAt root ns) = .ok t) (k : Kind)
    (ms : List Chars) : t.elementAt k ms =
      (shape.reach (seenFrom ns (entries m root)) k ms).map (Element.upgraded (upgrades m)) := by
  induction fuel generalizing ns t k ms with
  | zero => cases h
  | succ fuel ih =>
    obtain ⟨n,it,g,hn,hi,hg,hf⟩ := recurse_config_map_ok h
    cases hn
    have hr : seenFrom ns (entries m root) shape.inner [] = some (Content.group g).element := by
      change (m.lookup (groupPrefix ++ pathAt root ns)).map _ = _
      rw [hi,map_some,hg]
    obtain rfl | ⟨a,hk,rfl⟩ | ⟨a,ms,rfl,hk⟩ := place_cases k ms
    · by_cases hk : k = .group
      · subst hk
        rw [show Kind.group = shape.inner from rfl,reach_root,hr,map_some,← hf.element]
        rfl
      · rw [reach,if_neg (show ¬ k = shape.inner from hk),elementAt,find,if_neg hk]
        rfl
    · have hfi : t.elementAt k [a] = (t.member k a).map Content.element := rfl
      rw [hfi,reach,reach_root,hr,bind_some]
      by_cases ha : (g.member k a).isSome = true
      · rw [if_pos (show shape.lists (Content.group g).element k a from ha),hf.leaf hk ha]
        rfl
      rw [if_neg (show ¬ shape.lists (Content.group g).element k a from ha)]
      have hno : (t.member k a).isSome = false := by
        rw [hf.members]
        simpa using ha
      rw [isSome_eq_false_iff,isNone_iff_eq_none] at hno
      rw [hno]
      rfl
    · rw [elementAt,find_below hk]
      by_cases ha : a ∈ g.groups.keys
      · obtain ⟨u,hu,hre⟩ := map_keys_lookup hf.groups ha
        have hls : shape.lists (Content.group g).element shape.inner a := by
          change (g.member .group a).isSome = true
          simpa [member,dlookup_isSome] using ha
        rw [← path_at_cons] at hre
        rw [hu,reach_below hr hls hk,below_seen_from,← ih hre]
        rfl
      · have hno : t.groups.dlookup a = none := by
          rw [dlookup_eq_none,map_keys_keys hf.groups]
          exact ha
        rw [hno,reach_unlisted ?_ hk]
        · rfl
        · intro v hv hl
          rw [hr] at hv
          cases hv
          apply ha
          have hl : (g.member .group a).isSome = true := hl
          simpa [member,dlookup_isSome] using hl

theorem config_map_elements (h : configMapToConfig m root = .ok t) (k : Kind) (ns : List Chars) :
    t.elementAt k ns = (shape.reach (entries m root) k ns).map (Element.upgraded (upgrades m)) := by
  rw [configMapToConfig,← path_at_root] at h
  rw [rebuilt_from h,show seenFrom [] (entries m root) = entries m root from ?_]
  funext k ns
  simp [seenFrom]

theorem length_le_longest {ke : Chars} (h : m.lookup ke = some c) : ke.length ≤ longestKey m := by
  have hm : ke ∈ m.keys := AList.lookup_isSome.mp (by rw [h]; rfl)
  unfold longestKey
  generalize m.keys = keys at hm ⊢
  induction keys with
  | nil => cases hm
  | cons a as ih =>
    rw [map_cons,foldr_cons]
    cases hm with
    | head => exact Nat.le_max_left _ _
    | tail _ hm => exact Nat.le_trans (ih hm) (Nat.le_max_right _ _)

/-- The map has under the key of a place only elements of its kind. -/
def Sorted (m : ConfigMap) (root : Chars) : Prop :=
  ∀ {k ns c}, m.lookup (keyAt root k ns) = some c → c.content.kind = k

theorem rebuild_total (hs : Sorted m root) (ho : shape.Complete (entries m root))
    (hf : longestKey m < fuel + (pathAt root ns).length)
    (hns : entries m root .group ns ≠ none) : ∃ t, recurseConfigMap m fuel (pathAt root ns) = .ok t := by
  induction fuel generalizing ns with
  | zero =>
    obtain ⟨e,he⟩ := ne_none_iff_exists'.mp hns
    obtain ⟨c,hc,_⟩ := entries_some.mp he
    have hle := length_le_longest hc
    rw [keyAt,length_append] at hle
    omega
  | succ fuel ih =>
    obtain ⟨e,he⟩ := ne_none_iff_exists'.mp hns
    obtain ⟨c,hc,hce⟩ := entries_some.mp he
    have hk := hs hc
    cases hg : c.content with
    | value v | policy p =>
      rw [hg] at hk
      cases hk
    | group g =>
      rw [hg] at hce
      subst hce
      -- what the group lists is in the map, with its kind
      have hl : ∀ k a, (g.member k a).isSome → ∃ x, m.lookup (keyAt root k (a :: ns)) = some x ∧
          x.content.kind = k := by
        intro k a ha
        obtain ⟨v,hv⟩ := ho he (k := k) (n := a) ha
        obtain ⟨x,hx,_⟩ := entries_some.mp hv
        exact ⟨x,hx,hs hx⟩
      obtain ⟨groups,hgr⟩ : ∃ r, Maps.mapKeys
          (fun ke => recurseConfigMap m fuel (pathAt root ns ++ '/' :: ke)) g.groups = .ok r := by
        apply map_keys_total
        intro a ha
        obtain ⟨x,hx,_⟩ := hl .group a (by simpa [member,dlookup_isSome] using ha)
        rw [← path_at_cons]
        apply ih
        · rw [path_at_cons,length_append,length_cons]
          omega
        · rw [entries,hx]
          simp
      obtain ⟨values,hvs⟩ : ∃ r, Maps.mapKeys (fun ke =>
          (valueAt m (pathAt root ns ++ '/' :: ke)).map (upgradeValue (upgrades m))) g.values =
            .ok r := by
        apply map_keys_total
        intro a ha
        obtain ⟨x,hx,hk⟩ := hl .value a
          (by simpa [member,dlookup_isSome] using ha)
        cases hv : x.content with
        | group g | policy p =>
          rw [hv] at hk
          cases hk
        | value v =>
          rw [← path_at_cons]
          exact ⟨_,map_ok.mpr ⟨v,value_at_ok.mpr ⟨x,hx,hv⟩,rfl⟩⟩
      obtain ⟨policies,hpo⟩ : ∃ r, Maps.mapKeys (fun ke =>
          (policyAt m (pathAt root ns ++ '/' :: ke)).map (upgradePolicy (upgrades m))) g.policies =
            .ok r := by
        apply map_keys_total
        intro a ha
        obtain ⟨x,hx,hk⟩ := hl .policy a
          (by simpa [member,dlookup_isSome] using ha)
        cases hp : x.content with
        | group g | value v =>
          rw [hp] at hk
          cases hk
        | policy p =>
          rw [← path_at_cons]
          exact ⟨_,map_ok.mpr ⟨p,policy_at_ok.mpr ⟨x,hx,hp⟩,rfl⟩⟩
      exact RebuiltFrom.total hc hg
        ⟨⟨g.version,groups,values,policies,upgradeModPolicy (upgrades m) g.modPolicy⟩,
          hgr,hvs,hpo,rfl,rfl⟩

theorem config_map_total (hs : Sorted m root) (hc : shape.Complete (entries m root))
    (hr : entries m root .group [] ≠ none) : ∃ t, configMapToConfig m root = .ok t := by
  rw [configMapToConfig,← path_at_root]
  exact rebuild_total hs hc (by omega) hr

theorem recurse_config_map_formed (hm : ∀ {key c g}, m.lookup key = some c → c.content = .group g →
      g.Formed) (h : recurseConfigMap m fuel path = .ok t) : t.Formed := by
  induction fuel generalizing path t with
  | zero => cases h
  | succ fuel ih =>
    obtain ⟨n,it,g,hn,hi,hg,hf⟩ := recurse_config_map_ok h
    cases hn
    obtain ⟨hgr,hvs,hp,_⟩ := formed_iff.mp (hm hi hg)
    have hno : t.groups.NodupKeys := by
      rw [List.NodupKeys,map_keys_keys hf.groups]
      exact hgr
    refine formed_iff.mpr ⟨hno,?_,?_,?_⟩
    · rw [List.NodupKeys,map_keys_keys hf.values]
      exact hvs
    · rw [List.NodupKeys,map_keys_keys hf.policies]
      exact hp
    · intro a u hu
      have hk : a ∈ g.groups.keys := by
        rw [← map_keys_keys hf.groups]
        exact mem_keys_of_mem hu
      obtain ⟨v,hv,hr⟩ := map_keys_lookup hf.groups hk
      cases hv.symm.trans (mem_dlookup hno hu)
      exact ih hr

end PluggableHcs.Configtx
