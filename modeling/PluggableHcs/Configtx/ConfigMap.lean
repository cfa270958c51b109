import Mathlib.Data.List.TakeWhile
import PluggableHcs.Lib.Text
import PluggableHcs.Lib.Maps
import PluggableHcs.Lib.Outcomes
import PluggableHcs.Configtx.Tree

namespace PluggableHcs.Configtx
open List
open ConfigGroup hiding groups values policies version modPolicy

/-- The length of a Go string, which is in bytes. -/
def byteLength (s : Chars) : Nat := (s.map Char.utf8Size).sum

def configAllowedChar (c : Char) : Bool := c.isAlphanum || c == '.' || c == '-'

def maxLength : Nat := 249

def illegalNames : List Chars := [".".toList,"..".toList]

inductive ConfigIDError
  | empty
  | tooLong
  | notAllowed (name : Chars)
  | illegalCharacters (configID : Chars)
deriving DecidableEq

/-- What the expression finds is the first run of allowed characters. -/
def findAllowed (s : Chars) : Chars :=
  (s.dropWhile fun c => !configAllowedChar c).takeWhile configAllowedChar

def validateConfigID (configID : Chars) : Except ConfigIDError Unit :=
  if byteLength configID = 0 then .error .empty
  else if maxLength < byteLength configID then .error .tooLong
  else if configID ∈ illegalNames then .error (.notAllowed configID)
  else if byteLength (findAllowed configID) ≠ byteLength configID then
    .error (.illegalCharacters configID)
  else .ok ()

def Legal (name : Chars) : Prop := validateConfigID name = .ok ()
deriving Decidable

theorem byte_length_sublist (h : s'.Sublist s) : byteLength s' ≤ byteLength s := by
  unfold byteLength
  induction h with
  | slnil => simp
  | cons a _ ih | cons_cons a _ ih =>
    simp only [map_cons,sum_cons]
    omega

theorem eq_of_byte_length (h : s'.Sublist s) (hb : byteLength s' = byteLength s) : s' = s := by
  induction h with
  | slnil => rfl
  | @cons l l' a hs _ =>
    have hle := byte_length_sublist hs
    have hp := Char.utf8Size_pos a
    simp only [byteLength,map_cons,sum_cons] at hb hle
    omega
  | @cons_cons l l' a _ ih =>
    simp only [byteLength,map_cons,sum_cons,Nat.add_left_cancel_iff] at hb
    rw [ih hb]

theorem Legal.allowed {name : Chars} (h : Legal name) (c : Char) (hc : c ∈ name) :
    configAllowedChar c = true := by
  unfold Legal validateConfigID at h
  split_ifs at h with h1 h2 h3 h4
  have hs : (findAllowed name).Sublist name :=
    (takeWhile_sublist _).trans (dropWhile_sublist _)
  have ha : findAllowed name = name := eq_of_byte_length hs (not_not.mp h4)
  rw [← ha] at hc
  exact mem_takeWhile_imp hc

theorem Legal.no_separator {name : Chars} (h : Legal name) : '/' ∉ name := by
  intro hc
  exact absurd (h.allowed _ hc) (by decide)

def groupPrefix : Chars := "[Group]  ".toList

def valuePrefix : Chars := "[Value]  ".toList

def policyPrefix : Chars := "[Policy] ".toList

def hackyFixOrdererCapabilities : Chars := "[Value]  /Channel/Orderer/Capabilities".toList

def hackyFixNewModPolicy : Chars := "Admins".toList

def Kind.keyPrefix : Kind → Chars
  | .group => groupPrefix
  | .value => valuePrefix
  | .policy => policyPrefix

structure Comparable where
  content : Content
  key : Chars
  path : List Chars

def Comparable.version (c : Comparable) : UInt64 := c.content.version

def Comparable.modPolicy (c : Comparable) : Chars := c.content.modPolicy

abbrev ConfigMap := AList fun _ : Chars => Comparable

def Comparable.fqPath (c : Comparable) : Chars :=
  c.content.kind.keyPrefix ++ if c.path = [] then '/' :: c.key
    else '/' :: (['/'].intercalate c.path ++ '/' :: c.key)

/-- An illegal key, with the prefix that the message gives it. -/
structure MapError where
  kind : Kind
  err : ConfigIDError
deriving DecidableEq

def addToMap (cg : Comparable) (result : ConfigMap) : Except MapError ConfigMap :=
  match validateConfigID cg.key with
  | .error err => .error ⟨cg.content.kind,err⟩
  | .ok _ => .ok (result.insert cg.fqPath cg)

-- The source keeps the group's own key as the last of its path; here it is an argument.
mutual
def recurseConfig (path : List Chars) (key : Chars) :
    ConfigGroup → ConfigMap → Except MapError ConfigMap
  | ⟨version,groups,values,policies,modPolicy⟩,result => do
    let result ← addToMap ⟨.group ⟨version,groups,values,policies,modPolicy⟩,key,path⟩ result
    let result ← recurseGroups (path ++ [key]) groups result
    let result ← values.foldlM (fun result e => addToMap ⟨.value e.2,e.1,path ++ [key]⟩ result) result
    policies.foldlM (fun result e => addToMap ⟨.policy e.2,e.1,path ++ [key]⟩ result) result
def recurseGroups (path : List Chars) :
    List ((_ : Chars) × ConfigGroup) → ConfigMap → Except MapError ConfigMap
  | [],result => .ok result
  | ⟨key,group⟩ :: groups,result => do
    let result ← recurseConfig path key group result
    recurseGroups path groups result
end

/-- No group at all has an empty map. -/
def mapConfig (channelGroup : Option ConfigGroup) (rootGroupKey : Chars) :
    Except MapError ConfigMap :=
  match channelGroup with
  | none => .ok ∅
  | some group => recurseConfig [] rootGroupKey group ∅

inductive RebuildError
  | missingGroup (groupPath : Chars)
  | notGroup (groupPath : Chars)
  | missingValue (valuePath : Chars)
  | notValue (valuePath : Chars)
  | missingPolicy (policyPath : Chars)
  | notPolicy (policyPath : Chars)
deriving DecidableEq

def valueAt (configMap : ConfigMap) (path : Chars) : Except RebuildError ConfigValue :=
  match configMap.lookup (valuePrefix ++ path) with
  | none => .error (.missingValue (valuePrefix ++ path))
  | some item =>
    match item.content with
    | .value value => .ok value
    | _ => .error (.notValue (valuePrefix ++ path))

def policyAt (configMap : ConfigMap) (path : Chars) : Except RebuildError ConfigPolicy :=
  match configMap.lookup (policyPrefix ++ path) with
  | none => .error (.missingPolicy (policyPrefix ++ path))
  | some item =>
    match item.content with
    | .policy policy => .ok policy
    | _ => .error (.notPolicy (policyPrefix ++ path))

def upgrades (configMap : ConfigMap) : Bool :=
  (configMap.lookup hackyFixOrdererCapabilities).isSome

def upgradeModPolicy (on : Bool) (modPolicy : Chars) : Chars :=
  if on ∧ modPolicy = [] then hackyFixNewModPolicy else modPolicy

def upgradeValue (on : Bool) (value : ConfigValue) : ConfigValue :=
  { value with modPolicy := upgradeModPolicy on value.modPolicy }

def upgradePolicy (on : Bool) (policy : ConfigPolicy) : ConfigPolicy :=
  { policy with modPolicy := upgradeModPolicy on policy.modPolicy }

/-- The recursion ends because no key of the map is longer than the longest. Without fuel the group
would be missing anyway. -/
def recurseConfigMap (configMap : ConfigMap) : Nat → Chars → Except RebuildError ConfigGroup
  | 0,path => .error (.missingGroup (groupPrefix ++ path))
  | fuel + 1,path =>
    match configMap.lookup (groupPrefix ++ path) with
    | none => .error (.missingGroup (groupPrefix ++ path))
    | some item =>
      match item.content with
      | .group group => do
        let groups ← Maps.mapKeys (fun key => recurseConfigMap configMap fuel (path ++ '/' :: key))
          group.groups
        let values ← Maps.mapKeys (fun key =>
          (valueAt configMap (path ++ '/' :: key)).map (upgradeValue (upgrades configMap)))
          group.values
        let policies ← Maps.mapKeys (fun key =>
          (policyAt configMap (path ++ '/' :: key)).map (upgradePolicy (upgrades configMap)))
          group.policies
        .ok ⟨group.version,groups,values,policies,
          upgradeModPolicy (upgrades configMap) group.modPolicy⟩
      | _ => .error (.notGroup (groupPrefix ++ path))

def longestKey (configMap : ConfigMap) : Nat :=
  (configMap.keys.map List.length).foldr max 0

def configMapToConfig (configMap : ConfigMap) (rootGroupKey : Chars) :
    Except RebuildError ConfigGroup :=
  recurseConfigMap configMap (longestKey configMap + 1) ('/' :: rootGroupKey)

theorem Comparable.fq_path_eq (c : Comparable) :
    c.fqPath = c.content.kind.keyPrefix ++ Text.rooted '/' (c.path ++ [c.key]) := by
  rw [Comparable.fqPath,Text.rooted_snoc]
  cases c.path with
  | nil => rfl
  | cons p ps =>
    rw [if_neg (by simp),← Text.intercalate_rooted]
    rfl

def pathAt (root : Chars) (ns : List Chars) : Chars :=
  Text.rooted '/' (root :: ns.reverse)

def keyAt (root : Chars) (k : Kind) (ns : List Chars) : Chars :=
  k.keyPrefix ++ pathAt root ns

theorem path_at_root : pathAt root [] = '/' :: root := by
  simp [pathAt,Text.rooted]

variable {ns : List Chars}

theorem path_at_cons : pathAt ro (n :: ns) = pathAt ro ns ++ '/' :: n := by
  rw [pathAt,reverse_cons,← cons_append,Text.rooted_snoc]
  rfl

theorem key_prefix_length (k : Kind) : k.keyPrefix.length = 9 := by
  cases k <;> decide

variable {k : Kind}

theorem key_prefix_injective {k' : Kind} (h : k.keyPrefix = k'.keyPrefix) : k = k' := by
  revert h
  cases k <;> cases k' <;> decide

theorem key_at_injective {ro : Chars} {k' : Kind} {ns' : List Chars} (hr : Legal ro)
    (hns : ∀ n ∈ ns, Legal n) (hns' : ∀ n ∈ ns', Legal n) (h : keyAt ro k ns = keyAt ro k' ns') :
    k = k' ∧ ns = ns' := by
  obtain ⟨hk,hp⟩ := append_inj h (by rw [key_prefix_length,key_prefix_length])
  have hs : ∀ ms : List Chars, (∀ n ∈ ms, Legal n) → ∀ n ∈ ro :: ms.reverse, '/' ∉ n := by
    intro ms hms n hn
    rcases mem_cons.mp hn with rfl | hn
    · exact hr.no_separator
    · exact (hms n (mem_reverse.mp hn)).no_separator
  have hna := Text.rooted_injective (hs ns hns) (hs ns' hns') hp
  exact ⟨key_prefix_injective hk,reverse_injective (List.cons.inj hna).2⟩

def placed (path : List Chars) (key : Chars) : List Chars → Content → Comparable
  | [],c => ⟨c,key,path⟩
  | n :: ns,c => ⟨c,n,path ++ key :: ns.reverse⟩

variable {path : List Chars} {key : Chars}

theorem placed_content : (placed path key ns c).content = c := by
  cases ns <;> rfl

theorem placed_version : (placed path key ns c).version = c.version := by
  rw [Comparable.version,placed_content]

theorem placed_mod_policy : (placed path key ns c).modPolicy = c.modPolicy := by
  rw [Comparable.modPolicy,placed_content]

theorem placed_below {a : Chars} :
    placed (path ++ [key]) a ns c = placed path key (ns ++ [a]) c := by
  cases ns <;> simp [placed]

theorem placed_fq_path : (placed [] ro ns c).fqPath = keyAt ro c.kind ns := by
  rw [Comparable.fq_path_eq,placed_content,keyAt,pathAt]
  cases ns <;> simp [placed]

-- All elements of a tree in the order in which recurseConfig comes to them.
mutual
def elements (path : List Chars) (key : Chars) : ConfigGroup → List Comparable
  | ⟨version,groups,values,policies,modPolicy⟩ =>
    ⟨.group ⟨version,groups,values,policies,modPolicy⟩,key,path⟩ ::
      (groupElements (path ++ [key]) groups ++
        values.map (fun e => ⟨.value e.2,e.1,path ++ [key]⟩) ++
        policies.map (fun e => ⟨.policy e.2,e.1,path ++ [key]⟩))
def groupElements (path : List Chars) : List ((_ : Chars) × ConfigGroup) → List Comparable
  | [] => []
  | ⟨key,group⟩ :: groups => elements path key group ++ groupElements path groups
end

theorem foldl_add_append {l l' : List Comparable} {m : ConfigMap} :
    (l ++ l').foldlM (fun m c => addToMap c m) m = (do
        let m ← l.foldlM (fun m c => addToMap c m) m
        l'.foldlM (fun m c => addToMap c m) m) :=
  foldlM_append

-- recurseConfig adds all elements of the tree to the map, one after another.
mutual
theorem recurse_config_eq (path : List Chars) (key : Chars) (g : ConfigGroup) (m : ConfigMap) :
    recurseConfig path key g m = (elements path key g).foldlM (fun m c => addToMap c m) m := by
  obtain ⟨ve,gs,vs,ps,mp⟩ := g
  rw [recurseConfig,elements,foldlM_cons]
  congr 1
  funext m
  rw [foldl_add_append,foldl_add_append,recurse_groups_eq (path ++ [key]) gs m,bind_assoc]
  simp only [foldlM_map]
theorem recurse_groups_eq (path : List Chars) (gs : List ((_ : Chars) × ConfigGroup))
    (m : ConfigMap) :
    recurseGroups path gs m = (groupElements path gs).foldlM (fun m c => addToMap c m) m := by
  match gs with
  | [] => rfl
  | ⟨key,group⟩ :: gs =>
    rw [recurseGroups,groupElements,foldl_add_append,recurse_config_eq path key group m]
    congr 1
    funext m
    exact recurse_groups_eq path gs m
end

theorem mem_group_elements : c ∈ groupElements path g ↔
      ∃ a t, ⟨a,t⟩ ∈ g ∧ c ∈ elements path a t := by
  induction g with
  | nil => simp [groupElements]
  | cons e gs ih =>
    obtain ⟨a,t⟩ := e
    rw [groupElements,mem_append,ih]
    constructor
    · rintro (h | ⟨b,u,hu,hc⟩)
      · exact ⟨a,t,mem_cons_self,h⟩
      · exact ⟨b,u,mem_cons_of_mem _ hu,hc⟩
    · rintro ⟨b,u,hu,hc⟩
      cases hu with
      | head => exact .inl hc
      | tail _ hu => exact .inr ⟨b,u,hu,hc⟩

theorem mem_elements_cases : c ∈ elements path key t ↔ c = ⟨.group t,key,path⟩ ∨
      (∃ a u, ⟨a,u⟩ ∈ t.groups ∧ c ∈ elements (path ++ [key]) a u) ∨
      (∃ n v, ⟨n,v⟩ ∈ t.values ∧ c = ⟨.value v,n,path ++ [key]⟩) ∨
      ∃ n p, ⟨n,p⟩ ∈ t.policies ∧ c = ⟨.policy p,n,path ++ [key]⟩ := by
  obtain ⟨ve,gs,vs,ps,mp⟩ := t
  simp only [elements,mem_cons,mem_append,mem_group_elements,mem_map,Sigma.exists,or_assoc,eq_comm]

variable {t : ConfigGroup}

theorem ConfigGroup.find_root {c : Content}
    (h : t.find k [] = some c) : k = .group ∧ c = .group t := by
  rw [ConfigGroup.find] at h
  split_ifs at h with hk
  cases h
  exact ⟨hk,rfl⟩

theorem mem_elements {c : Comparable} (ht : t.Formed) : c ∈ elements path key t ↔
      ∃ k ns x, t.find k ns = some x ∧ c = placed path key ns x := by
  induction t using ConfigGroup.induct generalizing path key with
  | h t ih =>
    obtain ⟨hgr,hvs,hpo,hb⟩ := formed_iff.mp ht
    rw [mem_elements_cases]
    constructor
    · rintro (rfl | ⟨a,u,hu,hc⟩ | ⟨n,v,hv,rfl⟩ | ⟨n,p,hp,rfl⟩)
      · exact ⟨.group,[],.group t,rfl,rfl⟩
      · obtain ⟨k,ns,x,hx,rfl⟩ := (ih a u hu (hb a u hu)).mp hc
        refine ⟨k,ns ++ [a],x,?_,placed_below⟩
        rw [find_below,(mem_dlookup_iff hgr).mpr hu]
        · exact hx
        · rintro rfl
          exact (find_root hx).1
      · refine ⟨.value,[n],.value v,?_,rfl⟩
        refine find_cons.mpr ⟨t,rfl,?_⟩
        rw [ConfigGroup.member,(mem_dlookup_iff hvs).mpr hv]
        rfl
      · refine ⟨.policy,[n],.policy p,?_,rfl⟩
        refine find_cons.mpr ⟨t,rfl,?_⟩
        rw [ConfigGroup.member,(mem_dlookup_iff hpo).mpr hp]
        rfl
    · rintro ⟨k,ns,x,hx,rfl⟩
      obtain rfl | ⟨n,hk,rfl⟩ | ⟨a,ms,rfl,hk⟩ := place_cases k ns
      · obtain ⟨_,rfl⟩ := find_root hx
        exact .inl rfl
      · obtain ⟨g,hg,hm⟩ := find_cons.mp hx
        cases hg
        cases k with
        | group => exact absurd rfl hk
        | value =>
          obtain ⟨v,hv,rfl⟩ := Option.map_eq_some_iff.mp hm
          exact .inr (.inr (.inl ⟨n,v,(mem_dlookup_iff hvs).mp hv,rfl⟩))
        | policy =>
          obtain ⟨p,hp,rfl⟩ := Option.map_eq_some_iff.mp hm
          exact .inr (.inr (.inr ⟨n,p,(mem_dlookup_iff hpo).mp hp,rfl⟩))
      · rw [find_below hk] at hx
        obtain ⟨u,hu,hx⟩ := Option.bind_eq_some_iff.mp hx
        have hme := (mem_dlookup_iff hgr).mp hu
        refine .inr (.inl ⟨a,u,hme,?_⟩)
        exact (ih a u hme (hb a u hme)).mpr ⟨k,ms,x,hx,placed_below.symm⟩

theorem ConfigGroup.forall_find {P : Content → Prop} (ht : t.Formed)
    (h : ∀ x ∈ elements [] [] t, P x.content)
    (hc : t.find k ns = some c) : P c := by
  have hx := h _ ((mem_elements ht).mpr ⟨k,ns,c,hc,rfl⟩)
  rw [placed_content] at hx
  exact hx

theorem add_to_map_ok : addToMap c m = .ok m' ↔ Legal c.key ∧ m' = m.insert c.fqPath c := by
  unfold addToMap Legal
  cases validateConfigID c.key with
  | error er => simp
  | ok u => simp [eq_comm]

theorem add_all_ok : l.foldlM (fun m c => addToMap c m) m = .ok m' ↔
      (∀ c ∈ l, Legal c.key) ∧ m' = Maps.gather Comparable.fqPath l m := by
  induction l generalizing m with
  | nil => simp [Maps.gather,pure,Except.pure,eq_comm]
  | cons c l ih =>
    rw [foldlM_cons,forall_mem_cons]
    cases hc : addToMap c m with
    | error er =>
      have hn : ¬ Legal c.key := by
        intro hl
        rw [add_to_map_ok.mpr ⟨hl,rfl⟩] at hc
        cases hc
      simp [bind,Except.bind,hn]
    | ok m₁ =>
      obtain ⟨hl,rfl⟩ := add_to_map_ok.mp hc
      simp only [bind,Except.bind,hl,true_and]
      exact ih

def findIn (o : Option ConfigGroup) (k : Kind) (ns : List Chars) : Option Content :=
  o.bind fun t => t.find k ns

/-- All names in a tree are legal, that of its root too. -/
structure Named (root : Chars) (o : Option ConfigGroup) : Prop where
  rootLegal : o.isSome → Legal root
  names : ∀ {k ns c}, findIn o k ns = some c → ∀ n ∈ ns, Legal n

theorem Named.of_find (h : Named ro (some t)) (hc : t.find k ns = some c) : ∀ n ∈ ns, Legal n := by
  have hf : findIn (some t) k ns = some c := hc
  exact h.names hf

/-- The map of a tree: its elements under the keys of their places, and nothing else. -/
structure Flattens (m : ConfigMap) (root : Chars) (o : Option ConfigGroup) : Prop
    extends Named root o where
  found : ∀ {k ns c}, findIn o k ns = some c →
    m.lookup (keyAt root k ns) = some (placed [] root ns c)
  only : ∀ {key x}, m.lookup key = some x →
    ∃ k ns c, findIn o k ns = some c ∧ key = keyAt root k ns ∧ x = placed [] root ns c

theorem ConfigGroup.find_names {c : Content}
    (l : ∀ k n ns c, t.find k (n :: ns) = some c → Legal n) (h : t.find k ns = some c) :
    ∀ n ∈ ns, Legal n := by
  induction ns generalizing k c with
  | nil => simp
  | cons n ns ih =>
    obtain ⟨g,hg,_⟩ := find_cons.mp h
    have hp : t.find .group ns = some (.group g) := by
      rw [find_group,hg]
      rfl
    exact forall_mem_cons.mpr ⟨l k n ns c h,ih hp⟩

theorem elements_legal {ro : Chars} (ht : t.Formed) :
    (∀ c ∈ elements [] ro t, Legal c.key) ↔ Named ro (some t) := by
  constructor
  · intro h
    refine ⟨fun _ => h _ (mem_elements_cases.mpr (.inl rfl)),?_⟩
    intro k ns c
    refine find_names ?_
    intro k n ns c hc
    exact h _ ((mem_elements ht).mpr ⟨k,n :: ns,c,hc,rfl⟩)
  · intro h c hc
    obtain ⟨k,ns,x,hx,rfl⟩ := (mem_elements ht).mp hc
    cases ns with
    | nil => exact h.rootLegal rfl
    | cons n ns => exact h.of_find hx n mem_cons_self

theorem map_config_flattens
    (ho : ∀ t ∈ o, t.Formed) (h : mapConfig o ro = .ok m) : Flattens m ro o := by
  cases o with
  | none =>
    cases h
    refine ⟨⟨by simp,by simp [findIn]⟩,by simp [findIn],?_⟩
    intro key x hx
    cases hx
  | some t =>
    have ht := ho t rfl
    rw [mapConfig,recurse_config_eq,add_all_ok,elements_legal ht] at h
    obtain ⟨na,rfl⟩ := h
    have hk : ∀ {k ns c}, t.find k ns = some c → (placed [] ro ns c).fqPath = keyAt ro k ns := by
      intro k ns c hc
      rw [placed_fq_path,find_kind hc]
    have ij : ∀ a ∈ elements [] ro t, ∀ b ∈ elements [] ro t, a.fqPath = b.fqPath → a = b := by
      intro a ha b hb hab
      obtain ⟨k,ns,x,hx,rfl⟩ := (mem_elements ht).mp ha
      obtain ⟨k',n',y,hy,rfl⟩ := (mem_elements ht).mp hb
      rw [hk hx,hk hy] at hab
      obtain ⟨rfl,rfl⟩ := key_at_injective (na.rootLegal rfl) (na.of_find hx) (na.of_find hy) hab
      cases hx.symm.trans hy
      rfl
    refine ⟨na,?_,?_⟩
    · intro k ns c hc
      exact (Maps.lookup_gather ij).mpr (.inl ⟨(mem_elements ht).mpr ⟨k,ns,c,hc,rfl⟩,hk hc⟩)
    · intro key x hx
      rcases (Maps.lookup_gather ij).mp hx with ⟨hm,rfl⟩ | ⟨_,he⟩
      · obtain ⟨k,ns,c,hc,rfl⟩ := (mem_elements ht).mp hm
        exact ⟨k,ns,c,hc,hk hc,rfl⟩
      · rw [AList.lookup_empty] at he
        cases he

theorem map_config_total (ho : ∀ t ∈ o, t.Formed)
    (h : Named ro o) : ∃ m, mapConfig o ro = .ok m := by
  cases o with
  | none => exact ⟨∅,rfl⟩
  | some t =>
    rw [mapConfig,recurse_config_eq]
    exact ⟨_,add_all_ok.mpr ⟨(elements_legal (ho t rfl)).mpr h,rfl⟩⟩

theorem Flattens.lookup_eq (f : Flattens m ro o) (hns : ∀ n ∈ ns, Legal n) :
    m.lookup (keyAt ro k ns) = (findIn o k ns).map (placed [] ro ns) := by
  cases hm : m.lookup (keyAt ro k ns) with
  | none =>
    cases ht : findIn o k ns with
    | none => rfl
    | some c =>
      rw [f.found ht] at hm
      cases hm
  | some x =>
    obtain ⟨k',n',c,hc,hk,rfl⟩ := f.only hm
    have hr : o.isSome = true := by
      cases o with
      | none => cases hc
      | some t => rfl
    obtain ⟨rfl,rfl⟩ := key_at_injective (f.rootLegal hr) hns (f.names hc) hk
    rw [hc]
    rfl

end PluggableHcs.Configtx
