import PluggableHcs.Lib.Trees
import Mathlib.Data.List.AList

namespace PluggableHcs.Configtx
open List Option

abbrev Chars := List Char

abbrev Bytes := List UInt8

structure ConfigValue where
  version : UInt64
  value : Bytes
  modPolicy : Chars
deriving DecidableEq

structure Policy where
  type : Int
  value : Bytes
deriving DecidableEq

structure ConfigPolicy where
  version : UInt64
  policy : Option Policy
  modPolicy : Chars
deriving DecidableEq

/-- The maps are lists of their entries. `Formed` says that no key is in one of them twice. -/
structure ConfigGroup where
  version : UInt64
  groups : List ((_ : Chars) × ConfigGroup)
  values : List ((_ : Chars) × ConfigValue)
  policies : List ((_ : Chars) × ConfigPolicy)
  modPolicy : Chars

def newConfigGroup : ConfigGroup := ⟨0,[],[],[],[]⟩

theorem ConfigGroup.induct {P : ConfigGroup → Prop}
    (h : ∀ g : ConfigGroup, (∀ a t, ⟨a,t⟩ ∈ g.groups → P t) → P g) (g : ConfigGroup) : P g := by
  refine @ConfigGroup.rec P (fun gs => ∀ a t, ⟨a,t⟩ ∈ gs → P t) (fun e => P e.2) ?_ ?_ ?_ ?_ g
  · intro version groups values policies modPolicy ih
    exact h _ ih
  · intro a t ht
    cases ht
  · intro e gs he hgs a t ht
    cases ht with
    | head => exact he
    | tail _ ht => exact hgs a t ht
  · intro a t ht
    exact ht

mutual
/-- A Go map has no key twice, at any depth. -/
def ConfigGroup.Formed : ConfigGroup → Prop
  | ⟨_,groups,values,policies,_⟩ =>
    groups.keys.Nodup ∧ values.keys.Nodup ∧ policies.keys.Nodup ∧ GroupsFormed groups
def GroupsFormed : List ((_ : Chars) × ConfigGroup) → Prop
  | [] => True
  | ⟨_,group⟩ :: groups => group.Formed ∧ GroupsFormed groups
end

mutual
def ConfigGroup.decideFormed : (g : ConfigGroup) → Decidable g.Formed
  | ⟨_,groups,values,policies,_⟩ =>
    have := decideGroupsFormed groups
    inferInstanceAs (Decidable
      (groups.keys.Nodup ∧ values.keys.Nodup ∧ policies.keys.Nodup ∧ GroupsFormed groups))
def decideGroupsFormed : (groups : List ((_ : Chars) × ConfigGroup)) → Decidable
    (GroupsFormed groups)
  | [] => isTrue trivial
  | ⟨_,group⟩ :: groups =>
    have := group.decideFormed
    have := decideGroupsFormed groups
    inferInstanceAs (Decidable (group.Formed ∧ GroupsFormed groups))
end

instance (g : ConfigGroup) : Decidable g.Formed := g.decideFormed

theorem groups_formed_iff : GroupsFormed g ↔ ∀ a t, ⟨a,t⟩ ∈ g → t.Formed := by
  induction g with
  | nil => simp [GroupsFormed]
  | cons e gs ih =>
    obtain ⟨a,t⟩ := e
    rw [GroupsFormed,ih]
    constructor
    · rintro ⟨ht,hgs⟩ b u hu
      cases hu with
      | head => exact ht
      | tail _ hu => exact hgs b u hu
    · intro h
      exact ⟨h a t mem_cons_self,fun b u hu => h b u (mem_cons_of_mem _ hu)⟩

theorem ConfigGroup.formed_iff {g : ConfigGroup} : g.Formed ↔
    g.groups.NodupKeys ∧ g.values.NodupKeys ∧ g.policies.NodupKeys ∧
      ∀ a t, ⟨a,t⟩ ∈ g.groups → t.Formed := by
  cases g
  rw [ConfigGroup.Formed,groups_formed_iff]
  exact Iff.rfl

inductive Kind
  | group
  | value
  | policy
deriving DecidableEq

/-- The one pointer of a comparable that is set. -/
inductive Content
  | group (group : ConfigGroup)
  | value (value : ConfigValue)
  | policy (policy : ConfigPolicy)

def Content.kind : Content → Kind
  | .group _ => .group
  | .value _ => .value
  | .policy _ => .policy

def Content.version : Content → UInt64
  | .group g => g.version
  | .value v => v.version
  | .policy p => p.version

def Content.modPolicy : Content → Chars
  | .group g => g.modPolicy
  | .value v => v.modPolicy
  | .policy p => p.modPolicy

def ConfigGroup.member (g : ConfigGroup) : Kind → Chars → Option Content
  | .group,n => (g.groups.dlookup n).map .group
  | .value,n => (g.values.dlookup n).map .value
  | .policy,n => (g.policies.dlookup n).map .policy

def ConfigGroup.groupAt (t : ConfigGroup) : List Chars → Option ConfigGroup
  | [] => some t
  | n :: ns => (t.groupAt ns).bind fun g => g.groups.dlookup n

def ConfigGroup.find (t : ConfigGroup) : Kind → List Chars → Option Content
  | k,[] => if k = .group then some (.group t) else none
  | k,n :: ns => (t.groupAt ns).bind fun g => g.member k n

variable {t : ConfigGroup} {k : Kind} {n a : Chars} {ns : List Chars} {c : Content}

theorem ConfigGroup.find_group : t.find .group ns = (t.groupAt ns).map .group := by
  cases ns with
  | nil => rfl
  | cons n ns =>
    rw [ConfigGroup.find,ConfigGroup.groupAt,Option.map_bind]
    rfl

theorem ConfigGroup.find_kind (h : t.find k ns = some c) : c.kind = k := by
  cases ns with
  | nil =>
    rw [ConfigGroup.find] at h
    split_ifs at h with hk
    cases h
    exact hk.symm
  | cons n ns =>
    rw [ConfigGroup.find] at h
    obtain ⟨g,_,hm⟩ := bind_eq_some_iff.mp h
    cases k <;> obtain ⟨_,_,rfl⟩ := map_eq_some_iff.mp hm <;> rfl

theorem ConfigGroup.find_cons : t.find k (n :: ns) = some c ↔
    ∃ g, t.groupAt ns = some g ∧ g.member k n = some c := by
  exact bind_eq_some_iff

theorem ConfigGroup.group_at_below :
    t.groupAt (ns ++ [a]) = (t.groups.dlookup a).bind fun g => g.groupAt ns := by
  induction ns with
  | nil => simp [groupAt]
  | cons n ns ih =>
    rw [cons_append,groupAt,ih,bind_assoc]
    rfl

open ConfigGroup (find_cons find_group find_kind formed_iff groupAt group_at_below)

theorem ConfigGroup.Formed.group_at {g : ConfigGroup} (ht : t.Formed) (h : t.groupAt ns = some g) :
    g.Formed := by
  induction ns generalizing g with
  | nil =>
    cases h
    exact ht
  | cons n ns ih =>
    obtain ⟨pa,hp,hg⟩ := bind_eq_some_iff.mp h
    obtain ⟨_,_,_,hb⟩ := formed_iff.mp (ih hp)
    exact hb n g (of_mem_dlookup hg)

theorem ConfigGroup.Formed.find (ht : t.Formed) (h : t.find k ns = some (.group g)) : g.Formed := by
  cases find_kind h
  rw [Content.kind,find_group] at h
  obtain ⟨g',hg,he⟩ := map_eq_some_iff.mp h
  cases he
  exact ht.group_at hg

theorem ConfigGroup.find_below (hk : ns = [] → k = .group) :
    t.find k (ns ++ [a]) = (t.groups.dlookup a).bind fun g => g.find k ns := by
  cases ns with
  | nil =>
    cases hk rfl
    rw [find_group,group_at_below]
    cases t.groups.dlookup a <;> rfl
  | cons n ns =>
    rw [cons_append,ConfigGroup.find,group_at_below,bind_assoc]
    rfl

theorem place_cases (k : Kind) (ns : List Chars) : ns = [] ∨ (∃ n, k ≠ .group ∧ ns = [n]) ∨
      ∃ a ms, ns = ms ++ [a] ∧ (ms = [] → k = .group) := by
  rcases eq_nil_or_concat' ns with h | ⟨ms,a,h⟩
  · exact Or.inl h
  by_cases hk : ms = [] → k = .group
  · exact Or.inr (Or.inr ⟨a,ms,h,hk⟩)
  rw [Classical.not_imp] at hk
  obtain ⟨rfl,hk⟩ := hk
  exact Or.inr (Or.inl ⟨a,hk,h⟩)

/-- What an element is apart from its version and mod_policy, without the members of a group. -/
inductive Body
  | group
  | value (value : Bytes)
  | policy (policy : Option Policy)
deriving DecidableEq

/-- One element of a config tree by itself. Of its members a group has only the names. -/
@[ext]
structure Element where
  version : UInt64
  modPolicy : Chars
  body : Body
  members : Kind → Chars → Prop

def Content.element : Content → Element
  | .group g => ⟨g.version,g.modPolicy,.group,fun k n => (g.member k n).isSome⟩
  | .value v => ⟨v.version,v.modPolicy,.value v.value,fun _ _ => False⟩
  | .policy p => ⟨p.version,p.modPolicy,.policy p.policy,fun _ _ => False⟩

@[simp] theorem Content.element_version (c : Content) : c.element.version = c.version := by
  cases c <;> rfl

@[simp] theorem Content.element_mod_policy (c : Content) : c.element.modPolicy = c.modPolicy := by
  cases c <;> rfl

def ConfigGroup.elementAt (t : ConfigGroup) : Trees.Layout Kind Chars Element :=
  fun k ns => (t.find k ns).map Content.element

/-- Groups have members, those that their maps name. -/
def shape : Trees.Shape Kind Chars Element :=
  ⟨.group,Element.members⟩

theorem ConfigGroup.element_at_root : t.elementAt .group [] = some (Content.group t).element :=
  rfl

theorem ConfigGroup.element_at_closed : shape.Closed t.elementAt where
  root := by
    intro k v h
    obtain ⟨c,hc,_⟩ := map_eq_some_iff.mp h
    rw [ConfigGroup.find] at hc
    split_ifs at hc with hk
    exact hk
  listed := by
    intro k n ns v h
    obtain ⟨c,hc,rfl⟩ := map_eq_some_iff.mp h
    obtain ⟨g,hg,hm⟩ := find_cons.mp hc
    refine ⟨(Content.group g).element,?_,?_⟩
    · rw [ConfigGroup.elementAt,shape,find_group,hg]
      rfl
    · change (g.member k n).isSome = true
      rw [hm]
      rfl

theorem ConfigGroup.element_at_complete : shape.Complete t.elementAt := by
  intro ns w k n hw hl
  obtain ⟨c,hc,rfl⟩ := map_eq_some_iff.mp hw
  rw [shape,find_group] at hc
  obtain ⟨g,hg,rfl⟩ := map_eq_some_iff.mp hc
  obtain ⟨m,hm⟩ := isSome_iff_exists.mp hl
  refine ⟨m.element,?_⟩
  rw [ConfigGroup.elementAt,find_cons.mpr ⟨g,hg,hm⟩]
  rfl

end PluggableHcs.Configtx
