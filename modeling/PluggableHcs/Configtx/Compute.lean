import PluggableHcs.Configtx.Validator

namespace PluggableHcs.Configtx
open List Option Maps

section
variable {α : Type}

/-- What the loops over two maps make of their entries. -/
structure MapUpdate (α : Type) where
  readSet : List ((_ : Chars) × α)
  writeSet : List ((_ : Chars) × α)
  sameSet : List ((_ : Chars) × α)
  updatedMembers : Bool

inductive Change (α : Type)
  | same (element : α)
  | changed (read : Option α) (write : α)

def Change.readSet : Change α → Option α
  | .same _ => none
  | .changed read _ => read

def Change.writeSet : Change α → Option α
  | .same _ => none
  | .changed _ write => some write

def Change.sameSet : Change α → Option α
  | .same element => some element
  | .changed _ _ => none

/-- The two loops that the updates of policies, values and groups share: over the original map, and
over what only the updated one has. -/
def computeMapUpdate (compare : α → α → Change α) (fresh : α → α)
    (original updated : List ((_ : Chars) × α)) : MapUpdate α where
  readSet := Maps.keep
    (fun name o => (updated.dlookup name).bind fun u => (compare o u).readSet) original
  writeSet := Maps.keep
    (fun name o => (updated.dlookup name).bind fun u => (compare o u).writeSet) original ++
    Maps.keep (fun name u => if (original.dlookup name).isSome then none else some (fresh u)) updated
  sameSet := Maps.keep
    (fun name o => (updated.dlookup name).bind fun u => (compare o u).sameSet) original
  updatedMembers := original.any (fun e => (updated.dlookup e.1).isNone) ||
    updated.any fun e => (original.dlookup e.1).isNone

def comparePolicies (original updated : ConfigPolicy) : Change ConfigPolicy :=
  if original.modPolicy = updated.modPolicy ∧ original.policy = updated.policy then
    .same ⟨original.version,none,[]⟩
  else .changed none ⟨original.version + 1,updated.policy,updated.modPolicy⟩

def computePoliciesMapUpdate : (original updated : List ((_ : Chars) × ConfigPolicy)) →
    MapUpdate ConfigPolicy :=
  computeMapUpdate comparePolicies fun updated => ⟨0,updated.policy,updated.modPolicy⟩

def compareValues (original updated : ConfigValue) : Change ConfigValue :=
  if original.modPolicy = updated.modPolicy ∧ original.value = updated.value then
    .same ⟨original.version,[],[]⟩
  else .changed none ⟨original.version + 1,updated.value,updated.modPolicy⟩

def computeValuesMapUpdate : (original updated : List ((_ : Chars) × ConfigValue)) →
    MapUpdate ConfigValue :=
  computeMapUpdate compareValues fun updated => ⟨0,updated.value,updated.modPolicy⟩

structure GroupUpdate where
  readSet : ConfigGroup
  writeSet : ConfigGroup
  updatedGroup : Bool

def compareGroups (groupUpdate : ConfigGroup → ConfigGroup → GroupUpdate)
    (original updated : ConfigGroup) : Change ConfigGroup :=
  if (groupUpdate original updated).updatedGroup then
    .changed (some (groupUpdate original updated).readSet) (groupUpdate original updated).writeSet
  else .same (groupUpdate original updated).readSet

def freshGroup (groupUpdate : ConfigGroup → ConfigGroup → GroupUpdate) (updated : ConfigGroup) :
    ConfigGroup :=
  { (groupUpdate newConfigGroup updated).writeSet with version := 0, modPolicy := updated.modPolicy }

def computeGroupsMapUpdate (groupUpdate : ConfigGroup → ConfigGroup → GroupUpdate) :
    (original updated : List ((_ : Chars) × ConfigGroup)) → MapUpdate ConfigGroup :=
  computeMapUpdate (compareGroups groupUpdate) (freshGroup groupUpdate)

def groupChanged (original updated : ConfigGroup) (policies : MapUpdate ConfigPolicy)
    (values : MapUpdate ConfigValue) (groups : MapUpdate ConfigGroup) : Bool :=
  policies.updatedMembers || values.updatedMembers || groups.updatedMembers ||
    original.modPolicy != updated.modPolicy

def assembleGroup (original updated : ConfigGroup) (policies : MapUpdate ConfigPolicy)
    (values : MapUpdate ConfigValue) (groups : MapUpdate ConfigGroup) : GroupUpdate :=
  if groupChanged original updated policies values groups = false then
    if policies.readSet.isEmpty && policies.writeSet.isEmpty && values.readSet.isEmpty &&
        values.writeSet.isEmpty && groups.readSet.isEmpty && groups.writeSet.isEmpty then
      ⟨⟨original.version,[],[],[],[]⟩,⟨original.version,[],[],[],[]⟩,false⟩
    else
      ⟨⟨original.version,groups.readSet,values.readSet,policies.readSet,[]⟩,
        ⟨original.version,groups.writeSet,values.writeSet,policies.writeSet,[]⟩,true⟩
  else
    ⟨⟨original.version,groups.readSet ++ groups.sameSet,values.readSet ++ values.sameSet,
        policies.readSet ++ policies.sameSet,[]⟩,
      ⟨original.version + 1,groups.writeSet ++ groups.sameSet,values.writeSet ++ values.sameSet,
        policies.writeSet ++ policies.sameSet,updated.modPolicy⟩,true⟩

/-- The recursion goes down the updated tree; its depth is enough. -/
def computeGroupUpdate : Nat → ConfigGroup → ConfigGroup → GroupUpdate
  | 0,original,_ => ⟨original,original,false⟩
  | fuel + 1,original,updated =>
    assembleGroup original updated (computePoliciesMapUpdate original.policies updated.policies)
      (computeValuesMapUpdate original.values updated.values)
      (computeGroupsMapUpdate (computeGroupUpdate fuel) original.groups updated.groups)

mutual
def ConfigGroup.depth : ConfigGroup → Nat
  | ⟨_,groups,_,_,_⟩ => groupsDepth groups + 1
def groupsDepth : List ((_ : Chars) × ConfigGroup) → Nat
  | [] => 0
  | ⟨_,group⟩ :: groups => max group.depth (groupsDepth groups)
end

inductive ComputeError
  | noOriginalGroup
  | noUpdatedGroup
  | noDifferences

def compute (original updated : Config) : Except ComputeError ConfigUpdate :=
  match original.channelGroup with
  | none => .error .noOriginalGroup
  | some originalGroup =>
    match updated.channelGroup with
    | none => .error .noUpdatedGroup
    | some updatedGroup =>
      if (computeGroupUpdate updatedGroup.depth originalGroup updatedGroup).updatedGroup then
        .ok ⟨[],some (computeGroupUpdate updatedGroup.depth originalGroup updatedGroup).readSet,
          some (computeGroupUpdate updatedGroup.depth originalGroup updatedGroup).writeSet⟩
      else .error .noDifferences

theorem depth_lt {g t : ConfigGroup} (h : ⟨a,t⟩ ∈ g.groups) : t.depth < g.depth := by
  obtain ⟨ve,groups,vs,ps,mp⟩ := g
  have hle : t.depth ≤ groupsDepth groups := by
    induction groups with
    | nil => cases h
    | cons e groups ih =>
      obtain ⟨b,s⟩ := e
      cases h with
      | head => exact le_max_left _ _
      | tail _ h => exact le_trans (ih h) (le_max_right _ _)
  rw [ConfigGroup.depth]
  omega

end

variable {α : Type} {compare : α → α → Change α} {fresh : α → α}
  {ol ud : List ((_ : Chars) × α)} {full : Bool} {n : Chars}

def MapUpdate.reads (m : MapUpdate α) (full : Bool) : List ((_ : Chars) × α) :=
  if full then m.readSet ++ m.sameSet else m.readSet

def MapUpdate.writes (m : MapUpdate α) (full : Bool) : List ((_ : Chars) × α) :=
  if full then m.writeSet ++ m.sameSet else m.writeSet

def Change.reads (full : Bool) : Change α → Option α
  | .same element => if full then some element else none
  | .changed read _ => read

def Change.writes (full : Bool) : Change α → Option α
  | .same element => if full then some element else none
  | .changed _ write => some write

def written (compare : α → α → Change α) (fresh : α → α) (full : Bool) :
    Option α → Option α → Option α
  | _,none => none
  | none,some u => some (fresh u)
  | some o,some u => (compare o u).writes full

theorem written_full : (written compare fresh true x y).isSome = y.isSome := by
  cases y with
  | none => rfl
  | some u =>
    cases x with
    | none => rfl
    | some o =>
      rw [written]
      cases compare o u <;> rfl

section
variable (ho : ol.NodupKeys)
include ho

theorem lookup_read_set : (computeMapUpdate compare fresh ol ud).readSet.dlookup n =
      (ol.dlookup n).bind fun o => (ud.dlookup n).bind fun u => (compare o u).readSet := by
  rw [computeMapUpdate,keep_lookup ho]

theorem lookup_same_set : (computeMapUpdate compare fresh ol ud).sameSet.dlookup n =
      (ol.dlookup n).bind fun o => (ud.dlookup n).bind fun u => (compare o u).sameSet := by
  rw [computeMapUpdate,keep_lookup ho]

theorem lookup_reads : ((computeMapUpdate compare fresh ol ud).reads full).dlookup n =
      (ol.dlookup n).bind fun o => (ud.dlookup n).bind fun u =>
        (compare o u).reads full := by
  cases full with
  | false =>
    rw [MapUpdate.reads,if_neg Bool.false_ne_true,lookup_read_set ho]
    cases ol.dlookup n with
    | none => rfl
    | some o =>
      cases ud.dlookup n with
      | none => rfl
      | some u =>
        change (compare o u).readSet = (compare o u).reads false
        cases compare o u <;> rfl
  | true =>
    rw [MapUpdate.reads,if_pos rfl,dlookup_append,lookup_read_set ho,lookup_same_set ho]
    cases ol.dlookup n with
    | none => rfl
    | some o =>
      cases ud.dlookup n with
      | none => rfl
      | some u =>
        change (compare o u).readSet.or (compare o u).sameSet = (compare o u).reads true
        cases compare o u with
        | same e => rfl
        | changed r w => cases r <;> rfl

theorem lookup_write_set (hu : ud.NodupKeys) :
    (computeMapUpdate compare fresh ol ud).writeSet.dlookup n =
      written compare fresh false (ol.dlookup n) (ud.dlookup n) := by
  rw [computeMapUpdate,dlookup_append,keep_lookup ho,keep_lookup hu]
  cases ol.dlookup n with
  | none => cases ud.dlookup n <;> rfl
  | some o =>
    cases ud.dlookup n with
    | none => rfl
    | some u =>
      change (compare o u).writeSet.or none = (compare o u).writes false
      cases compare o u <;> rfl

theorem lookup_writes (hu : ud.NodupKeys) :
    ((computeMapUpdate compare fresh ol ud).writes full).dlookup n =
      written compare fresh full (ol.dlookup n) (ud.dlookup n) := by
  cases full with
  | false => exact lookup_write_set ho hu
  | true =>
    rw [MapUpdate.writes,if_pos rfl,dlookup_append,lookup_write_set ho hu,lookup_same_set ho]
    cases ol.dlookup n with
    | none => cases ud.dlookup n <;> rfl
    | some o =>
      cases ud.dlookup n with
      | none => rfl
      | some u =>
        change ((compare o u).writes false).or (compare o u).sameSet = (compare o u).writes true
        cases compare o u <;> rfl

theorem read_set_nodup : (computeMapUpdate compare fresh ol ud).readSet.NodupKeys := by
  dsimp only [computeMapUpdate]
  exact List.Nodup.sublist keep_keys ho

theorem same_set_nodup : (computeMapUpdate compare fresh ol ud).sameSet.NodupKeys := by
  dsimp only [computeMapUpdate]
  exact List.Nodup.sublist keep_keys ho

theorem reads_nodup : ((computeMapUpdate compare fresh ol ud).reads full).NodupKeys := by
  cases full with
  | false => exact read_set_nodup ho
  | true =>
    refine nodup_keys_append (read_set_nodup ho) (same_set_nodup ho) ?_
    intro k hk
    rw [lookup_read_set ho] at hk
    rw [lookup_same_set ho]
    cases ho : ol.dlookup k with
    | none => rfl
    | some o =>
      cases hu : ud.dlookup k with
      | none => rfl
      | some u =>
        simp only [ho,hu,bind_some] at hk ⊢
        cases hc : compare o u with
        | same e => simp [hc,Change.readSet] at hk
        | changed r w => rfl

theorem writes_nodup (hu : ud.NodupKeys) :
    ((computeMapUpdate compare fresh ol ud).writes full).NodupKeys := by
  have hws : (computeMapUpdate compare fresh ol ud).writeSet.NodupKeys := by
    refine nodup_keys_append (List.Nodup.sublist keep_keys ho)
      (List.Nodup.sublist keep_keys hu) ?_
    intro k hk
    rw [keep_lookup ho] at hk
    rw [keep_lookup hu]
    cases hor : ol.dlookup k with
    | none => simp [hor] at hk
    | some o => cases ud.dlookup k <;> rfl
  cases full with
  | false => exact hws
  | true =>
    refine nodup_keys_append hws (same_set_nodup ho) ?_
    intro k hk
    rw [lookup_write_set ho hu] at hk
    rw [lookup_same_set ho]
    cases hor : ol.dlookup k with
    | none => rfl
    | some o =>
      cases hup : ud.dlookup k with
      | none => rfl
      | some u =>
        rw [hor,hup,written] at hk
        simp only [bind_some]
        cases hc : compare o u with
        | same e => simp [hc,Change.writes] at hk
        | changed r w => rfl

end

theorem any_missing {l l' : List ((_ : Chars) × α)} (hl : l.NodupKeys) :
    l.any (fun e => (l'.dlookup e.1).isNone) = true ↔
      ∃ n, l.dlookup n ≠ none ∧ l'.dlookup n = none := by
  rw [List.any_eq_true]
  constructor
  · rintro ⟨⟨n,v⟩,hm,hn⟩
    refine ⟨n,?_,isNone_iff_eq_none.mp hn⟩
    rw [(mem_dlookup_iff hl).mpr hm]
    simp
  rintro ⟨n,hs,hn⟩
  obtain ⟨v,hv⟩ := ne_none_iff_exists'.mp hs
  exact ⟨⟨n,v⟩,of_mem_dlookup hv,isNone_iff_eq_none.mpr hn⟩

theorem updated_members_iff (ho : ol.NodupKeys) (hu : ud.NodupKeys) :
    (computeMapUpdate compare fresh ol ud).updatedMembers = false ↔
      ∀ n, (ol.dlookup n).isSome = (ud.dlookup n).isSome := by
  have ha : (computeMapUpdate compare fresh ol ud).updatedMembers = true ↔
      (∃ n, ol.dlookup n ≠ none ∧ ud.dlookup n = none) ∨
        ∃ n, ud.dlookup n ≠ none ∧ ol.dlookup n = none := by
    rw [← any_missing ho,← any_missing hu,computeMapUpdate,Bool.or_eq_true]
  rw [← Bool.not_eq_true,ha]
  constructor
  · intro h n
    cases ho : ol.dlookup n with
    | none =>
      cases hu : ud.dlookup n with
      | none => rfl
      | some u => exact absurd (.inr ⟨n,by simp [hu],ho⟩) h
    | some o =>
      cases hu : ud.dlookup n with
      | none => exact absurd (.inl ⟨n,by simp [ho],hu⟩) h
      | some u => rfl
  · rintro h (⟨n,hs,hn⟩ | ⟨n,hs,hn⟩)
    · have := h n
      rw [hn,isSome_none,isSome_eq_false_iff,isNone_iff_eq_none] at this
      exact hs this
    have := (h n).symm
    rw [hn,isSome_none,isSome_eq_false_iff,isNone_iff_eq_none] at this
    exact hs this

theorem changed_of_entry (ho : ol.NodupKeys) (hu : ud.NodupKeys)
    (hm : (computeMapUpdate compare fresh ol ud).updatedMembers = false)
    (h : ¬ ((computeMapUpdate compare fresh ol ud).readSet = [] ∧
      (computeMapUpdate compare fresh ol ud).writeSet = [])) :
    ∃ n o u r w, ol.dlookup n = some o ∧ ud.dlookup n = some u ∧ compare o u = .changed r w := by
  -- an entry of either set is found under its name
  have hf : ∃ n, (computeMapUpdate compare fresh ol ud).readSet.dlookup n ≠ none ∨
      (computeMapUpdate compare fresh ol ud).writeSet.dlookup n ≠ none := by
    rw [Classical.not_and_iff_not_or_not] at h
    rcases h with h | h
    · obtain ⟨e,l,he⟩ := exists_cons_of_ne_nil h
      exact ⟨e.1,.inl (by rw [he,dlookup_cons_eq]; simp)⟩
    · obtain ⟨e,l,he⟩ := exists_cons_of_ne_nil h
      exact ⟨e.1,.inr (by rw [he,dlookup_cons_eq]; simp)⟩
  obtain ⟨n,hn⟩ := hf
  rw [lookup_read_set ho,lookup_write_set ho hu] at hn
  have hb := (updated_members_iff ho hu).mp hm n
  cases hor : ol.dlookup n with
  | none =>
    rw [hor,isSome_none] at hb
    have hup : ud.dlookup n = none := by simpa using hb.symm
    simp [hor,hup,written] at hn
  | some o =>
    rw [hor,isSome_some] at hb
    obtain ⟨u,hup⟩ := isSome_iff_exists.mp hb.symm
    cases hc : compare o u with
    | same e => simp [hor,hup,written,hc,Change.readSet,Change.writes] at hn
    | changed r w => exact ⟨n,o,u,r,w,hor,hup,hc⟩

end PluggableHcs.Configtx
