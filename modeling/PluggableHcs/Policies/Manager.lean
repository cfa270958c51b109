import PluggableHcs.Configtx.Tree
import PluggableHcs.Lib.Crashes
import PluggableHcs.Lib.Outcomes
import PluggableHcs.Policies.ImplicitMeta

namespace PluggableHcs.Policies
open Configtx (Chars ConfigGroup ConfigPolicy)
open Crashes Outcomes

structure Providers (π : Type) where
  /-- NewPolicy of the provider of a type. -/
  provider : Int → Option (Configtx.Bytes → Except String π)
  /-- NewManagerImpl panics where implicit meta policies have a provider. -/
  noImplicitMeta : provider 3 = none
  unmarshal : Configtx.Bytes → Except String (ImplicitMetaRule × Chars)
  implicitMeta : ImplicitMetaRule → List π → Chars → π
  reject : Chars → π

/-- The policies of a group, by their relative names. -/
structure ManagerImpl (π : Type) where
  path : Chars
  policies : List ((_ : Chars) × π)

/-- A policy with true, or a rejecting one with false. -/
inductive Answer (π : Type) where
  | found (policy : π) (policyName : Chars)
  | rejected (name : Chars)
deriving DecidableEq

def Answer.policy? : Answer π → Option π
  | .found policy _ => some policy
  | .rejected _ => none

namespace ManagerImpl

def lookup (m : ManagerImpl π) (relpath : Chars) : Answer π :=
  match m.policies.dlookup relpath with
  | some policy => .found policy ('/' :: m.path ++ '/' :: relpath)
  | none => .rejected relpath

def getPolicy (m : ManagerImpl π) (id : Chars) : Except (Stop Empty) (Answer π) :=
  if id = [] then .ok (.rejected id)
  else if ['/'] <+: id then
    if '/' :: m.path <+: id then
      -- id[1+len(pm.path)+1:]
      if 1 + m.path.length + 1 ≤ id.length then .ok (m.lookup (id.drop (1 + m.path.length + 1)))
      else .error (.crashed .indexOutOfRange)
    else .ok (.rejected id)
  else .ok (m.lookup id)

end ManagerImpl

section
variable (S : Providers π)

def subPolicy (name : Chars) (m : ManagerImpl π) : Except (Stop String) π :=
  match m.getPolicy name with
  | .ok (.found policy _) => .ok policy
  | .ok (.rejected name) => .ok (S.reject name)
  | .error (.crashed c) => .error (.crashed c)

def newConfigPolicy (path policyName : Chars) (managers : List (Chars × ManagerImpl π))
    (p : ConfigPolicy) : Except (Stop String) π :=
  let place := "policy " ++ String.ofList policyName ++ " at path " ++ String.ofList path
  match p.policy with
  | none => fail (place ++ " was nil")
  | some policy =>
    if policy.type = 3 then
      match S.unmarshal policy.value with
      | .error err => fail
        ("implicit " ++ place ++ " did not compile: Error unmarshaling to ImplicitMetaPolicy: " ++ err)
      | .ok (rule,name) => do
        let subPolicies ← managers.mapM fun m => subPolicy S name m.2
        pure (S.implicitMeta rule subPolicies name)
    else
      match S.provider policy.type with
      | none => fail (place ++ " has unknown policy type: " ++ toString policy.type)
      | some newPolicy =>
        match newPolicy policy.value with
        | .error err => fail (place ++ " did not compile: " ++ err)
        | .ok policy => .ok policy

mutual
def newManagerImpl (path : Chars) : ConfigGroup → Except (Stop String) (ManagerImpl π)
  | ⟨_,groups,_,policies,_⟩ => do
    let managers ← newManagers path groups
    let own ← policies.mapM fun e => do
      let policy ← newConfigPolicy S path e.1 managers e.2
      pure (⟨e.1,policy⟩ : (_ : Chars) × π)
    let inherited := managers.flatMap fun m => m.2.policies.map fun e =>
      (⟨m.1 ++ '/' :: e.1,e.2⟩ : (_ : Chars) × π)
    pure ⟨path,inherited.foldl (fun l e => l.kinsert e.1 e.2) own⟩
def newManagers (path : Chars) :
    List ((_ : Chars) × ConfigGroup) → Except (Stop String) (List (Chars × ManagerImpl π))
  | [] => pure []
  | ⟨name,group⟩ :: groups => do
    let m ← newManagerImpl (path ++ '/' :: name) group
    let managers ← newManagers path groups
    pure ((name,m) :: managers)
end

theorem new_manager_path (h : newManagerImpl S path ro = .ok m) : m.path = path := by
  cases ro
  obtain ⟨ms,_,h⟩ := bind_ok.mp h
  obtain ⟨o,_,h⟩ := bind_ok.mp h
  cases h
  rfl

end

namespace ManagerImpl
variable {m : ManagerImpl π}

@[simp] theorem lookup_policy {name : Chars} {policy : π} :
    (m.lookup name).policy? = some policy ↔ m.policies.dlookup name = some policy := by
  unfold lookup
  cases m.policies.dlookup name <;> simp [Answer.policy?]

theorem get_policy_path : m.getPolicy ('/' :: m.path) = .error (.crashed .indexOutOfRange) := by
  unfold getPolicy
  rw [if_neg (by simp),if_pos ⟨m.path,rfl⟩,if_pos (List.prefix_refl _),if_neg (by simp)]

/-- Whatever character follows the path is cut off as if it were the separator. -/
theorem get_policy_below : m.getPolicy ('/' :: m.path ++ c :: name) = .ok (m.lookup name) := by
  unfold getPolicy
  rw [if_neg (by simp),if_pos ⟨m.path ++ c :: name,rfl⟩,if_pos (List.prefix_append _ _),
    if_pos (by simp; omega)]
  congr 2
  rw [show 1 + m.path.length + 1 = ('/' :: m.path).length + 1 by simp; omega,← List.drop_drop]
  simp

theorem get_policy_elsewhere {id : Chars} (absolute : ['/'] <+: id) (outside : ¬ '/' :: m.path <+: id) :
    m.getPolicy id = .ok (.rejected id) := by
  have hne : id ≠ [] := by
    rintro rfl
    simp at absolute
  unfold getPolicy
  rw [if_neg hne,if_pos absolute,if_neg outside]

/-- The empty id is rejected without a lookup. -/
theorem get_policy_relative {id : Chars} (relative : ¬ ['/'] <+: id) :
    m.getPolicy id = .ok (if id = [] then .rejected id else m.lookup id) := by
  unfold getPolicy
  rw [if_neg relative]
  split <;> rfl

/-- A policy with the empty name is not asked for by the empty id, and nothing but a separator is
cut off in front of a name that is registered. -/
def Separated (m : ManagerImpl π) (id : Chars) : Prop :=
  (id = [] → m.policies.dlookup [] = none) ∧
    ∀ rest, id = '/' :: m.path ++ rest →
      ∃ c name, rest = c :: name ∧ (c = '/' ∨ m.policies.dlookup name = none)

end ManagerImpl

def sampleProviders : Providers Configtx.Bytes :=
  ⟨fun type => if type = 1 then some .ok else none,rfl,fun _ => .error "",
    fun _ _ _ => [],fun _ => []⟩

def sampleGroup (name : Chars) : ConfigGroup := ⟨0,[],[],[⟨name,⟨0,some ⟨1,[7]⟩,[]⟩⟩],[]⟩

def sampleManager (name : Chars) : ManagerImpl Configtx.Bytes := ⟨['C'],[⟨name,[7]⟩]⟩

end PluggableHcs.Policies
