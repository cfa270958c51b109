import Mathlib.Data.List.Induction
import Mathlib.Data.List.Perm.Subperm
import PluggableHcs.Policies.SignaturePolicy

namespace PluggableHcs.Policies
open List

structure MSPRole where
  mspIdentifier : Bytes
  role : Int
deriving DecidableEq

structure OrganizationUnit where
  mspIdentifier : Bytes
  organizationalUnitIdentifier : Bytes
  certifiersIdentifier : Bytes
deriving DecidableEq

structure ComparablePrincipal where
  principal : Option MSPPrincipal
  ou : Option OrganizationUnit
  role : Option MSPRole
  mspID : Bytes
deriving DecidableEq

/-- Two nil pointers are equal, a nil pointer and another one are not. -/
def ComparablePrincipal.equal (cp cp2 : ComparablePrincipal) : Bool :=
  cp.mspID = cp2.mspID && cp.principal = cp2.principal && cp.role = cp2.role && cp.ou = cp2.ou

abbrev ComparablePrincipalSet := List ComparablePrincipal
abbrev ComparablePrincipalSets := List ComparablePrincipalSet

def isSubset (cps sets : ComparablePrincipalSet) : Bool :=
  cps.all fun p1 => sets.any fun p2 => p1.equal p2

def isContaining (i : Nat) (s1 : ComparablePrincipalSet)
    (sets : List (ComparablePrincipalSet × Nat)) : Bool :=
  sets.foldl (fun containing s2 =>
    if i = s2.2 then containing
    else if isSubset s1 s2.1 && i < s2.2 then false
    else containing || isSubset s2.1 s1) false

/-- One pass, which is reduce in the source. -/
def reduceOnce (cps : ComparablePrincipalSets) : ComparablePrincipalSets :=
  (cps.zipIdx.filter fun s1 => !isContaining s1.2 s1.1 cps.zipIdx).map Prod.fst

theorem reduce_once_sublist (cps : ComparablePrincipalSets) : (reduceOnce cps).Sublist cps := by
  have hs := (filter_sublist (l := cps.zipIdx)
    (p := fun s1 => !isContaining s1.2 s1.1 cps.zipIdx)).map Prod.fst
  rwa [zipIdx_map_fst] at hs

/-- Reduce in the source: the passes go on until one drops nothing. -/
def reduce (cps : ComparablePrincipalSets) : ComparablePrincipalSets :=
  if cps.length = (reduceOnce cps).length then reduceOnce cps else reduce (reduceOnce cps)
termination_by cps.length
decreasing_by
  have := (reduce_once_sublist cps).length_le
  omega

variable {cps : ComparablePrincipalSets} {s t s1 : ComparablePrincipalSet}
  {ss : List (ComparablePrincipalSet × Nat)} {i j : Nat}

theorem equal_iff {cp cp2 : ComparablePrincipal} : cp.equal cp2 = true ↔ cp = cp2 := by
  cases cp
  cases cp2
  simp only [ComparablePrincipal.equal,Bool.and_eq_true,decide_eq_true_eq,
    ComparablePrincipal.mk.injEq]
  tauto

theorem is_subset_iff : isSubset s t = true ↔ s ⊆ t := by
  simp [isSubset,equal_iff,subset_def]

theorem not_subset_iff : isSubset s t = false ↔ ¬ s ⊆ t := by
  rw [← Bool.not_eq_true,is_subset_iff]

theorem containing_append (e : ComparablePrincipalSet × Nat) : isContaining i s1 (ss ++ [e]) =
      if i = e.2 then isContaining i s1 ss
      else if isSubset s1 e.1 && i < e.2 then false
      else isContaining i s1 ss || isSubset e.1 s1 := by
  simp only [isContaining,foldl_append,foldl_cons,foldl_nil]

theorem not_containing (h : isContaining i s1 ss = false)
    (l : ∀ e ∈ ss, i < e.2 → ¬ s1 ⊆ e.1) : ∀ e ∈ ss, e.2 ≠ i → ¬ e.1 ⊆ s1 := by
  induction ss using List.reverseRecOn with
  | nil => exact forall_mem_nil _
  | append_singleton ss e ih =>
    obtain ⟨hs,he⟩ := forall_mem_append.mp l
    rw [forall_mem_singleton] at he
    rw [containing_append] at h
    rw [forall_mem_append,forall_mem_singleton]
    split at h
    · rename_i heq
      exact ⟨ih h hs,fun hne => absurd heq.symm hne⟩
    have hn : ¬ (isSubset s1 e.1 && i < e.2) = true := by
      rw [Bool.and_eq_true,is_subset_iff,decide_eq_true_eq]
      exact fun hl => he hl.2 hl.1
    rw [if_neg hn,Bool.or_eq_false_iff,not_subset_iff] at h
    exact ⟨ih h.1 hs,fun _ => h.2⟩

theorem kept (h : ∀ e ∈ ss, e.2 ≠ i → e.1 ⊆ s1 → s1 ⊆ e.1 ∧ i < e.2) :
    isContaining i s1 ss = false := by
  induction ss using List.reverseRecOn with
  | nil => rfl
  | append_singleton ss e ih =>
    obtain ⟨hs,he⟩ := forall_mem_append.mp h
    rw [containing_append,ih hs]
    split
    · rfl
    rename_i hne
    split
    · rfl
    rename_i hl
    rw [Bool.and_eq_true,is_subset_iff,decide_eq_true_eq] at hl
    rw [Bool.false_or,not_subset_iff]
    exact fun hsu => hl (forall_mem_singleton.mp he (Ne.symm hne) hsu)

/-- The sets that are kept in the end: no set before has all its principals among those of the set,
and none after it has only a part of them. -/
def Leads (cps : ComparablePrincipalSets) (t : ComparablePrincipalSet) : Prop :=
  ∃ before after, cps = before ++ t :: after ∧ (∀ s ∈ before, ¬ s ⊆ t) ∧
    ∀ s ∈ after, s ⊆ t → t ⊆ s

theorem Leads.mem (h : Leads cps t) : t ∈ cps := by
  obtain ⟨before,after,rfl,_⟩ := h
  simp

theorem leads_cons (h : Leads cps t) (hs : s ⊆ t) : Leads (s :: cps) s := by
  obtain ⟨before,after,rfl,hb,ha⟩ := h
  refine ⟨[],_,rfl,forall_mem_nil _,fun u hu hus => ?_⟩
  rcases mem_append.mp hu with hu | hu
  · exact absurd (Subset.trans hus hs) (hb u hu)
  rcases mem_cons.mp hu with rfl | hu
  · exact hs
  · exact Subset.trans hs (ha u hu (Subset.trans hus hs))

theorem leads_below (hs : s ∈ cps) : ∃ t, Leads cps t ∧ t ⊆ s := by
  induction cps generalizing s with
  | nil => simp at hs
  | cons x cps ih =>
    have below : ∀ r ∈ cps, ∃ t, Leads (x :: cps) t ∧ t ⊆ r := by
      intro r hr
      obtain ⟨t,ht,htr⟩ := ih hr
      by_cases hx : x ⊆ t
      · exact ⟨x,leads_cons ht hx,Subset.trans hx htr⟩
      obtain ⟨before,after,rfl,hb,ha⟩ := ht
      exact ⟨t,⟨x :: before,after,rfl,forall_mem_cons.mpr ⟨hx,hb⟩,ha⟩,htr⟩
    rcases mem_cons.mp hs with rfl | hs
    · by_cases hr : ∃ r ∈ cps, r ⊆ s
      · obtain ⟨r,hr,hrs⟩ := hr
        obtain ⟨t,ht,htr⟩ := below r hr
        exact ⟨t,ht,Subset.trans htr hrs⟩
      · refine ⟨s,⟨[],cps,rfl,forall_mem_nil _,fun r hm hrs => ?_⟩,Subset.refl s⟩
        exact absurd ⟨r,hm,hrs⟩ hr
    · exact below s hs

/-- A pass keeps a set that leads, and what it drops around it leaves the set leading. -/
theorem Leads.once (h : Leads cps t) : Leads (reduceOnce cps) t := by
  obtain ⟨before,after,rfl,hb,ha⟩ := h
  have hk : isContaining before.length t (before ++ t :: after).zipIdx = false := by
    refine kept fun e he hne hsu => ?_
    rw [zipIdx_append,zipIdx_cons,mem_append,mem_cons] at he
    rcases he with he | rfl | he
    · exact absurd hsu (hb _ (fst_mem_of_mem_zipIdx he))
    · exact absurd (by simp) hne
    · exact ⟨ha _ (fst_mem_of_mem_zipIdx he) hsu,by have := le_snd_of_mem_zipIdx he; omega⟩
  have keeps : ∀ (l : List ComparablePrincipalSet) n p, ∀ s ∈ ((l.zipIdx n).filter p).map Prod.fst,
      s ∈ l := by
    intro l n p s hs
    obtain ⟨e,he,rfl⟩ := mem_map.mp hs
    exact fst_mem_of_mem_zipIdx (mem_of_mem_filter he)
  have hq : (!isContaining before.length t (before ++ t :: after).zipIdx) = true := by simp [hk]
  unfold reduceOnce
  generalize hall : (fun s1 : ComparablePrincipalSet × Nat =>
    !isContaining s1.2 s1.1 (before ++ t :: after).zipIdx) = q
  have ht : q (t,0 + before.length) = true := by rw [← hall]; simpa using hq
  rw [zipIdx_append,filter_append,map_append,zipIdx_cons,filter_cons_of_pos ht,map_cons]
  exact ⟨_,_,rfl,fun s hs => hb s (keeps _ _ _ s hs),fun s hs => ha s (keeps _ _ _ s hs)⟩

theorem Leads.kept (h : Leads cps t) : t ∈ reduce cps := by
  induction cps using reduce.induct with
  | case1 cps hst =>
    rw [reduce,if_pos hst]
    exact h.once.mem
  | case2 cps hm ih =>
    rw [reduce,if_neg hm]
    exact ih h.once

/-- The last set that has one within it would have to be within a later one. -/
theorem fixpoint_antichain (h : cps.length = (reduceOnce cps).length) (hi : cps[i]? = some s)
    (hj : cps[j]? = some t) (hne : j ≠ i) : ¬ t ⊆ s := by
  rw [reduceOnce,length_map,← length_zipIdx (l := cps),eq_comm,length_filter_eq_length_iff] at h
  induction hn : cps.length - i using Nat.strongRecOn generalizing i j s t with
  | ind n ih =>
    intro hs
    have hk := h (s,i) (mk_mem_zipIdx_iff_getElem?.mpr hi)
    rw [Bool.not_eq_true'] at hk
    refine not_containing hk (fun e he hlt hw => ?_) (t,j)
      (mk_mem_zipIdx_iff_getElem?.mpr hj) hne hs
    have hl := mk_mem_zipIdx_iff_getElem?.mp he
    obtain ⟨hb,_⟩ := List.getElem?_eq_some_iff.mp hl
    exact ih (cps.length - e.2) (by dsimp only at hlt; omega) hl hi (Nat.ne_of_lt hlt) rfl hw

theorem reduce_sublist (cps : ComparablePrincipalSets) : (reduce cps).Sublist cps := by
  induction cps using reduce.induct with
  | case1 cps hst =>
    rw [reduce,if_pos hst]
    exact reduce_once_sublist cps
  | case2 cps hm ih =>
    rw [reduce,if_neg hm]
    exact ih.trans (reduce_once_sublist cps)

theorem reduce_fixpoint (cps : ComparablePrincipalSets) :
    (reduce cps).length = (reduceOnce (reduce cps)).length := by
  induction cps using reduce.induct with
  | case1 cps hst =>
    rw [reduce,if_pos hst,(reduce_once_sublist cps).eq_of_length hst.symm]
    exact hst
  | case2 cps hm ih => rwa [reduce,if_neg hm]

theorem mem_reduce : t ∈ reduce cps ↔ Leads cps t := by
  refine ⟨fun ht => ?_,Leads.kept⟩
  obtain ⟨s,hs,hst⟩ := leads_below ((reduce_sublist cps).subset ht)
  obtain ⟨i,hi⟩ := getElem?_of_mem ht
  obtain ⟨j,hj⟩ := getElem?_of_mem hs.kept
  by_cases he : j = i
  · rw [he,hi,Option.some.injEq] at hj
    rwa [hj]
  · exact absurd hst (fixpoint_antichain (reduce_fixpoint cps) hi hj he)

/-- The result is an antichain with a set within every set that was given. That set has no principal
more often exactly if the sets that lead the others are so within them. -/
theorem reduce_antichain (cps : ComparablePrincipalSets) : (reduce cps).Sublist cps ∧
    (∀ (i j : Nat) s t, (reduce cps)[i]? = some s → (reduce cps)[j]? = some t → i ≠ j →
      isSubset s t = false) ∧
    (∀ s ∈ cps, ∃ t ∈ reduce cps, isSubset t s = true) ∧
    ((∀ s ∈ cps, ∃ t ∈ reduce cps, t.Subperm s) ↔
      ∀ s ∈ cps, ∃ t, Leads cps t ∧ t.Subperm s) := by
  refine ⟨reduce_sublist cps,fun i j s t hi hj hne => ?_,fun s hs => ?_,?_⟩
  · exact not_subset_iff.mpr (fixpoint_antichain (reduce_fixpoint cps) hj hi hne)
  · obtain ⟨t,ht,hts⟩ := leads_below hs
    exact ⟨t,ht.kept,is_subset_iff.mpr hts⟩
  · simp only [mem_reduce]

def memberOfA : ComparablePrincipal := ⟨some ⟨0,[1]⟩,none,some ⟨[65],0⟩,[65]⟩

theorem reduce_keeps_fewer : ∃ t ∈ reduce [[memberOfA],[memberOfA,memberOfA]],
    t.Subperm [memberOfA,memberOfA] := by
  have hl : Leads [[memberOfA],[memberOfA,memberOfA]] [memberOfA] :=
    ⟨[],_,rfl,forall_mem_nil _,by simp⟩
  refine (reduce_antichain _).2.2.2.mpr (fun s hs => ⟨_,hl,?_⟩) _ (by simp)
  have hm : memberOfA ∈ s := by
    rcases mem_pair.mp hs with rfl | rfl <;> simp
  exact singleton_subperm_iff.mpr hm

/-- A set that asks for one principal twice is kept in place of the one that asks for it once. -/
theorem reduce_drops_fewer : reduce [[memberOfA,memberOfA],[memberOfA]] = [[memberOfA,memberOfA]] ∧
    ¬ [memberOfA,memberOfA].Subperm [memberOfA] := by
  have ho : reduceOnce [[memberOfA,memberOfA],[memberOfA]] = [[memberOfA,memberOfA]] := by decide
  have hs : reduceOnce [[memberOfA,memberOfA]] = [[memberOfA,memberOfA]] := by decide
  refine ⟨?_,fun hsu => absurd hsu.length_le (by decide)⟩
  rw [reduce,ho,if_neg (by decide),reduce,hs,if_pos rfl]

end PluggableHcs.Policies
