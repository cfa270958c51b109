import Mathlib.Data.List.Pairwise
import Mathlib.Data.List.Nodup
import Mathlib.Data.List.Perm.Basic
import Mathlib.Order.Lattice

namespace Tables
open List Option

variable {κ α : Type} [LinearOrder κ]

abbrev Ordered (l : List (κ × α)) : Prop := l.Pairwise fun a b => a.1 < b.1

theorem ordered_eq {l : List (κ × α)} (h : Ordered l) (ha : (k,a) ∈ l) (hb : (k,b) ∈ l) :
    a = b := by
  induction l with
  | nil => cases ha
  | cons e l ih =>
    obtain ⟨he,hl⟩ := pairwise_cons.mp h
    rcases mem_cons.mp ha with rfl | ha'
    · rcases mem_cons.mp hb with heq | hb'
      · exact (congrArg Prod.snd heq).symm
      · exact absurd (he _ hb') (lt_irrefl k)
    · rcases mem_cons.mp hb with rfl | hb'
      · exact absurd (he _ ha') (lt_irrefl k)
      · exact ih hl ha' hb'

theorem ordered_ext {l l' : List (κ × α)} (h : Ordered l) (h' : Ordered l')
    (hs : ∀ e, e ∈ l ↔ e ∈ l') : l = l' := by
  have hp : l.Perm l' :=
    (perm_ext_iff_of_nodup (h.imp fun hlt heq => absurd (congrArg Prod.fst heq) hlt.ne)
      (h'.imp fun hlt heq => absurd (congrArg Prod.fst heq) hlt.ne)).mpr hs
  exact hp.eq_of_pairwise (fun a b _ _ hab hba => absurd hab hba.asymm) h h'

section

def overlayStep (d : κ × α) (rest : List (κ × α) → List (κ × α)) : List (κ × α) → List (κ × α)
  | [] => d :: rest []
  | u :: us =>
    if d.1 < u.1 then d :: rest (u :: us)
    else if u.1 < d.1 then u :: overlayStep d rest us
    else u :: rest us

/-- Two lists by key, where the second one has precedence. -/
def overlay : List (κ × α) → List (κ × α) → List (κ × α)
  | [],us => us
  | d :: ds,us => overlayStep d (overlay ds) us

variable {d u : κ × α} {ds us : List (κ × α)}

@[simp] theorem overlay_nil_left : overlay [] us = us := rfl

@[simp] theorem overlay_nil_right : overlay ds [] = ds := by
  induction ds with
  | nil => rfl
  | cons d ds ih => exact congrArg (List.cons d) ih

theorem overlay_below (h : d.1 < u.1) : overlay (d :: ds) (u :: us) = d :: overlay ds (u :: us) :=
  if_pos h

theorem overlay_above (h : u.1 < d.1) : overlay (d :: ds) (u :: us) = u :: overlay (d :: ds) us :=
  (if_neg h.asymm).trans (if_pos h)

theorem overlay_replaced (h : d.1 = u.1) : overlay (d :: ds) (u :: us) = u :: overlay ds us :=
  (if_neg (h ▸ lt_irrefl _)).trans (if_neg (h ▸ lt_irrefl _))

theorem mem_overlay (hd : Ordered ds) (hu : Ordered us) :
    e ∈ overlay ds us ↔ e ∈ us ∨ e ∈ ds ∧ ∀ u ∈ us, u.1 ≠ e.1 := by
  induction ds generalizing us with
  | nil => simp
  | cons d ds i1 =>
    obtain ⟨hdl,hds⟩ := pairwise_cons.mp hd
    induction us with
    | nil => simp
    | cons u us iu =>
      obtain ⟨hul,hus⟩ := pairwise_cons.mp hu
      rcases lt_trichotomy d.1 u.1 with h | h | h
      · rw [overlay_below h,mem_cons,i1 hds hu]
        grind
      · rw [overlay_replaced h,mem_cons,i1 hds hus]
        grind
      · rw [overlay_above h,mem_cons,iu hus]
        grind

theorem overlay_ordered (hd : Ordered ds) (hu : Ordered us) : Ordered (overlay ds us) := by
  induction ds generalizing us with
  | nil => exact hu
  | cons d ds i1 =>
    obtain ⟨hdl,hds⟩ := pairwise_cons.mp hd
    induction us with
    | nil =>
      rw [overlay_nil_right]
      exact hd
    | cons u us iu =>
      obtain ⟨hul,hus⟩ := pairwise_cons.mp hu
      rcases lt_trichotomy d.1 u.1 with h | h | h
      · rw [overlay_below h]
        refine pairwise_cons.mpr ⟨?_,i1 hds hu⟩
        intro e he
        rcases (mem_overlay hds hu).mp he with hm | ⟨hm,_⟩
        · rcases mem_cons.mp hm with rfl | hm
          · exact h
          · exact h.trans (hul e hm)
        · exact hdl e hm
      · rw [overlay_replaced h]
        refine pairwise_cons.mpr ⟨?_,i1 hds hus⟩
        intro e he
        rcases (mem_overlay hds hus).mp he with hm | ⟨hm,_⟩
        · exact hul e hm
        · exact h ▸ hdl e hm
      · rw [overlay_above h]
        refine pairwise_cons.mpr ⟨?_,iu hus⟩
        intro e he
        rcases (mem_overlay hd hus).mp he with hm | ⟨hm,_⟩
        · exact hul e hm
        rcases mem_cons.mp hm with rfl | hm
        · exact h
        · exact h.trans (hdl e hm)

theorem overlay_length_le (ds us : List (κ × α)) :
    (overlay ds us).length ≤ ds.length + us.length := by
  induction ds generalizing us with
  | nil => simp
  | cons d ds i1 =>
    induction us with
    | nil => simp
    | cons u us iu =>
      have hd := i1 (u :: us)
      have hb := i1 us
      simp only [length_cons] at iu hd ⊢
      rcases lt_trichotomy d.1 u.1 with h | h | h
      · rw [overlay_below h,length_cons]
        omega
      · rw [overlay_replaced h,length_cons]
        omega
      · rw [overlay_above h,length_cons]
        omega

end

/-- A table keeps its entries in the order of their keys. -/
structure Table (κ α : Type) [LinearOrder κ] where
  entries : List (κ × α)
  ordered : Ordered entries

namespace Table

instance [DecidableEq α] : DecidableEq (Table κ α) := fun s t =>
  decidable_of_iff (s.entries = t.entries) (by
    cases s
    cases t
    simp)

def empty : Table κ α := ⟨[],List.Pairwise.nil⟩

def get (t : Table κ α) (k : κ) : Option α := (t.entries.find? fun e => e.1 = k).map Prod.snd

variable {t : Table κ α}

theorem get_eq_some {a : α} : t.get k = some a ↔ (k,a) ∈ t.entries := by
  unfold get
  constructor
  · intro h
    obtain ⟨e,he,rfl⟩ := map_eq_some_iff.mp h
    have hk : e.1 = k := by simpa using List.find?_some he
    subst hk
    exact mem_of_find?_eq_some he
  · intro h
    cases hf : t.entries.find? fun e => e.1 = k with
    | none => exact absurd (decide_eq_true rfl) (List.find?_eq_none.mp hf _ h)
    | some e =>
      have hk : e.1 = k := by simpa using List.find?_some hf
      subst hk
      exact congrArg some (ordered_eq t.ordered (mem_of_find?_eq_some hf) h)

theorem get_eq_none : t.get k = none ↔ ∀ e ∈ t.entries, e.1 ≠ k := by
  simp [get]

@[simp] theorem get_empty : (empty : Table κ α).get k = none := rfl

def overlaid (t u : Table κ α) : Table κ α :=
  ⟨overlay t.entries u.entries,overlay_ordered t.ordered u.ordered⟩

theorem get_overlaid {t u : Table κ α} : (t.overlaid u).get k = (u.get k).or (t.get k) := by
  cases hu : u.get k with
  | some a =>
    rw [some_or]
    exact get_eq_some.mpr ((mem_overlay t.ordered u.ordered).mpr (.inl (get_eq_some.mp hu)))
  | none =>
    rw [none_or]
    have hne := get_eq_none.mp hu
    refine Option.ext fun a => ?_
    rw [get_eq_some,get_eq_some,overlaid,mem_overlay t.ordered u.ordered]
    exact ⟨fun h => h.elim (fun hm => absurd rfl (hne _ hm)) And.left,fun h => .inr ⟨h,hne⟩⟩

def insert (t : Table κ α) (k : κ) (a : α) :
    Table κ α := t.overlaid ⟨[(k,a)],pairwise_singleton _ _⟩

theorem get_insert {a : α} : (t.insert k a).get k' = if k' = k then some a else t.get k' := by
  rw [insert,get_overlaid]
  by_cases h : k' = k
  · subst h
    simp [get]
  · have hne : k ≠ k' := fun heq => h heq.symm
    simp [get,h,hne]

def filter (t : Table κ α) (p : κ × α → Bool) : Table κ α :=
  ⟨t.entries.filter p,t.ordered.filter p⟩

theorem get_filter {p : κ × α → Bool} : (t.filter p).get k = (t.get k).filter fun a => p (k,a) := by
  refine Option.ext fun a => ?_
  rw [get_eq_some,filter,mem_filter,filter_eq_some_iff,get_eq_some]

end Table
end Tables
