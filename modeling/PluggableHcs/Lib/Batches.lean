import Mathlib.Data.List.AList

namespace Batches
open List AList

variable {κ α : Type} [DecidableEq κ]

abbrev Op (κ α : Type) := κ × Option α

def apply (t : AList fun _ : κ => α) (o : Op κ α) : AList fun _ : κ => α :=
  match o.2 with
  | some a => t.insert o.1 a
  | none => t.erase o.1

/-- The operations of a batch take effect in their order. -/
def write (t : AList fun _ : κ => α) (ops : List (Op κ α)) : AList fun _ : κ => α :=
  ops.foldl apply t

variable {t : AList fun _ : κ => α} {ops : List (Op κ α)} {k : κ} {a : α} {v : Option α}

theorem lookup_apply (t : AList fun _ : κ => α) (o : Op κ α) (k : κ) :
    (apply t o).lookup k = if o.1 = k then o.2 else t.lookup k := by
  obtain ⟨ke,v⟩ := o
  cases v with
  | some a =>
    by_cases h : ke = k
    · subst h
      simp [apply]
    · simp [apply,h,lookup_insert_ne (Ne.symm h)]
  | none =>
    by_cases h : ke = k
    · subst h
      simp [apply]
    · simp [apply,h,lookup_erase_ne (Ne.symm h)]

theorem write_append (t : AList fun _ : κ => α) (ops ops' : List (Op κ α)) :
    write t (ops ++ ops') = write (write t ops) ops' :=
  foldl_append

theorem lookup_write_other (h : ∀ o ∈ ops, o.1 ≠ k) : (write t ops).lookup k = t.lookup k := by
  induction ops generalizing t with
  | nil => rfl
  | cons o ops ih =>
    obtain ⟨ho,hop⟩ := forall_mem_cons.mp h
    change (write (apply t o) ops).lookup k = _
    rw [ih hop,lookup_apply,if_neg ho]

theorem lookup_write_mem (h : ∃ o ∈ ops, o.1 = k) : (k,(write t ops).lookup k) ∈ ops := by
  induction ops generalizing t with
  | nil =>
    obtain ⟨o,ho,_⟩ := h
    cases ho
  | cons o ops ih =>
    change (k,(write (apply t o) ops).lookup k) ∈ _
    by_cases hl : ∃ o ∈ ops, o.1 = k
    · exact mem_cons_of_mem _ (ih hl)
    have hn : ∀ o ∈ ops, o.1 ≠ k := fun o ho heq => hl ⟨o,ho,heq⟩
    obtain ⟨o',ho',hk⟩ := h
    obtain rfl : o' = o := (mem_cons.mp ho').resolve_right fun hm => hn o' hm hk
    rw [lookup_write_other hn,lookup_apply,if_pos hk,← hk]
    exact mem_cons_self

theorem lookup_write_some (h : (write t ops).lookup k = some a) :
    (k,some a) ∈ ops ∨ t.lookup k = some a ∧ ∀ o ∈ ops, o.1 ≠ k := by
  by_cases hm : ∃ o ∈ ops, o.1 = k
  · exact .inl (h ▸ lookup_write_mem (t := t) hm)
  have hn : ∀ o ∈ ops, o.1 ≠ k := fun o ho heq => hm ⟨o,ho,heq⟩
  rw [lookup_write_other hn] at h
  exact .inr ⟨h,hn⟩

theorem lookup_write_same (hm : (k,v) ∈ ops) (ha : ∀ o ∈ ops, o.1 = k → o.2 = v) :
    (write t ops).lookup k = v :=
  ha _ (lookup_write_mem (t := t) ⟨_,hm,rfl⟩) rfl

theorem lookup_write_entries {m : AList fun _ : κ => α} (h : m.lookup k = some a) :
    (write t (m.entries.map fun e => (e.1,some e.2))).lookup k = some a := by
  apply lookup_write_same
  · exact mem_map.mpr ⟨⟨k,a⟩,mem_lookup_iff.mp h,rfl⟩
  · intro o ho hk
    obtain ⟨e,he,rfl⟩ := mem_map.mp ho
    subst hk
    exact (mem_lookup_iff.mpr he).symm.trans h

end Batches
