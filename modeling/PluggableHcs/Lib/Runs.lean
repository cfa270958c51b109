import Mathlib.Data.List.Induction

namespace Runs
open List

/-- One labelled step of a machine, with the states on both sides of it. -/
structure Transition (σ α : Type) where
  before : σ
  label : α
  after : σ

/-- Finite runs of a labelled step relation, with every transition kept. -/
inductive Run (step : σ → α → σ → Prop) : σ → List (Transition σ α) → σ → Prop
  | nil : Run step s [] s
  | cons (head : step s x t) (tail : Run step t es u) : Run step s (⟨s,x,t⟩ :: es) u

theorem Run.append (h : Run step s es t) (k : Run step t fs u) : Run step s (es ++ fs) u := by
  induction h with
  | nil => exact k
  | cons he _ ih => exact .cons he (ih k)

theorem Run.split (h : Run step s (es ++ fs) u) : ∃ t, Run step s es t ∧ Run step t fs u := by
  induction es generalizing s with
  | nil => exact ⟨s,.nil,h⟩
  | cons e es ih =>
    rw [cons_append] at h
    cases h with
    | cons he ta =>
      obtain ⟨t,ht,hu⟩ := ih ta
      exact ⟨t,.cons he ht,hu⟩

theorem Run.split_cons (h : Run step s (es ++ e :: fs) u) :
    Run step s es e.before ∧ step e.before e.label e.after ∧ Run step e.after fs u := by
  obtain ⟨t,ht,hu⟩ := h.split
  cases hu with
  | cons he ta => exact ⟨ht,he,ta⟩

theorem Run.snoc (h : Run step s es t) (k : step t x u) : Run step s (es ++ [⟨t,x,u⟩]) u :=
  h.append (.cons k .nil)

theorem Run.step_of_mem (h : Run step s es u) (he : e ∈ es) : step e.before e.label e.after := by
  obtain ⟨as,bs,rfl⟩ := append_of_mem he
  exact h.split_cons.2.1

def trace (next : σ → α → Option σ) : σ → List α → Option (σ × List (Transition σ α))
  | s,[] => some (s,[])
  | s,x :: xs =>
    match next s x with
    | none => none
    | some t =>
      match trace next t xs with
      | none => none
      | some (u,es) => some (u,⟨s,x,t⟩ :: es)

variable {next : σ → α → Option σ}

theorem trace_cons (hx : next s x = some t)
    (ht : trace next t xs = some (u,es)) : trace next s (x :: xs) = some (u,⟨s,x,t⟩ :: es) := by
  simp only [trace,hx,ht]

theorem trace_run (h : trace next s xs = some (u,es)) :
    Run (fun s x t => next s x = some t) s es u := by
  induction xs generalizing s es with
  | nil =>
    cases h
    exact .nil
  | cons x xs ih =>
    simp only [trace] at h
    cases hx : next s x with
    | none => simp [hx] at h
    | some t =>
      simp only [hx] at h
      cases ht : trace next t xs with
      | none => simp [ht] at h
      | some o =>
        simp only [ht] at h
        cases h
        exact .cons hx (ih ht)

theorem trace_get_run (h : (trace next s xs).isSome) :
    Run (fun s x t => next s x = some t) s ((trace next s xs).get h).2
      ((trace next s xs).get h).1 :=
  trace_run (Option.some_get h).symm

variable {I : σ → Prop} {C : Transition σ α → Prop}

/-- An invariant kept by every step that meets the side condition holds all along a run
whose steps meet it. -/
theorem Run.invariant_when (hk : ∀ e, I e.before → step e.before e.label e.after → C e → I e.after)
    (h : Run step s es u) (hs : I s) (hc : ∀ e ∈ es, C e) :
    I u ∧ ∀ e ∈ es, I e.before ∧ I e.after := by
  induction h with
  | nil => exact ⟨hs,by simp⟩
  | @cons s x t es u hd ta ih =>
    have ht : I t := hk ⟨s,x,t⟩ hs hd (hc _ mem_cons_self)
    obtain ⟨hu,hes⟩ := ih ht (fun e he => hc e (mem_cons_of_mem _ he))
    refine ⟨hu,?_⟩
    intro e he
    rcases mem_cons.mp he with rfl | he
    · exact ⟨hs,ht⟩
    · exact hes e he

theorem Run.invariant (hk : ∀ s x t, I s → step s x t → I t)
    (h : Run step s es u) (hs : I s) : I u ∧ ∀ e ∈ es, I e.before ∧ I e.after :=
  h.invariant_when (C := fun _ => True) (fun _ hi hst _ => hk _ _ _ hi hst) hs
    (fun _ _ => trivial)

/-- When a step from a good state ends in one exactly if it meets the condition, a run from a good
state stays good exactly if all its steps meet it. -/
theorem Run.stays_iff {G : σ → Prop} (hk : ∀ s x t, I s → step s x t → I t)
    (hx : ∀ e, I e.before → G e.before → step e.before e.label e.after → (G e.after ↔ C e))
    (h : Run step s es u) (hi : I s) (hg : G s) :
    (∀ e ∈ es, G e.after) ↔ ∀ e ∈ es, C e := by
  induction h with
  | nil => simp
  | @cons s x t es u he ta ih =>
    have hs := hx ⟨s,x,t⟩ hi hg he
    have hit := hk s x t hi he
    simp only [forall_mem_cons]
    constructor
    · rintro ⟨hgt,hr⟩
      exact ⟨hs.mp hgt,(ih hit hgt).mp hr⟩
    · rintro ⟨hc,hr⟩
      exact ⟨hs.mpr hc,(ih hit (hs.mpr hc)).mpr hr⟩

/-- When a step ends in a good state exactly if it starts in one and meets the condition, so does a
run all of whose steps meet it. -/
theorem Run.ends_iff {G : σ → Prop} {K : Transition σ α → Prop}
    (ha : ∀ e, I e.before → step e.before e.label e.after → K e → I e.after)
    (hx : ∀ e, I e.before → step e.before e.label e.after → K e → (G e.after ↔ G e.before ∧ C e))
    (h : Run step s es u) (hi : I s) (hk : ∀ e ∈ es, K e) :
    G u ↔ G s ∧ ∀ e ∈ es, C e := by
  induction h with
  | nil => simp
  | @cons s x t es u he ta ih =>
    simp only [forall_mem_cons] at hk ⊢
    have hit := ha ⟨s,x,t⟩ hi he hk.1
    rw [ih hit hk.2,hx ⟨s,x,t⟩ hi he hk.1,and_assoc]

theorem Run.length_le {μ : σ → Nat} (hl : ∀ s x t, step s x t → μ t < μ s)
    (h : Run step s es u) : es.length + μ u ≤ μ s := by
  induction h with
  | nil => simp
  | cons he _ ih =>
    have := hl _ _ _ he
    rw [length_cons]
    omega

end Runs
