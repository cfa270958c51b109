import Mathlib.Data.List.Basic

/-! Computations that can answer, return an error, or crash. -/

namespace Crashes

inductive Crash where
  | nilDereference
  | indexOutOfRange
deriving DecidableEq

inductive Stop (ε : Type) where
  | failed (err : ε)
  | crashed (cause : Crash)
deriving DecidableEq

section
variable {α ε δ : Type}

def fail (err : ε) : Except (Stop ε) α := .error (.failed err)

def require (c : Prop) [Decidable c] (err : ε) : Except (Stop ε) Unit :=
  if c then .ok () else fail err

def deref : Option α → Except (Stop ε) α
  | some a => .ok a
  | none => .error (.crashed .nilDereference)

def index (l : List α) (i : Nat) : Except (Stop ε) α :=
  match l[i]? with
  | some a => .ok a
  | none => .error (.crashed .indexOutOfRange)

def onError (f : ε → δ) : Except (Stop ε) α → Except (Stop δ) α
  | .ok a => .ok a
  | .error (.failed e) => .error (.failed (f e))
  | .error (.crashed c) => .error (.crashed c)

/-- The value, or nothing when the computation returned an error; a crash goes through. -/
def attempt : Except (Stop ε) α → Except (Stop δ) (Option α)
  | .ok a => .ok (some a)
  | .error (.failed _) => .ok none
  | .error (.crashed c) => .error (.crashed c)

/-- What is answered, be it by returning early or at the end. -/
def settle : Except (Stop α) α → Except Crash α
  | .ok a => .ok a
  | .error (.failed a) => .ok a
  | .error (.crashed c) => .error c

end

variable {α γ ε δ : Type}

def Safe (x : Except (Stop ε) α) : Prop := ∀ c, x ≠ .error (.crashed c)

theorem safe_ok (a : α) : Safe (.ok a : Except (Stop ε) α) := fun _ h => by cases h

theorem safe_pure (a : α) : Safe (pure a : Except (Stop ε) α) := safe_ok a

theorem safe_fail (err : ε) : Safe (fail err : Except (Stop ε) α) := fun _ h => by cases h

theorem safe_require {c : Prop} [Decidable c] (er : ε) : Safe (require c er) := by
  unfold require
  split
  · exact safe_ok ()
  · exact safe_fail er

theorem safe_bind (hx : Safe x) (hf : ∀ a, x = .ok a → Safe (f a)) : Safe (x >>= f) := by
  intro c h
  cases x with
  | error s =>
    cases h
    exact hx c rfl
  | ok a => exact hf a rfl c h

theorem Safe.of_bind (h : Safe (x >>= f)) : Safe x := by
  intro c hc
  refine h c ?_
  rw [hc]
  rfl

theorem Safe.then (h : Safe (x >>= f)) (ha : x = .ok a) : Safe (f a) := by
  subst ha
  exact h

theorem safe_deref (h : o.isSome) : Safe (deref o : Except (Stop ε) α) := by
  obtain ⟨a,rfl⟩ := Option.isSome_iff_exists.mp h
  exact safe_ok a

theorem Safe.of_deref (h : Safe (deref o : Except (Stop ε) α)) : o.isSome := by
  cases o with
  | none => exact absurd rfl (h _)
  | some a => rfl

theorem safe_index (h : i < l.length) : Safe (index l i : Except (Stop ε) α) := by
  unfold index
  rw [List.getElem?_eq_getElem h]
  exact safe_ok _

theorem Safe.of_index (h : Safe (index l i : Except (Stop ε) α)) : i < l.length := by
  by_contra hi
  unfold index at h
  rw [List.getElem?_eq_none (Nat.le_of_not_lt hi)] at h
  exact h _ rfl

theorem safe_on_error (f : ε → δ) (h : Safe x) : Safe (onError f x) := by
  intro c hc
  cases x with
  | ok a => cases hc
  | error s =>
    cases s with
    | failed e => cases hc
    | crashed k => exact h k rfl

theorem Safe.of_on_error {f : ε → δ} {x : Except (Stop ε) α} (h : Safe (onError f x)) : Safe x := by
  rintro c rfl
  exact h c rfl

theorem safe_attempt (h : Safe x) : Safe (attempt x : Except (Stop δ) (Option α)) := by
  intro c hc
  cases x with
  | ok a => cases hc
  | error s =>
    cases s with
    | failed e => cases hc
    | crashed k => exact h k rfl

theorem Safe.of_attempt {x : Except (Stop ε) α}
    (h : Safe (attempt x : Except (Stop δ) (Option α))) : Safe x := by
  rintro c rfl
  exact h c rfl

theorem safe_for {l : List γ} (h : ∀ x ∈ l, Safe (f x)) : Safe (l.forM f) := by
  induction l with
  | nil => exact safe_pure _
  | cons x xs ih =>
    rw [List.forall_mem_cons] at h
    exact safe_bind h.1 fun _ _ => ih h.2

/-- A loop whose body returns no errors goes through all of its list, or crashes. -/
theorem Safe.of_for {f : γ → Except (Stop ε) PUnit} {l : List γ} (h : Safe (l.forM f))
    (hf : ∀ x ∈ l, ∀ e, f x ≠ fail e) : ∀ x ∈ l, Safe (f x) := by
  induction l with
  | nil => exact List.forall_mem_nil _
  | cons x xs ih =>
    rw [List.forall_mem_cons] at hf
    have hx : Safe (f x) := Safe.of_bind (f := fun _ => xs.forM f) h
    refine List.forall_mem_cons.mpr ⟨hx,?_⟩
    cases hv : f x with
    | ok u => exact ih (Safe.then (f := fun _ => xs.forM f) h hv) hf.2
    | error s =>
      cases s with
      | failed e => exact absurd hv (hf.1 e)
      | crashed c => exact absurd hv (hx c)

theorem settle_safe (h : Safe x) : ∃ a, settle x = .ok a := by
  cases x with
  | ok a => exact ⟨a,rfl⟩
  | error s =>
    cases s with
    | failed a => exact ⟨a,rfl⟩
    | crashed c => exact absurd rfl (h c)

theorem settle_iff {x : Except (Stop α) α} : (∃ a, settle x = .ok a) ↔ Safe x := by
  refine ⟨?_,settle_safe⟩
  rintro ⟨a,ha⟩ c rfl
  cases ha

theorem require_ok {c : Prop} [Decidable c] : require c err = .ok u ↔ c := by
  unfold require
  split
  · rename_i h
    exact ⟨fun _ => h,fun _ => rfl⟩
  · rename_i h
    exact ⟨fun hu => (by cases hu),fun hc => absurd hc h⟩

theorem require_then {c : Prop} [Decidable c] (h : c → Safe (f ())) : Safe (require c err >>= f) :=
  safe_bind (safe_require err) fun _ hc => h (require_ok.mp hc)

theorem index_ok : (index l i : Except (Stop ε) α) = .ok a ↔ l[i]? = some a := by
  unfold index
  cases l[i]? with
  | none => exact ⟨fun h => (by cases h),fun h => (by cases h)⟩
  | some b => exact ⟨fun h => (by cases h; rfl),fun h => (by cases h; rfl)⟩

theorem on_error_ok : onError f x = .ok a ↔ x = .ok a := by
  cases x with
  | ok b => exact ⟨fun h => (by cases h; rfl),fun h => (by cases h; rfl)⟩
  | error s => cases s <;> exact ⟨fun h => (by cases h),fun h => (by cases h)⟩

theorem attempt_ok : (attempt x : Except (Stop δ) (Option α)) = .ok (some a) ↔ x = .ok a := by
  cases x with
  | ok b => exact ⟨fun h => (by cases h; rfl),fun h => (by cases h; rfl)⟩
  | error s => cases s <;> exact ⟨fun h => (by cases h),fun h => (by cases h)⟩

end Crashes
