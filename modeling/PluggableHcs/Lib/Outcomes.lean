import Mathlib.Data.List.Basic

namespace Outcomes

variable {α γ ε : Type}

def okValue (e : Except ε α) (h : e.toOption.isSome) : α := e.toOption.get h

theorem ok_value_eq {e : Except ε α} (h : e.toOption.isSome) : e = .ok (okValue e h) := by
  unfold okValue
  cases e with
  | error er => simp [Except.toOption] at h
  | ok a => rfl

theorem is_ok_unit {e : Except ε Unit} : e.isOk = true ↔ e = .ok () := by
  cases e with
  | error err | ok _ => simp [Except.isOk,Except.toBool]

theorem bind_ok {f : α → Except ε γ} : (x >>= f) = .ok c ↔ ∃ a, x = .ok a ∧ f a = .ok c := by
  cases x with
  | error e | ok a => simp [bind,Except.bind]

theorem bind_pure_error {x : Except ε α} {f : α → γ} :
    (x >>= fun a => pure (f a)) = .error e ↔ x = .error e := by
  cases x with
  | error e => simp [bind,Except.bind]
  | ok a => simp [bind,Except.bind,pure,Except.pure]

theorem map_ok {x : Except ε α} : x.map f = .ok c ↔ ∃ a, x = .ok a ∧ f a = c := by
  cases x with
  | error e | ok a => simp [Except.map]

theorem map_error_ok {δ : Type} {x : Except ε α} {f : ε → δ} :
    x.mapError f = .ok a ↔ x = .ok a := by
  cases x with
  | error e | ok a => simp [Except.mapError]

theorem for_ok {f : γ → Except ε PUnit} {l : List γ} :
    l.forM f = .ok ⟨⟩ ↔ ∀ x ∈ l, f x = .ok ⟨⟩ := by
  induction l with
  | nil => simp [pure,Except.pure]
  | cons x xs ih =>
    rw [show (x :: xs).forM f = (f x >>= fun _ => xs.forM f) from rfl,List.forall_mem_cons,← ih]
    cases f x with
    | error e | ok u => simp [bind,Except.bind]

end Outcomes
