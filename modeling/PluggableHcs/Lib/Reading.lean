import PluggableHcs.Lib.Outcomes

namespace Readings
open List

/-- A computation that reads from a store: how often it does, and what comes out when none of the
reads fails. -/
structure Reading (ε α : Type) where
  reads : Nat
  result : Except ε α

variable {ε α β : Type}

instance : Monad (Reading ε) where
  pure a := ⟨0,.ok a⟩
  bind m f :=
    match m.result with
    | .error e => ⟨m.reads,.error e⟩
    | .ok a => ⟨m.reads + (f a).reads,(f a).result⟩

def read (a : α) : Reading ε α := ⟨1,.ok a⟩

def raise (e : ε) : Reading ε α := ⟨0,.error e⟩

@[simp] theorem result_pure (a : α) : (pure a : Reading ε α).result = .ok a := rfl

@[simp] theorem result_read (a : α) : (read a : Reading ε α).result = .ok a := rfl

@[simp] theorem result_raise (e : ε) : (raise e : Reading ε α).result = .error e := rfl

@[simp] theorem result_bind {f : α → Reading ε β} :
    (m >>= f).result = m.result.bind fun a => (f a).result := by
  obtain ⟨n,re⟩ := m
  cases re <;> rfl

@[simp] theorem ok_bind (a : α) (f : α → Except ε β) : (Except.ok a).bind f = f a := rfl

@[simp] theorem error_bind (e : ε) (f : α → Except ε β) : (Except.error e).bind f = .error e := rfl

theorem result_bind_ok {f : α → Reading ε β} (h : m.result = .ok a) :
    (m >>= f).result = (f a).result := by
  rw [result_bind,h]
  rfl

/-- The first element of a list for which something does not hold. -/
inductive First (p : α → Prop) : List α → α → Prop
  | head (fails : ¬ p x) : First p (x :: xs) x
  | tail (holds : p y) (rest : First p xs x) : First p (y :: xs) x

namespace First
variable {p : α → Prop} {xs : List α} {x y : α}

theorem fails (h : First p xs x) : ¬ p x := by
  induction h with
  | head fails => exact fails
  | tail _ _ ih => exact ih

theorem mem (h : First p xs x) : x ∈ xs := by
  induction h with
  | head => exact mem_cons_self
  | tail _ _ ih => exact mem_cons_of_mem _ ih

theorem unique (h : First p xs x) (h' : First p xs y) : x = y := by
  induction h with
  | head fs =>
    cases h' with
    | head => rfl
    | tail hs => exact absurd hs fs
  | tail hs _ ih =>
    cases h' with
    | head fs => exact absurd hs fs
    | tail _ re => exact ih re

theorem or_all (p : α → Prop) (xs : List α) : (∃ x, First p xs x) ∨ ∀ x ∈ xs, p x := by
  induction xs with
  | nil => exact .inr (forall_mem_nil _)
  | cons y xs ih =>
    by_cases hy : p y
    · rcases ih with ⟨x,hx⟩ | ha
      · exact .inl ⟨x,.tail hy hx⟩
      · exact .inr (forall_mem_cons.mpr ⟨hy,ha⟩)
    · exact .inl ⟨y,.head hy⟩

end First

/-- A loop that stops at the first element that does not pass. -/
def every (f : α → Reading ε Bool) : List α → Reading ε Bool
  | [] => pure true
  | x :: xs => do
    if ← f x then every f xs else pure false

section
variable {f : α → Reading ε Bool} {x : α} {xs : List α}

theorem every_cons_true (h : (f x).result = .ok true) :
    (every f (x :: xs)).result = (every f xs).result :=
  result_bind_ok h

theorem every_cons_stop (h : (f x).result ≠ .ok true) :
    (every f (x :: xs)).result = (f x).result := by
  rw [every,result_bind]
  cases hx : (f x).result with
  | error e => rfl
  | ok pa =>
    cases pa with
    | false => rfl
    | true => exact absurd hx h

theorem every_true : (every f xs).result = .ok true ↔ ∀ x ∈ xs, (f x).result = .ok true := by
  induction xs with
  | nil => simp [every]
  | cons x xs ih =>
    rw [forall_mem_cons,← ih]
    by_cases hx : (f x).result = .ok true
    · rw [every_cons_true hx]
      exact (and_iff_right hx).symm
    · rw [every_cons_stop hx]
      exact ⟨fun h => absurd h hx,fun h => absurd h.1 hx⟩

theorem every_first (h : First (fun x => (f x).result = .ok true) xs x) :
    (every f xs).result = (f x).result := by
  induction h with
  | head fs => exact every_cons_stop fs
  | tail hs _ ih => exact (every_cons_true hs).trans ih

theorem every_stopped (h : (every f xs).result ≠ .ok true) :
    ∃ x, First (fun x => (f x).result = .ok true) xs x ∧ (every f xs).result = (f x).result := by
  rcases First.or_all (fun x => (f x).result = .ok true) xs with ⟨x,hx⟩ | ha
  · exact ⟨x,hx,every_first hx⟩
  · exact absurd (every_true.mpr ha) h

theorem every_false (h : (every f xs).result = .ok false) : ∃ x ∈ xs, (f x).result = .ok false := by
  have hs : (every f xs).result ≠ .ok true := by
    rw [h]
    simp
  obtain ⟨x,hx,heq⟩ := every_stopped hs
  exact ⟨x,hx.mem,heq.symm.trans h⟩

theorem every_append (h : (every f xs).result = .ok true) :
    (every f (xs ++ ys)).result = (every f ys).result := by
  induction xs with
  | nil => rfl
  | cons x xs ih =>
    obtain ⟨hx,hxs⟩ := forall_mem_cons.mp (every_true.mp h)
    rw [cons_append,every_cons_true hx,ih (every_true.mpr hxs)]

theorem every_append_stop (h : (every f xs).result ≠ .ok true) :
    (every f (xs ++ ys)).result = (every f xs).result := by
  obtain ⟨x,hx,heq⟩ := every_stopped h
  rw [heq]
  refine every_first ?_
  clear h heq
  induction hx with
  | head fs => exact .head fs
  | tail hs _ ih => exact .tail hs ih

theorem every_map (g : β → α) (ys : List β) :
    (every f (ys.map g)).result = (every (fun y => f (g y)) ys).result := by
  induction ys with
  | nil => rfl
  | cons y ys ih =>
    by_cases hy : (f (g y)).result = .ok true
    · rw [map_cons,every_cons_true hy,ih]
      exact (every_cons_true (f := fun y => f (g y)) hy).symm
    · rw [map_cons,every_cons_stop hy]
      exact (every_cons_stop (f := fun y => f (g y)) hy).symm

theorem every_flat_map (g : β → List α) (ys : List β) :
    (every f (ys.flatMap g)).result = (every (fun y => every f (g y)) ys).result := by
  induction ys with
  | nil => rfl
  | cons y ys ih =>
    rw [flatMap_cons]
    by_cases hy : (every f (g y)).result = .ok true
    · rw [every_append hy,ih]
      exact (every_cons_true (f := fun y => every f (g y)) hy).symm
    · rw [every_append_stop hy]
      exact (every_cons_stop (f := fun y => every f (g y)) hy).symm

theorem every_congr {g : α → Reading ε Bool} (h : ∀ x ∈ xs, (f x).result = (g x).result) :
    (every f xs).result = (every g xs).result := by
  induction xs with
  | nil => rfl
  | cons x xs ih =>
    obtain ⟨hx,hxs⟩ := forall_mem_cons.mp h
    rw [every,every,result_bind,result_bind,hx]
    refine congrArg _ (funext fun pa => ?_)
    cases pa
    · rfl
    · exact ih hxs

end

def collect (f : α → Reading ε (Option β)) : List α → Reading ε (List β)
  | [] => pure []
  | x :: xs => do
    let y ← f x
    let ys ← collect f xs
    pure (y.toList ++ ys)

theorem collect_ok {f : α → Reading ε (Option β)} {g : α → Option β} {xs : List α}
    (h : ∀ x ∈ xs, (f x).result = .ok (g x)) : (collect f xs).result = .ok (xs.filterMap g) := by
  induction xs with
  | nil => rfl
  | cons x xs ih =>
    obtain ⟨hx,hxs⟩ := forall_mem_cons.mp h
    rw [collect,result_bind_ok hx,result_bind_ok (ih hxs),filterMap_cons]
    cases g x <;> rfl

/-- A run from time `t` on, where each read takes one unit and those that `fault` names fail:
what comes out, and the time then. -/
def Reading.run (fault : Nat → Bool) (failed : ε) (m : Reading ε α) (t : Nat) : Except ε α × Nat :=
  match (List.range m.reads).find? fun i => fault (t + i) with
  | some i => (.error failed,t + i + 1)
  | none => (m.result,t + m.reads)

def Reading.Undisturbed (fault : Nat → Bool) (m : Reading ε α) (t : Nat) : Prop :=
  ∀ i < m.reads, fault (t + i) = false

instance {fault : Nat → Bool} {m : Reading ε α} {t : Nat} : Decidable (m.Undisturbed fault t) :=
  inferInstanceAs (Decidable (∀ i < m.reads, fault (t + i) = false))

variable {f : Nat → Bool} {failed : ε} {m : Reading ε α} {t : Nat}

theorem run_undisturbed (h : m.Undisturbed f t) : m.run f failed t = (m.result,t + m.reads) := by
  have hn : (List.range m.reads).find? (fun i => f (t + i)) = none := by
    rw [List.find?_eq_none]
    intro i hi
    rw [h i (mem_range.mp hi)]
    exact Bool.false_ne_true
  rw [Reading.run,hn]

theorem run_disturbed (h : ¬ m.Undisturbed f t) : (m.run f failed t).1 = .error failed := by
  rw [Reading.run]
  cases hf : (List.range m.reads).find? fun i => f (t + i) with
  | some i => rfl
  | none =>
    refine absurd (fun i hi => ?_) h
    exact Bool.eq_false_iff.mpr (List.find?_eq_none.mp hf i (mem_range.mpr hi))

theorem run_ok (h : m.run f failed t = (.ok a,t')) : m.Undisturbed f t ∧ m.result = .ok a := by
  by_cases hq : m.Undisturbed f t
  · rw [run_undisturbed hq] at h
    exact ⟨hq,congrArg Prod.fst h⟩
  have he : (m.run f failed t).1 = .error failed := run_disturbed hq
  rw [h] at he
  cases he

theorem run_quiet : m.run (fun _ => false) failed t = (m.result,t + m.reads) :=
  run_undisturbed fun _ _ => rfl

end Readings
