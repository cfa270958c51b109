import Mathlib.Order.Lattice
import Mathlib.Data.List.Induction

namespace Cuts
open List

/-- A block of a stamped log: the items it holds, and the stamp up to which it says that the
log is in blocks. -/
structure Block (τ α : Type) where
  items : List α
  mark : τ

def held (blocks : List (Block τ α)) : List α := blocks.flatMap Block.items

def lastMark (start : τ) (blocks : List (Block τ α)) : τ :=
  (blocks.getLast?.map Block.mark).getD start

theorem last_mark_snoc (sa : τ) (bs : List (Block τ α)) (b : Block τ α) :
    lastMark sa (bs ++ [b]) = b.mark := by
  simp [lastMark]

theorem held_snoc (bs : List (Block τ α)) (b : Block τ α) :
    held (bs ++ [b]) = held bs ++ b.items := by
  simp [held]

variable {τ α : Type} [LinearOrder τ] {start now t mark : τ} {a : α}
variable {blocks : List (Block τ α)} {pending : List α} {log : List (τ × α)}

/-- Every block's mark cuts the log exactly after the items that the blocks hold up to it, and
the marks increase. -/
structure Exact (start : τ) (blocks : List (Block τ α)) (log : List (τ × α)) : Prop where
  cut : ∀ as b bs, blocks = as ++ b :: bs → ∀ i t a, log[i]? = some (t,a) →
    (t ≤ b.mark ↔ i < (held (as ++ [b])).length)
  increasing : (start :: blocks.map Block.mark).Pairwise (· < ·)

theorem le_last_mark (h : (start :: blocks.map Block.mark).Pairwise (· < ·)) :
    ∀ m ∈ start :: blocks.map Block.mark, m ≤ lastMark start blocks := by
  induction blocks using List.reverseRecOn with
  | nil => simp [lastMark]
  | append_singleton blocks b ih =>
    rw [last_mark_snoc]
    rw [map_append,← cons_append,pairwise_append] at h
    intro m hm
    rw [map_append,← cons_append,mem_append] at hm
    obtain hm | hm := hm
    · exact (h.2.2 m hm b.mark (by simp)).le
    · simp only [map_cons,map_nil,mem_singleton] at hm
      exact hm.le

theorem increasing_snoc (b : Block τ α) :
    (start :: (blocks ++ [b]).map Block.mark).Pairwise (· < ·) ↔
      (start :: blocks.map Block.mark).Pairwise (· < ·) ∧ lastMark start blocks < b.mark := by
  rw [map_append,← cons_append,pairwise_append]
  constructor
  · intro h
    refine ⟨h.1,h.2.2 _ ?_ b.mark (by simp)⟩
    unfold lastMark
    cases hl : blocks.getLast? with
    | none => simp
    | some d =>
      exact mem_cons_of_mem _ (mem_map_of_mem (mem_of_getLast? hl))
  · intro h
    refine ⟨h.1,by simp,?_⟩
    intro m hm m' hm'
    simp only [map_cons,map_nil,mem_singleton] at hm'
    subst hm'
    exact (le_last_mark h.1 m hm).trans_lt h.2

theorem not_exact_same (h : mark = lastMark start blocks) :
    ¬ Exact start (blocks ++ [⟨pending,mark⟩]) log := by
  intro he
  have hlt := ((increasing_snoc _).mp he.increasing).2
  simp only [h] at hlt
  exact lt_irrefl _ hlt

theorem Exact.dropLast {b : Block τ α} (h : Exact start (blocks ++ [b]) log) :
    Exact start blocks log := by
  refine ⟨?_,((increasing_snoc b).mp h.increasing).1⟩
  intro as d bs hs
  exact h.cut as d (bs ++ [b]) (by rw [hs]; simp)

structure Tally (start now : τ) (blocks : List (Block τ α)) (pending : List α)
    (log : List (τ × α)) : Prop where
  placed : held blocks ++ pending = log.map Prod.snd
  stamps : ∀ m ∈ log, start < m.1 ∧ m.1 ≤ now
  marks : ∀ b ∈ blocks, b.mark ≤ now
  started : start ≤ now

variable (h : Tally start now blocks pending log)
include h

theorem Tally.later (hle : now ≤ t) : Tally start t blocks pending log :=
  ⟨h.placed,fun m hm => ⟨(h.stamps m hm).1,(h.stamps m hm).2.trans hle⟩,
    fun b hb => (h.marks b hb).trans hle,h.started.trans hle⟩

theorem Tally.held_length : (held blocks).length + pending.length = log.length := by
  have hl := congrArg List.length h.placed
  simpa using hl

theorem Tally.last_mark_le : lastMark start blocks ≤ now := by
  unfold lastMark
  cases hl : blocks.getLast? with
  | none => exact h.started
  | some b => exact h.marks b (mem_of_getLast? hl)

theorem Tally.push (ht : now < t) (a : α) :
    Tally start t blocks (pending ++ [a]) (log ++ [(t,a)]) where
  placed := by simp [← append_assoc,h.placed]
  stamps := by
    intro m hm
    obtain hm | hm := mem_append.mp hm
    · exact (h.later ht.le).stamps m hm
    · rw [mem_singleton.mp hm]
      exact ⟨h.started.trans_lt ht,le_refl t⟩
  marks := (h.later ht.le).marks
  started := h.started.trans ht.le

theorem Tally.cut (hle : mark ≤ now) : Tally start now (blocks ++ [⟨pending,mark⟩]) [] log where
  placed := by simpa [held_snoc] using h.placed
  stamps := h.stamps
  marks := by
    intro b hb
    obtain hb | hb := mem_append.mp hb
    · exact h.marks b hb
    · rw [mem_singleton.mp hb]
      exact hle
  started := h.started

theorem Tally.exact_push (ht : now < t) (a : α) :
    Exact start blocks (log ++ [(t,a)]) ↔ Exact start blocks log := by
  constructor
  · intro he
    refine ⟨?_,he.increasing⟩
    intro as b bs hs i u c hi
    refine he.cut as b bs hs i u c ?_
    rw [List.getElem?_append_left (List.getElem?_eq_some_iff.mp hi).1]
    exact hi
  · intro he
    refine ⟨?_,he.increasing⟩
    intro as b bs hs i u c hi
    by_cases hlt : i < log.length
    · rw [List.getElem?_append_left hlt] at hi
      exact he.cut as b bs hs i u c hi
    rw [List.getElem?_append_right (Nat.not_lt.mp hlt)] at hi
    have hu : u = t := by
      have hm := mem_of_getElem? hi
      simp only [mem_singleton,Prod.mk.injEq] at hm
      exact hm.1
    subst hu
    have hma : b.mark < u := (h.marks b (by simp [hs])).trans_lt ht
    have hl := h.held_length
    have hsu : (held (as ++ [b])).length ≤ (held blocks).length := by
      rw [hs]
      simp [held]
    refine iff_of_false (not_le.mpr hma) ?_
    omega

theorem Tally.exact_cut (ha : ∀ m ∈ log, m.1 ≤ mark) (hlt : lastMark start blocks < mark) :
    Exact start (blocks ++ [⟨pending,mark⟩]) log ↔ Exact start blocks log := by
  refine ⟨Exact.dropLast,fun he => ⟨?_,(increasing_snoc _).mpr ⟨he.increasing,hlt⟩⟩⟩
  intro as b bs hs i u c hi
  obtain rfl | ⟨bs,l,rfl⟩ := eq_nil_or_concat bs
  · obtain ⟨rfl,hb⟩ := append_inj' hs rfl
    rw [singleton_inj] at hb
    subst hb
    have hh := h.held_length
    refine iff_of_true (ha _ (mem_of_getElem? hi)) ?_
    rw [held_snoc,length_append,hh]
    exact (List.getElem?_eq_some_iff.mp hi).1
  · rw [concat_eq_append,← cons_append,← append_assoc] at hs
    exact he.cut as b bs (append_inj' hs rfl).1 i u c hi

theorem Tally.last_mark_lt (he : Exact start blocks log)
    (hp : pending ≠ []) (ha : ∀ m ∈ log, m.1 ≤ mark) : lastMark start blocks < mark := by
  have hln := h.held_length
  have hpo := length_pos_iff.mpr hp
  obtain ⟨⟨t,a⟩,hl⟩ : ∃ m, log[log.length - 1]? = some m :=
    ⟨_,List.getElem?_eq_getElem (by omega)⟩
  have hm := mem_of_getElem? hl
  refine lt_of_lt_of_le ?_ (ha _ hm)
  induction blocks using List.reverseRecOn with
  | nil => exact (h.stamps _ hm).1
  | append_singleton blocks b _ =>
    rw [last_mark_snoc]
    by_contra hle
    have hin := (he.cut blocks b [] rfl _ _ _ hl).mp (not_lt.mp hle)
    omega

end Cuts
