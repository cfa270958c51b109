import Mathlib.Data.List.Basic

namespace Merkle
open List

/-- How items are hashed, and how the hashes of a level are. -/
structure Hashing (α η : Type) where
  items : List α → η
  nodes : List η → η

variable {α η : Type}

/-- What the hashes are made of: groups of items, and groups of trees. -/
inductive HashTree (α : Type)
  | leaf (items : List α)
  | node (children : List (HashTree α))

namespace HashTree

theorem induct {P : HashTree α → Prop} (leaf : ∀ xs, P (.leaf xs))
    (node : ∀ ts, (∀ t ∈ ts, P t) → P (.node ts)) (t : HashTree α) : P t := by
  refine @HashTree.rec α P (fun ts => ∀ t ∈ ts, P t) leaf node ?_ ?_ t
  · exact forall_mem_nil _
  · exact fun t ts ht hts => forall_mem_cons.mpr ⟨ht,hts⟩

mutual
def hash (H : Hashing α η) : HashTree α → η
  | .leaf items => H.items items
  | .node children => H.nodes (hashes H children)
def hashes (H : Hashing α η) : List (HashTree α) → List η
  | [] => []
  | t :: ts => t.hash H :: hashes H ts
end

mutual
def items : HashTree α → List α
  | .leaf items => items
  | .node children => itemsOf children
def itemsOf : List (HashTree α) → List α
  | [] => []
  | t :: ts => t.items ++ itemsOf ts
end

/-- A tree of a forest, or one below it. -/
inductive Within : HashTree α → List (HashTree α) → Prop
  | here (mem : t ∈ ts) : Within t ts
  | under (mem : .node us ∈ ts) (within : Within t us) : Within t ts

variable {H : Hashing α η} {t : HashTree α} {ts us : List (HashTree α)}

theorem hashes_eq : hashes H ts = ts.map (hash H) := by
  induction ts with
  | nil => rfl
  | cons t ts ih => rw [hashes,ih,map_cons]

@[simp] theorem items_of_append : itemsOf (ts ++ us) = itemsOf ts ++ itemsOf us := by
  induction ts with
  | nil => rfl
  | cons t ts ih => rw [cons_append,itemsOf,itemsOf,ih,append_assoc]

theorem items_of_singleton : itemsOf [t] = t.items := append_nil _

theorem Within.mono (h : Within t ts) (sub : ts ⊆ us) : Within t us := by
  cases h with
  | here mem => exact .here (sub mem)
  | under mem within => exact .under (sub mem) within

/-- What is hashed for a tree. -/
def input (H : Hashing α η) : HashTree α → List α ⊕ List η
  | .leaf items => .inl items
  | .node children => .inr (hashes H children)

/-- Two trees of the forests get one hash from different inputs. -/
def Collide (H : Hashing α η) (ts us : List (HashTree α)) : Prop :=
  ∃ t u, Within t ts ∧ Within u us ∧ t.input H ≠ u.input H ∧ t.hash H = u.hash H

theorem Collide.mono (h : Collide H ts us) (hts : ts ⊆ ts') (hus : us ⊆ us') :
    Collide H ts' us' := by
  obtain ⟨t,u,ht,hu,h⟩ := h
  exact ⟨t,u,ht.mono hts,hu.mono hus,h⟩

theorem Collide.below (h : Collide H ts us) : Collide H [.node ts] [.node us] := by
  obtain ⟨t,u,ht,hu,h⟩ := h
  exact ⟨t,u,.under (mem_singleton.mpr rfl) ht,.under (mem_singleton.mpr rfl) hu,h⟩

theorem collide_roots {u : HashTree α} (hne : t.input H ≠ u.input H) (heq : t.hash H = u.hash H) :
    Collide H [t] [u] :=
  ⟨t,u,.here (mem_singleton.mpr rfl),.here (mem_singleton.mpr rfl),hne,heq⟩

theorem forests_eq_or_collide
    (each : ∀ t ∈ ts, ∀ u, t.hash H = u.hash H → t = u ∨ Collide H [t] [u])
    (heq : hashes H ts = hashes H us) : ts = us ∨ Collide H ts us := by
  induction ts generalizing us with
  | nil =>
    cases us with
    | nil => exact .inl rfl
    | cons u us => cases heq
  | cons t ts ih =>
    cases us with
    | nil => cases heq
    | cons u us =>
      obtain ⟨ht,hts⟩ := List.cons.inj heq
      obtain ⟨first,rest⟩ := forall_mem_cons.mp each
      rcases first u ht with rfl | hc
      · rcases ih rest hts with rfl | hc
        · exact .inl rfl
        · exact .inr (hc.mono (subset_cons_self _ _) (subset_cons_self _ _))
      · exact .inr (hc.mono (by simp) (by simp))

theorem eq_or_collide (t : HashTree α) : ∀ u, t.hash H = u.hash H → t = u ∨ Collide H [t] [u] := by
  induction t using HashTree.induct with
  | leaf xs =>
    intro u heq
    cases u with
    | node us => exact .inr (collide_roots (by simp [input]) heq)
    | leaf ys =>
      by_cases hxy : xs = ys
      · exact .inl (congrArg _ hxy)
      · exact .inr (collide_roots (by simpa [input] using hxy) heq)
  | node ts ih =>
    intro u heq
    cases u with
    | leaf ys => exact .inr (collide_roots (by simp [input]) heq)
    | node us =>
      by_cases hh : hashes H ts = hashes H us
      · rcases forests_eq_or_collide ih hh with rfl | hc
        · exact .inl rfl
        · exact .inr hc.below
      · exact .inr (collide_roots (by simpa [input] using hh) heq)

/-- Forests with the same hashes are the same, or two different inputs of theirs have one hash. -/
theorem same_hashes (heq : ts.map (hash H) = us.map (hash H)) : ts = us ∨ Collide H ts us := by
  rw [← hashes_eq,← hashes_eq] at heq
  exact forests_eq_or_collide (fun t _ => t.eq_or_collide) heq

end HashTree

/-- The trees themselves stand for their hashes. -/
def trees : Hashing α (HashTree α) := ⟨.leaf,.node⟩

variable (H : Hashing α η) (d : Nat)

/-- A hash that joins the lowest level. A level with more than `d` hashes is hashed into the next
one, and the last one into a new level. -/
def carry (h : η) : List (List η) → List (List η)
  | [] => [[h]]
  | level :: rest =>
    if (level ++ [h]).length ≤ d then (level ++ [h]) :: rest
    else [] :: carry (H.nodes (level ++ [h])) rest

/-- The hash of what is left on a level; a single hash is not hashed again. -/
def lift : List η → Option η
  | [] => none
  | [h] => some h
  | hashes => some (H.nodes hashes)

def complete (carried : Option η) : List (List η) → Nat × List η
  | [] => (0,carried.toList)
  | [top] =>
    if d < (top ++ carried.toList).length then (2,[H.nodes (top ++ carried.toList)])
    else (1,top ++ carried.toList)
  | level :: next :: rest =>
    let upper := complete (lift H (level ++ carried.toList)) (next :: rest)
    (upper.1 + 1,upper.2)

def top (levels : List (List η)) : List η := levels.getLast?.getD []

/-- The items in the trees of all levels; lower levels have later ones. -/
def content : List (List (HashTree α)) → List α
  | [] => []
  | level :: rest => content rest ++ HashTree.itemsOf level

variable {H d}

theorem carry_content (t : HashTree α) (levels : List (List (HashTree α))) :
    content (carry trees d t levels) = content levels ++ t.items := by
  induction levels generalizing t with
  | nil => simp [carry,content,HashTree.items_of_singleton]
  | cons level rest ih =>
    rw [carry]
    split
    · simp [content,HashTree.items_of_singleton]
    · have hn : (trees.nodes (level ++ [t])).items = HashTree.itemsOf (level ++ [t]) := rfl
      simp [content,ih,hn,HashTree.itemsOf]

theorem lift_items (ts : List (HashTree α)) :
    HashTree.itemsOf (lift trees ts).toList = HashTree.itemsOf ts := by
  unfold lift
  split
  · rfl
  · rfl
  · rw [Option.toList_some,HashTree.items_of_singleton]
    rfl

theorem complete_items (carried : Option (HashTree α)) (levels : List (List (HashTree α))) :
    HashTree.itemsOf (complete trees d carried levels).2 =
      content levels ++ HashTree.itemsOf carried.toList := by
  induction levels generalizing carried with
  | nil => rfl
  | cons level rest ih =>
    cases rest with
    | nil =>
      rw [complete]
      split
      · rw [HashTree.items_of_singleton]
        simp [trees,HashTree.items,content]
      · simp [content]
    | cons next rest =>
      rw [complete]
      dsimp only
      rw [ih,lift_items,HashTree.items_of_append,← append_assoc]
      rfl

theorem carry_hash (t : HashTree α) (levels : List (List (HashTree α))) :
    carry H d (t.hash H) (levels.map (map (HashTree.hash H))) =
      (carry trees d t levels).map (map (HashTree.hash H)) := by
  induction levels generalizing t with
  | nil => rfl
  | cons level rest ih =>
    have hl : level.map (HashTree.hash H) ++ [t.hash H] = (level ++ [t]).map (HashTree.hash H) := by simp
    rw [map_cons,carry,carry,hl,length_map]
    split
    · rfl
    · rw [map_cons,map_nil,← ih]
      congr 2
      rw [← HashTree.hashes_eq]
      rfl

theorem lift_hash (ts : List (HashTree α)) :
    lift H (ts.map (HashTree.hash H)) = (lift trees ts).map (HashTree.hash H) := by
  match ts with
  | [] => rfl
  | [t] => rfl
  | t :: u :: ts =>
    rw [← HashTree.hashes_eq]
    rfl

theorem complete_hash (carried : Option (HashTree α)) (levels : List (List (HashTree α))) :
    complete H d (carried.map (HashTree.hash H)) (levels.map (map (HashTree.hash H))) =
      ((complete trees d carried levels).1,(complete trees d carried levels).2.map (HashTree.hash H)) := by
  have joined (level : List (HashTree α)) (carried : Option (HashTree α)) :
      level.map (HashTree.hash H) ++ (carried.map (HashTree.hash H)).toList =
        (level ++ carried.toList).map (HashTree.hash H) := by
    cases carried <;> simp
  induction levels generalizing carried with
  | nil => cases carried <;> rfl
  | cons level rest ih =>
    cases rest with
    | nil =>
      rw [map_cons,map_nil,complete,complete,joined,length_map]
      split
      · rw [← HashTree.hashes_eq]
        rfl
      · rfl
    | cons next rest =>
      rw [map_cons,map_cons,complete,complete,joined,lift_hash,← map_cons,ih]

/-- Levels on the way to a last level with the given hashes. -/
def Reaches (levels : List (List η)) (final : Nat × List η) : Prop :=
  levels.length < final.1 ∨ levels.length = final.1 ∧ top levels <+: final.2

theorem top_cons (h : levels ≠ []) : top (l :: levels) = top levels := by
  unfold top
  rw [List.getLast?_cons_of_ne_nil h]

theorem carry_top (H : Hashing α η) (d : Nat) (g : η) (h : ls ≠ []) : carry H d g ls ≠ [] ∧
    ((carry H d g ls).length = ls.length ∧
      (top (carry H d g ls) = top ls ∨ ∃ x, top (carry H d g ls) = top ls ++ [x]) ∨
    (carry H d g ls).length = ls.length + 1 ∧ d ≤ (top ls).length ∧
      ∃ x, top (carry H d g ls) = [x]) := by
  induction ls generalizing g with
  | nil => exact absurd rfl h
  | cons l re ih =>
    rw [carry]
    by_cases hf : (l ++ [g]).length ≤ d
    · rw [if_pos hf]
      refine ⟨cons_ne_nil _ _,.inl ⟨rfl,?_⟩⟩
      cases re with
      | nil => exact .inr ⟨g,rfl⟩
      | cons next re =>
        rw [top_cons (cons_ne_nil _ _),top_cons (cons_ne_nil _ _)]
        exact .inl rfl
    · rw [if_neg hf]
      refine ⟨cons_ne_nil _ _,?_⟩
      cases re with
      | nil =>
        rw [length_append,length_singleton] at hf
        exact .inr ⟨rfl,Nat.le_of_lt_succ (Nat.lt_of_not_le hf),_,rfl⟩
      | cons next re =>
        obtain ⟨hne,hc⟩ := ih (H.nodes (l ++ [g])) (cons_ne_nil _ _)
        rw [top_cons hne,top_cons (cons_ne_nil next re)]
        simpa only [length_cons,Nat.add_right_cancel_iff] using hc

theorem carry_reached (H : Hashing α η) (d : Nat) (g : η) (h : ls ≠ []) :
    Reaches ls ((carry H d g ls).length,top (carry H d g ls)) := by
  obtain ⟨_,⟨hl,heq | ⟨x,hx⟩⟩ | ⟨hl,_⟩⟩ := carry_top H d g h
  · exact .inr ⟨hl.symm,heq ▸ prefix_rfl⟩
  · exact .inr ⟨hl.symm,hx ▸ prefix_append _ _⟩
  · exact .inl (hl ▸ Nat.lt_succ_self _)

theorem Reaches.trans {final : Nat × List η}
    (h : Reaches ls (ls'.length,top ls')) (h' : Reaches ls' final) :
    Reaches ls final := by
  rcases h with hlt | ⟨heq,hp⟩
  · rcases h' with hlt' | ⟨heq',_⟩
    · exact .inl (Nat.lt_trans hlt hlt')
    · exact .inl (heq' ▸ hlt)
  · rcases h' with hlt' | ⟨heq',hp'⟩
    · exact .inl (heq ▸ hlt')
    · exact .inr ⟨heq.trans heq',hp.trans hp'⟩

theorem complete_reached (H : Hashing α η) (d : Nat) (ca : Option η)
    (h : ls ≠ []) : Reaches ls (complete H d ca ls) := by
  induction ls generalizing ca with
  | nil => exact absurd rfl h
  | cons l re ih =>
    cases re with
    | nil =>
      rw [complete]
      split
      · exact .inl (Nat.lt_succ_self 1)
      · exact .inr ⟨rfl,prefix_append _ _⟩
    | cons next re =>
      rw [complete]
      rcases ih (lift H (l ++ ca.toList)) (cons_ne_nil _ _) with hlt | ⟨heq,hp⟩
      · exact .inl (Nat.succ_lt_succ hlt)
      · refine .inr ⟨congrArg Nat.succ heq,?_⟩
        exact hp

end Merkle
