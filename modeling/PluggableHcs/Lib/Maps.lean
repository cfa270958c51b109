import Mathlib.Data.List.AList

namespace Maps
open List AList

variable {κ α γ ε : Type}

def mapKeys {β : Type} (f : κ → Except ε β) : List ((_ : κ) × α) → Except ε (List ((_ : κ) × β))
  | [] => .ok []
  | e :: l =>
    match f e.1 with
    | .error err => .error err
    | .ok b =>
      match mapKeys f l with
      | .error err => .error err
      | .ok l => .ok (⟨e.1,b⟩ :: l)

section
variable {β : Type} {f : κ → Except ε β} {l : List ((_ : κ) × α)} {l' : List ((_ : κ) × β)}

theorem map_keys_cons (h : mapKeys f (e :: l) = .ok l') :
    ∃ b r, f e.1 = .ok b ∧ mapKeys f l = .ok r ∧ l' = ⟨e.1,b⟩ :: r := by
  rw [mapKeys] at h
  cases hf : f e.1 with
  | error er =>
    rw [hf] at h
    cases h
  | ok b =>
    rw [hf] at h
    cases hr : mapKeys f l with
    | error er =>
      rw [hr] at h
      cases h
    | ok r =>
      rw [hr] at h
      cases h
      exact ⟨b,r,rfl,rfl,rfl⟩

theorem map_keys_keys (h : mapKeys f l = .ok l') : l'.keys = l.keys := by
  induction l generalizing l' with
  | nil =>
    cases h
    rfl
  | cons e l ih =>
    obtain ⟨b,r,_,hr,rfl⟩ := map_keys_cons h
    rw [keys_cons,keys_cons,ih hr]

theorem map_keys_lookup [DecidableEq κ] (h : mapKeys f l = .ok l') (hk : k ∈ l.keys) :
    ∃ b, l'.dlookup k = some b ∧ f k = .ok b := by
  induction l generalizing l' with
  | nil => cases hk
  | cons e l ih =>
    obtain ⟨b,r,hb,hr,rfl⟩ := map_keys_cons h
    by_cases he : k = e.1
    · subst he
      exact ⟨b,dlookup_cons_eq _ _ _,hb⟩
    rw [keys_cons,mem_cons] at hk
    obtain ⟨c,hc,hf⟩ := ih hr (hk.resolve_left he)
    have hne : k ≠ (⟨e.1,b⟩ : (_ : κ) × β).1 := he
    exact ⟨c,(dlookup_cons_ne _ _ hne).trans hc,hf⟩

theorem map_keys_total (h : ∀ k ∈ l.keys, ∃ b, f k = .ok b) : ∃ l', mapKeys f l = .ok l' := by
  induction l with
  | nil => exact ⟨[],rfl⟩
  | cons e l ih =>
    rw [keys_cons] at h
    obtain ⟨⟨b,hb⟩,hl⟩ := forall_mem_cons.mp h
    obtain ⟨r,hr⟩ := ih hl
    refine ⟨⟨e.1,b⟩ :: r,?_⟩
    rw [mapKeys,hb]
    simp only [hr]

end

section
variable {β : Type} {f : κ → α → Option β} {l l' : List ((_ : κ) × α)} {k : κ}

def keep (f : κ → α → Option β) (l : List ((_ : κ) × α)) : List ((_ : κ) × β) :=
  l.filterMap fun e => (f e.1 e.2).map fun b => ⟨e.1,b⟩

theorem keep_keys : (keep f l).keys.Sublist l.keys := by
  induction l with
  | nil => exact List.Sublist.slnil
  | cons e l ih =>
    rw [keys_cons,keep,filterMap_cons]
    cases f e.1 e.2 with
    | none => exact ih.cons e.1
    | some b => exact ih.cons_cons e.1

theorem keep_lookup [DecidableEq κ] (h : l.NodupKeys) :
    (keep f l).dlookup k = (l.dlookup k).bind (f k) := by
  induction l with
  | nil => rfl
  | cons e l ih =>
    obtain ⟨a,v⟩ := e
    obtain ⟨ha,hl⟩ := nodupKeys_cons.mp h
    have hke : keep f (⟨a,v⟩ :: l) = ((f a v).map fun b => (⟨a,b⟩ : (_ : κ) × β)).toList ++ keep f l := by
      rw [keep,filterMap_cons]
      cases f a v <;> rfl
    rw [hke,dlookup_append,ih hl]
    by_cases hk : k = a
    · subst hk
      rw [dlookup_cons_eq,dlookup_eq_none.mpr ha]
      cases hf : f k v with
      | none => simp [hf]
      | some b => simp [hf]
    · have hne : k ≠ (⟨a,v⟩ : (_ : κ) × α).1 := hk
      rw [dlookup_cons_ne _ _ hne]
      cases f a v with
      | none => simp
      | some b =>
        have hs : List.dlookup k [(⟨a,b⟩ : (_ : κ) × β)] = none := by
          simpa [dlookup_eq_none] using hk
        simp [hs]

theorem nodup_keys_append [DecidableEq κ] (hl : l.NodupKeys) (hl' : l'.NodupKeys)
    (hd : ∀ k, l.dlookup k ≠ none → l'.dlookup k = none) : (l ++ l').NodupKeys := by
  rw [List.NodupKeys,List.keys,map_append]
  refine nodup_append.mpr ⟨hl,hl',?_⟩
  rintro a ha b hb rfl
  have hno := hd a fun hn => dlookup_eq_none.mp hn ha
  exact dlookup_eq_none.mp hno hb

end

variable [DecidableEq κ]

theorem forall_entries {m : AList fun _ : κ => α} {P : κ → α → Prop} :
    (∀ e ∈ m.entries, P e.1 e.2) ↔ ∀ k v, m.lookup k = some v → P k v := by
  constructor
  · intro h k v hv
    exact h ⟨k,v⟩ (mem_lookup_iff.mp hv)
  · intro h e he
    exact h e.1 e.2 (mem_lookup_iff.mpr he)

def gather (key : γ → κ) (l : List γ) (m : AList fun _ : κ => γ) : AList fun _ : κ => γ :=
  l.foldl (fun m c => m.insert (key c) c) m

theorem lookup_gather {ke : γ → κ} (hi : ∀ a ∈ l, ∀ b ∈ l, ke a = ke b → a = b) :
    (gather ke l m).lookup k = some c ↔
      (c ∈ l ∧ ke c = k) ∨ ((∀ a ∈ l, ke a ≠ k) ∧ m.lookup k = some c) := by
  induction l generalizing m with
  | nil => simp [gather]
  | cons x xs ih =>
    have hxs : ∀ a ∈ xs, ∀ b ∈ xs, ke a = ke b → a = b := fun a ha b hb =>
      hi a (mem_cons_of_mem _ ha) b (mem_cons_of_mem _ hb)
    rw [show gather ke (x :: xs) m = gather ke xs (m.insert (ke x) x) from rfl,ih hxs]
    by_cases hk : ke x = k
    · subst hk
      rw [lookup_insert]
      constructor
      · rintro (⟨hc,hkc⟩ | ⟨_,hc⟩)
        · exact .inl ⟨mem_cons_of_mem _ hc,hkc⟩
        · cases hc
          exact .inl ⟨mem_cons_self,rfl⟩
      · rintro (⟨hc,hkc⟩ | ⟨hne,_⟩)
        · cases hi c hc x mem_cons_self hkc
          by_cases hx : ∃ a ∈ xs, ke a = ke c
          · obtain ⟨a,ha,hka⟩ := hx
            cases hi a (mem_cons_of_mem _ ha) c mem_cons_self hka
            exact .inl ⟨ha,rfl⟩
          · exact .inr ⟨fun a ha hka => hx ⟨a,ha,hka⟩,rfl⟩
        · exact absurd rfl (hne x mem_cons_self)
    · rw [lookup_insert_ne (Ne.symm hk)]
      constructor
      · rintro (⟨hc,hkc⟩ | ⟨hne,hm⟩)
        · exact .inl ⟨mem_cons_of_mem _ hc,hkc⟩
        · exact .inr ⟨forall_mem_cons.mpr ⟨hk,hne⟩,hm⟩
      · rintro (⟨hc,hkc⟩ | ⟨hne,hm⟩)
        · cases hc with
          | head => exact absurd hkc hk
          | tail _ hc => exact .inl ⟨hc,hkc⟩
        · exact .inr ⟨(forall_mem_cons.mp hne).2,hm⟩

def without (skip : κ → α → Bool) (m : AList fun _ : κ => α) : AList fun _ : κ => α :=
  m.entries.foldl (fun r e => if skip e.1 e.2 then r else r.insert e.1 e.2) ∅

theorem lookup_without_entries {sk : κ → α → Bool} {l : List ((_ : κ) × α)}
    {m : AList fun _ : κ => α} (hl : l.NodupKeys) (hm : ∀ e ∈ l, e.1 ∉ m) :
    (l.foldl (fun r e => if sk e.1 e.2 then r else r.insert e.1 e.2) m).lookup k = some v ↔
      (⟨k,v⟩ ∈ l ∧ sk k v = false) ∨ m.lookup k = some v := by
  induction l generalizing m with
  | nil => simp
  | cons e l ih =>
    obtain ⟨a,b⟩ := e
    obtain ⟨ha,hl⟩ := nodupKeys_cons.mp hl
    obtain ⟨hma,hm⟩ := forall_mem_cons.mp hm
    rw [foldl_cons]
    by_cases hs : sk a b = true
    · rw [if_pos hs,ih hl hm]
      constructor
      · rintro (⟨h,hv⟩ | h)
        · exact .inl ⟨mem_cons_of_mem _ h,hv⟩
        · exact .inr h
      · rintro (⟨h,hv⟩ | h)
        · cases h with
          | head => simp [hs] at hv
          | tail _ h => exact .inl ⟨h,hv⟩
        · exact .inr h
    · have hf : ∀ e ∈ l, e.1 ∉ m.insert a b := by
        intro e he hin
        rcases (mem_insert m).mp hin with hea | hin
        · have hke : e.1 ∈ l.keys := mem_keys_of_mem he
          exact ha (hea ▸ hke)
        · exact hm e he hin
      rw [if_neg hs,ih hl hf]
      by_cases hk : k = a
      · subst hk
        rw [lookup_insert]
        constructor
        · rintro (⟨h,_⟩ | h)
          · exact absurd (mem_keys_of_mem h) ha
          · cases h
            exact .inl ⟨mem_cons_self,by simpa using hs⟩
        · rintro (⟨h,_⟩ | h)
          · cases h with
            | head => exact .inr rfl
            | tail _ h => exact absurd (mem_keys_of_mem h) ha
          · exact absurd (lookup_isSome.mp (by rw [h]; rfl)) hma
      · rw [lookup_insert_ne hk]
        constructor
        · rintro (⟨h,hv⟩ | h)
          · exact .inl ⟨mem_cons_of_mem _ h,hv⟩
          · exact .inr h
        · rintro (⟨h,hv⟩ | h)
          · cases h with
            | head => exact absurd rfl hk
            | tail _ h => exact .inl ⟨h,hv⟩
          · exact .inr h

theorem lookup_without {sk : κ → α → Bool} {m : AList fun _ : κ => α} {k : κ} :
    (without sk m).lookup k = some v ↔ m.lookup k = some v ∧ sk k v = false := by
  rw [without,lookup_without_entries m.nodupKeys (fun _ _ => notMem_empty _)]
  simp [mem_lookup_iff.symm]

end Maps
