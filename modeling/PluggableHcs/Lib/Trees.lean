import Mathlib.Data.List.Infix
import Mathlib.Order.Lattice

namespace Trees
open Classical List Option

variable {κ α ν : Type}

/-- What stands at each place of a tree. A place is a kind and the names from it up to the root; a
child has one name more in front. -/
abbrev Layout (κ α ν : Type) := κ → List α → Option ν

/-- Which kind of node has children, and which children a node says it has. -/
structure Shape (κ α ν : Type) where
  inner : κ
  lists : ν → κ → α → Prop

open Shape

/-- Everything in the layout is listed by an inner node above it. -/
structure Shape.Closed (s : Shape κ α ν) (m : Layout κ α ν) : Prop where
  root : ∀ {k v}, m k [] = some v → k = s.inner
  listed : ∀ {k n ns v}, m k (n :: ns) = some v → ∃ w, m s.inner ns = some w ∧ s.lists w k n

def Shape.Complete (s : Shape κ α ν) (m : Layout κ α ν) : Prop :=
  ∀ {ns w k n}, m s.inner ns = some w → s.lists w k n → ∃ v, m k (n :: ns) = some v

/-- What is left of a layout when only listed nodes are kept, from the root down. -/
noncomputable def Shape.reach (s : Shape κ α ν) (m : Layout κ α ν) : Layout κ α ν
  | k,[] => if k = s.inner then m k [] else none
  | k,n :: ns => (s.reach m s.inner ns).bind fun w => if s.lists w k n then m k (n :: ns) else none

def overlay (d m : Layout κ α ν) : Layout κ α ν :=
  fun k ns => (d k ns).or (m k ns)

variable {s : Shape κ α ν} {m m' c w d : Layout κ α ν} {k : κ} {n : α} {ns : List α} {v u : ν}

theorem Shape.reach_root : s.reach m s.inner [] = m s.inner [] := by
  simp [reach]

theorem Shape.reach_cons : s.reach m k (n :: ns) = some v ↔
    ∃ w, s.reach m s.inner ns = some w ∧ s.lists w k n ∧ m k (n :: ns) = some v := by
  rw [reach]
  constructor
  · intro h
    obtain ⟨w,hw,hv⟩ := bind_eq_some_iff.mp h
    split_ifs at hv with hl
    exact ⟨w,hw,hl,hv⟩
  · rintro ⟨w,hw,hl,hv⟩
    rw [hw,bind_some,if_pos hl,hv]

theorem Shape.reach_le (h : s.reach m k ns = some v) : m k ns = some v := by
  cases ns with
  | nil =>
    rw [reach] at h
    split_ifs at h
    exact h
  | cons n ns =>
    obtain ⟨_,_,_,hv⟩ := reach_cons.mp h
    exact hv

theorem Shape.reach_closed : s.Closed (s.reach m) where
  root := by
    intro k v h
    rw [reach] at h
    split_ifs at h with hk
    exact hk
  listed := by
    intro k n ns v h
    obtain ⟨w,hw,hl,_⟩ := reach_cons.mp h
    exact ⟨w,hw,hl⟩

theorem Shape.Closed.reach_eq (hm : s.Closed m) : s.reach m k ns = m k ns := by
  refine Option.ext fun v => ⟨reach_le,?_⟩
  intro hv
  induction ns generalizing k v with
  | nil =>
    obtain rfl := hm.root hv
    exact reach_root.trans hv
  | cons n ns ih =>
    obtain ⟨w,hw,hl⟩ := hm.listed hv
    exact reach_cons.mpr ⟨w,ih w hw,hl,hv⟩

theorem Shape.reach_congr (hr : m s.inner [] = m' s.inner [])
    (h : ∀ {k n ns v}, s.reach m' s.inner ns = some v → s.lists v k n → m k (n :: ns) = m' k (n :: ns)) :
    s.reach m k ns = s.reach m' k ns := by
  induction ns generalizing k with
  | nil =>
    by_cases hk : k = s.inner
    · subst hk
      rw [reach_root,reach_root,hr]
    · simp [reach,hk]
  | cons n ns ih =>
    rw [reach,reach,ih]
    cases hv : s.reach m' s.inner ns with
    | none => rfl
    | some v =>
      rw [bind_some,bind_some]
      by_cases hl : s.lists v k n
      · rw [if_pos hl,if_pos hl,h hv hl]
      · rw [if_neg hl,if_neg hl]

def below (a : α) (m : Layout κ α ν) : Layout κ α ν :=
  fun k ns => m k (ns ++ [a])

theorem Shape.reach_below (hm : m s.inner [] = some v) (hl : s.lists v s.inner a)
    (hk : ns = [] → k = s.inner) : s.reach m k (ns ++ [a]) = s.reach (below a m) k ns := by
  induction ns generalizing k with
  | nil =>
    cases hk rfl
    rw [nil_append,reach_root,reach,reach_root,hm,bind_some,if_pos hl]
    rfl
  | cons n ns ih =>
    rw [cons_append,reach,reach,ih fun _ => rfl]
    rfl

theorem Shape.reach_unlisted (hl : ∀ v, m s.inner [] = some v → ¬ s.lists v s.inner a)
    (hk : ns = [] → k = s.inner) : s.reach m k (ns ++ [a]) = none := by
  induction ns generalizing k with
  | nil =>
    cases hk rfl
    by_contra h
    obtain ⟨v,hv⟩ := ne_none_iff_exists'.mp h
    obtain ⟨w,hw,hlw,_⟩ := reach_cons.mp hv
    rw [reach_root] at hw
    exact hl w hw hlw
  | cons n ns ih =>
    rw [cons_append,reach,ih fun _ => rfl]
    rfl

theorem overlay_some (h : d k ns = some v) : overlay d m k ns = some v := by
  rw [overlay,h]
  rfl

theorem overlay_none (h : d k ns = none) : overlay d m k ns = m k ns := by
  rw [overlay,h]
  rfl

theorem overlay_cases (h : overlay d m k ns = some v) :
    d k ns = some v ∨ d k ns = none ∧ m k ns = some v := by
  cases hd : d k ns with
  | none =>
    rw [overlay_none hd] at h
    exact Or.inr ⟨rfl,h⟩
  | some u =>
    rw [overlay_some hd] at h
    exact Or.inl h

structure Shape.Patch (s : Shape κ α ν) (c w d : Layout κ α ν) : Prop where
  closed : s.Closed w
  complete : s.Complete w
  part : ∀ {k ns v}, d k ns = some v → w k ns = some v
  covered : ∀ {k ns v}, w k ns = some v → d k ns = none → ∃ u, c k ns = some u

theorem Shape.Patch.over_covered (p : s.Patch c w d) (h : w k ns = some v) :
    ∃ u, overlay d c k ns = some u := by
  cases hd : d k ns with
  | none =>
    obtain ⟨u,hu⟩ := p.covered h hd
    exact ⟨u,(overlay_none hd).trans hu⟩
  | some u => exact ⟨u,overlay_some hd⟩

theorem Shape.Patch.over_complete (p : s.Patch c w d) (hc : s.Complete c) :
    s.Complete (overlay d c) := by
  intro ns v k n hv hl
  rcases overlay_cases hv with hd | ⟨hd,hv⟩
  · obtain ⟨u,hu⟩ := p.complete (p.part hd) hl
    exact p.over_covered hu
  obtain ⟨u,hu⟩ := hc hv hl
  cases hdu : d k (n :: ns) with
  | none => exact ⟨u,(overlay_none hdu).trans hu⟩
  | some u => exact ⟨u,overlay_some hdu⟩

theorem Shape.Patch.reached_iff (p : s.Patch c w d) (hc : s.Closed c) (hcc : s.Complete c) :
    (∀ k ns v, w k ns = some v → s.reach (overlay d c) k ns ≠ none) ↔
      ∀ k n ns v, w k (n :: ns) = some v → c k (n :: ns) = none → d s.inner ns ≠ none := by
  constructor
  · intro h k n ns v hw hn hd
    obtain ⟨u,hu⟩ := ne_none_iff_exists'.mp (h k (n :: ns) v hw)
    obtain ⟨o,ho,hl,_⟩ := reach_cons.mp hu
    have ho : c s.inner ns = some o := (overlay_none hd).symm.trans (reach_le ho)
    obtain ⟨x,hx⟩ := hcc ho hl
    rw [hn] at hx
    cases hx
  · intro h k ns
    induction ns generalizing k with
    | nil =>
      intro v hw
      cases p.closed.root hw
      rw [reach_root]
      obtain ⟨u,hu⟩ := p.over_covered hw
      rw [hu]
      simp
    | cons n ns ih =>
      intro v hw
      obtain ⟨x,hx,hl⟩ := p.closed.listed hw
      obtain ⟨u,hu⟩ := p.over_covered hw
      obtain ⟨o,ho⟩ := ne_none_iff_exists'.mp (ih s.inner x hx)
      have hlo : s.lists o k n := by
        rcases overlay_cases (reach_le ho) with hd | ⟨hd,hco⟩
        · cases hx.symm.trans (p.part hd)
          exact hl
        obtain ⟨y,hy⟩ := ne_none_iff_exists'.mp fun hn => h k n ns v hw hn hd
        obtain ⟨z,hz,hlz⟩ := hc.listed hy
        cases hco.symm.trans hz
        exact hlz
      rw [reach_cons.mpr ⟨o,ho,hlo,hu⟩]
      simp

def Shape.Both (s : Shape κ α ν) (m m' : Layout κ α ν) (ns : List α) : Prop :=
  m s.inner ns ≠ none ∧ m' s.inner ns ≠ none

/-- The lowest inner node above a place that both layouts have. -/
structure Shape.Nearest (s : Shape κ α ν) (m m' : Layout κ α ν) (ns as : List α) : Prop where
  above : as <:+ ns
  proper : as ≠ ns
  both : s.Both m m' as
  lowest : ∀ {bs}, bs <:+ ns → bs ≠ ns → s.Both m m' bs → bs <:+ as

theorem Shape.Nearest.cons (h : s.Nearest m m' ns as) (hb : ¬ s.Both m m' ns) :
    s.Nearest m m' (n :: ns) as where
  above := h.above.trans (suffix_cons n ns)
  proper := by
    intro he
    have := h.above.length_le
    rw [he,length_cons] at this
    omega
  both := h.both
  lowest := by
    intro bs hbs hne hbo
    rcases suffix_cons_iff.mp hbs with rfl | hbs
    · exact absurd rfl hne
    by_cases he : bs = ns
    · exact absurd (he ▸ hbo) hb
    · exact h.lowest hbs he hbo

theorem Shape.Nearest.parent (hb : s.Both m m' ns) : s.Nearest m m' (n :: ns) ns where
  above := suffix_cons n ns
  proper := by
    intro he
    have := congrArg List.length he
    simp at this
  both := hb
  lowest := by
    intro bs hbs hne _
    rcases suffix_cons_iff.mp hbs with rfl | hbs
    · exact absurd rfl hne
    · exact hbs

theorem Shape.Closed.nearest (hm : s.Closed m) (hcm : s.Complete m') (hro : m' s.inner [] ≠ none)
    (h : m k ns = some v) (hn : m' k ns = none) :
    ∃ as k' a v v', s.Nearest m m' ns as ∧ m s.inner as = some v ∧ m' s.inner as = some v' ∧
      s.lists v k' a ∧ ¬ s.lists v' k' a := by
  induction ns generalizing k v with
  | nil =>
    cases hm.root h
    exact absurd hn hro
  | cons n ns ih =>
    obtain ⟨w,hw,hl⟩ := hm.listed h
    cases hw' : m' s.inner ns with
    | none =>
      obtain ⟨as,k',a,x,x',hne,hr⟩ := ih hw hw'
      exact ⟨as,k',a,x,x',hne.cons fun hb => hb.2 hw',hr⟩
    | some w' =>
      refine ⟨ns,k,n,w,w',.parent ⟨by simp [hw],by simp [hw']⟩,hw,hw',hl,?_⟩
      intro hl'
      obtain ⟨u,hu⟩ := hcm hw' hl'
      rw [hn] at hu
      cases hu

theorem Shape.Both.symm (h : s.Both m m' ns) : s.Both m' m ns :=
  ⟨h.2,h.1⟩

theorem Shape.Nearest.symm (h : s.Nearest m m' ns as) : s.Nearest m' m ns as where
  above := h.above
  proper := h.proper
  both := h.both.symm
  lowest hbs hne hb := h.lowest hbs hne hb.symm

variable {ω : Type} [LinearOrder ω] {version : ν → ω} {ms : List (Layout κ α ν)}

/-- From one layout to the next a node that stays is the same or has a later version. Nothing is
said of nodes that come back. -/
def Advances (version : ν → ω) (m m' : Layout κ α ν) : Prop :=
  ∀ k ns x y, m k ns = some x → m' k ns = some y → y = x ∨ version x < version y

def History (version : ν → ω) : Layout κ α ν → List (Layout κ α ν) → Prop
  | _,[] => True
  | m,m' :: ms => Advances version m m' ∧ History version m' ms

def final : Layout κ α ν → List (Layout κ α ν) → Layout κ α ν
  | m,[] => m
  | _,m' :: ms => final m' ms

theorem final_mem (h : ms ≠ []) : final m ms ∈ ms := by
  induction ms generalizing m with
  | nil => exact absurd rfl h
  | cons m' ms ih =>
    by_cases hms : ms = []
    · subst hms
      exact mem_cons_self
    · exact mem_cons_of_mem _ (ih hms)

theorem History.version_le (h : History version m ms) (ha : ∀ l ∈ ms, l k ns ≠ none)
    (hx : m k ns = some x) (hy : final m ms k ns = some y) : version x ≤ version y := by
  induction ms generalizing m x with
  | nil =>
    cases hx.symm.trans hy
    exact le_refl _
  | cons m' ms ih =>
    obtain ⟨hs,hr⟩ := h
    obtain ⟨hm',hms⟩ := forall_mem_cons.mp ha
    obtain ⟨z,hz⟩ := ne_none_iff_exists'.mp hm'
    refine le_trans ?_ (ih hr hms hz hy)
    rcases hs k ns x z hx hz with rfl | hlt
    · exact le_refl _
    · exact le_of_lt hlt

theorem History.unchanged (h : History version m ms) (ha : ∀ l ∈ ms, l k ns ≠ none)
    (hx : m k ns = some x) (hy : final m ms k ns = some y) (hv : version x = version y) :
    ∀ l ∈ ms, l k ns = some x := by
  induction ms generalizing m x with
  | nil => simp
  | cons m' ms ih =>
    obtain ⟨hs,hr⟩ := h
    obtain ⟨hm',hms⟩ := forall_mem_cons.mp ha
    obtain ⟨z,hz⟩ := ne_none_iff_exists'.mp hm'
    have hle := hr.version_le hms hz hy
    rcases hs k ns x z hx hz with rfl | hlt
    · exact forall_mem_cons.mpr ⟨hz,ih hr hms hz hy hv⟩
    · rw [hv] at hlt
      exact absurd hle (not_le_of_gt hlt)

/-- Places with the same versions at both ends, and all inner nodes above them among them, have not
changed in between: an unchanged inner node has had the same children all the time. -/
theorem History.pinned (h : History version m ms) {ps : κ → List α → Prop}
    (hs : ∀ l ∈ m :: ms, s.Closed l ∧ s.Complete l ∧ l s.inner [] ≠ none)
    (hr : ∀ {k}, ps k [] → k = s.inner) (hu : ∀ {k n ns}, ps k (n :: ns) → ps s.inner ns)
    (hn : ∀ {k ns x y}, ps k ns → m k ns = some x → final m ms k ns = some y →
      version x = version y) (hp : ps k ns) : ∀ l ∈ ms, l k ns = m k ns := by
  obtain ⟨⟨hmc,ho,hmr⟩,ht⟩ := forall_mem_cons.mp hs
  -- a node that is there all the time is settled by its versions at both ends
  have se : ∀ {k ns x}, ps k ns → m k ns = some x → (∀ l ∈ ms, l k ns ≠ none) →
      ∀ l ∈ ms, l k ns = m k ns := by
    intro k ns x hp hx ss l hl
    have he : final m ms k ns ≠ none := ss _ (final_mem (ne_nil_of_mem hl))
    obtain ⟨y,hy⟩ := ne_none_iff_exists'.mp he
    rw [hx]
    exact h.unchanged ss hx hy (hn hp hx hy) l hl
  induction ns generalizing k with
  | nil =>
    cases hr hp
    obtain ⟨x,hx⟩ := ne_none_iff_exists'.mp hmr
    exact se hp hx fun l hl => (ht l hl).2.2
  | cons n ns ih =>
    have hpa := ih (hu hp)
    by_cases hli : ∃ v, m s.inner ns = some v ∧ s.lists v k n
    · obtain ⟨v,hv,hl⟩ := hli
      obtain ⟨x,hx⟩ := ho hv hl
      refine se hp hx ?_
      intro l hlm
      obtain ⟨y,hy⟩ := (ht l hlm).2.1 ((hpa l hlm).trans hv) hl
      rw [hy]
      simp
    · have ab : ∀ l ∈ m :: ms, l k (n :: ns) = none := by
        intro l hlm
        rw [eq_none_iff_forall_not_mem]
        intro x hx
        obtain ⟨v,hv,hl⟩ := (hs l hlm).1.listed hx
        rcases mem_cons.mp hlm with rfl | hm
        · exact hli ⟨v,hv,hl⟩
        · rw [hpa l hm] at hv
          exact hli ⟨v,hv,hl⟩
      intro l hl
      rw [ab l (mem_cons_of_mem _ hl),ab m mem_cons_self]

end Trees
