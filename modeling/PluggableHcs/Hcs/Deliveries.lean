import PluggableHcs.Hcs.Resubmission

namespace PluggableHcs.Hcs
open List

structure Entry where
  sequence : Nat
  timestamp : Time
  message : Option (HcsMessage × Bytes)
deriving DecidableEq

def Entry.regular (e : Entry) : Option HcsMessageRegular :=
  match e.message with
  | some (.regular msg,_) => some msg
  | _ => none

structure Log where
  entries : List Entry
  increasing : entries.Pairwise fun a b => a.sequence < b.sequence ∧
    a.timestamp.nanos < b.timestamp.nanos
  later : ∀ e ∈ entries, 0 < e.sequence ∧ unixEpoch.nanos < e.timestamp.nanos

def Log.timeline (log : Log) : Timeline where
  marks := log.entries.map fun e => (e.sequence,e.timestamp)
  increasing := pairwise_map.mpr log.increasing
  later := by
    intro mark hm
    obtain ⟨e,he,rfl⟩ := mem_map.mp hm
    exact log.later e he

def Entry.Follows (e : Entry) (log : Log) : Prop :=
  0 < e.sequence ∧ unixEpoch.nanos < e.timestamp.nanos ∧
    ∀ d ∈ log.entries, d.sequence < e.sequence ∧ d.timestamp.nanos < e.timestamp.nanos
deriving Decidable

def Log.append (log : Log) (e : Entry) (h : e.Follows log) : Log where
  entries := log.entries ++ [e]
  increasing := by
    rw [pairwise_append]
    refine ⟨log.increasing,pairwise_singleton _ _,?_⟩
    intro d hd e' he
    rw [mem_singleton.mp he]
    exact h.2.2 d hd
  later := by
    intro d hd
    obtain hd | hd := mem_append.mp hd
    · exact log.later d hd
    · rw [mem_singleton.mp hd]
      exact ⟨h.1,h.2.1⟩

theorem Log.unique {l : Log} (hd : d ∈ l.entries) (he : e ∈ l.entries)
    (h : d.sequence = e.sequence) : d = e := by
  obtain ⟨i,hi,rfl⟩ := mem_iff_getElem.mp hd
  obtain ⟨j,hj,rfl⟩ := mem_iff_getElem.mp he
  have hp := pairwise_iff_getElem.mp l.increasing
  obtain hij | rfl | hij := Nat.lt_trichotomy i j
  · have hlt := (hp i j hi hj hij).1
    omega
  · rfl
  · have hlt := (hp j i hj hi hij).1
    omega

/-- A resubmission marker that is ahead stands for a config message that is yet to be delivered, and
no delivered config message is ahead of the marker. -/
structure Consistent (x : Externals) (sent : List HcsMessageRegular) (log : Log)
    (resubmitted original n : Nat) : Prop where
  awaited : resubmitted ≤ original ∨ ∃ m ∈ sent, m.cls = .config ∧ m.originalSeq = resubmitted ∧
    m.Readable x ∧ ∀ e ∈ log.entries, e.sequence ≤ n → e.regular ≠ some m
  noted : ∀ e ∈ log.entries, e.sequence ≤ n → ∀ m ∈ e.regular, m.cls = .config → m.Readable x →
    original < m.originalSeq → m.originalSeq ≤ resubmitted

section
variable {x : Externals} {se : List HcsMessageRegular} {l : Log}
variable {re o n : Nat}

variable (h : Consistent x se l re o n)
include h

theorem Consistent.back (hk : k ≤ n) : Consistent x se l re o k := by
  refine ⟨h.awaited.imp_right ?_,fun e he hs => h.noted e he (hs.trans hk)⟩
  intro hw
  obtain ⟨m,hm,hc,ho,hr,hno⟩ := hw
  exact ⟨m,hm,hc,ho,hr,fun e he hs => hno e he (hs.trans hk)⟩

theorem Consistent.raise (ho : o ≤ o') : Consistent x se l re o' n :=
  ⟨h.awaited.imp_left fun hle => hle.trans ho,
    fun e he hs m hm hc hr hlt => h.noted e he hs m hm hc hr (ho.trans_lt hlt)⟩

theorem Consistent.send (ms : HcsMessageRegular) : Consistent x (ms :: se) l re o n := by
  refine ⟨h.awaited.imp_right ?_,h.noted⟩
  intro hw
  obtain ⟨m,hm,hw⟩ := hw
  exact ⟨m,mem_cons_of_mem _ hm,hw⟩

theorem Consistent.publish (hf : e.Follows l) (hn : n < e.sequence) :
    Consistent x se (l.append e hf) re o n := by
  have hl : ∀ d ∈ (l.append e hf).entries, d.sequence ≤ n → d ∈ l.entries := by
    intro d hd hs
    obtain hd | hd := mem_append.mp hd
    · exact hd
    · rw [mem_singleton.mp hd] at hs
      omega
  refine ⟨h.awaited.imp_right ?_,fun d hd hs => h.noted d (hl d hd hs) hs⟩
  intro hw
  obtain ⟨m,hm,hc,ho,hr,hno⟩ := hw
  exact ⟨m,hm,hc,ho,hr,fun d hd hs => hno d (hl d hd hs) hs⟩

theorem Consistent.extend (he : e ∈ l.entries) (hse : e.sequence = n + 1)
    (hms : ∀ m ∈ e.regular, m.cls = .config → m.Readable x → o < m.originalSeq →
      m.originalSeq < re) : Consistent x se l re o (n + 1) := by
  have hn : ∀ d ∈ l.entries, d.sequence ≤ n + 1 → d.sequence ≤ n ∨ d = e := by
    intro d hd hs
    obtain hs | hs := Nat.lt_or_eq_of_le hs
    · exact .inl (by omega)
    · exact .inr (l.unique hd he (by omega))
  constructor
  · obtain hle | ⟨m,hm,hc,ho,hr,hno⟩ := h.awaited
    · exact .inl hle
    by_cases hlt : o < re
    · refine .inr ⟨m,hm,hc,ho,hr,?_⟩
      intro d hd hs hre
      obtain hs | rfl := hn d hd hs
      · exact hno d hd hs hre
      · have := hms m hre hc hr (by omega)
        omega
    · exact .inl (by omega)
  · intro d hd hs m hm hc hr hlt
    obtain hs | rfl := hn d hd hs
    · exact h.noted d hd hs m hm hc hr hlt
    · exact (hms m hm hc hr hlt).le

theorem Consistent.note (hm : m ∈ se)
    (hc : m.cls = .config) (hr : m.Readable x) (hlt : o < m.originalSeq) :
    Consistent x se l (max re m.originalSeq) o n := by
  by_cases hle : m.originalSeq ≤ re
  · rw [Nat.max_eq_left hle]
    exact h
  rw [Nat.max_eq_right (by omega)]
  refine ⟨.inr ⟨m,hm,hc,rfl,hr,?_⟩,fun e he hs m' hm' hc' hr' hlt' =>
    (h.noted e he hs m' hm' hc' hr' hlt').trans (by omega)⟩
  intro e he hs hre
  exact hle (h.noted e he hs m hre hc hr hlt)

theorem Consistent.settle (he : e ∈ l.entries) (hse : e.sequence = n + 1) (hm : e.regular = some m)
    (hlt : o < m.originalSeq) (hge : re ≤ m.originalSeq) :
    Consistent x se l m.originalSeq m.originalSeq (n + 1) := by
  refine ⟨.inl (le_refl _),?_⟩
  intro d hd hs m' hm' hc hr hlt'
  obtain hs | hs := Nat.lt_or_eq_of_le hs
  · exact (h.noted d hd (by omega) m' hm' hc hr (by omega)).trans hge
  obtain rfl := l.unique hd he (by omega)
  rw [hm] at hm'
  cases hm'
  exact absurd hlt' (lt_irrefl _)

end

def Log.NamesEarlier (log : Log) : Prop :=
  ∀ e ∈ log.entries, ∀ m ∈ e.regular, m.originalSeq < e.sequence

theorem Consistent.resubmit {l : Log} (hl : l.NamesEarlier) (hc : m.cls = .config)
    (ho : m.originalSeq = n) (hr : m.Readable x) :
    Consistent x (m :: sent) l n o n := by
  refine ⟨.inr ⟨m,mem_cons_self,hc,ho,hr,?_⟩,?_⟩
  · intro e he hs hre
    have hlt := hl e he m hre
    omega
  · intro e he hs m' hm' _ _ _
    exact (hl e he m' hm').le.trans hs

theorem Consistent.cut {l : Log} (hl : l.NamesEarlier) (hle : resubmitted ≤ n) :
    Consistent x sent l resubmitted n n := by
  refine ⟨.inl hle,?_⟩
  intro e he hs m hm _ _ hlt
  have hea := hl e he m hm
  omega

end PluggableHcs.Hcs
