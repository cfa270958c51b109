import PluggableHcs.Hcs.AppMsgProcessor

namespace PluggableHcs.Hcs

/-- A Go time: the wall clock in nanoseconds since the unix epoch and, if it comes from time.Now,
the monotonic clock. -/
structure GoTime where
  wall : Int
  mono : Option Int
deriving DecidableEq

namespace GoTime

def zero : GoTime := ⟨minValidNanos,none⟩

/-- The monotonic readings decide when both times have one. -/
def after (t u : GoTime) : Bool :=
  match t.mono,u.mono with
  | some a,some b => decide (b < a)
  | _,_ => decide (u.wall < t.wall)

def add (t : GoTime) (d : Int) : GoTime := ⟨t.wall + d,t.mono.map (· + d)⟩

def Agrees (next wanted : GoTime) : Prop :=
  if wanted.after next then next.wall ≤ wanted.wall else wanted.wall ≤ next.wall

theorem agrees_zero (wanted : GoTime) : zero.Agrees wanted := by
  have ha : wanted.after zero = decide (zero.wall < wanted.wall) := by
    cases hm : wanted.mono <;> simp [after,zero,hm]
  rw [Agrees,ha]
  split <;> simp_all [le_of_lt]

end GoTime

def getUniqueValidStart (nextValidStart wanted : GoTime) : GoTime × GoTime :=
  let next := if wanted.after nextValidStart then wanted else nextValidStart
  (next,next.add 1)

def validStarts : GoTime → List GoTime → List GoTime
  | _,[] => []
  | next,wanted :: rest =>
    (getUniqueValidStart next wanted).1 :: validStarts (getUniqueValidStart next wanted).2 rest

def ClocksAgree : GoTime → List GoTime → Prop
  | _,[] => True
  | next,wanted :: rest =>
    next.Agrees wanted ∧ ClocksAgree (getUniqueValidStart next wanted).2 rest

theorem agrees_iff (next wa : GoTime) :
    next.Agrees wa ↔ next.wall ≤ (getUniqueValidStart next wa).1.wall ∧
      wa.wall ≤ (getUniqueValidStart next wa).1.wall := by
  simp only [GoTime.Agrees,getUniqueValidStart]
  split <;> simp

theorem clocks_agree_iff : ClocksAgree next wa ↔ (∀ v ∈ validStarts next wa, next.wall ≤ v.wall) ∧
      (validStarts next wa).Pairwise (·.wall < ·.wall) ∧
      List.Forall₂ (·.wall ≤ ·.wall) wa (validStarts next wa) := by
  induction wa generalizing next with
  | nil => simp [ClocksAgree,validStarts]
  | cons w re ih =>
    have hn : (getUniqueValidStart next w).2.wall = (getUniqueValidStart next w).1.wall + 1 :=
      rfl
    simp only [ClocksAgree,validStarts,ih,agrees_iff,hn,Int.add_one_le_iff,
      List.forall_mem_cons,List.pairwise_cons,List.forall₂_cons]
    constructor
    · rintro ⟨⟨hl,hw⟩,hr,hp,ha⟩
      exact ⟨⟨hl,fun v hv => hl.trans (hr v hv).le⟩,⟨hr,hp⟩,hw,ha⟩
    · rintro ⟨⟨hl,_⟩,⟨hr,hp⟩,hw,ha⟩
      exact ⟨⟨hl,hw⟩,hr,hp,ha⟩

theorem valid_starts_above_zero (h : (validStarts .zero wa).Pairwise (·.wall < ·.wall)) :
    ∀ v ∈ validStarts .zero wa, GoTime.zero.wall ≤ v.wall := by
  cases wa with
  | nil => simp [validStarts]
  | cons w re =>
    have hw := (agrees_iff .zero w).mp (GoTime.agrees_zero w)
    obtain ⟨hr,_⟩ := List.pairwise_cons.mp h
    exact List.forall_mem_cons.mpr ⟨hw.1,fun v hv => hw.1.trans (hr v hv).le⟩

theorem split_ids {p : Splitter} (h : p.split x sign m t = .ok (cs,sum)) (hc : c ∈ cs) :
    c.applicationMessageId = some (p.messageID t) := by
  simp only [Splitter.split] at h
  split at h
  · cases h
  split at h
  · cases h
  split at h
  · cases h
  cases h
  obtain ⟨i,_,rfl⟩ := List.mem_map.mp hc
  rfl

/-- The starts grow past each other and past the wanted ones exactly when no call meets
contradictory clocks, and messages split with two of them have different holder keys. -/
theorem valid_starts_unique (x : Externals) (wanted : List GoTime) :
    (ClocksAgree .zero wanted ↔ (validStarts .zero wanted).Pairwise (·.wall < ·.wall) ∧
      List.Forall₂ (·.wall ≤ ·.wall) wanted (validStarts .zero wanted)) ∧
    (ClocksAgree .zero wanted → ∀ (p q : Splitter) sign sign' m m' cs cs' sum sum' (t u : Time)
      (i j : Nat), i ≠ j → ((validStarts .zero wanted).map (·.wall))[i]? = some t.nanos →
      ((validStarts .zero wanted).map (·.wall))[j]? = some u.nanos →
      p.split x sign m t = .ok (cs,sum) → q.split x sign' m' u = .ok (cs',sum') →
      ∀ c ∈ cs, ∀ c' ∈ cs',
        makeHolderKey c.applicationMessageId ≠ makeHolderKey c'.applicationMessageId) ∧
    ∀ a b s s' acc acc' k, makeHolderKey (some ⟨some s,acc,some a⟩) = .ok k →
      makeHolderKey (some ⟨some s',acc',some b⟩) = .ok k → a.value = b.value ∧ s = s' := by
  refine ⟨⟨fun h => (clocks_agree_iff.mp h).2,?_⟩,?_,?_⟩
  · intro h
    exact clocks_agree_iff.mpr ⟨valid_starts_above_zero h.1,h⟩
  · intro h p q _ _ _ _ _ _ _ _ t u i j hij hi hj hp hq c hc c' hc' he
    rw [split_ids hp hc,split_ids hq hc'] at he
    obtain ⟨k,hk⟩ : ∃ k, makeHolderKey (some (p.messageID t)) = .ok k := ⟨_,rfl⟩
    obtain rfl := Time.timestamp_proto_injective
      (make_holder_key_injective hk (he.symm.trans hk)).2
    have hn : ((validStarts .zero wanted).map (·.wall)).Nodup :=
      List.pairwise_map.mpr ((clocks_agree_iff.mp h).2.1.imp ne_of_lt)
    have hil := (List.getElem?_eq_some_iff.mp hi).1
    exact hij ((List.getElem?_inj hil hn).mp (hi.trans hj.symm))
  · intro a b s s' acc acc' k ha hb
    exact make_holder_key_injective ha hb

def setBack : List GoTime :=
  [⟨5000000000,some 0⟩,⟨4000000000,some 1000⟩,⟨5000000000,some 1000001000⟩]

/-- The second start is before the first and the third is the first again. -/
theorem set_back_repeats : (validStarts .zero setBack).map (·.wall) =
    [5000000000,4000000000,5000000000] := by decide

end PluggableHcs.Hcs
