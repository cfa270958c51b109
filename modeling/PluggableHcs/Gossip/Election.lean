import PluggableHcs.Lib.Runs

namespace PluggableHcs.Gossip.Election
open Runs

/-- What the run loop does next. A read or write of a flag is a step. -/
inductive Phase where
  | top
  | entering
  | waited
  | unled
  | counting
  | winning
  | calling
  | declaring
  | elected
  | yielding
  | stopYielding
  | leading
  | following
  | forgetting

/-- Who holds the lock, and what it does next. -/
inductive Mutex where
  | free
  | heard
  | stopping (yields : Bool)
  | notifying (yields : Bool)
  | clearing
  deriving DecidableEq

structure State where
  isLeader : Bool
  leaderExists : Bool
  yield : Bool
  proposals : List (List UInt8)
  timers : Nat
  phase : Phase
  mutex : Mutex
  /-- The values given to the callback, the last one first. -/
  calls : List Bool

inductive Event where
  | run
  | handleMessage (sender : List UInt8) (declares : Bool)
  | yield
  | hold
  | timer

def runLoop (id : List UInt8) (s : State) : Option State :=
  match s.phase with
  | .top => some { s with phase := if s.leaderExists then .elected else .entering }
  | .entering => some { s with phase := if s.yield then .elected else .waited }
  | .waited => some { s with phase := if s.leaderExists then .elected else .unled }
  | .unled => some { s with phase := if s.yield then .elected else .counting }
  | .counting => some { s with phase := if s.proposals.any (· < id) then .elected else .winning }
  | .winning => some { s with isLeader := true, phase := .calling }
  | .calling => some { s with calls := true :: s.calls, phase := .declaring }
  | .declaring => some { s with leaderExists := true, phase := .elected }
  | .elected => some { s with phase := if s.leaderExists then .yielding else .leading }
  | .yielding => some { s with phase := if s.yield then .stopYielding else .leading }
  | .stopYielding => if s.mutex = .free then some { s with yield := false, phase := .leading }
    else none
  | .leading => some { s with phase := if s.isLeader then .top else .following }
  | .following => some { s with proposals := [], phase := .forgetting }
  | .forgetting => some { s with leaderExists := false, phase := .top }

/-- handleMessage and Yield behind the lock. Only Yield forgets the leader. -/
def hold (s : State) : Option State :=
  match s.mutex with
  | .free => none
  | .heard => some { s with mutex := if s.isLeader then .stopping false else .free }
  | .stopping yields => some { s with isLeader := false, mutex := .notifying yields }
  | .notifying yields =>
    some { s with calls := false :: s.calls, mutex := if yields then .clearing else .free }
  | .clearing => some { s with leaderExists := false, timers := s.timers + 1, mutex := .free }

def next (id : List UInt8) (s : State) : Event → Option State
  | .run => runLoop id s
  | .hold => hold s
  | .handleMessage sender declares =>
    if s.mutex ≠ .free then none
    else if declares then
      some { s with leaderExists := true, mutex := if sender < id then .heard else .free }
    else some { s with proposals := sender :: s.proposals }
  | .yield =>
    if s.mutex ≠ .free then none
    else if !s.isLeader || s.yield then some s
    else some { s with yield := true, mutex := .stopping true }
  | .timer => if s.timers = 0 then none else some { s with yield := false, timers := s.timers - 1 }

def start : State := ⟨false,false,false,[],0,.top,.free,[]⟩

/-- True and false in turn, and true first. -/
def Alternates : List Bool → Prop
  | [] => True
  | b :: bs => bs.headD false = !b ∧ Alternates bs

def State.taking (s : State) : Bool := s.phase matches .calling

def State.giving (s : State) : Bool := s.mutex matches .notifying _

/-- Who becomes leader was none and nobody is giving leadership up, and who gives it up does not
come between the flag and the callback. -/
def apart (e : Transition State Event) : Bool :=
  (!e.after.taking || e.before.taking || !e.before.isLeader && !e.before.giving) &&
    (!e.after.giving || e.before.giving || !e.before.taking)

structure Sound (s : State) : Prop where
  alternates : Alternates s.calls
  stopping : s.mutex = .stopping b → s.isLeader
  taking : s.taking → s.isLeader ∧ !s.giving
  giving : s.giving → !s.isLeader
  last : s.calls.headD false = xor s.isLeader (s.taking || s.giving)

theorem run_loop_cases (h : runLoop me s = some t) : t.mutex = s.mutex ∧
      (t.isLeader = s.isLeader ∧ t.calls = s.calls ∧ s.taking = false ∧ t.taking = false ∨
        t.isLeader = true ∧ t.calls = s.calls ∧ s.taking = false ∧ t.taking = true ∨
        t.isLeader = s.isLeader ∧ t.calls = true :: s.calls ∧ s.taking = true ∧ t.taking = false) := by
  unfold runLoop at h
  split at h
  all_goals try split at h
  all_goals cases h
  all_goals simp [State.taking, *]

theorem hold_cases (h : hold s = some t) :
    t.phase = s.phase ∧ (t.isLeader = s.isLeader ∧ t.calls = s.calls ∧ s.giving = false ∧
          t.giving = false ∧ (∀ b, t.mutex = .stopping b → s.isLeader) ∨
        (∃ b, s.mutex = .stopping b) ∧ t.isLeader = false ∧ t.calls = s.calls ∧
          s.giving = false ∧ t.giving = true ∨
        t.isLeader = s.isLeader ∧ t.calls = false :: s.calls ∧ s.giving = true ∧ t.giving = false ∧
          (∀ b, t.mutex ≠ .stopping b)) := by
  unfold hold at h
  split at h
  all_goals try split at h
  all_goals cases h
  all_goals simp [State.giving, *]

theorem Sound.frame (h : Sound s) (hl : t.isLeader = s.isLeader) (hc : t.calls = s.calls)
    (ht : t.taking = s.taking) (hg : t.giving = s.giving)
    (hs : ∀ b, t.mutex = .stopping b → s.isLeader) : Sound t where
  alternates := hc ▸ h.alternates
  stopping := fun hm => hl ▸ hs _ hm
  taking := by
    rw [ht,hl,hg]
    exact h.taking
  giving := by
    rw [hg,hl]
    exact h.giving
  last := by
    rw [hc,hl,ht,hg]
    exact h.last

theorem sound_next (e : Transition State Event) (h : Sound e.before)
    (hn : next me e.before e.label = some e.after) (ha : apart e) : Sound e.after := by
  obtain ⟨s,x,t⟩ := e
  obtain ⟨ht,hg⟩ := Bool.and_eq_true_iff.mp ha
  dsimp only at h hn ht hg ⊢
  have hl := h.last
  cases x with
  | run =>
    obtain ⟨hm,hc⟩ := run_loop_cases hn
    have he : t.giving = s.giving := by rw [State.giving,State.giving,hm]
    rcases hc with ⟨hi,hc,hs,hk⟩ | ⟨hi,hc,hs,hk⟩ | ⟨hi,hc,hs,hk⟩
    · exact h.frame hi hc (hk.trans hs.symm) he fun b hb => h.stopping (hm ▸ hb)
    · have hf : s.isLeader = false ∧ s.giving = false := by simpa [hs,hk] using ht
      refine ⟨hc ▸ h.alternates,fun _ => hi,?_,?_,?_⟩ <;> simp_all
    · have hf := h.taking hs
      refine ⟨?_,fun _ => hi ▸ hf.1,?_,?_,?_⟩ <;> simp_all [Alternates,h.alternates]
  | hold =>
    obtain ⟨hp,hc⟩ := hold_cases hn
    have he : t.taking = s.taking := by rw [State.taking,State.taking,hp]
    rcases hc with ⟨hi,hc,hs,hk,hb⟩ | ⟨⟨b,hb⟩,hi,hc,hs,hk⟩ | ⟨hi,hc,hs,hk,hb⟩
    · exact h.frame hi hc he (hk.trans hs.symm) hb
    · have hf : s.taking = false := by simpa [hs,hk] using hg
      have hs := h.stopping hb
      refine ⟨hc ▸ h.alternates,fun hm => (by simp [State.giving,hm] at hk),?_,?_,?_⟩ <;> simp_all
    have hf := h.giving hs
    have hg := h.taking
    refine ⟨?_,fun hm => absurd hm (hb _),?_,?_,?_⟩ <;> simp_all [Alternates,h.alternates]
  | handleMessage sender declares =>
    simp only [next] at hn
    split at hn
    · cases hn
    rename_i hf
    rw [not_not] at hf
    split at hn
    · split at hn <;> cases hn <;> exact h.frame rfl rfl rfl (by simp [State.giving,hf]) (by simp)
    · cases hn
      exact h.frame rfl rfl rfl rfl fun b hb => h.stopping hb
  | yield =>
    simp only [next] at hn
    split at hn
    · cases hn
    rename_i hf
    rw [not_not] at hf
    split at hn <;> cases hn
    · exact h
    · exact h.frame rfl rfl rfl (by simp [State.giving,hf]) (by simp_all)
  | timer =>
    simp only [next] at hn
    split at hn <;> cases hn
    exact h.frame rfl rfl rfl rfl fun b hb => h.stopping hb

/-- As long as the two threads keep apart, the callback gets true and false in turn, and what it
got last is whether the peer leads. -/
theorem notifications_match (h : Run (fun s x t => next me s x = some t) start es s)
    (ha : ∀ e ∈ es, apart e) : Alternates s.calls ∧
      (s.taking = false → s.mutex = .free → s.calls.headD false = s.isLeader) := by
  have hs := (h.invariant_when sound_next ⟨trivial,by simp [start],by simp [start,State.taking],
    by simp [start,State.giving],rfl⟩ ha).1
  refine ⟨hs.alternates,fun ht hm => ?_⟩
  rw [hs.last,ht]
  simp [State.giving,hm]

def deposedRun := (trace (next [1]) start
  (.replicate 7 .run ++ [.handleMessage [0] true,.hold,.hold,.hold])).get rfl

theorem deposed_notified : deposedRun.1.calls = [false,true] ∧ Alternates deposedRun.1.calls ∧
    (deposedRun.1.taking = false → deposedRun.1.mutex = .free →
      deposedRun.1.calls.headD false = deposedRun.1.isLeader) :=
  ⟨rfl,notifications_match (trace_get_run rfl) (by decide : ∀ e ∈ deposedRun.2, apart e)⟩

/-- A declaration of a better leader comes between the flag and the callback. -/
theorem notified_in_wrong_order : ∃ es s, Run (fun s x t => next [1] s x = some t) start es s ∧
    s.taking = false ∧ s.mutex = .free ∧ s.calls = [true,false] ∧ s.isLeader = false := by
  have h : (trace (next [1]) start
      (.replicate 6 .run ++ [.handleMessage [0] true,.hold,.hold,.hold,.run])).isSome := rfl
  exact ⟨_,_,trace_get_run h,rfl,rfl,rfl,rfl⟩

end PluggableHcs.Gossip.Election
