import PluggableHcs.Hcs.Subscription

namespace PluggableHcs.Hcs
open Runs List

namespace Service

def LoopGivesUp (s : Service) : Move → Prop
  | .error status => s.GivesUp status
  | .retry false => subscriptionRetryMax ≤ s.subscriptionRetryCount + 1
  | _ => False

instance (s : Service) (move : Move) : Decidable (s.LoopGivesUp move) := by
  unfold LoopGivesUp
  split <;> infer_instance

def Collides (e : Transition Service Move) : Prop :=
  e.before.LoopGivesUp e.label ∧ (e.before.haltChanClosed = true ∨ e.before.haltCall = .closing)
deriving Decidable

/-- A call of Halt that is about to close haltChan finds it open, and it was closed at most
once so far. -/
structure ClosedOnce (s : Service) : Prop where
  closing : s.haltCall = .closing → s.haltChanClosed = false
  once : s.fault ≠ some .closeOfClosedChannel

variable {x : Externals} {tc : FullTopic} {s t d : Service}

theorem ClosedOnce.of_eq (h : s.ClosedOnce) (hc : t.haltCall = s.haltCall)
    (hch : t.haltChanClosed = s.haltChanClosed) (hf : t.fault ≠ some .closeOfClosedChannel) :
    t.ClosedOnce := by
  refine ⟨?_,hf⟩
  rw [hc,hch]
  exact h.closing

theorem closed_once_close (ho : s.haltChanClosed = false) (hc : s.haltCall ≠ .closing)
    (f : s.fault = none) : s.closeHaltChan.ClosedOnce := by
  obtain ⟨_,heq⟩ | ⟨hcl,_⟩ := s.close_halt_chan_cases
  · rw [heq]
    exact ⟨fun h => absurd h hc,by simp [f]⟩
  · rw [ho] at hcl
    cases hcl

theorem ClosedOnce.send_request (h : s.ClosedOnce) (hd : d.ClosedOnce) :
    (s.sendRequest d).ClosedOnce := by
  unfold sendRequest
  split_ifs
  · exact h.of_eq rfl rfl (by simp)
  · exact hd

theorem step_closed_once (h : Service.Step x tc s move t) (hc : s.ClosedOnce)
    (hf : ¬ Collides ⟨s,move,t⟩) : t.ClosedOnce := by
  obtain ⟨f,hs⟩ := step_cases h
  have ha : s.LoopGivesUp move → s.haltChanClosed = false ∧ s.haltCall ≠ .closing := by
    intro hup
    simp only [Collides,hup,true_and,not_or,Bool.not_eq_true] at hf
    exact hf
  cases hs with
  | @error ss =>
    obtain ⟨_,heq⟩ | ⟨hup,heq⟩ := s.streaming_error_cases ss
    · rw [heq]
      exact hc.of_eq rfl rfl hc.once
    obtain ⟨ho,hca⟩ := ha hup
    rw [heq]
    exact closed_once_close ho hca f
  | @retry su =>
    cases su with
    | true => exact hc.of_eq rfl rfl hc.once
    | false =>
      obtain ⟨_,heq⟩ | ⟨hup,heq⟩ := s.retry_failed_cases tc
      · rw [heq]
        exact hc.of_eq rfl rfl hc.once
      obtain ⟨ho,hca⟩ := ha hup
      rw [heq]
      exact closed_once_close ho hca f
  | @response re rt o =>
    obtain ⟨_,_,_,heq⟩ | ⟨_,_,heq⟩ | ⟨_,_,_,heq⟩ := handle_response_cases x s o re rt
    · rw [heq]
      exact hc.of_eq rfl rfl hc.once
    · rw [heq]
      exact hc.of_eq rfl rfl hc.once
    · rw [heq]
      exact hc.of_eq rfl rfl (by simp)
  | haltTest =>
    refine ⟨?_,hc.once⟩
    cases s.haltChanClosed <;> simp
  | haltClose cl =>
    obtain ⟨_,heq⟩ | ⟨hcl,_⟩ := s.close_halt_chan_cases
    · rw [heq]
      exact ⟨by simp,hc.once⟩
    · rw [hc.closing cl] at hcl
      cases hcl
  | haltReturn => exact ⟨by simp,hc.once⟩
  | send | sendHash => exact hc.send_request (hc.of_eq rfl rfl hc.once)
  | halt | closed | timer | call | check | submit | callReturn | leave | waited | close =>
    exact hc.of_eq rfl rfl hc.once

theorem gives_up_closes (h : Service.Step x tc s move t) (hup : s.LoopGivesUp move) :
    s.fault = none ∧ ∃ d : Service, d.haltChanClosed = s.haltChanClosed ∧ d.haltCall = s.haltCall ∧
        d.fault = none ∧ t = d.closeHaltChan := by
  obtain ⟨f,hs⟩ := step_cases h
  refine ⟨f,?_⟩
  cases hs with
  | @error ss =>
    obtain ⟨hn,_⟩ | ⟨_,heq⟩ := s.streaming_error_cases ss
    · exact absurd hup hn
    · exact ⟨s.failed,rfl,rfl,f,heq⟩
  | @retry su =>
    cases su with
    | true => cases hup
    | false =>
      obtain ⟨hlt,_⟩ | ⟨_,heq⟩ := s.retry_failed_cases tc
      · exact absurd hup (not_le.mpr hlt)
      · exact ⟨s.retried,rfl,rfl,f,heq⟩
  | halt | closed | response | send | timer | haltTest | haltClose | haltReturn | call | check
  | submit | sendHash | callReturn | leave | waited | close => cases hup

theorem collision_panics (h : Service.Step x tc e.before e.label e.after) (hc : Collides e) :
    ∃ fs u, Run (Service.Step x tc) e.after fs u ∧ u.fault = some .closeOfClosedChannel := by
  obtain ⟨_,d,hch,hca,hf,heq⟩ := gives_up_closes h hc.1
  obtain ⟨ho,hco⟩ | ⟨_,hco⟩ := d.close_halt_chan_cases
  · -- haltChan was open, so Halt has tested it and closes it next
    have hcs : e.after.haltCall = .closing := by
      rw [heq,hco]
      obtain hcl | hcs := hc.2
      · rw [← hch,ho] at hcl
        cases hcl
      · exact hca.trans hcs
    have hcl : e.after.haltChanClosed = true := by rw [heq,hco]
    have hn : e.after.fault = none := by
      rw [heq,hco]
      exact hf
    refine ⟨_,_,.cons (x := Move.haltClose) (t := { e.after.closeHaltChan with
      haltCall := .waiting }) ?_ .nil,?_⟩
    · simp [Service.Step,next,hn,haltStep,hcs]
    · simp [closeHaltChan,hcl]
  · refine ⟨[],e.after,.nil,?_⟩
    rw [heq,hco]

end Service

open Service in
/-- haltChan is closed at most once as long as the loop does not close it while it is closed or
while Halt stands between its test and its close; after every step that does, it can be closed
twice. -/
theorem halt_chan_closed_once (c : Chain)
    (run : Run (Service.Step x topic) (startThread topic c) es s) :
    ((∀ e ∈ es, ¬ Collides e) → s.fault ≠ some .closeOfClosedChannel) ∧
      ∀ e ∈ es, Collides e → ∃ fs u, Run (Service.Step x topic) e.after fs u ∧
        u.fault = some .closeOfClosedChannel := by
  constructor
  · intro hf
    have hst : (startThread topic c).ClosedOnce := ⟨by simp [startThread],by simp [startThread]⟩
    refine (run.invariant_when (I := ClosedOnce) (C := fun e => ¬ Collides e) ?_ hst
      hf).1.once
    intro e hi hs hc
    exact step_closed_once hs hi hc
  · intro e he hco
    exact collision_panics (run.step_of_mem he) hco

def haltedRun : Service × List (Transition Service Move) :=
  (trace (Service.next twoExternals twoTopic) (startThread twoTopic countChain)
    [.haltTest,.haltClose,.halt,.haltReturn]).get (by decide +kernel)

theorem halt_chan_closed_once_halted :
    haltedRun.1.haltChanClosed = true ∧ haltedRun.1.fault ≠ some .closeOfClosedChannel := by
  have hr : Run (Service.Step twoExternals twoTopic) (startThread twoTopic countChain)
      haltedRun.2 haltedRun.1 := trace_get_run _
  exact ⟨by decide +kernel,(halt_chan_closed_once countChain hr).1 (by decide +kernel)⟩

def cancelled : Status := ⟨.other 1,[]⟩
def twiceRun : Service × List (Transition Service Move) :=
  (trace (Service.next twoExternals twoTopic) (startThread twoTopic countChain)
    [.error cancelled,.error cancelled]).get (by decide +kernel)

/-- After a first error that cannot be retried the select may take a second one instead of the
halt signal. -/
theorem second_error_closes_again :
    Run (Service.Step twoExternals twoTopic) (startThread twoTopic countChain) twiceRun.2
      twiceRun.1 ∧
    twiceRun.1.fault = some .closeOfClosedChannel :=
  ⟨trace_get_run _,by decide +kernel⟩

namespace Service

def isTimeToCut {α : Type} : Except Abort α → Bool
  | .error (.timeToCut _) => true
  | _ => false

def LoopEnds (x : Externals) (s : Service) : Move → Prop
  | .closed => True
  | .response own => ∃ resp ∈ s.topicSubscription.head?,
    isTimeToCut (s.chain.processResponse x own resp) = true
  | _ => False

instance (x : Externals) (s : Service) (move : Move) : Decidable (s.LoopEnds x move) := by
  unfold LoopEnds
  split <;> infer_instance

def EndsOpen (x : Externals) (e : Transition Service Move) : Prop :=
  e.before.LoopEnds x e.label ∧ e.before.haltChanClosed = false
deriving Decidable

def CallState.Sends (state : CallState) : Prop :=
  state = .passed ∨ ∃ hash, state = .sending hash

/-- The clean-up starts after the loop. -/
def InTurn (s : Service) : Prop := s.cleanUp = .serving ∨ ∃ reason, s.phase = .exited reason

/-- Once the loop is done haltChan is closed, and once the clean-up has waited for the callers
none of them will send. -/
structure Quiet (s : Service) : Prop where
  inTurn : s.InTurn
  halted : ∀ reason, s.phase = .exited reason → s.haltChanClosed = true
  silent : s.cleanUp = .waited ∨ s.cleanUp = .closed →
    ∀ call ∈ s.calls, ¬ CallState.Sends call.state
  unsent : s.fault ≠ some .sendOnClosedChannel

variable {x : Externals} {tc : FullTopic} {s t d : Service}

theorem close_halt_chan_same (s : Service) :
    s.closeHaltChan.phase = s.phase ∧ s.closeHaltChan.cleanUp = s.cleanUp ∧
      s.closeHaltChan.calls = s.calls := by
  obtain ⟨_,heq⟩ | ⟨_,heq⟩ := s.close_halt_chan_cases <;> rw [heq] <;> exact ⟨rfl,rfl,rfl⟩

theorem phase_after_running (rs : List TimeToCutRequest) (reason : Exit) :
    Phase.after rs ≠ .exited reason := by
  cases rs <;> simp [Phase.after]

theorem Quiet.serving (h : s.Quiet) (hr : ∀ re, s.phase ≠ .exited re) : s.cleanUp = .serving := by
  obtain hs | ⟨re,he⟩ := h.inTurn
  · exact hs
  · exact absurd he (hr re)

theorem Quiet.done (h : s.Quiet) (hc : s.cleanUp ≠ .serving) : s.haltChanClosed = true := by
  obtain hs | ⟨re,he⟩ := h.inTurn
  · exact absurd hs hc
  · exact h.halted re he

theorem quiet_running (hc : t.cleanUp = .serving) (hr : ∀ re, t.phase ≠ .exited re)
    (hf : t.fault ≠ some .sendOnClosedChannel) : t.Quiet :=
  ⟨.inl hc,fun re h => absurd h (hr re),by simp [hc],hf⟩

theorem Quiet.frame (h : s.Quiet) (hp : t.phase = s.phase) (hc : t.cleanUp = s.cleanUp)
    (hca : t.calls = s.calls) (hch : s.haltChanClosed = true → t.haltChanClosed = true)
    (hf : t.fault ≠ some .sendOnClosedChannel) : t.Quiet := by
  refine ⟨?_,?_,?_,hf⟩
  · unfold InTurn
    rw [hp,hc]
    exact h.inTurn
  · intro re
    rw [hp]
    exact fun he => hch (h.halted re he)
  · rw [hc,hca]
    exact h.silent

theorem Quiet.close_halt_chan (h : s.Quiet) : s.closeHaltChan.Quiet := by
  obtain ⟨_,heq⟩ | ⟨_,heq⟩ := s.close_halt_chan_cases
  · rw [heq]
    exact h.frame rfl rfl rfl (fun _ => rfl) h.unsent
  · rw [heq]
    exact h.frame rfl rfl rfl id (by simp)

theorem Quiet.exit (h : s.Quiet) (hcl : s.haltChanClosed = true) (re : Exit) : (s.exit re).Quiet :=
  ⟨.inr ⟨re,rfl⟩,fun _ _ => hcl,h.silent,h.unsent⟩

theorem mem_set_call {state : CallState}
    (h : call ∈ (s.setCall i state).calls) : call ∈ s.calls ∨ call.state = state := by
  obtain ⟨j,hj⟩ := mem_iff_getElem?.mp h
  simp only [setCall,List.getElem?_modify] at hj
  split_ifs at hj with hij
  · obtain ⟨c,_,rfl⟩ := Option.map_eq_some_iff.mp hj
    exact .inr rfl
  · rw [id_map'] at hj
    exact .inl (mem_of_getElem? hj)

theorem Quiet.set_call (h : s.Quiet) (i : Nat) (se : CallState)
    (hst : s.cleanUp = .waited ∨ s.cleanUp = .closed → ¬ CallState.Sends se) :
    (s.setCall i se).Quiet := by
  refine ⟨h.inTurn,h.halted,?_,h.unsent⟩
  intro hc ca hca
  obtain hm | rfl := mem_set_call hca
  · exact h.silent hc ca hm
  · exact hst hc

theorem send_request_eq (h : s.cleanUp ≠ .closed) : s.sendRequest d = d := if_neg h

theorem response_quiet (h : s.Quiet) (ha : s.phase = .selecting)
    (hb : s.topicSubscription = rp :: rest)
    (he : s.LoopEnds x (.response own) → s.haltChanClosed = true) :
    (s.handleResponse x own rp rest).Quiet := by
  have hs := h.serving (by simp [ha])
  obtain ⟨_,_,_,heq⟩ | ⟨te,hp,heq⟩ | ⟨_,_,_,heq⟩ := handle_response_cases x s own rp rest
  · rw [heq]
    exact quiet_running hs (phase_after_running _) h.unsent
  · have hcl := he ⟨rp,by simp [hb],by rw [hp]; rfl⟩
    rw [heq]
    have hr : (s.responded rest).Quiet := h.frame rfl rfl rfl id h.unsent
    exact hr.exit hcl _
  · rw [heq]
    exact h.frame rfl rfl rfl id (by simp)

theorem step_quiet (h : Service.Step x tc s move t) (hq : s.Quiet)
    (hcl : ¬ EndsOpen x ⟨s,move,t⟩) : t.Quiet := by
  obtain ⟨_,hs⟩ := step_cases h
  have he : s.LoopEnds x move → s.haltChanClosed = true := by
    intro he
    simpa [EndsOpen,he] using hcl
  cases hs with
  | halt _ re => exact hq.exit re _
  | closed => exact hq.exit (he trivial) _
  | response ae re => exact response_quiet hq ae re he
  | @error ss =>
    obtain ⟨_,heq⟩ | ⟨_,heq⟩ := s.streaming_error_cases ss
    · rw [heq]
      exact hq.frame rfl rfl rfl id hq.unsent
    rw [heq]
    have her : s.failed.Quiet :=
      hq.frame rfl rfl rfl id hq.unsent
    exact her.close_halt_chan
  | @retry su =>
    cases su with
    | true => exact hq.frame rfl rfl rfl id hq.unsent
    | false =>
      obtain ⟨_,heq⟩ | ⟨_,heq⟩ := s.retry_failed_cases tc
      · rw [heq]
        exact hq.frame rfl rfl rfl id hq.unsent
      rw [heq]
      have hr : s.retried.Quiet := hq.frame rfl rfl rfl id hq.unsent
      exact hr.close_halt_chan
  | send se =>
    have hse := hq.serving (by simp [se])
    rw [send_request_eq (by simp [hse])]
    exact quiet_running hse (phase_after_running _) hq.unsent
  | haltClose =>
    exact (hq.close_halt_chan).frame rfl rfl rfl id (hq.close_halt_chan).unsent
  | call =>
    refine ⟨hq.inTurn,hq.halted,?_,hq.unsent⟩
    intro hc call hca
    obtain hca | hca := mem_append.mp hca
    · exact hq.silent hc call hca
    · rw [mem_singleton.mp hca]
      simp [CallState.Sends]
  | check =>
    refine hq.set_call _ _ ?_
    intro hc
    have hd := hq.done (by obtain h | h := hc <;> simp [h])
    simp [hd,CallState.Sends]
  | submit pa =>
    refine hq.set_call _ _ ?_
    intro hc
    exact absurd (.inl rfl) (hq.silent hc _ (mem_of_getElem? pa))
  | sendHash se =>
    have hn : s.cleanUp ≠ .closed := by
      intro hc
      exact hq.silent (.inr hc) _ (mem_of_getElem? se) (.inr ⟨_,rfl⟩)
    rw [send_request_eq hn]
    exact hq.set_call _ _ (fun _ => by simp [CallState.Sends])
  | callReturn =>
    refine ⟨hq.inTurn,hq.halted,?_,hq.unsent⟩
    intro hc call hca
    exact hq.silent hc call (mem_of_mem_eraseIdx hca)
  | leave _ de =>
    exact ⟨.inr ⟨_,de⟩,hq.halted,by simp,hq.unsent⟩
  | waited wa none =>
    refine ⟨?_,hq.halted,by simp [none],hq.unsent⟩
    obtain hse | hex := hq.inTurn
    · simp [hse] at wa
    · exact .inr hex
  | close waited =>
    refine ⟨?_,hq.halted,fun _ => hq.silent (.inl waited),hq.unsent⟩
    obtain hse | hex := hq.inTurn
    · simp [hse] at waited
    · exact .inr hex
  | timer | haltTest | haltReturn => exact hq.frame rfl rfl rfl id hq.unsent

theorem InTurn.of_eq (h : s.InTurn) (hp : t.phase = s.phase) (hc : t.cleanUp = s.cleanUp) :
    t.InTurn := by
  unfold InTurn
  rw [hp,hc]
  exact h

theorem InTurn.send_request (h : s.InTurn) (hd : d.InTurn) : (s.sendRequest d).InTurn := by
  unfold sendRequest
  split_ifs
  · exact h.of_eq rfl rfl
  · exact hd

theorem InTurn.serving (h : s.InTurn) (hr : ∀ re, s.phase ≠ .exited re) : s.cleanUp = .serving := by
  obtain hs | ⟨re,he⟩ := h
  · exact hs
  · exact absurd he (hr re)

theorem step_in_turn (h : Service.Step x tc s move t) (hi : s.InTurn) : t.InTurn := by
  obtain ⟨_,hs⟩ := step_cases h
  cases hs with
  | halt | closed => exact .inr ⟨_,rfl⟩
  | @response re rt o ae =>
    have hse := hi.serving (by simp [ae])
    obtain ⟨_,_,_,heq⟩ | ⟨_,_,heq⟩ | ⟨_,_,_,heq⟩ := handle_response_cases x s o re rt
    · rw [heq]
      exact .inl hse
    · rw [heq]
      exact .inl hse
    · rw [heq]
      exact .inl hse
  | @error ss =>
    obtain ⟨_,heq⟩ | ⟨_,heq⟩ := s.streaming_error_cases ss
    · rw [heq]
      exact hi.of_eq rfl rfl
    obtain ⟨hp,hc,_⟩ := s.failed.close_halt_chan_same
    rw [heq]
    exact hi.of_eq hp hc
  | @retry su =>
    cases su with
    | true => exact hi.of_eq rfl rfl
    | false =>
      obtain ⟨_,heq⟩ | ⟨_,heq⟩ := s.retry_failed_cases tc
      · rw [heq]
        exact hi.of_eq rfl rfl
      obtain ⟨hp,hc,_⟩ := s.retried.close_halt_chan_same
      rw [heq]
      exact hi.of_eq hp hc
  | send se =>
    have hse := hi.serving (by simp [se])
    exact hi.send_request (.inl hse)
  | haltClose =>
    obtain ⟨hp,hc,_⟩ := s.close_halt_chan_same
    exact hi.of_eq hp hc
  | sendHash => exact hi.send_request (hi.of_eq rfl rfl)
  | leave _ de => exact .inr ⟨_,de⟩
  | waited wa =>
    obtain hse | he := hi
    · simp [hse] at wa
    · exact .inr he
  | close waited =>
    obtain hse | he := hi
    · simp [hse] at waited
    · exact .inr he
  | timer | haltTest | haltReturn | call | check | submit | callReturn => exact hi.of_eq rfl rfl

theorem finish_call (f : s.fault = none) (hw : s.cleanUp = .waiting) (hc : s.calls = call :: rest) :
    ∃ fs, Run (Service.Step x tc) s fs { s with calls := rest } := by
  obtain ⟨ki,se⟩ := call
  have hr : ∀ d : Service, d = s.setCall 0 .returning →
      Service.Step x tc d (.callReturn 0) { s with calls := rest } := by
    intro d hd
    rw [hd]
    simp [Service.Step,next,callStep,setCall,f,hc]
  cases se with
  | entered =>
    refine ⟨_,.cons (x := .check 0 false) ?_ (.cons (hr _ rfl) .nil)⟩
    simp [Service.Step,next,callStep,f,hc]
  | passed =>
    refine ⟨_,.cons (x := .submit 0 none) ?_ (.cons (hr _ rfl) .nil)⟩
    cases ki <;> simp [Service.Step,next,callStep,f,hc,CallKind.submitted]
  | sending ha =>
    refine ⟨_,.cons (x := .sendHash 0) ?_ (.cons (hr _ rfl) .nil)⟩
    simp [Service.Step,next,callStep,f,hc,sendRequest,hw]
  | returning =>
    refine ⟨_,.cons (x := .callReturn 0) ?_ .nil⟩
    simp [Service.Step,next,callStep,f,hc]

theorem finish_calls (f : s.fault = none) (hw : s.cleanUp = .waiting) :
    ∃ fs, Run (Service.Step x tc) s fs { s with calls := [] } := by
  generalize hc : s.calls = calls
  induction calls generalizing s with
  | nil =>
    refine ⟨[],?_⟩
    rw [← hc]
    exact .nil
  | cons ca re ih =>
    obtain ⟨fs,hf⟩ : ∃ fs, Run (Service.Step x tc) s fs { s with calls := re } :=
      finish_call f hw hc
    obtain ⟨gs,hr⟩ := ih (s := { s with calls := re }) f hw rfl
    exact ⟨fs ++ gs,hf.append hr⟩

theorem clean_up_closes (f : s.fault = none) (hs : s.cleanUp = .serving)
    (hd : s.phase = .exited re) :
    ∃ fs, Run (Service.Step x tc) s fs { s with cleanUp := .closed, calls := [] } := by
  obtain ⟨fs,hf⟩ : ∃ fs, Run (Service.Step x tc) { s with cleanUp := .waiting } fs
      { s with cleanUp := .waiting, calls := [] } := finish_calls f rfl
  refine ⟨_,.cons (x := .leave) ?_ (hf.append (.cons (x := .waited)
    (t := { s with cleanUp := .waited, calls := [] }) ?_ (.cons (x := .close) ?_ .nil)))⟩
  · simp [Service.Step,next,cleanUpStep,f,hs,hd]
  · simp [Service.Step,next,cleanUpStep,f]
  · simp [Service.Step,next,cleanUpStep,f]

theorem order_sends (fault : s.fault = none) (hcl : s.cleanUp = .closed)
    (hc : s.calls = []) (ho : s.haltChanClosed = false) :
    ∃ fs u, Run (Service.Step x tc) s fs u ∧ u.fault = some .sendOnClosedChannel := by
  refine ⟨_,{ s with calls := [⟨.order,.sending []⟩], fault := some .sendOnClosedChannel },
    .cons (x := .call .order) (t := { s with calls := [⟨.order,.entered⟩] }) ?_
      (.cons (x := .check 0 true) (t := { s with calls := [⟨.order,.passed⟩] }) ?_
        (.cons (x := .submit 0 (some [])) (t := { s with calls := [⟨.order,.sending []⟩] }) ?_
          (.cons (x := .sendHash 0) ?_ .nil))),rfl⟩
  · simp [Service.Step,next,callStep,fault,hc]
  · simp [Service.Step,next,callStep,setCall,fault,ho]
  · simp [Service.Step,next,callStep,setCall,fault,CallKind.submitted]
  · simp [Service.Step,next,callStep,fault,sendRequest,hcl]

theorem ends_open_exits (h : Service.Step x tc e.before e.label e.after) (ho : EndsOpen x e)
    (hi : e.before.InTurn) : e.after.fault = none ∧ e.after.cleanUp = .serving ∧
      (∃ re, e.after.phase = .exited re) ∧ e.after.haltChanClosed = false := by
  obtain ⟨s,mo,t⟩ := e
  obtain ⟨he,ho⟩ := ho
  simp only at h he ho hi ⊢
  obtain ⟨f,hs⟩ := step_cases h
  cases hs with
  | closed ae => exact ⟨f,hi.serving (by simp [ae]),⟨_,rfl⟩,ho⟩
  | @response rp rt o ae ry =>
    have hse := hi.serving (by simp [ae])
    obtain ⟨r',hh,hc⟩ := he
    simp only [ry,List.head?_cons,Option.mem_def,Option.some.injEq] at hh
    subst hh
    obtain ⟨_,_,hp,_⟩ | ⟨te,hp,heq⟩ | ⟨a,hp,hn,_⟩ :=
      handle_response_cases x s o rp rt
    · rw [hp] at hc
      cases hc
    · rw [heq]
      exact ⟨f,hse,⟨_,rfl⟩,ho⟩
    rw [hp] at hc
    unfold isTimeToCut at hc
    split at hc
    · rename_i te heq
      cases heq
      exact absurd rfl (hn te)
    · cases hc
  | halt | error | retry | send | timer | haltTest | haltClose | haltReturn | call | check
  | submit | sendHash | callReturn | leave | waited | close => cases he

end Service

open Service in
/-- Nothing is sent on timeToCutRequestChan after its close as long as the loop ends only with
haltChan closed; after every step with which it ends otherwise, something can be. -/
theorem no_send_after_close (c : Chain)
    (run : Run (Service.Step x topic) (startThread topic c) es s) :
    ((∀ e ∈ es, ¬ EndsOpen x e) → s.fault ≠ some .sendOnClosedChannel) ∧
      ∀ e ∈ es, EndsOpen x e → ∃ fs u, Run (Service.Step x topic) e.after fs u ∧
        u.fault = some .sendOnClosedChannel := by
  constructor
  · intro hen
    have hst : (startThread topic c).Quiet :=
      quiet_running rfl (by simp [startThread]) (by simp [startThread])
    refine (run.invariant_when (I := Quiet) (C := fun e => ¬ EndsOpen x e) ?_ hst
      hen).1.unsent
    intro e hi hsp hc
    exact step_quiet hsp hi hc
  · intro e he ho
    have ht := (run.invariant (I := InTurn) (fun _ _ _ hi h => step_in_turn h hi)
      (.inl rfl)).2 e he
    obtain ⟨fault,se,⟨re,de⟩,hch⟩ :=
      ends_open_exits (run.step_of_mem he) ho ht.1
    obtain ⟨fs,hcl⟩ : ∃ fs, Run (Service.Step x topic) e.after fs
        { e.after with cleanUp := .closed, calls := [] } := clean_up_closes fault se de
    obtain ⟨gs,u,hs,hf⟩ : ∃ gs u, Run (Service.Step x topic)
        { e.after with cleanUp := .closed, calls := [] } gs u ∧
          u.fault = some .sendOnClosedChannel := order_sends fault rfl rfl hch
    exact ⟨fs ++ gs,u,hcl.append hs,hf⟩

def drainedRun : Service × List (Transition Service Move) :=
  (trace (Service.next twoExternals twoTopic) (startThread twoTopic countChain)
    [.call .order,.check 0 true,.haltTest,.haltClose,.halt,.leave,.submit 0 (some [1]),
      .sendHash 0,.callReturn 0,.waited,.call .order,.close,.check 0 true,.callReturn 0]).get
    (by decide +kernel)

theorem no_send_after_close_drained :
    drainedRun.1.cleanUp = .closed ∧ drainedRun.1.fault ≠ some .sendOnClosedChannel := by
  have hr : Run (Service.Step twoExternals twoTopic) (startThread twoTopic countChain)
      drainedRun.2 drainedRun.1 := trace_get_run _
  exact ⟨by decide +kernel,(no_send_after_close countChain hr).1 (by decide +kernel)⟩

def orphanRun : Service × List (Transition Service Move) :=
  (trace (Service.next twoExternals twoTopic) (startThread twoTopic countChain)
    [.closed,.leave,.waited,.close,.call .order,.check 0 true,.submit 0 (some [1]),
      .sendHash 0]).get (by decide +kernel)

theorem order_sends_after_close :
    Run (Service.Step twoExternals twoTopic) (startThread twoTopic countChain) orphanRun.2
      orphanRun.1 ∧
    orphanRun.1.fault = some .sendOnClosedChannel :=
  ⟨trace_get_run _,by decide +kernel⟩

end PluggableHcs.Hcs
