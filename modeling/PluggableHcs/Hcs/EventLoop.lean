import PluggableHcs.Hcs.Life

namespace PluggableHcs.Hcs
open Runs

def subscriptionRetryMax : Nat := 8

/-- The status codes that are told apart. -/
inductive Code
  | notFound
  | resourceExhausted
  | unavailable
  | internal
  | other (n : Nat)
deriving DecidableEq

structure Status where
  code : Code
  message : Chars
deriving DecidableEq

/-- In the Go string of the pattern \b is a backspace, and the slashes and flags are text. -/
def backspace : Char := Char.ofNat 8

def rstStreamAt (message : Chars) : Bool :=
  ['/',backspace,'r','s','t'].isPrefixOf message && match message.drop 5 with
    | [] => false
    | c :: rest => !c.isAlphanum && ("stream".toList ++ [backspace,'/','g','i']).isPrefixOf rest

def rstStreamRegex (message : Chars) : Bool := message.tails.any rstStreamAt

def isSubscriptionErrorRecoverable (status : Status) : Bool :=
  match status.code with
  | .notFound => true
  | .resourceExhausted => true
  | .unavailable => true
  | .internal => rstStreamRegex status.message
  | .other _ => false

/-- A topic numbers its messages one after the other. -/
structure FullTopic extends Topic where
  numbered : ∀ i resp, responses[i]? = some resp → resp.sequenceNumber = i + 1

def startTime (t : Time) : Int := if t = unixEpoch then t.nanos else t.nanos + 1

def FullTopic.subscribe (topic : FullTopic) (t : Time) : List Response :=
  topic.responses.filter fun resp => decide (startTime t ≤ resp.consensusTimestamp.nanos)

inductive Exit
  | halted
  | subscriptionClosed
  | timeToCut (text : String)
deriving DecidableEq

inductive Phase
  | selecting
  | sending (requests : List TimeToCutRequest)
  | exited (reason : Exit)
deriving DecidableEq

/-- The requests are sent one after the other before the next select. -/
def Phase.after : List TimeToCutRequest → Phase
  | [] => .selecting
  | requests => .sending requests

inductive HaltCall
  | idle
  | closing
  | waiting
deriving DecidableEq

inductive CallKind
  | order
  | configure
deriving DecidableEq

inductive CallState
  | entered
  | passed
  | sending (messageHash : Bytes)
  | returning
deriving DecidableEq

/-- A hash comes back when all chunks were submitted, and only order passes it on. -/
def CallKind.submitted : CallKind → Option Bytes → CallState
  | .order,some hash => .sending hash
  | _,_ => .returning

/-- A call that senderWaitGroup counts. -/
structure Call where
  kind : CallKind
  state : CallState
deriving DecidableEq

inductive CleanUp
  | serving
  | waiting
  | waited
  | closed
deriving DecidableEq

inductive Fault
  | closeOfClosedChannel
  | sendOnClosedChannel
  | abort (a : Abort)
deriving DecidableEq

/-- A started chain with its goroutines and callers. Calls of order by processMessages are part of
the response. A timer whose channel holds a value keeps it when it is reset. -/
structure Service where
  chain : Chain
  topicSubscription : List Response
  subscriptionRetryCount : Nat
  retryTimerRunning : Bool
  retryTimerFired : Bool
  errorChanClosed : Bool
  haltChanClosed : Bool
  phase : Phase
  haltCall : HaltCall
  calls : List Call
  cleanUp : CleanUp
  fault : Option Fault
deriving DecidableEq

def startThread (topic : FullTopic) (c : Chain) : Service where
  chain := c
  topicSubscription := topic.subscribe c.lastConsensusTimestamp
  subscriptionRetryCount := 0
  retryTimerRunning := false
  retryTimerFired := false
  errorChanClosed := false
  haltChanClosed := false
  phase := .selecting
  haltCall := .idle
  calls := []
  cleanUp := .serving
  fault := none

inductive Move
  /-- the branches of the select of processMessages -/
  | halt
  | error (status : Status)
  | retry (subscribed : Bool)
  | closed
  | response (own : LocalOutcome)
  /-- a request of processMessages is received -/
  | send
  /-- the subscription retry timer expires -/
  | timer
  /-- the steps of Halt -/
  | haltTest
  | haltClose
  | haltReturn
  /-- the steps of order and configure -/
  | call (kind : CallKind)
  | check (i : Nat) (marshaled : Bool)
  | submit (i : Nat) (hash : Option Bytes)
  | sendHash (i : Nat)
  | callReturn (i : Nat)
  /-- the steps of the clean-up -/
  | leave
  | waited
  | close
deriving DecidableEq

namespace Service

section
variable (s : Service)

def closeHaltChan : Service :=
  if s.haltChanClosed then { s with fault := some .closeOfClosedChannel }
  else { s with haltChanClosed := true }

def scheduleSubscriptionRetry : Service := { s with retryTimerRunning := true }

/-- The deferred part of processMessages. -/
def exit (reason : Exit) : Service :=
  { s with
    phase := .exited reason
    errorChanClosed := true
    retryTimerRunning := false
    retryTimerFired := false }

/-- The goroutine of the subscription ends with its error, and nothing more is sent. -/
def streamingError (status : Status) : Service :=
  let s := { s with topicSubscription := [], errorChanClosed := true }
  if s.subscriptionRetryCount < subscriptionRetryMax ∧ isSubscriptionErrorRecoverable status then
    s.scheduleSubscriptionRetry
  else s.closeHaltChan

def retrySubscription (topic : FullTopic) (s : Service) (subscribed : Bool) : Service :=
  let s := { s with
    retryTimerFired := false
    subscriptionRetryCount := s.subscriptionRetryCount + 1 }
  if subscribed then
    { s with topicSubscription := topic.subscribe s.chain.lastConsensusTimestamp }
  else if s.subscriptionRetryCount < subscriptionRetryMax then s.scheduleSubscriptionRetry
  else s.closeHaltChan

def handleResponse (x : Externals) (s : Service) (own : LocalOutcome) (resp : Response)
    (rest : List Response) : Service :=
  let s := { s with
    topicSubscription := rest
    subscriptionRetryCount := 0
    errorChanClosed := false }
  match s.chain.processResponse x own resp with
  | .ok (c,_) =>
    { s with
      chain := c
      phase := .after (c.timeToCutRequests.drop s.chain.timeToCutRequests.length) }
  | .error (.timeToCut text) => s.exit (.timeToCut text)
  | .error a => { s with fault := some (.abort a) }

def select (x : Externals) (topic : FullTopic) (s : Service) : Move → Option Service
  | .halt => if s.haltChanClosed then some (s.exit .halted) else none
  | .error status => some (s.streamingError status)
  | .retry subscribed =>
    if s.retryTimerFired then some (s.retrySubscription topic subscribed) else none
  | .closed => some (s.exit .subscriptionClosed)
  | .response own =>
    match s.topicSubscription with
    | [] => none
    | resp :: rest =>
      -- enqueue refuses once haltChan is closed
      if s.haltChanClosed ∧ own.enqueue ≠ none then none
      else some (s.handleResponse x own resp rest)
  | _ => none

def sendRequest (s sent : Service) : Service :=
  if s.cleanUp = .closed then { s with fault := some .sendOnClosedChannel } else sent

def processMessages (x : Externals) (topic : FullTopic) (s : Service) (move : Move) :
    Option Service :=
  match s.phase,move with
  | .selecting,move => s.select x topic move
  | .sending (_ :: requests),.send => some (s.sendRequest { s with phase := .after requests })
  | _,_ => none

def haltStep : Move → Option Service
  | .haltTest =>
    if s.haltCall = .idle then
      some { s with haltCall := if s.haltChanClosed then .idle else .closing }
    else none
  | .haltClose =>
    if s.haltCall = .closing then some { s.closeHaltChan with haltCall := .waiting } else none
  | .haltReturn =>
    match s.haltCall,s.phase with
    | .waiting,.exited _ => some { s with haltCall := .idle }
    | _,_ => none
  | _ => none

def setCall (i : Nat) (state : CallState) : Service :=
  { s with calls := s.calls.modify i fun c => ⟨c.kind,state⟩ }

def callStep : Move → Option Service
  | .call kind => some { s with calls := s.calls ++ [⟨kind,.entered⟩] }
  | .check i marshaled =>
    match s.calls[i]? with
    | some ⟨_,.entered⟩ =>
      some (s.setCall i (if marshaled ∧ ¬ s.haltChanClosed then .passed else .returning))
    | _ => none
  | .submit i hash =>
    match s.calls[i]? with
    | some ⟨kind,.passed⟩ => some (s.setCall i (kind.submitted hash))
    | _ => none
  | .sendHash i =>
    match s.calls[i]? with
    | some ⟨_,.sending _⟩ => some (s.sendRequest (s.setCall i .returning))
    | _ => none
  | .callReturn i =>
    match s.calls[i]? with
    | some ⟨_,.returning⟩ => some { s with calls := s.calls.eraseIdx i }
    | _ => none
  | _ => none

def cleanUpStep : Move → Option Service
  | .leave =>
    match s.cleanUp,s.phase with
    | .serving,.exited _ => some { s with cleanUp := .waiting }
    | _,_ => none
  | .waited =>
    if s.cleanUp = .waiting ∧ s.calls = [] then some { s with cleanUp := .waited } else none
  | .close => if s.cleanUp = .waited then some { s with cleanUp := .closed } else none
  | _ => none

def timerStep : Option Service :=
  if s.retryTimerRunning then
    some { s with retryTimerRunning := false, retryTimerFired := true }
  else none

def next (x : Externals) (topic : FullTopic) (s : Service) (move : Move) : Option Service :=
  if s.fault ≠ none then none
  else
    match move with
    | .halt | .error _ | .retry _ | .closed | .response _ | .send =>
      s.processMessages x topic move
    | .timer => s.timerStep
    | .haltTest | .haltClose | .haltReturn => s.haltStep move
    | .call _ | .check _ _ | .submit _ _ | .sendHash _ | .callReturn _ => s.callStep move
    | .leave | .waited | .close => s.cleanUpStep move

def Step (x : Externals) (topic : FullTopic) (s : Service) (move : Move) (t : Service) : Prop :=
  s.next x topic move = some t

/-- All the steps that a service can take, with what enables them. -/
inductive Stepped (x : Externals) (topic : FullTopic) (s : Service) : Move → Service → Prop
  | halt (at_select : s.phase = .selecting) (ready : s.haltChanClosed = true) :
      Stepped x topic s .halt (s.exit .halted)
  | error (at_select : s.phase = .selecting) :
      Stepped x topic s (.error status) (s.streamingError status)
  | retry (at_select : s.phase = .selecting) (fired : s.retryTimerFired = true) :
      Stepped x topic s (.retry subscribed) (s.retrySubscription topic subscribed)
  | closed (at_select : s.phase = .selecting) :
      Stepped x topic s .closed (s.exit .subscriptionClosed)
  | response (at_select : s.phase = .selecting) (ready : s.topicSubscription = resp :: rest) :
      Stepped x topic s (.response own) (s.handleResponse x own resp rest)
  | send (sending : s.phase = .sending (request :: requests)) :
      Stepped x topic s .send (s.sendRequest { s with phase := .after requests })
  | timer (running : s.retryTimerRunning = true) :
      Stepped x topic s .timer { s with retryTimerRunning := false, retryTimerFired := true }
  | haltTest (idle : s.haltCall = .idle) : Stepped x topic s .haltTest
        { s with haltCall := if s.haltChanClosed then .idle else .closing }
  | haltClose (closing : s.haltCall = .closing) :
      Stepped x topic s .haltClose { s.closeHaltChan with haltCall := .waiting }
  | haltReturn (waiting : s.haltCall = .waiting) (done : s.phase = .exited reason) :
      Stepped x topic s .haltReturn { s with haltCall := .idle }
  | call : Stepped x topic s (.call kind) { s with calls := s.calls ++ [⟨kind,.entered⟩] }
  | check (entered : s.calls[i]? = some ⟨kind,.entered⟩) : Stepped x topic s (.check i marshaled)
        (s.setCall i (if marshaled ∧ ¬ s.haltChanClosed then .passed else .returning))
  | submit (passed : s.calls[i]? = some ⟨kind,.passed⟩) :
      Stepped x topic s (.submit i sent) (s.setCall i (kind.submitted sent))
  | sendHash (sending : s.calls[i]? = some ⟨kind,.sending messageHash⟩) :
      Stepped x topic s (.sendHash i) (s.sendRequest (s.setCall i .returning))
  | callReturn (returning : s.calls[i]? = some ⟨kind,.returning⟩) :
      Stepped x topic s (.callReturn i) { s with calls := s.calls.eraseIdx i }
  | leave (serving : s.cleanUp = .serving) (done : s.phase = .exited reason) :
      Stepped x topic s .leave { s with cleanUp := .waiting }
  | waited (waiting : s.cleanUp = .waiting) (none : s.calls = []) :
      Stepped x topic s .waited { s with cleanUp := .waited }
  | close (waited : s.cleanUp = .waited) : Stepped x topic s .close { s with cleanUp := .closed }

theorem close_halt_chan_cases :
    (s.haltChanClosed = false ∧ s.closeHaltChan = { s with haltChanClosed := true }) ∨
      (s.haltChanClosed = true ∧
        s.closeHaltChan = { s with fault := some .closeOfClosedChannel }) := by
  unfold closeHaltChan
  cases h : s.haltChanClosed
  · exact .inl ⟨rfl,rfl⟩
  · exact .inr ⟨rfl,rfl⟩

def GivesUp (status : Status) : Prop :=
  subscriptionRetryMax ≤ s.subscriptionRetryCount ∨ isSubscriptionErrorRecoverable status = false
deriving Decidable

def failed : Service := { s with topicSubscription := [], errorChanClosed := true }

theorem streaming_error_cases (ss : Status) : (¬ s.GivesUp ss ∧
      s.streamingError ss = { s.failed with retryTimerRunning := true }) ∨
    (s.GivesUp ss ∧ s.streamingError ss = s.failed.closeHaltChan) := by
  unfold streamingError GivesUp failed
  by_cases hc : s.subscriptionRetryCount < subscriptionRetryMax
  · cases hr : isSubscriptionErrorRecoverable ss
    · exact .inr ⟨.inr rfl,by simp⟩
    refine .inl ⟨by simp [hc],?_⟩
    simp only [hc,and_self,if_true]
    rfl
  · exact .inr ⟨.inl (not_lt.mp hc),by simp [hc]⟩

def retried : Service :=
  { s with
    retryTimerFired := false
    subscriptionRetryCount := s.subscriptionRetryCount + 1 }

theorem retry_failed_cases (tc : FullTopic) (s : Service) :
    (s.subscriptionRetryCount + 1 < subscriptionRetryMax ∧
      s.retrySubscription tc false = { s.retried with retryTimerRunning := true }) ∨
    (subscriptionRetryMax ≤ s.subscriptionRetryCount + 1 ∧
      s.retrySubscription tc false = s.retried.closeHaltChan) := by
  unfold retrySubscription retried
  by_cases hc : s.subscriptionRetryCount + 1 < subscriptionRetryMax
  · refine .inl ⟨hc,?_⟩
    simp only [Bool.false_eq_true,if_false,hc,if_true]
    rfl
  · exact .inr ⟨not_lt.mp hc,by simp [hc]⟩

def responded (rest : List Response) : Service :=
  { s with
    topicSubscription := rest
    subscriptionRetryCount := 0
    errorChanClosed := false }

end

theorem handle_response_cases (x : Externals) (s : Service) (o : LocalOutcome) (re : Response)
    (rt : List Response) :
    (∃ c ou, s.chain.processResponse x o re = .ok (c,ou) ∧
      s.handleResponse x o re rt = { s.responded rt with
        chain := c
        phase := .after (c.timeToCutRequests.drop s.chain.timeToCutRequests.length) }) ∨
    (∃ te, s.chain.processResponse x o re = .error (.timeToCut te) ∧
      s.handleResponse x o re rt = (s.responded rt).exit (.timeToCut te)) ∨
    (∃ a, s.chain.processResponse x o re = .error a ∧ (∀ te, a ≠ .timeToCut te) ∧
      s.handleResponse x o re rt = { s.responded rt with fault := some (.abort a) }) := by
  unfold handleResponse responded
  cases hp : s.chain.processResponse x o re with
  | ok ot => exact .inl ⟨ot.1,ot.2,rfl,by simp only [hp]⟩
  | error a =>
    cases a with
    | timeToCut te => exact .inr (.inl ⟨te,rfl,by simp only [hp]⟩)
    | sequenceNumber | consensusTimestamp | reassemble | closeOfClosedChannel | configBlock
    | consensusMetadata | publicKeys | recollectedPast =>
      exact .inr (.inr ⟨_,rfl,by simp,by simp only [hp]⟩)

variable {x : Externals} {tc : FullTopic} {s t : Service}

variable {mo : Move}

theorem select_cases (ha : s.phase = .selecting)
    (h : s.select x tc mo = some t) : Stepped x tc s mo t := by
  cases mo with
  | halt =>
    simp only [select] at h
    split_ifs at h with hr
    cases h
    exact .halt ha hr
  | error ss =>
    cases h
    exact .error ha
  | retry su =>
    simp only [select] at h
    split_ifs at h with hfir
    cases h
    exact .retry ha hfir
  | closed =>
    cases h
    exact .closed ha
  | response o =>
    simp only [select] at h
    split at h
    · cases h
    rename_i re rt hr
    split_ifs at h
    cases h
    exact .response ha hr
  | send | timer | haltTest | haltClose | haltReturn | call | check | submit | sendHash
  | callReturn | leave | waited | close => cases h

theorem process_messages_cases (h : s.processMessages x tc mo = some t) : Stepped x tc s mo t := by
  unfold processMessages at h
  split at h
  · rename_i hp
    exact select_cases hp h
  · rename_i hp
    cases h
    exact .send hp
  · cases h

theorem halt_step_cases (h : s.haltStep mo = some t) : Stepped x tc s mo t := by
  cases mo with
  | haltTest =>
    simp only [haltStep] at h
    by_cases hi : s.haltCall = .idle
    · rw [if_pos hi] at h
      cases h
      exact .haltTest hi
    · rw [if_neg hi] at h
      cases h
  | haltClose =>
    simp only [haltStep] at h
    split_ifs at h with hc
    cases h
    exact .haltClose hc
  | haltReturn =>
    simp only [haltStep] at h
    split at h
    · rename_i hw hd
      cases h
      exact .haltReturn hw hd
    · cases h
  | halt | error | retry | closed | response | send | timer | call | check | submit | sendHash
  | callReturn | leave | waited | close => cases h

theorem call_step_cases (h : s.callStep mo = some t) : Stepped x tc s mo t := by
  cases mo with
  | call ki =>
    cases h
    exact .call
  | check i ma =>
    simp only [callStep] at h
    split at h
    · rename_i he
      cases h
      exact .check he
    · cases h
  | submit i se =>
    simp only [callStep] at h
    split at h
    · rename_i hps
      cases h
      exact .submit hps
    · cases h
  | sendHash i =>
    simp only [callStep] at h
    split at h
    · rename_i hs
      cases h
      exact .sendHash hs
    · cases h
  | callReturn i =>
    simp only [callStep] at h
    split at h
    · rename_i hr
      cases h
      exact .callReturn hr
    · cases h
  | halt | error | retry | closed | response | send | timer | haltTest | haltClose | haltReturn
  | leave | waited | close => cases h

theorem clean_up_step_cases (h : s.cleanUpStep mo = some t) : Stepped x tc s mo t := by
  cases mo with
  | leave =>
    simp only [cleanUpStep] at h
    split at h
    · rename_i hs hd
      cases h
      exact .leave hs hd
    · cases h
  | waited =>
    simp only [cleanUpStep] at h
    split_ifs at h with hwai
    cases h
    exact .waited hwai.1 hwai.2
  | close =>
    simp only [cleanUpStep] at h
    split_ifs at h with hw
    cases h
    exact .close hw
  | halt | error | retry | closed | response | send | timer | haltTest | haltClose | haltReturn
  | call | check | submit | sendHash | callReturn => cases h

theorem step_cases (h : Service.Step x tc s mo t) : s.fault = none ∧ Stepped x tc s mo t := by
  unfold Step next at h
  split_ifs at h with hf
  refine ⟨not_not.mp hf,?_⟩
  cases mo with
  | halt | error | retry | closed | response | send => exact process_messages_cases h
  | timer =>
    simp only [timerStep] at h
    split_ifs at h with hr
    cases h
    exact .timer hr
  | haltTest | haltClose | haltReturn => exact halt_step_cases h
  | call | check | submit | sendHash | callReturn => exact call_step_cases h
  | leave | waited | close => exact clean_up_step_cases h

end Service
end PluggableHcs.Hcs
