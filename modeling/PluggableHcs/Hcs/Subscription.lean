import PluggableHcs.Hcs.ChunkFree
import PluggableHcs.Hcs.EventLoop

namespace PluggableHcs.Hcs
open Runs List Service Abort

def Abort.OutOfOrder (a : Abort) : Prop := a = .sequenceNumber ∨ a = .consensusTimestamp

namespace Replica

theorem commit_config_error {r : Replica} (h : r.commitConfig x env ts o = .error a) :
    ¬ a.OutOfOrder := by
  unfold commitConfig configKeys at h
  split at h
  · cases h
    simp [OutOfOrder]
  split at h
  · rename_i hk
    split at hk
    · cases hk
      cases h
      simp [OutOfOrder]
    split at hk
    · cases hk
      cases h
      simp [OutOfOrder]
    · cases hk
  · cases h

theorem handle_error {r : Replica} {ha : Bytes}
    (h : r.handle x ts seq msg ha = .error a) : ¬ a.OutOfOrder := by
  unfold handle at h
  split at h
  · unfold recollect at h
    split_ifs at h
    cases h
    simp [OutOfOrder]
  · unfold regular at h
    split at h
    · cases h
    · cases h
    · split_ifs at h
    split_ifs at h
    split at h
    · rename_i hc
      cases h
      exact commit_config_error hc
    · cases h
  · unfold timeToCut at h
    split at h
    · rename_i hd
      cases h
      unfold createBlock at hd
      split at hd
      · split_ifs at hd
        cases hd
        simp [OutOfOrder]
      · cases hd
      · cases hd
    · cases h
    · split_ifs at h
      cases h
      simp [OutOfOrder]
  · cases h
  · cases h

theorem step_error {r : Replica} (hs : re.sequenceNumber = r.lastSequence + 1)
    (hts : r.lastTimestamp.nanos < re.consensusTimestamp.nanos)
    (h : r.step x accepts re = .error a) : ¬ a.OutOfOrder := by
  unfold step at h
  split at h
  · rename_i hr
    cases h
    unfold receive at hr
    have ha : re.consensusTimestamp.after r.lastTimestamp = true := by
      simpa [Time.after] using hts
    simp only [hs,ha,ne_eq,not_true,if_false] at hr
    split at hr
    · cases hr
    split at hr
    · cases hr
      simp [OutOfOrder]
    · cases hr
  · exact handle_error h
  · cases h

end Replica

theorem process_response_error {c : Chain} (hs : resp.sequenceNumber = c.lastSequenceProcessed + 1)
    (hts : c.lastConsensusTimestamp.nanos < resp.consensusTimestamp.nanos)
    (h : c.processResponse x own resp = .error a) : ¬ a.OutOfOrder := by
  obtain hr | hr : c.processResponse x own resp = .error .closeOfClosedChannel ∨
      (c.processResponse x own resp).map (fun o => (o.1.replica,o.2.effect)) =
        c.replica.step x (fun _ => verify x c.publicKeys) resp :=
    process_response_replica rfl own resp
  · rw [h] at hr
    cases hr
    simp [OutOfOrder]
  · rw [h] at hr
    exact Replica.step_error hs hts hr.symm

theorem process_response_timestamp {c c' : Chain} {o : Outcome}
    (h : c.processResponse x own re = .ok (c',o)) :
    c'.lastConsensusTimestamp = re.consensusTimestamp := by
  obtain ⟨d,_,_,_,hr,hc⟩ := process_response_handling h
  have hts := hr.position.1
  obtain ⟨rfl,_⟩ | ⟨_,_,_,hh⟩ := hc
  · exact hts
  · exact hh.placed.lastTimestamp.trans hts

namespace FullTopic
variable {tc : FullTopic} {n : Nat} {t : Time}

theorem at_get (h : tc.responses[i]? = some re) : tc.timeline.At (i + 1) re.consensusTimestamp := by
  refine .inr (mem_map.mpr ⟨re,mem_of_getElem? h,?_⟩)
  rw [tc.numbered i re h]

theorem le_of_lt (hat : tc.timeline.At n t) (h : tc.responses[i]? = some re)
    (hlt : i < n) : re.consensusTimestamp.nanos ≤ t.nanos := by
  have hg := tc.at_get h
  obtain heq | hlt := Nat.eq_or_lt_of_le (Nat.succ_le_of_lt hlt)
  · obtain ⟨rfl,_⟩ | hme := hat
    · omega
    obtain ⟨o,ho,hm⟩ := mem_map.mp hme
    obtain ⟨j,hj⟩ := mem_iff_getElem?.mp ho
    have hs := tc.numbered j o hj
    simp only [Prod.mk.injEq] at hm
    have hij : i = j := by omega
    subst hij
    rw [h] at hj
    cases hj
    rw [hm.2]
  · exact (hg.lt hat hlt).le

theorem lt_of_le (hat : tc.timeline.At n t) (h : tc.responses[i]? = some re)
    (hle : n ≤ i) : t.nanos < re.consensusTimestamp.nanos :=
  hat.lt (tc.at_get h) (Nat.lt_succ_of_le hle)

theorem subscribe_eq (hat : tc.timeline.At n t) : tc.subscribe t = tc.responses.drop n := by
  have hp : (tc.responses.take n).filter
      (fun re => decide (startTime t ≤ re.consensusTimestamp.nanos)) = [] := by
    rw [filter_eq_nil_iff]
    intro re hr
    obtain ⟨i,hi⟩ := mem_iff_getElem?.mp hr
    rw [List.getElem?_take] at hi
    split_ifs at hi with hlt
    have hle := le_of_lt hat hi hlt
    have he := (tc.later re (mem_of_getElem? hi)).2
    have hne : t ≠ unixEpoch := by
      intro heq
      rw [heq] at hle
      omega
    simp only [startTime,hne,if_false,decide_eq_true_eq]
    omega
  have hre : (tc.responses.drop n).filter
      (fun re => decide (startTime t ≤ re.consensusTimestamp.nanos)) = tc.responses.drop n := by
    rw [filter_eq_self]
    intro re hr
    obtain ⟨i,hi⟩ := mem_iff_getElem?.mp hr
    rw [List.getElem?_drop] at hi
    have hlt := lt_of_le hat hi (Nat.le_add_right n i)
    unfold startTime
    split_ifs <;> simp only [decide_eq_true_eq] <;> omega
  unfold subscribe
  rw [← take_append_drop n tc.responses,filter_append,hp,nil_append,take_append_drop]
  exact hre

end FullTopic

namespace Service

/-- The subscription offers what is left, or it is broken and a retry is due as long as haltChan is
open. -/
def Receives (rest : List Response) (s : Service) : Prop :=
  s.topicSubscription = rest ∨ s.topicSubscription = [] ∧
    (s.haltChanClosed = true ∨ s.retryTimerRunning = true ∨ s.retryTimerFired = true)

structure At (topic : FullTopic) (n : Nat) (s : Service) : Prop where
  receives : s.Receives (topic.responses.drop n)
  sequence : s.chain.lastSequenceProcessed = n
  position : topic.timeline.At n s.chain.lastConsensusTimestamp

structure Tracks (topic : FullTopic) (n : Nat) (s : Service) : Prop where
  live : s.fault = none → (∀ reason, s.phase ≠ .exited reason) → s.At topic n
  inOrder : ∀ a, s.fault = some (.abort a) → ¬ a.OutOfOrder

section
variable {x : Externals} {tc : FullTopic} {n : Nat} {s t : Service}

theorem Tracks.frame (h : s.Tracks tc n) (f : s.fault = none) (hc : t.chain = s.chain)
    (hr : ∀ rest, s.Receives rest → t.Receives rest)
    (hp : (∃ reason, s.phase = .exited reason) → ∃ reason, t.phase = .exited reason)
    (hf : ∀ a, t.fault ≠ some (.abort a)) : t.Tracks tc n := by
  refine ⟨?_,fun a ha => absurd ha (hf a)⟩
  intro _ hru
  have hl : ∀ reason, s.phase ≠ .exited reason := by
    intro reason he
    obtain ⟨r',he'⟩ := hp ⟨reason,he⟩
    exact hru r' he'
  obtain ⟨h1,h2,h3⟩ := h.live f hl
  exact ⟨hr _ h1,by rw [hc]; exact h2,by rw [hc]; exact h3⟩

theorem tracks_exit (f : s.fault = none) (re : Exit) : (s.exit re).Tracks tc n := by
  refine ⟨fun _ h => absurd rfl (h re),?_⟩
  intro a ha
  rw [show (s.exit re).fault = s.fault from rfl,f] at ha
  cases ha

section
variable (h : s.Tracks tc n) (f : s.fault = none)
include h f

/-- With haltChan closed nothing more has to be offered. -/
theorem gives_up_tracks (hc : t.chain = s.chain) (hp : t.phase = s.phase) (hf : t.fault = none)
    (hs : t.topicSubscription = s.topicSubscription ∨ t.topicSubscription = []) :
    t.closeHaltChan.Tracks tc n := by
  obtain ⟨_,heq⟩ | ⟨_,heq⟩ := t.close_halt_chan_cases
  · rw [heq]
    refine h.frame f hc ?_ (by simp [hp]) (by simp [hf])
    rintro rest hre
    obtain hs | hs := hs
    · exact hre.imp hs.trans fun he => ⟨hs.trans he.1,.inl rfl⟩
    · exact .inr ⟨hs,.inl rfl⟩
  · rw [heq]
    exact ⟨by simp,by simp⟩

theorem streaming_error_tracks (ss : Status) : (s.streamingError ss).Tracks tc n := by
  obtain ⟨_,heq⟩ | ⟨_,heq⟩ := s.streaming_error_cases ss
  · rw [heq]
    exact h.frame f rfl (fun _ _ => .inr ⟨rfl,.inr (.inl rfl)⟩) id (by simp [failed,f])
  · rw [heq]
    exact gives_up_tracks h f rfl rfl f (.inr rfl)

theorem retry_tracks (ha : s.phase = .selecting) (su : Bool) :
    (s.retrySubscription tc su).Tracks tc n := by
  cases su with
  | true =>
    have hat := h.live f (by simp [ha])
    exact ⟨fun _ _ => ⟨.inl (FullTopic.subscribe_eq hat.position),hat.sequence,hat.position⟩,
      by simp [retrySubscription,f]⟩
  | false =>
    obtain ⟨_,heq⟩ | ⟨_,heq⟩ := s.retry_failed_cases tc
    · rw [heq]
      refine h.frame f rfl (fun _ hr => ?_) id (by simp [retried,f])
      exact hr.imp_right fun he => ⟨he.1,.inr (.inl rfl)⟩
    · rw [heq]
      exact gives_up_tracks h f rfl rfl f (.inl rfl)

theorem send_request_tracks (hd : d.Tracks tc n) : (s.sendRequest d).Tracks tc n := by
  unfold sendRequest
  split_ifs
  · exact h.frame f rfl (fun _ => id) id (by simp)
  · exact hd

end

theorem handle_response_tracks (h : s.At tc n) (f : s.fault = none)
    (hb : s.topicSubscription = resp :: rest) :
    (s.handleResponse x own resp rest).Tracks tc (n + 1) ∧
      tc.responses.drop n = resp :: tc.responses.drop (n + 1) := by
  have hd : tc.responses.drop n = resp :: rest := by
    obtain he | ⟨he,_⟩ := h.receives
    · rw [← he,hb]
    · rw [hb] at he
      cases he
  have hg : tc.responses[n]? = some resp := by
    rw [← List.head?_drop,hd]
    rfl
  have hr : rest = tc.responses.drop (n + 1) := by
    rw [← tail_drop,hd]
    rfl
  have hs : resp.sequenceNumber = s.chain.lastSequenceProcessed + 1 := by
    rw [h.sequence]
    exact tc.numbered n resp hg
  have hts : s.chain.lastConsensusTimestamp.nanos < resp.consensusTimestamp.nanos :=
    FullTopic.lt_of_le h.position hg (le_refl n)
  refine ⟨?_,by rw [hd,hr]⟩
  obtain ⟨c,o,hp,heq⟩ | ⟨te,hp,heq⟩ | ⟨a,hp,_,heq⟩ :=
    handle_response_cases x s own resp rest
  · rw [heq]
    refine ⟨fun _ _ => ⟨.inl hr,?_,?_⟩,by simp [responded,f]⟩
    · exact (process_response_position hp).1.trans (by rw [h.sequence])
    · simp only [process_response_timestamp hp]
      exact FullTopic.at_get hg
  · rw [heq]
    exact tracks_exit (s := s.responded rest) f _
  · rw [heq]
    refine ⟨by simp,?_⟩
    intro a' ha
    cases ha
    exact process_response_error hs hts hp

def handledBy (s : Service) : Move → List Response
  | .response _ => s.topicSubscription.head?.toList
  | _ => []

theorem step_tracks (h : Step x tc s move t) (ht : s.Tracks tc n) :
    t.Tracks tc (n + (s.handledBy move).length) ∧ tc.responses.drop n =
        s.handledBy move ++ tc.responses.drop (n + (s.handledBy move).length) := by
  obtain ⟨f,hs⟩ := step_cases h
  have hno : ∀ a, s.fault ≠ some (.abort a) := by simp [f]
  cases hs with
  | halt | closed => exact ⟨tracks_exit f _,rfl⟩
  | error => exact ⟨streaming_error_tracks ht f _,rfl⟩
  | retry ae => exact ⟨retry_tracks ht f ae _,rfl⟩
  | response ae re =>
    have hat := ht.live f (by simp [ae])
    simp only [handledBy,re]
    exact handle_response_tracks hat f re
  | @send _ rs se =>
    have hse := ht.frame (t := { s with phase := .after rs }) f rfl (fun _ => id)
      (by simp [se]) hno
    exact ⟨send_request_tracks ht f hse,rfl⟩
  | haltClose =>
    have hcl := gives_up_tracks ht f rfl rfl f (.inl rfl)
    refine ⟨⟨?_,hcl.inOrder⟩,rfl⟩
    intro hf hp
    obtain ⟨hr,hsq,hpo⟩ := hcl.live hf hp
    exact ⟨hr,hsq,hpo⟩
  | @sendHash i =>
    have hse := ht.frame (t := s.setCall i .returning) f rfl (fun _ => id) id hno
    exact ⟨send_request_tracks ht f hse,rfl⟩
  | timer =>
    refine ⟨ht.frame f rfl (fun _ hr => ?_) id hno,rfl⟩
    exact hr.imp_right fun he => ⟨he.1,.inr (.inr rfl)⟩
  | haltTest | haltReturn | call | check | submit | callReturn | leave | waited
  | close => exact ⟨ht.frame f rfl (fun _ => id) id hno,rfl⟩

/-- A new subscription starts behind the last response that was handled. -/
theorem retry_receives (h : Step x tc s (.retry true) t) (ht : s.Tracks tc n) :
    t.topicSubscription = tc.responses.drop n := by
  obtain ⟨f,hs⟩ := step_cases h
  cases hs with
  | retry ae => exact FullTopic.subscribe_eq (ht.live f (by simp [ae])).position

end

def handled (es : List (Transition Service Move)) : List Response :=
  es.flatMap fun e => e.before.handledBy e.label

theorem run_tracks (hr : Run (Step x topic) s es u) (h : s.Tracks topic n) :
    u.Tracks topic (n + (handled es).length) ∧ handled es <+: topic.responses.drop n := by
  induction hr generalizing n with
  | nil => exact ⟨h,List.nil_prefix⟩
  | @cons s mo t es u he ta ih =>
    obtain ⟨ht,hd⟩ := step_tracks he h
    obtain ⟨hu,hl⟩ := ih ht
    have hc : handled (⟨s,mo,t⟩ :: es) = s.handledBy mo ++ handled es := rfl
    rw [hc,length_append,← Nat.add_assoc,hd]
    exact ⟨hu,(prefix_append_right_inj _).mpr hl⟩

def retriesAfter (n : Nat) : Move → Nat
  | .retry _ => n + 1
  | .response _ => 0
  | _ => n

def retriesSince (es : List (Transition Service Move)) : Nat :=
  es.foldl (fun n e => retriesAfter n e.label) 0

theorem close_halt_chan_retries (s : Service) :
    s.closeHaltChan.subscriptionRetryCount = s.subscriptionRetryCount := by
  obtain ⟨_,heq⟩ | ⟨_,heq⟩ := s.close_halt_chan_cases <;> rw [heq]

theorem send_request_retries {s d : Service}
    (h : d.subscriptionRetryCount = s.subscriptionRetryCount) :
    (s.sendRequest d).subscriptionRetryCount = s.subscriptionRetryCount := by
  unfold sendRequest
  split_ifs
  · rfl
  · exact h

theorem step_retries {s t : Service} (h : Step x topic s move t) :
    t.subscriptionRetryCount = retriesAfter s.subscriptionRetryCount move := by
  obtain ⟨_,hs⟩ := step_cases h
  cases hs with
  | @error ss =>
    obtain ⟨_,heq⟩ | ⟨_,heq⟩ := s.streaming_error_cases ss
    · rw [heq]
      rfl
    · rw [heq]
      exact close_halt_chan_retries _
  | @retry su =>
    cases su with
    | true => rfl
    | false =>
      obtain ⟨_,heq⟩ | ⟨_,heq⟩ := s.retry_failed_cases topic
      · rw [heq]
        rfl
      · rw [heq]
        exact close_halt_chan_retries _
  | @response re rt o =>
    obtain ⟨_,_,_,heq⟩ | ⟨_,_,heq⟩ | ⟨_,_,_,heq⟩ := handle_response_cases x s o re rt
    all_goals
      rw [heq]
      rfl
  | send | sendHash => exact send_request_retries rfl
  | haltClose => exact close_halt_chan_retries s
  | halt | closed | timer | haltTest | haltReturn | call | check | submit | callReturn | leave
  | waited | close => rfl

theorem run_retries (hr : Run (Step x topic) s es u) : u.subscriptionRetryCount =
      es.foldl (fun n e => retriesAfter n e.label) s.subscriptionRetryCount := by
  induction hr with
  | nil => rfl
  | cons he ta ih => rw [ih,step_retries he,foldl_cons]

def LoopCloses (e : Transition Service Move) : Prop :=
  e.label ≠ .haltClose ∧ ((e.before.haltChanClosed = false ∧ e.after.haltChanClosed = true) ∨
      e.after.fault = some .closeOfClosedChannel)

theorem send_request_not_closes {s d : Service} (hf : d.fault = none)
    (hcl : d.haltChanClosed = s.haltChanClosed) :
    (s.sendRequest d).haltChanClosed = s.haltChanClosed ∧
      (s.sendRequest d).fault ≠ some .closeOfClosedChannel := by
  unfold sendRequest
  split_ifs
  · exact ⟨rfl,by simp⟩
  · exact ⟨hcl,by simp [hf]⟩

theorem loop_closes_cases {e : Transition Service Move}
    (h : Step x topic e.before e.label e.after) (hc : LoopCloses e) :
    (∃ ss, e.label = .error ss ∧ e.before.GivesUp ss) ∨ (e.label = .retry false ∧
        subscriptionRetryMax ≤ e.before.subscriptionRetryCount + 1) := by
  obtain ⟨s,mo,t⟩ := e
  obtain ⟨hm,hc⟩ := hc
  simp only at h hm hc ⊢
  obtain ⟨f,hs⟩ := step_cases h
  have hsa : t.haltChanClosed = s.haltChanClosed → t.fault ≠ some .closeOfClosedChannel →
      False := by
    intro h1 h2
    obtain ⟨h3,h4⟩ | h3 := hc
    · rw [h1,h3] at h4
      cases h4
    · exact h2 h3
  have hno : s.fault ≠ some .closeOfClosedChannel := by simp [f]
  cases hs with
  | @error ss =>
    obtain ⟨_,heq⟩ | ⟨hup,_⟩ := s.streaming_error_cases ss
    · rw [heq] at hsa
      exact absurd (hsa rfl hno) id
    · exact .inl ⟨ss,rfl,hup⟩
  | @retry su =>
    cases su with
    | true => exact absurd (hsa rfl hno) id
    | false =>
      obtain ⟨_,heq⟩ | ⟨hma,_⟩ := s.retry_failed_cases topic
      · rw [heq] at hsa
        exact absurd (hsa rfl hno) id
      · exact .inr ⟨rfl,hma⟩
  | @response re rt o =>
    obtain ⟨_,_,_,heq⟩ | ⟨_,_,heq⟩ | ⟨_,_,_,heq⟩ := handle_response_cases x s o re rt
    · rw [heq] at hsa
      exact absurd (hsa rfl hno) id
    · rw [heq] at hsa
      exact absurd (hsa rfl hno) id
    · rw [heq] at hsa
      exact absurd (hsa rfl (by simp)) id
  | @send _ rs =>
    obtain ⟨h1,h2⟩ := send_request_not_closes (s := s) (d := { s with phase := .after rs })
      f rfl
    exact absurd (hsa h1 h2) id
  | @sendHash i =>
    obtain ⟨h1,h2⟩ := send_request_not_closes (s := s) (d := s.setCall i .returning) f rfl
    exact absurd (hsa h1 h2) id
  | haltClose => exact absurd rfl hm
  | halt | closed | timer | haltTest | haltReturn | call | check | submit | callReturn | leave
  | waited | close => exact absurd (hsa rfl hno) id

end Service

open Service in
/-- The responses of the topic after the position of the chain are handled, each once and in order.
What is left is offered by the subscription as long as the loop runs, and by each new one after a
retry, or the subscription is broken with a retry due. No response ends the loop for its position,
and haltChan is closed only on an unrecoverable status or without retries left. -/
theorem subscription_loses_nothing {c : Chain}
    (position : topic.timeline.At c.lastSequenceProcessed c.lastConsensusTimestamp)
    (run : Run (Step x topic) (startThread topic c) es s) :
    handled es <+: topic.responses.drop c.lastSequenceProcessed ∧
    (s.fault = none → (∀ reason, s.phase ≠ .exited reason) →
      s.Receives (topic.responses.drop (c.lastSequenceProcessed + (handled es).length))) ∧
    s.fault ≠ some (.abort .sequenceNumber) ∧ s.fault ≠ some (.abort .consensusTimestamp) ∧
    ∀ as e bs, es = as ++ e :: bs →
      (e.label = .retry true → e.after.topicSubscription =
        topic.responses.drop (c.lastSequenceProcessed + (handled as).length)) ∧
      (LoopCloses e →
        (∃ status, e.label = .error status ∧ isSubscriptionErrorRecoverable status = false) ∨
          subscriptionRetryMax ≤ retriesSince (as ++ [e])) := by
  have hstart : (startThread topic c).Tracks topic c.lastSequenceProcessed :=
    ⟨fun _ _ => ⟨.inl (FullTopic.subscribe_eq position),rfl,position⟩,by simp [startThread]⟩
  obtain ⟨ht,hle⟩ := run_tracks run hstart
  refine ⟨hle,fun hf hp => (ht.live hf hp).receives,?_,?_,?_⟩
  · exact fun h => ht.inOrder _ h (.inl rfl)
  · exact fun h => ht.inOrder _ h (.inr rfl)
  intro as e bs hsp
  rw [hsp] at run
  obtain ⟨hb,hse,_⟩ := run.split_cons
  refine ⟨fun hl => retry_receives (hl ▸ hse) (run_tracks hb hstart).1,fun hc => ?_⟩
  have hcn : e.before.subscriptionRetryCount = retriesSince as := run_retries hb
  have hs : retriesSince (as ++ [e]) = retriesAfter (retriesSince as) e.label := by
    simp [retriesSince]
  rw [hs,← hcn]
  obtain ⟨status,hl,hm | hst⟩ | ⟨hl,hm⟩ := loop_closes_cases hse hc
  · right
    rw [hl]
    exact hm
  · exact .inl ⟨status,hl,hst⟩
  right
  rw [hl]
  exact hm

def twoTopic : FullTopic where
  responses := [firstNormal.respond 1,secondNormal.respond 2]
  increasing := by decide +kernel
  later := by decide +kernel
  numbered := by
    intro i resp h
    match i with
    | 0 =>
      cases h
      rfl
    | 1 =>
      cases h
      rfl
    | i + 2 => cases h

/-- The subscription breaks after the first response, and the second attempt to renew it
succeeds. -/
def brokenMoves : List Move :=
  [.response ⟨none,none,none⟩,.send,.error ⟨.unavailable,[]⟩,.timer,.retry false,.timer,
    .retry true,.response ⟨none,none,none⟩,.send]

def brokenRun : Service × List (Transition Service Move) :=
  (trace (next twoExternals twoTopic) (startThread twoTopic countChain) brokenMoves).get
    (by decide +kernel)

theorem subscription_loses_nothing_broken : Service.handled brokenRun.2 = twoTopic.responses ∧
    Service.handled brokenRun.2 <+: twoTopic.responses.drop countChain.lastSequenceProcessed ∧
    ((brokenRun.2[6]?).map fun e => (e.label,e.before.topicSubscription,e.after.topicSubscription))
      = some (.retry true,[],twoTopic.responses.drop 1) ∧
    brokenRun.1.fault ≠ some (.abort .sequenceNumber) ∧
    brokenRun.1.fault ≠ some (.abort .consensusTimestamp) := by
  have hp : twoTopic.timeline.At countChain.lastSequenceProcessed
      countChain.lastConsensusTimestamp := .inl (by decide +kernel)
  have hr : Run (Step twoExternals twoTopic) (startThread twoTopic countChain)
      brokenRun.2 brokenRun.1 := trace_get_run _
  obtain ⟨hl,_,hs,ht,_⟩ := subscription_loses_nothing hp hr
  exact ⟨by decide +kernel,hl,by decide +kernel,hs,ht⟩

end PluggableHcs.Hcs
