import PluggableHcs.Lib.Runs
import PluggableHcs.Hcs.Refinement

namespace PluggableHcs.Hcs
open Runs Chain

/-- The part of the state that ordering and cutting write. -/
structure Ordering where
  lastOrdereredConsensusTimestamp : Time
  lastOriginalSequenceProcessed : Nat
  lastCutBlockNumber : Nat
  messageHashes : List Bytes
  blockCutter : Receiver
  ledger : Ledger
  timeToCutRequests : List TimeToCutRequest

structure Arrival where
  lastConsensusTimestamp : Time
  lastSequenceProcessed : Nat
  lastChunkFreeConsensusTimestamp : Time
  lastChunkFreeSequenceProcessed : Nat
  appMsgProcessor : Reassembler

def Chain.withOrdering (c : Chain) (o : Ordering) : Chain :=
  { c with
    lastOrdereredConsensusTimestamp := o.lastOrdereredConsensusTimestamp
    lastOriginalSequenceProcessed := o.lastOriginalSequenceProcessed
    lastCutBlockNumber := o.lastCutBlockNumber
    messageHashes := o.messageHashes
    blockCutter := o.blockCutter
    ledger := o.ledger
    timeToCutRequests := o.timeToCutRequests }

def Chain.ordering (c : Chain) : Ordering :=
  ⟨c.lastOrdereredConsensusTimestamp,c.lastOriginalSequenceProcessed,c.lastCutBlockNumber,
    c.messageHashes,c.blockCutter,c.ledger,c.timeToCutRequests⟩

def Chain.withArrival (c : Chain) (a : Arrival) : Chain :=
  { c with
    lastConsensusTimestamp := a.lastConsensusTimestamp
    lastSequenceProcessed := a.lastSequenceProcessed
    lastChunkFreeConsensusTimestamp := a.lastChunkFreeConsensusTimestamp
    lastChunkFreeSequenceProcessed := a.lastChunkFreeSequenceProcessed
    appMsgProcessor := a.appMsgProcessor }

def Chain.arrival (c : Chain) : Arrival :=
  ⟨c.lastConsensusTimestamp,c.lastSequenceProcessed,c.lastChunkFreeConsensusTimestamp,
    c.lastChunkFreeSequenceProcessed,c.appMsgProcessor⟩

structure Event where
  response : Response
  own : LocalOutcome
  outcome : Outcome

def Chain.Step (x : Externals) (c : Chain) (e : Event) (c' : Chain) : Prop :=
  c.processResponse x e.own e.response = .ok (c',e.outcome)

theorem own_step (h : Step x c e c') :
    c.replica.step x (fun _ => verify x c.publicKeys) e.response =
      .ok (c'.replica,e.outcome.effect) :=
  process_response_step rfl h

theorem own_receive (x : Externals) (c : Chain) (resp : Response) :
    (c.receive x resp).map (fun o => (o.1.replica,o.2)) =
      c.replica.receive x (fun _ => verify x c.publicKeys) resp :=
  receive_replica rfl resp

def Chain.processMessages (x : Externals) : Chain → List (Response × LocalOutcome) →
    Except Abort (Chain × List (Transition Chain Event))
  | c,[] => .ok (c,[])
  | c,(resp,own) :: rest =>
    match c.processResponse x own resp with
    | .error e => .error e
    | .ok (d,outcome) =>
      match processMessages x d rest with
      | .error e => .error e
      | .ok (last,es) => .ok (last,⟨c,⟨resp,own,outcome⟩,d⟩ :: es)

theorem process_messages_run {c l : Chain} (h : c.processMessages x inputs = .ok (l,es)) :
    Run (Step x) c es l ∧ es.map (fun e => (e.label.response,e.label.own)) = inputs := by
  induction inputs generalizing c es with
  | nil =>
    cases h
    exact ⟨.nil,rfl⟩
  | cons it rt ih =>
    obtain ⟨re,ow⟩ := it
    simp only [processMessages] at h
    cases hs : c.processResponse x ow re with
    | error e => simp [hs] at h
    | ok o =>
      obtain ⟨d,ou⟩ := o
      simp only [hs] at h
      cases hr : d.processMessages x rt with
      | error e => simp [hr] at h
      | ok o =>
        obtain ⟨l',e'⟩ := o
        simp only [hr] at h
        cases h
        obtain ⟨hru,hm⟩ := ih hr
        exact ⟨.cons hs hru,by simp [hm]⟩

theorem commit_normal_frame (c : Chain) (en : Envelope) (ts : Time) (ol : Nat) (ha : Bytes) :
    ∃ o, c.commitNormalMessage en ts ol ha = c.withOrdering o := by
  refine ⟨(c.commitNormalMessage en ts ol ha).ordering,?_⟩
  obtain h | h | h | h := ordered_cases c.blockCutter c.config.batchSize en
  · simp only [commitNormalMessage,ordered_joins h]
    rfl
  · simp only [commitNormalMessage,ordered_leaves_pending h]
    rfl
  · simp only [commitNormalMessage,ordered_cuts_two h]
    rfl
  · simp only [commitNormalMessage,ordered_cuts_one h]
    rfl

theorem process_normal_frame (x : Externals) (ow : LocalOutcome) (c : Chain)
    (ms : HcsMessageRegular) (en : Envelope) (ts : Time) (se : Nat) (ha : Bytes) :
    ∃ o, (c.processNormal x ow ms en ts se ha).1 = c.withOrdering o := by
  unfold processNormal
  split
  · exact ⟨c.ordering,rfl⟩
  split
  · cases ow.processNormalMsg with
    | none => exact ⟨c.ordering,rfl⟩
    | some cs =>
      cases ow.enqueue with
      | none => exact ⟨c.ordering,rfl⟩
      | some h =>
        exact ⟨{ c.ordering with
          timeToCutRequests := c.timeToCutRequests ++ [.sent h] },rfl⟩
  · exact commit_normal_frame c en ts _ ha

theorem write_config_frame (c : Chain) (en : Envelope) (ts : Time) (ol : Nat) :
    ∃ o, c.writeConfigBlocks en ts ol = c.withOrdering o := by
  refine ⟨(c.writeConfigBlocks en ts ol).ordering,?_⟩
  unfold writeConfigBlocks
  by_cases hp : c.blockCutter.pendingBatch = []
  · simp only [Receiver.cut,hp,if_true]
    rfl
  · simp only [Receiver.cut,hp,if_false]
    rfl

theorem commit_config_frame {c d e : Chain} (hc : c.commitConfigMessage x env ts original = .ok d)
    (hu : d.updatePublicKeys x = .ok e) :
    ∃ o config ks, e = { c.withOrdering o with config := config, publicKeys := ks } ∧
      x.applyConfig c.config env = some config ∧ o.lastOriginalSequenceProcessed = original := by
  unfold commitConfigMessage at hc
  cases ha : x.applyConfig c.config env with
  | none => simp [ha] at hc
  | some config =>
    simp only [ha] at hc
    cases hc
    obtain ⟨o,ho⟩ := write_config_frame c env ts original
    have hor : o.lastOriginalSequenceProcessed = original := by
      have h := congrArg Chain.lastOriginalSequenceProcessed ho
      exact h.symm
    unfold updatePublicKeys at hu
    simp only [ho] at hu
    split at hu
    · cases hu
    split at hu
    · cases hu
    rename_i ks _
    cases hu
    exact ⟨o,config,ks,rfl,rfl,hor⟩

theorem time_to_cut_frame {c c' : Chain}
    (h : c.processTimeToCutMessage msg ts seq = .ok (c',cut)) : ∃ o, c' = c.withOrdering o := by
  refine ⟨c'.ordering,?_⟩
  unfold processTimeToCutMessage at h
  split at h
  · cases h
  · cases h; rfl
  by_cases hp : c.blockCutter.pendingBatch.length = 0
  · simp [Receiver.cut,hp] at h
  · simp only [Receiver.cut,hp,if_false] at h
    cases h; rfl

theorem orderer_started_frame (c : Chain) (iy : Bytes) :
    ∃ r, c.processOrdererStartedMessage iy = { c with appMsgProcessor := r } := by
  unfold processOrdererStartedMessage
  split
  · exact ⟨c.appMsgProcessor,rfl⟩
  · rename_i r _ _
    exact ⟨r,rfl⟩

theorem receive_cases {c c' : Chain} (h : c.receive x re = .ok (c',received)) :
    c' = c.arrived re ∨ ∃ r, c' = (c.arrived re).reassembled r := by
  unfold receive at h
  split at h
  · cases h
  split at h
  · cases h
  cases hc : x.unmarshalChunk re.contents with
  | none =>
    simp only [hc] at h
    cases h
    exact .inl rfl
  | some ch =>
    simp only [hc] at h
    cases hr : (c.arrived re).appMsgProcessor.reassemble x
        (verify x (c.arrived re).publicKeys) ch re.consensusTimestamp with
    | error p => simp [hr] at h
    | ok o =>
      simp only [hr] at h
      cases h
      exact .inr ⟨o.1,rfl⟩

theorem receive_frame {c c' : Chain} (h : c.receive x re = .ok (c',received)) :
    ∃ a, c' = c.withArrival a := by
  refine ⟨c'.arrival,?_⟩
  obtain rfl | ⟨r,rfl⟩ := receive_cases h
  · rfl
  · unfold reassembled
    cases r.isPending <;> rfl

/-- What handling a message does outside of ordering: how the gate, the resubmission marker, the
configuration and the keys change. -/
inductive Handling (x : Externals) (own : LocalOutcome) (ts : Time) (seq : Nat) (hash : Bytes)
    (c : Chain) : HcsMessage → Chain → Outcome → Prop
  | recollecting (on : c.recollectPendingChunks = true)
      (before : ts.nanos < c.lastConsensusTimestampPersisted.nanos) :
      Handling x own ts seq hash c msg c (.recollected false)
  | caughtUp (on : c.recollectPendingChunks = true)
      (here : ts = c.lastConsensusTimestampPersisted)
      (caught : c.lastResubmittedConfigSequence = 0 ∨
        c.lastResubmittedConfigSequence ≤ c.lastOriginalSequenceProcessed)
      (gate : c.doneReprocessingMsgInFlight ∉ c.closedChannels) :
      Handling x own ts seq hash c msg { c with
        recollectPendingChunks := false
        closedChannels := c.doneReprocessingMsgInFlight :: c.closedChannels }
        (.recollected true)
  | recollected (on : c.recollectPendingChunks = true)
      (here : ts = c.lastConsensusTimestampPersisted)
      (behind : ¬ (c.lastResubmittedConfigSequence = 0 ∨
        c.lastResubmittedConfigSequence ≤ c.lastOriginalSequenceProcessed)) :
      Handling x own ts seq hash c msg { c with recollectPendingChunks := false }
        (.recollected true)
  | badPayload (off : c.recollectPendingChunks = false)
      (none : x.unmarshalEnvelope msg.payload = none) :
      Handling x own ts seq hash c (.regular msg) c (.regular msg .badPayload)
  | unsupported (off : c.recollectPendingChunks = false) (cls : msg.cls = .other n) :
      Handling x own ts seq hash c (.regular msg) c (.regular msg .unsupported)
  | normal (off : c.recollectPendingChunks = false) (cls : msg.cls = .normal)
      (payload : x.unmarshalEnvelope msg.payload = some env)
      (call : (c.processNormal x own msg env ts seq hash) = (c.withOrdering o,outcome)) :
      Handling x own ts seq hash c (.regular msg) (c.withOrdering o) (.regular msg outcome)
  | configDiscarded (off : c.recollectPendingChunks = false) (cls : msg.cls = .config)
      (consumed : c.Consumed msg) :
      Handling x own ts seq hash c (.regular msg) c (.regular msg .discarded)
  | configRefused (off : c.recollectPendingChunks = false) (cls : msg.cls = .config)
      (payload : x.unmarshalEnvelope msg.payload = some env)
      (fresh : ¬ c.Consumed msg) (noted : c.noteResubmission msg = .ok c') (stale : c.Stale msg)
      (why : (outcome = .rejected ∧ own.processConfigMsg = none) ∨
        (outcome = .notEnqueued ∧ own.enqueue = none)) :
      Handling x own ts seq hash c (.regular msg) c' (.regular msg outcome)
  | configResubmitted (off : c.recollectPendingChunks = false) (cls : msg.cls = .config)
      (payload : x.unmarshalEnvelope msg.payload = some env)
      (fresh : ¬ c.Consumed msg) (noted : c.noteResubmission msg = .ok c') (stale : c.Stale msg)
      (valid : own.processConfigMsg = some (configEnv,configSeq))
      (enqueued : own.enqueue = some sent) :
      Handling x own ts seq hash c (.regular msg)
        { c' with lastResubmittedConfigSequence := seq }.reprocessPending
        (.regular msg (.resubmitted ⟨x.marshalEnvelope configEnv,configSeq,.config,seq⟩))
  | configCommitted (off : c.recollectPendingChunks = false) (cls : msg.cls = .config)
      (payload : x.unmarshalEnvelope msg.payload = some env)
      (fresh : ¬ c.Consumed msg) (noted : c.noteResubmission msg = .ok c')
      (current : ¬ c.Stale msg)
      (commit : c'.commitConfigMessage x env ts (c'.newSeq msg) = .ok d)
      (update : d.updatePublicKeys x = .ok e) :
      Handling x own ts seq hash c (.regular msg) e (.regular msg (.committed env))
  | timeToCut (off : c.recollectPendingChunks = false)
      (call : c.processTimeToCutMessage msg ts seq = .ok (c.withOrdering o,cut)) :
      Handling x own ts seq hash c (.timeToCut msg) (c.withOrdering o) (.timeToCut msg cut)
  | ordererStarted (off : c.recollectPendingChunks = false) (r : Reassembler) :
      Handling x own ts seq hash c (.ordererStarted identity) { c with appMsgProcessor := r }
        (.ordererStarted identity)
  | unset (off : c.recollectPendingChunks = false) : Handling x own ts seq hash c .unset c .unset

theorem recollect_handling {hh : Bytes} (hon : c.recollectPendingChunks = true)
    (h : c.recollect ts = .ok (c',outcome)) : Handling x own ts seq hh c msg c' outcome := by
  unfold recollect reprocessComplete at h
  simp only [Time.after,decide_eq_true_eq] at h
  split_ifs at h with hts hcau hg ha
  · obtain ⟨rfl,rfl⟩ := Prod.mk.inj (Except.ok.inj h)
    exact .caughtUp hon hts hcau hg
  · obtain ⟨rfl,rfl⟩ := Prod.mk.inj (Except.ok.inj h)
    exact .recollected hon hts hcau
  obtain ⟨rfl,rfl⟩ := Prod.mk.inj (Except.ok.inj h)
  have hne : ts.nanos ≠ c.lastConsensusTimestampPersisted.nanos :=
    fun he => hts (Time.ext he)
  exact .recollecting hon (by omega)

theorem process_config_handling {hh : Bytes}
    (ho : c.recollectPendingChunks = false) (hc : msg.cls = .config)
    (he : x.unmarshalEnvelope msg.payload = some env)
    (h : c.processConfig x own msg env ts seq = .ok (c',outcome)) :
    Handling x own ts seq hh c (.regular msg) c' (.regular msg outcome) := by
  unfold processConfig at h
  split at h
  · rename_i hcn
    cases h
    exact .configDiscarded ho hc hcn
  rename_i hf
  cases hn : c.noteResubmission msg with
  | error e => simp [hn] at h
  | ok d =>
    simp only [hn] at h
    have ha : d.Stale msg ↔ c.Stale msg := by
      obtain ⟨cl,re,rfl⟩ := note_resubmission_frame hn
      exact Iff.rfl
    split at h
    · rename_i hst
      cases hp : own.processConfigMsg with
      | none =>
        simp only [hp] at h
        cases h
        exact .configRefused ho hc he hf hn (ha.mp hst) (.inl ⟨rfl,hp⟩)
      | some o =>
        simp only [hp] at h
        cases hq : own.enqueue with
        | none =>
          simp only [hq] at h
          cases h
          exact .configRefused ho hc he hf hn (ha.mp hst) (.inr ⟨rfl,hq⟩)
        | some hh =>
          simp only [hq] at h
          cases h
          exact .configResubmitted ho hc he hf hn (ha.mp hst) hp hq
    · rename_i hst
      cases hco : d.commitConfigMessage x env ts (d.newSeq msg) with
      | error e => simp [hco] at h
      | ok e =>
        simp only [hco] at h
        cases hu : e.updatePublicKeys x with
        | error er => simp [hu] at h
        | ok f =>
          simp only [hu] at h
          cases h
          exact .configCommitted ho hc he hf hn (fun hs => hst (ha.mpr hs))
            hco hu

theorem handle_handling {c c' : Chain} {ha : Bytes}
    (h : c.handle x own ts seq ms ha = .ok (c',outcome)) :
    Handling x own ts seq ha c ms c' outcome := by
  cases hrc : c.recollectPendingChunks with
  | true =>
    simp only [handle,hrc,if_true] at h
    exact recollect_handling hrc h
  | false =>
    simp only [handle,hrc,Bool.false_eq_true,if_false] at h
    cases ms with
    | regular ms =>
      simp only at h
      cases hre : c.processRegularMessage x own ms ts seq ha with
      | error e => simp [hre] at h
      | ok ou =>
        obtain ⟨d,o⟩ := ou
        simp only [hre] at h
        cases h
        unfold processRegularMessage at hre
        cases he : x.unmarshalEnvelope ms.payload with
        | none =>
          simp only [he] at hre
          cases hre
          exact .badPayload hrc he
        | some en =>
          simp only [he] at hre
          cases hc : ms.cls with
          | normal =>
            simp only [hc] at hre
            have hca := Except.ok.inj hre
            obtain ⟨od,ho⟩ := process_normal_frame x own c ms en ts seq ha
            rw [hca] at ho
            subst ho
            exact .normal hrc hc he hca
          | config =>
            simp only [hc] at hre
            exact process_config_handling hrc hc he hre
          | other n =>
            simp only [hc] at hre
            cases hre
            exact .unsupported hrc hc
    | timeToCut ms =>
      simp only at h
      cases hcu : c.processTimeToCutMessage ms ts seq with
      | error e => simp [hcu] at h
      | ok ou =>
        obtain ⟨d,cu⟩ := ou
        simp only [hcu] at h
        cases h
        obtain ⟨o,rfl⟩ := time_to_cut_frame hcu
        exact .timeToCut hrc hcu
    | ordererStarted iy =>
      simp only at h
      obtain ⟨r,hr⟩ := orderer_started_frame c iy
      rw [hr] at h
      cases h
      exact .ordererStarted hrc r
    | unset =>
      cases h
      exact .unset hrc

theorem process_response_cases {c c' : Chain} (h : c.processResponse x own rp = .ok (c',outcome)) :
    ∃ a re, c.receive x rp = .ok (c.withArrival a,re) ∧
      ((c' = c.withArrival a ∧ outcome = .received re ∧ ∀ ms ha, re ≠ .message ms ha) ∨
        ∃ ms ha, re = .message ms ha ∧
          Handling x own rp.consensusTimestamp rp.sequenceNumber ha (c.withArrival a) ms
            c' outcome) := by
  unfold processResponse at h
  cases hr : c.receive x rp with
  | error e => simp [hr] at h
  | ok o =>
    obtain ⟨d,re⟩ := o
    obtain ⟨a,rfl⟩ := receive_frame hr
    simp only [hr] at h
    refine ⟨a,re,rfl,?_⟩
    cases re with
    | message ms ha => exact .inr ⟨ms,ha,rfl,handle_handling h⟩
    | undecodable | refused | incomplete | unreadable =>
      cases h
      exact .inl ⟨rfl,rfl,by simp⟩

end PluggableHcs.Hcs
