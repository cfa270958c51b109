import PluggableHcs.Hcs.Replica

namespace PluggableHcs.Hcs
open Replica Block

def Block.shared (b : Block) : SharedBlock :=
  ⟨b.envelopes,b.isConfig,b.metadata.lastConsensusTimestampPersisted,
    b.metadata.lastOriginalSequenceProcessed,
    b.metadata.lastChunkFreeConsensusTimestampPersisted,
    b.metadata.lastChunkFreeSequenceProcessed⟩

section
variable (c : Chain)

def Chain.replica : Replica where
  config := c.config
  blocks := c.ledger.blocks.map shared
  lastCutBlockNumber := c.lastCutBlockNumber
  batch := c.blockCutter
  messageHashes := c.messageHashes
  reassembler := c.appMsgProcessor
  lastOriginalSequence := c.lastOriginalSequenceProcessed
  lastOrdered := c.lastOrdereredConsensusTimestamp
  chunkFree := c.lastChunkFreeConsensusTimestamp
  chunkFreeSequence := c.lastChunkFreeSequenceProcessed
  lastTimestamp := c.lastConsensusTimestamp
  lastSequence := c.lastSequenceProcessed
  recollectUntil :=
    if c.recollectPendingChunks then some c.lastConsensusTimestampPersisted else none

open Chain (commitNormalMessage newHcsMetadata ordered updatePublicKeys writeBlock)

/-- Revalidation and resubmission are each orderer's own. -/
def RegularOutcome.effect (msg : HcsMessageRegular) : RegularOutcome → Effect
  | .badPayload => .ignored msg
  | .unsupported => .ignored msg
  | .discarded => .discarded msg
  | .rejected => .stale msg
  | .notEnqueued => .stale msg
  | .resubmitted _ => .stale msg
  | .committed env => .committed msg env

def Outcome.effect : Outcome → Effect
  | .received r => .received r
  | .recollected finished => .recollected finished
  | .regular msg outcome => outcome.effect msg
  | .timeToCut msg cut => .timeToCut msg cut
  | .ordererStarted identity => .ordererStarted identity
  | .unset => .unset

theorem write_block_replica (en : List Envelope) (ic : Bool) (ts : Time) :
    (c.writeBlock en ic ts).replica = c.replica.cutBlock en ic ts := by
  simp only [writeBlock,Chain.replica,cutBlock,List.map_append,List.map_cons,
    List.map_nil,shared,newHcsMetadata]
  rfl

theorem commit_normal_replica (env : Envelope) (ts : Time) (o : Nat) (hash : Bytes) :
    (c.commitNormalMessage env ts o hash).replica = c.replica.commitNormal env ts o hash := by
  have hb : c.replica.batch = c.blockCutter := rfl
  have hs : c.replica.config.batchSize = c.config.batchSize := rfl
  unfold commitNormal
  rw [hb,hs]
  split
  · rename_i hj
    simp [commitNormalMessage,ordered_joins hj,ordered,Chain.requestTimeToCut,Chain.replica,record]
  rename_i hj
  split
  · rename_i hl
    simp [commitNormalMessage,ordered_leaves_pending hl,writeBlock,
      Chain.requestTimeToCut,Chain.replica,cutPending,cutBlock,shared,
      newHcsMetadata]
  rename_i hl
  split
  · rename_i ht
    simp [commitNormalMessage,ordered_cuts_two ht,writeBlock,ordered,
      Chain.replica,cutPending,cutBlock,record,shared,
      newHcsMetadata]
  · rename_i ht
    have ho : c.blockCutter.CutsOne c.config.batchSize env := by
      obtain h | h | h | h := ordered_cases c.blockCutter c.config.batchSize env
      · exact absurd h hj
      · exact absurd h hl
      · exact absurd h ht
      · exact h
    simp [commitNormalMessage,ordered_cuts_one ho,writeBlock,ordered,
      Chain.replica,cutBlock,record,shared,newHcsMetadata]

theorem add_public_keys_eq (x : Externals) (ks : List HcsConfigPublicKey) (known : List Bytes) :
    addPublicKeys x ks known = (listedKeys x ks).map
      fun l => l.foldl (fun known ke => known.insert ke) known := by
  induction ks generalizing known with
  | nil => rfl
  | cons ke ks ih =>
    have hc : listedKeys x (ke :: ks) =
        (if ke.type ≠ "ed25519".toList then none else x.publicKeyFromString ke.key).bind
          fun k => (listedKeys x ks).map (k :: ·) := by
      simp only [listedKeys,List.mapM_cons,Option.map_eq_bind]
      rfl
    rw [hc,addPublicKeys]
    split
    · rfl
    cases x.publicKeyFromString ke.key with
    | none => rfl
    | some k =>
      simp only [ih,Option.bind_some,Option.map_map]
      rfl

theorem mem_insert_all (kn listed : List Bytes) (k : Bytes) :
    k ∈ listed.foldl (fun kn ke => kn.insert ke) kn ↔ k ∈ kn ∨ k ∈ listed := by
  induction listed generalizing kn with
  | nil => simp
  | cons l listed ih =>
    simp only [List.foldl_cons,ih,List.mem_insert_iff,List.mem_cons]
    tauto

theorem mem_public_keys (h : getPublicKeys x ks own = some publicKeys) :
    ∃ listed, listedKeys x ks = some listed ∧ ∀ k, k ∈ publicKeys ↔ k = own ∨ k ∈ listed := by
  rw [getPublicKeys,add_public_keys_eq] at h
  obtain ⟨listed,hl,rfl⟩ := Option.map_eq_some_iff.mp h
  refine ⟨listed,hl,?_⟩
  intro k
  rw [mem_insert_all,List.mem_singleton]

theorem update_public_keys_replica (x : Externals) (c : Chain) :
    (c.updatePublicKeys x).map Chain.replica = (configKeys x c.config).map fun _ => c.replica := by
  unfold updatePublicKeys configKeys
  cases x.unmarshalHcsConfigMetadata c.config.consensusMetadata with
  | none => rfl
  | some me =>
    simp only [getPublicKeys,add_public_keys_eq]
    cases listedKeys x me.publicKeys <;> rfl

theorem write_config_replica (en : Envelope) (ts : Time) (o : Nat) :
    (c.writeConfigBlocks en ts o).replica =
      { (if c.blockCutter.pendingBatch = [] then c.replica else c.replica.cutPending) with
        lastOriginalSequence := o }.cutBlock [en] true ts := by
  unfold Chain.writeConfigBlocks
  by_cases hp : c.blockCutter.pendingBatch = []
  · have hcu : c.blockCutter = newReceiverImpl := by
      cases hc : c.blockCutter
      simp_all [newReceiverImpl]
    simp only [hcu,Receiver.cut,newReceiverImpl,if_true,write_block_replica]
    simp [Chain.replica,cutBlock,hcu,newReceiverImpl]
  · simp only [hp,Receiver.cut,if_false,write_block_replica]
    simp [Chain.replica,cutPending,cutBlock,writeBlock,shared,newHcsMetadata]

theorem commit_config_replica (x : Externals) (c : Chain) (en : Envelope) (ts : Time)
    (original : Nat) :
    ((c.commitConfigMessage x en ts original).bind (updatePublicKeys x)).map
        Chain.replica = c.replica.commitConfig x en ts original := by
  have ha : c.replica.config = c.config := rfl
  unfold Chain.commitConfigMessage commitConfig
  rw [ha]
  cases x.applyConfig c.config en with
  | none => rfl
  | some config =>
    have hk := update_public_keys_replica x
      { c.writeConfigBlocks en ts original with config := config }
    simp only [Except.bind]
    rw [hk]
    cases configKeys x config with
    | error e => rfl
    | ok ks =>
      have hf : ({ c.writeConfigBlocks en ts original with config := config }).replica =
          { (c.writeConfigBlocks en ts original).replica with config := config } := rfl
      rw [hf,write_config_replica]
      rfl

theorem process_normal_replica (x : Externals) (o : LocalOutcome) (c : Chain)
    (msg : HcsMessageRegular) (en : Envelope) (ts : Time) (se : Nat) (ha : Bytes) :
    (fun ou : Chain × RegularOutcome => (ou.1.replica,ou.2.effect msg))
        (c.processNormal x o msg en ts se ha) =
      if c.replica.Consumed msg then (c.replica,.discarded msg)
      else if c.replica.Stale msg then (c.replica,.stale msg)
      else (c.replica.commitNormal en ts (c.replica.originalOf msg) ha, .committed msg en) := by
  have hc : c.replica.Consumed msg ↔ c.Consumed msg := Iff.rfl
  have hs : c.replica.Stale msg ↔ c.Stale msg := Iff.rfl
  simp only [Chain.processNormal,hc,hs]
  split
  · rfl
  split
  · cases o.processNormalMsg with
    | none => rfl
    | some cs => cases o.enqueue <;> rfl
  · simp only [commit_normal_replica]
    rfl

def Chain.marked (closed : List Nat) (resubmitted : Nat) : Chain :=
  { c with closedChannels := closed, lastResubmittedConfigSequence := resubmitted }

theorem note_resubmission_frame {c c' : Chain} (h : c.noteResubmission msg = .ok c') :
    ∃ cl resubmitted, c' = c.marked cl resubmitted := by
  unfold Chain.noteResubmission Chain.reprocessComplete at h
  split at h
  · cases h
    exact ⟨c.closedChannels,c.lastResubmittedConfigSequence,rfl⟩
  simp only at h
  split_ifs at h with hm hcl
  · obtain rfl := Except.ok.inj h
    exact ⟨c.doneReprocessingMsgInFlight :: c.closedChannels,
      max c.lastResubmittedConfigSequence msg.originalSeq,rfl⟩
  · obtain rfl := Except.ok.inj h
    exact ⟨c.closedChannels,max c.lastResubmittedConfigSequence msg.originalSeq,rfl⟩

theorem note_resubmission_error {c : Chain} (h : c.noteResubmission msg = .error e) :
    e = .closeOfClosedChannel := by
  unfold Chain.noteResubmission Chain.reprocessComplete at h
  split_ifs at h
  cases h
  rfl

theorem process_config_replica (x : Externals) (o : LocalOutcome) (c : Chain)
    (msg : HcsMessageRegular) (en : Envelope) (ts : Time) (se : Nat) :
    c.processConfig x o msg en ts se = .error .closeOfClosedChannel ∨
    (c.processConfig x o msg en ts se).map
        (fun ou => (ou.1.replica,ou.2.effect msg)) =
      if c.replica.Consumed msg then .ok (c.replica,.discarded msg)
      else if c.replica.Stale msg then .ok (c.replica,.stale msg)
      else
        match c.replica.commitConfig x en ts (c.replica.originalOf msg) with
        | .error e => .error e
        | .ok r => .ok (r,.committed msg en) := by
  have hc : c.replica.Consumed msg ↔ c.Consumed msg := Iff.rfl
  have hs : c.replica.Stale msg ↔ c.Stale msg := Iff.rfl
  simp only [Chain.processConfig,hc,hs]
  split
  · exact .inr rfl
  cases hn : c.noteResubmission msg with
  | error e =>
    have he := note_resubmission_error hn
    subst he
    exact .inl rfl
  | ok d =>
    right
    obtain ⟨cl,re,rfl⟩ := note_resubmission_frame hn
    have hs' : (c.marked cl re).Stale msg ↔ c.Stale msg := Iff.rfl
    have hse : c.replica.originalOf msg = (c.marked cl re).newSeq msg := rfl
    have hr : c.replica = (c.marked cl re).replica := rfl
    simp only [hs']
    split
    · cases o.processConfigMsg with
      | none => rfl
      | some ou => cases o.enqueue <;> rfl
    · rw [hse,hr,← commit_config_replica]
      cases Chain.commitConfigMessage x (c.marked cl re) en ts
          ((c.marked cl re).newSeq msg) with
      | error e => rfl
      | ok d =>
        simp only [Except.bind]
        cases updatePublicKeys x d <;> rfl

theorem process_regular_replica (x : Externals) (o : LocalOutcome) (c : Chain)
    (ms : HcsMessageRegular) (ts : Time) (se : Nat) (hash : Bytes) :
    c.processRegularMessage x o ms ts se hash = .error .closeOfClosedChannel ∨
    (c.processRegularMessage x o ms ts se hash).map
        (fun ou => (ou.1.replica,ou.2.effect ms)) = c.replica.regular x ms ts hash := by
  unfold Chain.processRegularMessage Replica.regular
  cases x.unmarshalEnvelope ms.payload with
  | none => exact .inr rfl
  | some en =>
    cases ms.cls with
    | normal =>
      right
      have h := process_normal_replica x o c ms en ts se hash
      simp only [Except.map,h]
      split
      · rfl
      split <;> rfl
    | config => exact process_config_replica x o c ms en ts se
    | other n => exact .inr rfl

theorem time_to_cut_replica (ms : HcsMessageTimeToCut) (ts : Time) (seq : Nat) :
    (c.processTimeToCutMessage ms ts seq).map (fun o => (o.1.replica,.timeToCut ms o.2)) =
      c.replica.timeToCut ms ts seq := by
  unfold Chain.processTimeToCutMessage Replica.timeToCut
  rw [show c.replica.createBlock ms = c.createBlock ms by cases ms <;> rfl]
  cases c.createBlock ms with
  | error e => rfl
  | ok cr =>
    cases cr with
    | false => rfl
    | true =>
      have hb : c.replica.batch = c.blockCutter := rfl
      simp only [Receiver.cut,hb,List.length_eq_zero_iff]
      split
      · rfl
      · simp only [Except.map,write_block_replica]
        rfl

theorem orderer_started_replica (identity : Bytes) :
    (c.processOrdererStartedMessage identity).replica = c.replica.ordererStarted identity := by
  have hr : c.replica.reassembler = c.appMsgProcessor := rfl
  unfold Chain.processOrdererStartedMessage Replica.ordererStarted
  rw [hr]
  cases c.appMsgProcessor.expireByAppID identity <;> rfl

theorem recollect_replica (ts : Time) : c.recollect ts = .error .closeOfClosedChannel ∨
    (c.recollect ts).map (fun o => (o.1.replica,o.2.effect)) =
      c.replica.recollect ts c.lastConsensusTimestampPersisted := by
  unfold Chain.recollect recollect Chain.reprocessComplete
  split
  · simp only
    split_ifs with hcau hcl
    · exact .inl rfl
    · exact .inr rfl
    · exact .inr rfl
  · right
    split <;> rfl

end

variable {x : Externals} {ae : ChannelConfig → Bytes → Bytes → Bytes → Bool}

theorem reassembled_replica (c : Chain) (r : Reassembler) :
    (c.reassembled r).replica = c.replica.reassembled r := by
  unfold Chain.reassembled reassembled
  cases r.isPending <;> rfl

theorem receive_replica {c : Chain} (h : verify x c.publicKeys = ae c.config) (resp : Response) :
    (c.receive x resp).map (fun o => (o.1.replica,o.2)) = c.replica.receive x ae resp := by
  have hs : c.replica.lastSequence = c.lastSequenceProcessed := rfl
  have hts : c.replica.lastTimestamp = c.lastConsensusTimestamp := rfl
  have hr : c.replica.reassembler = (c.arrived resp).appMsgProcessor := rfl
  have hk : verify x (c.arrived resp).publicKeys = ae c.replica.config := h
  unfold Chain.receive receive
  rw [hs,hts,hr,← hk]
  split
  · rfl
  split
  · rfl
  cases x.unmarshalChunk resp.contents with
  | none => rfl
  | some ch =>
    simp only
    cases Reassembler.reassemble x (verify x (c.arrived resp).publicKeys)
        (c.arrived resp).appMsgProcessor ch resp.consensusTimestamp with
    | error p => rfl
    | ok o =>
      simp only [Except.map,reassembled_replica]
      rfl

theorem handle_replica (o : LocalOutcome) (c : Chain) (ts : Time) (se : Nat)
    (ms : HcsMessage) (hash : Bytes) :
    c.handle x o ts se ms hash = .error .closeOfClosedChannel ∨
    (c.handle x o ts se ms hash).map (fun ou => (ou.1.replica,ou.2.effect)) =
      c.replica.handle x ts se ms hash := by
  cases hc : c.recollectPendingChunks with
  | true =>
    have hr : c.replica.recollectUntil = some c.lastConsensusTimestampPersisted := by
      simp [Chain.replica,hc]
    simp only [Chain.handle,handle,hc,hr,if_true]
    exact recollect_replica c ts
  | false =>
    have hr : c.replica.recollectUntil = none := by simp [Chain.replica,hc]
    simp only [Chain.handle,handle,hc,hr,Bool.false_eq_true,if_false]
    cases ms with
    | regular ms =>
      obtain h | h := process_regular_replica x o c ms ts se hash
      · left
        simp only [h]
      right
      simp only [← h]
      cases c.processRegularMessage x o ms ts se hash <;> rfl
    | timeToCut ms =>
      right
      simp only [← time_to_cut_replica]
      cases c.processTimeToCutMessage ms ts se <;> rfl
    | ordererStarted iy =>
      right
      simp only [Except.map,orderer_started_replica]
      rfl
    | unset => exact .inr rfl

theorem process_response_replica {c : Chain} (h : verify x c.publicKeys = ae c.config)
    (ow : LocalOutcome) (resp : Response) :
    c.processResponse x ow resp = .error .closeOfClosedChannel ∨
    (c.processResponse x ow resp).map (fun o => (o.1.replica,o.2.effect)) =
      c.replica.step x ae resp := by
  unfold Chain.processResponse step
  rw [← receive_replica h resp]
  cases c.receive x resp with
  | error e => exact .inr rfl
  | ok o =>
    obtain ⟨d,re⟩ := o
    cases re with
    | message ms ha =>
      exact handle_replica ow d resp.consensusTimestamp resp.sequenceNumber ms ha
    | undecodable | refused | incomplete | unreadable => exact .inr rfl

theorem process_response_step {c c' : Chain} (h : verify x c.publicKeys = ae c.config)
    (hs : c.processResponse x own re = .ok (c',outcome)) :
    c.replica.step x ae re = .ok (c'.replica,outcome.effect) := by
  obtain hr | hr := process_response_replica h own re
  · rw [hs] at hr
    cases hr
  · rw [← hr,hs]
    rfl

end PluggableHcs.Hcs
