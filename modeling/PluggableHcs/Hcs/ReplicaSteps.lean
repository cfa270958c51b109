import PluggableHcs.Hcs.Frames

namespace PluggableHcs.Hcs
namespace Replica

inductive Receiving (x : Externals) (accepts : ChannelConfig → Bytes → Bytes → Bytes → Bool)
    (r : Replica) (resp : Response) : Replica → Received → Prop
  | undecodable (none : x.unmarshalChunk resp.contents = none) :
      Receiving x accepts r resp (r.arrived resp) .undecodable
  | chunk (decoded : x.unmarshalChunk resp.contents = some chunk)
      (call : r.reassembler.reassemble x (accepts r.config) chunk resp.consensusTimestamp =
        .ok (next,res)) :
      Receiving x accepts r resp ((r.arrived resp).reassembled next) (res.received x)

theorem receive_cases (h : r.receive x accepts re = .ok (r',received)) :
    re.sequenceNumber = r.lastSequence + 1 ∧ r.lastTimestamp.nanos < re.consensusTimestamp.nanos ∧
      Receiving x accepts r re r' received := by
  unfold receive at h
  split at h
  · cases h
  rename_i hs
  split at h
  · cases h
  rename_i hts
  refine ⟨not_not.mp hs,by simpa [Time.after] using hts,?_⟩
  cases hc : x.unmarshalChunk re.contents with
  | none =>
    simp only [hc] at h
    cases h
    exact .undecodable hc
  | some ch =>
    simp only [hc] at h
    cases hr : r.reassembler.reassemble x (accepts r.config) ch re.consensusTimestamp with
    | error p => simp [hr] at h
    | ok o =>
      simp only [hr] at h
      cases h
      exact .chunk hc hr

structure Carried (r d : Replica) : Prop where
  config : d.config = r.config
  blocks : d.blocks = r.blocks
  lastCutBlockNumber : d.lastCutBlockNumber = r.lastCutBlockNumber
  batch : d.batch = r.batch
  messageHashes : d.messageHashes = r.messageHashes
  lastOriginalSequence : d.lastOriginalSequence = r.lastOriginalSequence
  lastOrdered : d.lastOrdered = r.lastOrdered
  recollectUntil : d.recollectUntil = r.recollectUntil

theorem reassembled_carried (r : Replica) (next : Reassembler) :
    r.Carried (r.reassembled next) ∧ (r.reassembled next).reassembler = next ∧
      (r.reassembled next).lastTimestamp = r.lastTimestamp ∧
      (r.reassembled next).lastSequence = r.lastSequence := by
  unfold reassembled
  cases next.isPending <;> exact ⟨⟨rfl,rfl,rfl,rfl,rfl,rfl,rfl,rfl⟩,rfl,rfl,rfl⟩

section
variable (h : Receiving x accepts r resp d received)
include h

theorem Receiving.carried : r.Carried d := by
  cases h with
  | undecodable => exact ⟨rfl,rfl,rfl,rfl,rfl,rfl,rfl,rfl⟩
  | chunk =>
    obtain ⟨h,_⟩ := reassembled_carried (r.arrived resp) _
    exact ⟨h.config,h.blocks,h.lastCutBlockNumber,h.batch,h.messageHashes,
      h.lastOriginalSequence,h.lastOrdered,h.recollectUntil⟩

theorem Receiving.position :
    d.lastTimestamp = resp.consensusTimestamp ∧ d.lastSequence = r.lastSequence + 1 := by
  cases h with
  | undecodable => exact ⟨rfl,rfl⟩
  | chunk =>
    obtain ⟨_,_,hts,hs⟩ := reassembled_carried (r.arrived resp) _
    exact ⟨hts,hs⟩

theorem Receiving.chunk_free :
    (d.chunkFree = r.chunkFree ∧ d.chunkFreeSequence = r.chunkFreeSequence) ∨
      (d.chunkFree = resp.consensusTimestamp ∧ d.chunkFreeSequence = r.lastSequence + 1 ∧
        d.reassembler.isPending = false) := by
  cases h with
  | undecodable => exact .inl ⟨rfl,rfl⟩
  | @chunk _ next =>
    unfold reassembled
    cases hp : next.isPending
    · exact .inr ⟨rfl,rfl,hp⟩
    · exact .inl ⟨rfl,rfl⟩

end

def cutDue (r : Replica) (timestamp : Time) (sequence : Nat) : Replica :=
  { { r with lastOriginalSequence := sequence }.cutBlock r.batch.pendingBatch false timestamp with
    batch := newReceiverImpl }

/-- The messages of which a replica takes no notice. -/
inductive Passed (x : Externals) (r : Replica) : HcsMessage → Effect → Prop
  | badPayload (none : x.unmarshalEnvelope msg.payload = none) :
      Passed x r (.regular msg) (.ignored msg)
  | unsupported (some : x.unmarshalEnvelope msg.payload = some env) (cls : msg.cls = .other n) :
      Passed x r (.regular msg) (.ignored msg)
  | discarded (some : x.unmarshalEnvelope msg.payload = some env)
      (cls : msg.cls = .normal ∨ msg.cls = .config) (consumed : r.Consumed msg) :
      Passed x r (.regular msg) (.discarded msg)
  | stale (some : x.unmarshalEnvelope msg.payload = some env)
      (cls : msg.cls = .normal ∨ msg.cls = .config) (fresh : ¬ r.Consumed msg)
      (stale : r.Stale msg) : Passed x r (.regular msg) (.stale msg)
  | late (due : r.createBlock msg = .ok false) : Passed x r (.timeToCut msg) (.timeToCut msg false)
  | unset : Passed x r .unset .unset

inductive Handling (x : Externals) (r : Replica) (timestamp : Time) (sequence : Nat)
    (hash : Bytes) : HcsMessage → Replica → Effect → Prop
  | recollecting (on : r.recollectUntil = some stop) (before : timestamp.nanos < stop.nanos) :
      Handling x r timestamp sequence hash msg r (.recollected false)
  | recollected (on : r.recollectUntil = some timestamp) :
      Handling x r timestamp sequence hash msg { r with recollectUntil := none }
        (.recollected true)
  | passed (off : r.recollectUntil = none) (pass : Passed x r msg effect) :
      Handling x r timestamp sequence hash msg r effect
  | normal (off : r.recollectUntil = none) (some : x.unmarshalEnvelope msg.payload = some env)
      (cls : msg.cls = .normal) (fresh : ¬ r.Consumed msg) (current : ¬ r.Stale msg) :
      Handling x r timestamp sequence hash (.regular msg)
        (r.commitNormal env timestamp (r.originalOf msg) hash) (.committed msg env)
  | config (off : r.recollectUntil = none) (some : x.unmarshalEnvelope msg.payload = some env)
      (cls : msg.cls = .config) (fresh : ¬ r.Consumed msg) (current : ¬ r.Stale msg)
      (commit : r.commitConfig x env timestamp (r.originalOf msg) = .ok r') :
      Handling x r timestamp sequence hash (.regular msg) r' (.committed msg env)
  | cut (off : r.recollectUntil = none) (due : r.createBlock msg = .ok true)
      (pending : r.batch.pendingBatch ≠ []) :
      Handling x r timestamp sequence hash (.timeToCut msg) (r.cutDue timestamp sequence)
        (.timeToCut msg true)
  | started (off : r.recollectUntil = none) :
      Handling x r timestamp sequence hash (.ordererStarted identity)
        (r.ordererStarted identity) (.ordererStarted identity)

variable {r : Replica}

theorem commit_normal_leaves_pending {ha : Bytes}
    (h : r.batch.LeavesPending r.config.batchSize env) : r.commitNormal env ts o ha =
      { r.cutPending with batch := newReceiverImpl.push env, messageHashes := [ha] } := by
  have hjo : ¬ r.batch.Joins r.config.batchSize env := fun hj => joins_not_leaves_out hj (.inl h)
  rw [commitNormal,if_neg hjo,if_pos h]

theorem commit_normal_cuts_two {ha : Bytes}
    (h : r.batch.CutsTwo r.config.batchSize env) : r.commitNormal env ts o ha =
      (r.cutPending.record ts o).cutBlock [env] false ts := by
  have hjo : ¬ r.batch.Joins r.config.batchSize env := fun hj => joins_not_leaves_out hj (.inr h)
  rw [commitNormal,if_neg hjo,if_neg (cuts_two_not_leaves_pending h),if_pos h]

theorem commit_normal_cuts_one {ha : Bytes}
    (h : r.batch.CutsOne r.config.batchSize env) : r.commitNormal env ts o ha =
      { (r.record ts o).cutBlock (r.batch.pendingBatch ++ [env]) false ts with
        batch := newReceiverImpl } := by
  have ho := cuts_one_not_leaves_out h
  rw [commitNormal,if_neg (cuts_one_not_joins h),if_neg (fun hl => ho (.inl hl)),
    if_neg (fun ht => ho (.inr ht))]

theorem commit_normal_cases (r : Replica) (en : Envelope) (ts : Time) (o : Nat) (ha : Bytes) :
    (r.batch.Joins r.config.batchSize en ∧ r.commitNormal en ts o ha = { r.record ts o with
        batch := r.batch.push en
        messageHashes := r.messageHashes.insert ha }) ∨
    (r.batch.LeavesPending r.config.batchSize en ∧ r.commitNormal en ts o ha =
      { r.cutPending with batch := newReceiverImpl.push en, messageHashes := [ha] }) ∨
    (r.batch.CutsTwo r.config.batchSize en ∧ r.commitNormal en ts o ha =
      (r.cutPending.record ts o).cutBlock [en] false ts) ∨
    (r.batch.CutsOne r.config.batchSize en ∧ r.commitNormal en ts o ha =
      { (r.record ts o).cutBlock (r.batch.pendingBatch ++ [en]) false ts with
        batch := newReceiverImpl }) := by
  obtain h | h | h | h := ordered_cases r.batch r.config.batchSize en
  · exact .inl ⟨h,by rw [commitNormal,if_pos h]⟩
  · exact .inr (.inl ⟨h,commit_normal_leaves_pending h⟩)
  · exact .inr (.inr (.inl ⟨h,commit_normal_cuts_two h⟩))
  · exact .inr (.inr (.inr ⟨h,commit_normal_cuts_one h⟩))

def configured (r : Replica) (env : Envelope) (ts : Time) (original : Nat)
    (config : ChannelConfig) : Replica :=
  { { (if r.batch.pendingBatch = [] then r else r.cutPending) with
      lastOriginalSequence := original }.cutBlock [env] true ts with config := config }

variable {r' : Replica}

theorem commit_config_iff : r.commitConfig x env ts o = .ok r' ↔
    ∃ config ks, x.applyConfig r.config env = some config ∧ configKeys x config = .ok ks ∧
      r' = r.configured env ts o config := by
  unfold commitConfig
  cases ha : x.applyConfig r.config env with
  | none => simp
  | some config =>
    simp only [Option.some.injEq]
    cases hk : configKeys x config with
    | error e =>
      simp only [reduceCtorEq,false_iff]
      intro h
      obtain ⟨_,_,rfl,hk',_⟩ := h
      rw [hk] at hk'
      cases hk'
    | ok ks =>
      constructor
      · intro h
        exact ⟨config,ks,rfl,hk,(Except.ok.inj h).symm⟩
      · intro h
        obtain ⟨_,_,rfl,_,rfl⟩ := h
        rfl

theorem commit_config_cases (h : r.commitConfig x env ts o = .ok r') :
    ∃ config, r' = { { (if r.batch.pendingBatch = [] then r else r.cutPending) with
      lastOriginalSequence := o }.cutBlock [env] true ts with config := config } := by
  obtain ⟨config,_,_,_,rfl⟩ := commit_config_iff.mp h
  exact ⟨config,rfl⟩

theorem orderer_started_cases (r : Replica) (iy : Bytes) :
    ∃ next, r.ordererStarted iy = { r with reassembler := next } := by
  unfold ordererStarted
  cases r.reassembler.expireByAppID iy with
  | none => exact ⟨r.reassembler,rfl⟩
  | some o => exact ⟨o.1,rfl⟩

/-- Handling a message leaves the position in the stream alone. -/
structure Placed (r r' : Replica) : Prop where
  lastTimestamp : r'.lastTimestamp = r.lastTimestamp
  lastSequence : r'.lastSequence = r.lastSequence
  chunkFree : r'.chunkFree = r.chunkFree
  chunkFreeSequence : r'.chunkFreeSequence = r.chunkFreeSequence

theorem commit_normal_placed (r : Replica) (en : Envelope) (ts : Time) (o : Nat)
    (ha : Bytes) : r.Placed (r.commitNormal en ts o ha) := by
  obtain ⟨_,h⟩ | ⟨_,h⟩ | ⟨_,h⟩ | ⟨_,h⟩ := r.commit_normal_cases en ts o ha
  all_goals
    rw [h]
    exact ⟨rfl,rfl,rfl,rfl⟩

section
variable {ha : Bytes} (h : Handling x r ts seq ha msg r' effect)
include h

theorem Handling.placed : r.Placed r' := by
  cases h with
  | recollecting | recollected | passed | cut => exact ⟨rfl,rfl,rfl,rfl⟩
  | normal => exact commit_normal_placed r _ _ _ _
  | config _ _ _ _ _ co =>
    obtain ⟨config,rfl⟩ := commit_config_cases co
    split <;> exact ⟨rfl,rfl,rfl,rfl⟩
  | started =>
    obtain ⟨next,heq⟩ := r.orderer_started_cases _
    rw [heq]
    exact ⟨rfl,rfl,rfl,rfl⟩

theorem Handling.off (off : r.recollectUntil = none) : r'.recollectUntil = none := by
  cases h with
  | recollecting | passed | cut => exact off
  | recollected => rfl
  | normal =>
    obtain ⟨_,h⟩ | ⟨_,h⟩ | ⟨_,h⟩ | ⟨_,h⟩ := r.commit_normal_cases _ ts _ ha
    all_goals
      rw [h]
      exact off
  | config _ _ _ _ _ co =>
    obtain ⟨config,rfl⟩ := commit_config_cases co
    split <;> exact off
  | started =>
    obtain ⟨next,heq⟩ := r.orderer_started_cases _
    rw [heq]
    exact off

theorem Handling.last_ordered : r'.lastOrdered = r.lastOrdered ∨ r'.lastOrdered = ts := by
  cases h with
  | recollecting | recollected | passed | cut => exact .inl rfl
  | normal =>
    obtain ⟨_,h⟩ | ⟨_,h⟩ | ⟨_,h⟩ | ⟨_,h⟩ := r.commit_normal_cases _ ts _ ha
    · rw [h]
      exact .inr rfl
    · rw [h]
      exact .inl rfl
    · rw [h]
      exact .inr rfl
    · rw [h]
      exact .inr rfl
  | config _ _ _ _ _ co =>
    obtain ⟨config,rfl⟩ := commit_config_cases co
    split <;> exact .inl rfl
  | started =>
    obtain ⟨next,heq⟩ := r.orderer_started_cases _
    rw [heq]
    exact .inl rfl

end

theorem regular_cases {ha : Bytes} (o : r.recollectUntil = none)
    (h : r.regular x msg ts ha = .ok (r',effect)) :
    Handling x r ts seq ha (.regular msg) r' effect := by
  unfold regular at h
  cases he : x.unmarshalEnvelope msg.payload with
  | none =>
    simp only [he] at h
    cases h
    exact .passed o (.badPayload he)
  | some en =>
    cases hc : msg.cls with
    | other n =>
      simp only [he,hc] at h
      cases h
      exact .passed o (.unsupported he hc)
    | normal =>
      simp only [he,hc] at h
      split_ifs at h with hco hs
      · cases h
        exact .passed o (.discarded he (.inl hc) hco)
      · cases h
        exact .passed o (.stale he (.inl hc) hco hs)
      · cases h
        exact .normal o he hc hco hs
    | config =>
      simp only [he,hc] at h
      split_ifs at h with hco hs
      · cases h
        exact .passed o (.discarded he (.inr hc) hco)
      · cases h
        exact .passed o (.stale he (.inr hc) hco hs)
      cases hcm : r.commitConfig x en ts (r.originalOf msg) with
      | error e => simp [hcm] at h
      | ok d =>
        simp only [hcm] at h
        cases h
        exact .config o he hc hco hs hcm

theorem time_to_cut_cases {ha : Bytes} (o : r.recollectUntil = none)
    (h : r.timeToCut msg ts seq = .ok (r',effect)) :
    Handling x r ts seq ha (.timeToCut msg) r' effect := by
  unfold timeToCut at h
  cases hd : r.createBlock msg with
  | error e => simp [hd] at h
  | ok du =>
    cases du with
    | false =>
      simp only [hd] at h
      cases h
      exact .passed o (.late hd)
    | true =>
      simp only [hd] at h
      split_ifs at h with hp
      cases h
      exact .cut o hd hp

theorem handle_cases {ha : Bytes} (h : r.handle x ts seq ms ha = .ok (r',effect)) :
    Handling x r ts seq ha ms r' effect := by
  unfold handle at h
  cases hs : r.recollectUntil with
  | some sp =>
    simp only [hs,recollect,Time.after,decide_eq_true_eq] at h
    split_ifs at h with hen hp
    · cases h
      subst hen
      exact .recollected hs
    · cases h
      have hne : ts.nanos ≠ sp.nanos := fun he => hen (Time.ext he)
      exact .recollecting hs (by omega)
  | none =>
    cases ms with
    | regular ms =>
      simp only [hs] at h
      exact regular_cases hs h
    | timeToCut ms =>
      simp only [hs] at h
      exact time_to_cut_cases hs h
    | ordererStarted iy =>
      simp only [hs] at h
      cases h
      exact .started hs
    | unset =>
      simp only [hs] at h
      cases h
      exact .passed hs .unset

theorem step_cases (h : r.step x accepts rp = .ok (r',effect)) :
    ∃ d re, r.receive x accepts rp = .ok (d,re) ∧
      ((r' = d ∧ effect = .received re ∧ ∀ ms ha, re ≠ .message ms ha) ∨
        ∃ ms ha, re = .message ms ha ∧
          Handling x d rp.consensusTimestamp rp.sequenceNumber ha ms r' effect) := by
  unfold step at h
  cases hr : r.receive x accepts rp with
  | error e => simp [hr] at h
  | ok o =>
    obtain ⟨d,re⟩ := o
    simp only [hr] at h
    refine ⟨d,re,rfl,?_⟩
    cases re with
    | message ms ha => exact .inr ⟨ms,ha,rfl,handle_cases h⟩
    | undecodable | refused | incomplete | unreadable =>
      cases h
      exact .inl ⟨rfl,rfl,by simp⟩

end Replica

theorem recollect_until_none (c : Chain) :
    c.replica.recollectUntil = none ↔ c.recollectPendingChunks = false := by
  simp [Chain.replica]

theorem handle_handling_replica {c c' : Chain} {ha : Bytes}
    (h : c.handle x own ts seq msg ha = .ok (c',outcome)) :
    Replica.Handling x c.replica ts seq ha msg c'.replica outcome.effect := by
  obtain hr | hr := handle_replica (x := x) own c ts seq msg ha
  · rw [h] at hr
    cases hr
  · rw [h] at hr
    exact Replica.handle_cases hr.symm

theorem process_response_handling {c c' : Chain}
    (h : c.processResponse x own rp = .ok (c',outcome)) :
    ∃ d re, c.receive x rp = .ok (d,re) ∧ rp.sequenceNumber = c.lastSequenceProcessed + 1 ∧
      Replica.Receiving x (fun _ => verify x c.publicKeys) c.replica rp d.replica re ∧
      ((c' = d ∧ outcome = .received re ∧ ∀ ms ha, re ≠ .message ms ha) ∨
        ∃ ms ha, re = .message ms ha ∧
          Replica.Handling x d.replica rp.consensusTimestamp rp.sequenceNumber ha ms
            c'.replica outcome.effect) := by
  obtain ⟨a,re,hr,hc⟩ := process_response_cases h
  have hre := own_receive x c rp
  simp only [hr,Except.map] at hre
  obtain ⟨hs,_,hrv⟩ := Replica.receive_cases hre.symm
  refine ⟨_,re,hr,hs,hrv,?_⟩
  obtain hp | ⟨ms,ha,rfl,_⟩ := hc
  · exact .inl hp
  right
  obtain ⟨d,re,hr',hc'⟩ := Replica.step_cases (own_step (e := ⟨rp,own,outcome⟩) h)
  rw [← hre] at hr'
  cases hr'
  obtain ⟨_,_,hno⟩ | ⟨ms,ha,hm,hh⟩ := hc'
  · exact absurd rfl (hno ms ha)
  · cases hm
    exact ⟨ms,ha,rfl,hh⟩

theorem process_response_position {c c' : Chain}
    (h : c.processResponse x own rp = .ok (c',outcome)) :
    c'.lastSequenceProcessed = c.lastSequenceProcessed + 1 ∧
      (c.recollectPendingChunks = false → c'.recollectPendingChunks = false) := by
  obtain ⟨d,re,_,_,hr,hc⟩ := process_response_handling h
  have hs := hr.position.2
  have ho := hr.carried.recollectUntil
  obtain ⟨rfl,_⟩ | ⟨ms,ha,_,hh⟩ := hc
  · refine ⟨hs,?_⟩
    rw [← recollect_until_none,← recollect_until_none,ho]
    exact id
  · refine ⟨hh.placed.lastSequence.trans hs,?_⟩
    rw [← recollect_until_none,← recollect_until_none,← ho]
    exact hh.off

end PluggableHcs.Hcs
