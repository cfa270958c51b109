import PluggableHcs.Hcs.Marks

namespace PluggableHcs.Hcs
open Runs List

def Chain.arriving (c : Chain) (e : Entry) (r : Reassembler) (free : Bool) : Chain :=
  c.withArrival
    ⟨e.timestamp,e.sequence,if free then e.timestamp else c.lastChunkFreeConsensusTimestamp,
      if free then e.sequence else c.lastChunkFreeSequenceProcessed,r⟩

structure Node where
  chain : Chain
  log : Log
  sent : List HcsMessageRegular

inductive NodeMove
  | send (msg : HcsMessageRegular)
  | publish (e : Entry)
  | handle (e : Entry) (own : LocalOutcome) (r : Reassembler) (free : Bool)
  | restart (blocks : Nat)

/-- Orderers send messages, and resubmissions of what was delivered. The topic delivers what was
sent. The orderer handles the next position, or is restarted. -/
def Node.move (x : Externals) (genesis : ChannelConfig) (s : Node) : NodeMove → Option Node
  | .send msg =>
    if msg.originalSeq = 0 ∨ ∃ e ∈ s.log.entries, e.sequence = msg.originalSeq then
      some { s with sent := msg :: s.sent }
    else none
  | .publish e =>
    if h : e.Follows s.log then
      if ∀ msg ∈ e.regular, msg ∈ s.sent then some { s with log := s.log.append e h } else none
    else none
  | .handle e own r free =>
    if e ∈ s.log.entries ∧ e.sequence = s.chain.lastSequenceProcessed + 1 then
      match e.message with
      | none => some { s with chain := s.chain.arriving e r free }
      | some (msg,hash) =>
        match (s.chain.arriving e r free).handle x own e.timestamp e.sequence msg hash with
        | .error _ => none
        | .ok (c,outcome) =>
          some { s with chain := c, sent := outcome.resubmission.toList ++ s.sent }
    else none
  | .restart blocks =>
    match s.chain.restart x genesis blocks with
    | none => none
    | some c => some { s with chain := c }

def Node.Step (x : Externals) (genesis : ChannelConfig) (s : Node) (m : NodeMove) (s' : Node) :
    Prop :=
  s.move x genesis m = some s'

def Node.InFlight (s : Node) (msg : HcsMessageRegular) : Prop :=
  msg ∈ s.sent ∧ ∀ e ∈ s.log.entries, e.sequence ≤ s.chain.lastSequenceProcessed →
    e.regular ≠ some msg
deriving Decidable

/-- A message that is handled was validated under no newer configuration than the one in
force. -/
def Node.Current (s : Node) : NodeMove → Prop
  | .handle e _ _ _ => s.chain.recollectPendingChunks = false →
    ∀ msg ∈ e.regular, msg.configSeq ≤ s.chain.config.sequence
  | _ => True

def NodeMove.RoundTrips (x : Externals) : NodeMove → Prop
  | .handle _ own _ _ => own.RoundTrips x
  | _ => True

instance (x : Externals) (m : NodeMove) : Decidable (m.RoundTrips x) := by
  unfold NodeMove.RoundTrips
  split <;> infer_instance

/-- The steps after which the gate no longer fits the marks. -/
def Node.Wedges (x : Externals) (s : Node) : NodeMove → Prop
  | .handle e own _ _ =>
    s.chain.recollectPendingChunks = false ∧
    match e.message with
    | some (.regular msg,_) => s.chain.RefusesAhead x own msg ∨ s.chain.CommitsAhead x msg
    | some (.timeToCut msg,_) => s.chain.CutsAhead msg
    | _ => False
  | _ => False

instance (s : Node) (m : NodeMove) : Decidable (s.Current m) := by
  unfold Node.Current
  split <;> infer_instance

instance (x : Externals) (s : Node) (m : NodeMove) : Decidable (s.Wedges x m) := by
  unfold Node.Wedges
  split
  · refine @instDecidableAnd _ _ _ ?_
    split <;> infer_instance
  · infer_instance

theorem Replica.Anchored.widen {ti timeline' : Timeline} {r : Replica}
    (h : r.Anchored ti) (hw : ∀ n t, ti.At n t → timeline'.At n t) :
    r.Anchored timeline' := by
  have hco : ∀ t n, ti.Covers t n → timeline'.Covers t n := by
    intro t n hc
    obtain ⟨m,hm,hn⟩ := hc
    exact ⟨m,hw m t hm,hn⟩
  exact ⟨hw _ _ h.position,hw _ _ h.free,
    fun b hb => ⟨hw _ _ (h.blocks b hb).1,hco _ _ (h.blocks b hb).2⟩,
    fun hp => hco _ _ (h.ordered hp),h.original,fun t ht => hco _ _ (h.stop t ht)⟩

variable {log : Log}

theorem Log.at_append (hf : e.Follows log) (h : log.timeline.At n t) :
    (log.append e hf).timeline.At n t := by
  obtain h | h := h
  · exact .inl h
  right
  simp only [Log.timeline,Log.append,map_append,mem_append] at h ⊢
  exact .inl h

theorem Log.at_lt {e : Entry} (hf : e.Follows log) (h : log.timeline.At n t) : n < e.sequence := by
  obtain ⟨rfl,_⟩ | h := h
  · exact hf.1
  obtain ⟨d,hd,heq⟩ := mem_map.mp h
  cases heq
  exact (hf.2.2 d hd).1

/-- At every position of an orderer that never wedges the marks are anchored in the log, and the
gate and the blocks fit them. -/
structure Node.Sound (x : Externals) (s : Node) : Prop where
  anchored : s.chain.replica.Anchored s.log.timeline
  ordered : s.chain.lastOrdereredConsensusTimestamp.nanos ≤ s.chain.lastConsensusTimestamp.nanos
  old : s.chain.GatesOld
  named : ∀ m ∈ s.sent, m.originalSeq = 0 ∨ ∃ e ∈ s.log.entries, e.sequence = m.originalSeq
  delivered : ∀ e ∈ s.log.entries, ∀ m ∈ e.regular, m ∈ s.sent
  earlier : s.log.NamesEarlier
  following : s.chain.recollectPendingChunks = false →
    s.chain.Fits x s.sent s.log s.chain.lastSequenceProcessed
  recollecting : s.chain.recollectPendingChunks = true →
    s.chain.doneReprocessingMsgInFlight ∉ s.chain.closedChannels ∧
      ∀ n, s.log.timeline.At n s.chain.lastConsensusTimestampPersisted →
        Consistent x s.sent s.log s.chain.lastResubmittedConfigSequence
          s.chain.lastOriginalSequenceProcessed n
  blocks : ∀ b ∈ s.chain.ledger.blocks, b.Fits x s.sent s.log

open Node (Sound Step move)

namespace Node.Sound
variable {x : Externals} {gs : ChannelConfig} {s s' : Node}

theorem send (h : s.Sound x) (hms : msg.originalSeq = 0 ∨
    ∃ e ∈ s.log.entries, e.sequence = msg.originalSeq) :
    { s with sent := msg :: s.sent }.Sound x where
  anchored := h.anchored
  ordered := h.ordered
  old := h.old
  named := forall_mem_cons.mpr ⟨hms,h.named⟩
  delivered := fun e he m hm => mem_cons_of_mem _ (h.delivered e he m hm)
  earlier := h.earlier
  following := fun o => ⟨(h.following o).gate,(h.following o).consistent.send msg⟩
  recollecting := fun on => ⟨(h.recollecting on).1,
    fun n hn => ((h.recollecting on).2 n hn).send msg⟩
  blocks := fun b hb => (h.blocks b hb).send [msg]

theorem publish (h : s.Sound x) {e : Entry} (hf : e.Follows s.log)
    (hse : ∀ m ∈ e.regular, m ∈ s.sent) :
    { s with log := s.log.append e hf }.Sound x where
  anchored := h.anchored.widen fun _ _ => Log.at_append hf
  ordered := h.ordered
  old := h.old
  named := by
    intro m hm
    obtain h0 | ⟨d,hd,hs⟩ := h.named m hm
    · exact .inl h0
    · exact .inr ⟨d,mem_append_left _ hd,hs⟩
  delivered := by
    intro d hd m hm
    obtain hd | hd := mem_append.mp hd
    · exact h.delivered d hd m hm
    · rw [mem_singleton.mp hd] at hm
      exact hse m hm
  earlier := by
    intro d hd m hm
    obtain hd | hd := mem_append.mp hd
    · exact h.earlier d hd m hm
    rw [mem_singleton.mp hd] at hm ⊢
    obtain h0 | ⟨d',hd',hs⟩ := h.named m (hse m hm)
    · rw [h0]
      exact hf.1
    · rw [← hs]
      exact (hf.2.2 d' hd').1
  following := fun o => ⟨(h.following o).gate,
    (h.following o).consistent.publish hf (Log.at_lt hf h.anchored.position)⟩
  recollecting := by
    intro on
    refine ⟨(h.recollecting on).1,?_⟩
    intro n hn
    obtain ⟨m,hm,_⟩ := h.anchored.stop s.chain.lastConsensusTimestampPersisted (by
      simp only [Chain.replica]
      rw [if_pos on])
    rw [hn.unique (Log.at_append hf hm)]
    exact ((h.recollecting on).2 m hm).publish hf (Log.at_lt hf hm)
  blocks := by
    intro b hb n hn
    obtain ⟨m,hm,_⟩ := (h.anchored.blocks b.shared (mem_map_of_mem hb)).2
    rw [hn.unique (Log.at_append hf hm)]
    exact (h.blocks b hb m hm).publish hf (Log.at_lt hf hm)

variable (h : s.Sound x) (he : e ∈ s.log.entries)
  (hq : e.sequence = s.chain.lastSequenceProcessed + 1)
include h he hq

theorem arriving_anchored (r : Reassembler) (f : Bool) :
    (s.chain.arriving e r f).replica.Anchored s.log.timeline := by
  have hm : s.log.timeline.At e.sequence e.timestamp := .inr (mem_map_of_mem he)
  have hl : s.chain.replica.lastSequence ≤ e.sequence := by
    have hs : s.chain.replica.lastSequence = s.chain.lastSequenceProcessed := rfl
    omega
  refine h.anchored.arrive ⟨rfl,rfl,rfl,rfl,rfl,rfl,rfl,rfl⟩ hm ?_ hl
  cases f with
  | true => exact hm
  | false => exact h.anchored.free

theorem timestamp_lt : s.chain.lastConsensusTimestamp.nanos < e.timestamp.nanos := by
  have hm : s.log.timeline.At e.sequence e.timestamp := .inr (mem_map_of_mem he)
  have hp : s.log.timeline.At s.chain.lastSequenceProcessed
    s.chain.lastConsensusTimestamp := h.anchored.position
  exact hp.lt hm (by omega)

theorem pass (hn : e.regular = none) (r : Reassembler) (f : Bool) :
    { s with chain := s.chain.arriving e r f }.Sound x where
  anchored := h.arriving_anchored he hq r f
  ordered := h.ordered.trans (h.timestamp_lt he hq).le
  old := h.old
  named := h.named
  delivered := h.delivered
  earlier := h.earlier
  following := by
    intro o
    have hf := h.following o
    have hex := hf.consistent.extend he hq (by simp [hn])
    rw [← hq] at hex
    exact ⟨hf.gate,hex⟩
  recollecting := h.recollecting
  blocks := h.blocks

theorem faces (o : s.chain.recollectPendingChunks = false) (r : Reassembler) (f : Bool) :
    (s.chain.arriving e r f).Faces x s.sent s.log e s.chain.lastSequenceProcessed where
  mem := he
  seq := hq
  original := h.anchored.original ((recollect_until_none s.chain).mpr o)
  ordered := by
    intro _ k hk
    by_contra hlt
    have hp : s.log.timeline.At s.chain.lastSequenceProcessed
      s.chain.lastConsensusTimestamp := h.anchored.position
    exact absurd (hp.lt hk (not_le.mp hlt)) (not_lt.mpr h.ordered)
  earlier := h.earlier
  sent := h.delivered e he

end Node.Sound

variable {s : Node} {c' : Chain} {hash : Bytes}

theorem Node.Sound.recollect (h : s.Sound x)
    (he : e ∈ s.log.entries) (hn : s.chain.recollectPendingChunks = true)
    (hh : Handling x own e.timestamp e.sequence hash (s.chain.arriving e r free) msg c' outcome) :
    outcome.resubmission = none ∧
    (c'.recollectPendingChunks = false → c'.Fits x s.sent s.log e.sequence) ∧
    (c'.recollectPendingChunks = true → c'.doneReprocessingMsgInFlight ∉ c'.closedChannels ∧
        ∀ n, s.log.timeline.At n c'.lastConsensusTimestampPersisted →
          Consistent x s.sent s.log c'.lastResubmittedConfigSequence
            c'.lastOriginalSequenceProcessed n) ∧
    ∀ b ∈ c'.ledger.blocks, b.Fits x s.sent s.log := by
  obtain ⟨ho,hc⟩ := h.recollecting hn
  have hm : s.log.timeline.At e.sequence e.timestamp := .inr (mem_map_of_mem he)
  cases hh with
  | recollecting =>
    exact ⟨rfl,fun o => absurd (o.symm.trans hn) (by simp),fun _ => ⟨ho,hc⟩,h.blocks⟩
  | caughtUp _ hr ca =>
    refine ⟨rfl,fun _ => ⟨iff_of_true mem_cons_self ?_,?_⟩,fun h => absurd h (by simp),h.blocks⟩
    · obtain hz | hle := ca
      · exact hz.le.trans (Nat.zero_le _)
      · exact hle
    · rw [hr] at hm
      exact hc _ hm
  | recollected _ hr be =>
    refine ⟨rfl,fun _ => ⟨iff_of_false ho fun hle => be (.inr hle),?_⟩,
      fun h => absurd h (by simp),h.blocks⟩
    rw [hr] at hm
    exact hc _ hm
  | badPayload o | unsupported o | normal o | configDiscarded o | configRefused o
  | configResubmitted o | configCommitted o | timeToCut o | ordererStarted o
  | unset o => exact absurd (o.symm.trans hn) (by simp)

theorem Node.Sound.follow (h : s.Sound x) (hr : own.RoundTrips x)
    (he : e ∈ s.log.entries) (hs : e.sequence = s.chain.lastSequenceProcessed + 1)
    (hme : e.message = some (msg,hash)) (o : s.chain.recollectPendingChunks = false)
    (hc : s.Current (.handle e own r free)) (ha : ¬ s.Wedges x (.handle e own r free))
    (hh : Handling x own e.timestamp e.sequence hash (s.chain.arriving e r free) msg c' outcome) :
    c'.Fits x (outcome.resubmission.toList ++ s.sent) s.log e.sequence ∧
      ∀ b ∈ c'.ledger.blocks, b.Fits x (outcome.resubmission.toList ++ s.sent) s.log := by
  have hf := h.following o
  have hfi : (s.chain.arriving e r free).Fits x s.sent s.log s.chain.lastSequenceProcessed :=
    ⟨hf.gate,hf.consistent⟩
  unfold Node.Wedges at ha
  simp only [hme,o,true_and] at ha
  rw [hs]
  refine handling_fits hr hh hme o hfi (h.faces he hs o r free) h.old h.blocks
    (hc o) ?_ ?_ ?_
  · intro m hm hw
    subst hm
    exact ha (.inl hw)
  · intro m hm hw
    subst hm
    exact ha (.inr hw)
  intro m hm hw
  subst hm
  exact ha hw

theorem Node.Sound.handled (h : s.Sound x) (hc : own.RoundTrips x)
    (he : e ∈ s.log.entries) (hs : e.sequence = s.chain.lastSequenceProcessed + 1)
    (hme : e.message = some (msg,hash))
    (hu : s.Current (.handle e own r free)) (hv : ¬ s.Wedges x (.handle e own r free))
    (hg : (s.chain.arriving e r free).handle x own e.timestamp e.sequence msg hash =
      .ok (c',outcome)) :
    { s with chain := c', sent := outcome.resubmission.toList ++ s.sent }.Sound x := by
  have hh := handle_handling hg
  have hr := handle_handling_replica hg
  have hp := hr.placed
  have hl : c'.lastSequenceProcessed = e.sequence := hp.lastSequence
  have ha : c'.replica.Anchored s.log.timeline := by
    refine hr.anchored (h.arriving_anchored he hs r free) ?_
    intro m hm
    subst hm
    exact (h.earlier e he m (by simp [Entry.regular,hme])).le
  have h1 : (s.chain.arriving e r free).GatesOld := h.old
  have hf : (c'.recollectPendingChunks = false →
        c'.Fits x (outcome.resubmission.toList ++ s.sent) s.log e.sequence) ∧
      (c'.recollectPendingChunks = true → c'.doneReprocessingMsgInFlight ∉ c'.closedChannels ∧
        ∀ n, s.log.timeline.At n c'.lastConsensusTimestampPersisted →
          Consistent x (outcome.resubmission.toList ++ s.sent) s.log
            c'.lastResubmittedConfigSequence c'.lastOriginalSequenceProcessed n) ∧
      ∀ b ∈ c'.ledger.blocks, b.Fits x (outcome.resubmission.toList ++ s.sent) s.log := by
    cases hre : s.chain.recollectPendingChunks with
    | true =>
      obtain ⟨hn,hrt⟩ := h.recollect he hre hh
      rw [hn]
      exact hrt
    | false =>
      have hof : c'.recollectPendingChunks = false :=
        (recollect_until_none c').mp (hr.off ((recollect_until_none s.chain).mpr hre))
      obtain ⟨hf,hbs⟩ := h.follow hc he hs hme hre hu hv hh
      exact ⟨fun _ => hf,fun on => absurd (hof.symm.trans on) (by simp),hbs⟩
  refine ⟨ha,?_,h1.handling hh,?_,?_,h.earlier,?_,hf.2.1,hf.2.2⟩
  · have hts : c'.lastConsensusTimestamp = e.timestamp := hp.lastTimestamp
    have hb := h.ordered.trans (h.timestamp_lt he hs).le
    simp only [hts]
    obtain ho | ho := hr.last_ordered
    · have ho' : c'.lastOrdereredConsensusTimestamp = s.chain.lastOrdereredConsensusTimestamp := ho
      rw [ho']
      exact hb
    · have ho' : c'.lastOrdereredConsensusTimestamp = e.timestamp := ho
      rw [ho']
  · intro m hm
    obtain hm | hm := mem_append.mp hm
    · have hnu := handling_resubmission hh m (Option.mem_toList.mp hm)
      exact .inr ⟨e,he,hnu.symm⟩
    · exact h.named m hm
  · intro d hd m hm
    exact mem_append_right _ (h.delivered d hd m hm)
  · intro o
    rw [hl]
    exact hf.1 o

theorem initial_sound (hb : ∀ b ∈ l.blocks.map Block.shared,
      log.timeline.At b.chunkFreeSequence b.chunkFree ∧
        log.timeline.Covers b.persisted b.originalSequence)
    (hc : ∀ m ∈ sent, m.originalSeq = 0 ∨ ∃ e ∈ log.entries, e.sequence = m.originalSeq)
    (hd : ∀ e ∈ log.entries, ∀ m ∈ e.regular, m ∈ sent) (hf : log.NamesEarlier)
    (hg : ∀ b ∈ l.blocks, b.Fits x sent log) :
    Sound x ⟨initialChain key publicKeys timeout config l,log,sent⟩ := by
  have ha : (initialChain key publicKeys timeout config l).replica.Anchored
      log.timeline := initial_anchored hb
  have hst : ∀ se, getStateFromMetadata (l.blocks.getLast?.map Block.metadata) = se →
      ∀ n, log.timeline.At n se.lastConsensusTimestampPersisted →
        Consistent x sent log se.lastResubmittedConfigSequence
          se.lastOriginalSequenceProcessed n := by
    intro se hs n hn
    subst hs
    cases hl : l.blocks.getLast? with
    | none =>
      rw [hl] at hn
      have hz : n = 0 := hn.unique (.inl ⟨rfl,rfl⟩)
      refine ⟨.inl (le_refl _),?_⟩
      intro e he hs
      have hp := (log.later e he).1
      omega
    | some b =>
      rw [hl] at hn
      exact hg b (mem_of_getLast? hl) n hn
  refine ⟨ha,Time.lower _,initial_gates_old,hc,hd,hf,?_,?_,hg⟩
  · intro o
    have hsa := o
    simp only [initialChain,decide_eq_false_iff_not,ne_eq,not_not] at hsa
    constructor
    · simp only [initialChain,hsa,true_and]
      constructor
      · intro hm
        split at hm
        · rename_i hle
          obtain hz | hle := hle
          · exact hz.le.trans (Nat.zero_le _)
          · exact hle
        · cases hm
      · intro hle
        rw [if_pos (.inr hle)]
        exact mem_singleton_self _
    · refine hst _ rfl _ ?_
      rw [hsa]
      exact ha.position
  · intro on
    have hne := on
    simp only [initialChain,decide_eq_true_eq] at hne
    refine ⟨?_,hst _ rfl⟩
    simp only [initialChain,hne,false_and,if_false]
    exact not_mem_nil

theorem Node.Sound.restarted (h : s.Sound x)
    (hr : s.chain.restart x genesis n = some c') : { s with chain := c' }.Sound x := by
  obtain ⟨co,_,hn,_⟩ := restart_cases hr
  obtain ⟨_,_,_,_,_,_,rfl⟩ := new_chain_cases hn
  refine initial_sound ?_ h.named h.delivered h.earlier ?_
  · intro b hb
    obtain ⟨b',hb',rfl⟩ := mem_map.mp hb
    exact h.anchored.blocks b'.shared (mem_map_of_mem (mem_of_mem_take hb'))
  · intro b hb
    exact h.blocks b (mem_of_mem_take hb)

theorem Node.Sound.step {s' : Node} (h : s.Sound x) (ho : m.RoundTrips x)
    (hu : s.Current m) (ha : ¬ s.Wedges x m) (hs : Step x genesis s m s') :
    s'.Sound x := by
  unfold Step at hs
  cases m with
  | send ms =>
    simp only [move] at hs
    split at hs
    · rename_i hms
      cases hs
      exact h.send hms
    · cases hs
  | publish e =>
    simp only [move] at hs
    split at hs
    · rename_i hf
      split at hs
      · rename_i hse
        cases hs
        exact h.publish hf hse
      · cases hs
    · cases hs
  | handle e ow r f =>
    simp only [move] at hs
    split at hs
    · rename_i hn
      obtain ⟨he,hq⟩ := hn
      cases hm : e.message with
      | none =>
        simp only [hm] at hs
        cases hs
        exact h.pass he hq (by simp [Entry.regular,hm]) r f
      | some o =>
        obtain ⟨ms,hash⟩ := o
        simp only [hm] at hs
        cases hc : (s.chain.arriving e r f).handle x ow e.timestamp e.sequence ms hash with
        | error er => simp [hc] at hs
        | ok o =>
          simp only [hc] at hs
          cases hs
          exact h.handled ho he hq hm hu ha hc
    · cases hs
  | restart bs =>
    simp only [move] at hs
    cases hr : s.chain.restart x genesis bs with
    | none => simp [hr] at hs
    | some c =>
      simp only [hr] at hs
      cases hs
      exact h.restarted hr

theorem Node.Sound.never_closes_twice (h : s.Sound x) (a : Arrival) :
    (s.chain.withArrival a).handle x own ts seq msg hash ≠ .error .closeOfClosedChannel := by
  intro her
  obtain ⟨hcl,hlt⟩ := handle_closes_twice her
  cases hr : s.chain.recollectPendingChunks with
  | true => exact (h.recollecting hr).1 hcl
  | false => exact absurd ((h.following hr).gate.mp hcl) (not_le.mpr (hlt hr))

/-- In every life in which no step wedges the gate it is never closed twice, and while it is open
outside of recollection a config message that the marker stands for is yet to be delivered. -/
theorem gate_never_wedges {c₀ : Chain} {s : Node}
    (start : newChain x key genesis ⟨base,[]⟩ = .ok c₀)
    (run : Run (Step x genesis) ⟨c₀,⟨[],.nil,by simp⟩,[]⟩ es s)
    (roundtrip : ∀ e ∈ es, e.label.RoundTrips x) (current : ∀ e ∈ es, e.before.Current e.label)
    (avoids : ∀ e ∈ es, ¬ e.before.Wedges x e.label) :
    (∀ a own ts seq msg hash,
      (s.chain.withArrival a).handle x own ts seq msg hash ≠ .error .closeOfClosedChannel) ∧
    (s.chain.recollectPendingChunks = false →
      s.chain.doneReprocessingMsgInFlight ∉ s.chain.closedChannels →
      ∃ m, s.InFlight m ∧ m.cls = .config ∧
        m.originalSeq = s.chain.lastResubmittedConfigSequence) := by
  obtain ⟨_,_,_,_,_,_,rfl⟩ := new_chain_cases start
  have hs : s.Sound x := by
    refine (run.invariant_when (I := Sound x)
      (C := fun e => e.label.RoundTrips x ∧ e.before.Current e.label ∧ ¬ e.before.Wedges x e.label)
      ?_ ?_ ?_).1
    · intro e hi hst hc
      exact hi.step hc.1 hc.2.1 hc.2.2 hst
    · refine initial_sound ?_ ?_ ?_ ?_ ?_
      all_goals simp [Log.NamesEarlier]
    · intro e he
      exact ⟨roundtrip e he,current e he,avoids e he⟩
  refine ⟨fun a own ts seq msg hash => hs.never_closes_twice a,?_⟩
  intro o hop
  have hf := hs.following o
  obtain hle | ⟨m,hm,hcl,ho,_,hno⟩ := hf.consistent.awaited
  · exact absurd (hf.gate.mpr hle) hop
  · exact ⟨m,⟨hm,hno⟩,hcl,ho⟩

def resentUpdate : HcsMessageRegular := ⟨Codec.envelope ⟨[3],[]⟩,1,.config,1⟩

def updateNode : Node := ⟨updateChain,⟨[],.nil,by simp⟩,[]⟩
def updateGenesis : ChannelConfig :=
  Codec.channelConfig 1 ⟨10,1000⟩ [Codec.operatorA] ['3','0','s']
def positionOf (sequence : Nat) (msg : HcsMessage) (hash : Bytes) : Entry :=
  ⟨sequence,Codec.second sequence,some (msg,hash)⟩
def updateReassembler : Reassembler := updateChain.appMsgProcessor

def updateMoves : List NodeMove :=
  [.send ⟨Codec.envelope ⟨[1],[]⟩,0,.config,0⟩,
    .publish (positionOf 1 firstUpdate.msg firstUpdate.hash),
    .handle (positionOf 1 firstUpdate.msg firstUpdate.hash) resendsFirst updateReassembler true]

def updateRun : Node × List (Transition Node NodeMove) :=
  (trace (move updateExternals updateGenesis) updateNode updateMoves).get (by decide +kernel)

theorem gate_never_wedges_update : ∃ m, updateRun.1.InFlight m ∧ m.cls = .config ∧
      m.originalSeq = updateRun.1.chain.lastResubmittedConfigSequence := by
  have hst : updateStart = .ok updateChain := Outcomes.ok_value_eq _
  have hr : Run (Step updateExternals updateGenesis) updateNode updateRun.2
      updateRun.1 := by
    exact trace_get_run _
  exact (gate_never_wedges hst hr (by decide +kernel) (by decide +kernel)
    (by decide +kernel)).2 (by decide +kernel) (by decide +kernel)

def wedgedMoves : List NodeMove :=
  updateMoves ++ [.send ⟨Codec.envelope ⟨[2],[]⟩,1,.normal,0⟩,
      .publish (positionOf 2 currentNormal.msg currentNormal.hash),
      .handle (positionOf 2 currentNormal.msg currentNormal.hash) idle updateReassembler true,
      .publish (positionOf 3 cutFirst.msg cutFirst.hash),
      .handle (positionOf 3 cutFirst.msg cutFirst.hash) idle updateReassembler true,
      .publish (positionOf 4 (.regular resentUpdate) (resendsFirst.enqueue.getD [])),
      .handle (positionOf 4 (.regular resentUpdate) (resendsFirst.enqueue.getD [])) idle
        updateReassembler true]

def wedgedRun : Node × List (Transition Node NodeMove) :=
  (trace (move updateExternals updateGenesis) updateNode wedgedMoves).get (by decide +kernel)

/-- The update is discarded on delivery, and nothing in flight could close the open gate. -/
theorem cut_wedges_gate : updateStart = .ok updateChain ∧
    Run (Step updateExternals updateGenesis) updateNode wedgedRun.2 wedgedRun.1 ∧
    wedgedRun.1.chain.recollectPendingChunks = false ∧
    wedgedRun.1.chain.doneReprocessingMsgInFlight ∉ wedgedRun.1.chain.closedChannels ∧
    ∀ m ∈ wedgedRun.1.sent, m.cls = .config →
      m.originalSeq = wedgedRun.1.chain.lastResubmittedConfigSequence →
      ¬ wedgedRun.1.InFlight m := by
  refine ⟨Outcomes.ok_value_eq _,?_,by decide +kernel⟩
  exact trace_get_run _

end PluggableHcs.Hcs
