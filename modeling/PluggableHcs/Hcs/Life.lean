import PluggableHcs.Hcs.Keys
import PluggableHcs.Hcs.ReplicaSteps

namespace PluggableHcs.Hcs
open Runs List

structure Timeline where
  marks : List (Nat × Time)
  increasing : marks.Pairwise fun a b => a.1 < b.1 ∧ a.2.nanos < b.2.nanos
  later : ∀ mark ∈ marks, 0 < mark.1 ∧ unixEpoch.nanos < mark.2.nanos

/-- Before the first response the position is zero and the unix epoch. -/
def Timeline.At (timeline : Timeline) (n : Nat) (t : Time) : Prop :=
  (n = 0 ∧ t = unixEpoch) ∨ (n,t) ∈ timeline.marks

def Timeline.Covers (timeline : Timeline) (t : Time) (n : Nat) : Prop :=
  ∃ m, timeline.At m t ∧ n ≤ m

section
variable {ti : Timeline}

theorem Timeline.At.lt (hm : ti.At m t) (hn : ti.At n u) (h : m < n) : t.nanos < u.nanos := by
  obtain ⟨rfl,rfl⟩ | hm := hm
  · obtain ⟨rfl,_⟩ | hn := hn
    · omega
    · exact (ti.later _ hn).2
  · obtain ⟨rfl,_⟩ | hn := hn
    · omega
    obtain ⟨i,hi,hit⟩ := mem_iff_getElem.mp hm
    obtain ⟨j,hj,hjt⟩ := mem_iff_getElem.mp hn
    have hp := pairwise_iff_getElem.mp ti.increasing
    obtain hij | rfl | hij := Nat.lt_trichotomy i j
    · have hlt := (hp i j hi hj hij).2
      rw [hit,hjt] at hlt
      exact hlt
    · rw [hit] at hjt
      cases hjt
      omega
    · have hlt := (hp j i hj hi hij).1
      rw [hit,hjt] at hlt
      omega

theorem Timeline.At.unique (hm : ti.At m t) (hn : ti.At n t) : m = n := by
  obtain h | h | h := Nat.lt_trichotomy m n
  · exact absurd (hm.lt hn h) (lt_irrefl _)
  · exact h
  · exact absurd (hn.lt hm h) (lt_irrefl _)

theorem Timeline.At.covers_iff (hm : ti.At m t) : ti.Covers t n ↔ n ≤ m := by
  constructor
  · intro h
    obtain ⟨k,hk,hn⟩ := h
    rw [hm.unique hk]
    exact hn
  · intro h
    exact ⟨m,hm,h⟩

end

/-- What a topic has delivered, in the order of sequence numbers and of timestamps. -/
structure Topic where
  responses : List Response
  increasing : responses.Pairwise fun a b => a.sequenceNumber < b.sequenceNumber ∧
    a.consensusTimestamp.nanos < b.consensusTimestamp.nanos
  later : ∀ resp ∈ responses, 0 < resp.sequenceNumber ∧
    unixEpoch.nanos < resp.consensusTimestamp.nanos

def Topic.timeline (topic : Topic) : Timeline where
  marks := topic.responses.map fun resp => (resp.sequenceNumber,resp.consensusTimestamp)
  increasing := pairwise_map.mpr topic.increasing
  later := by
    intro mark hm
    obtain ⟨resp,hr,rfl⟩ := mem_map.mp hm
    exact topic.later resp hr

namespace Replica

/-- Where the marks of a replica and of its blocks stand in the topic. No original sequence is
past the position that it belongs to. -/
structure Anchored (timeline : Timeline) (r : Replica) : Prop where
  position : timeline.At r.lastSequence r.lastTimestamp
  free : timeline.At r.chunkFreeSequence r.chunkFree
  blocks : ∀ b ∈ r.blocks, timeline.At b.chunkFreeSequence b.chunkFree ∧
    timeline.Covers b.persisted b.originalSequence
  ordered : r.batch.pendingBatch ≠ [] → timeline.Covers r.lastOrdered r.lastOriginalSequence
  original : r.recollectUntil = none → r.lastOriginalSequence ≤ r.lastSequence
  stop : ∀ t, r.recollectUntil = some t → timeline.Covers t r.lastOriginalSequence

variable {r : Replica}

variable {timeline : Timeline}

theorem Anchored.cut (f : timeline.At r.chunkFreeSequence r.chunkFree)
    (hs : ∀ b ∈ r.blocks, timeline.At b.chunkFreeSequence b.chunkFree ∧
      timeline.Covers b.persisted b.originalSequence)
    (hc : timeline.Covers ts r.lastOriginalSequence) (en : List Envelope)
    (ic : Bool) :
    ∀ b ∈ (r.cutBlock en ic ts).blocks,
      timeline.At b.chunkFreeSequence b.chunkFree ∧ timeline.Covers b.persisted b.originalSequence := by
  intro b hb
  simp only [cutBlock,mem_append,mem_singleton] at hb
  obtain hb | rfl := hb
  · exact hs b hb
  · exact ⟨f,hc⟩

theorem Anchored.cut_pending (h : r.Anchored timeline) (hp : r.batch.pendingBatch ≠ []) :
    ∀ b ∈ r.cutPending.blocks,
      timeline.At b.chunkFreeSequence b.chunkFree ∧ timeline.Covers b.persisted b.originalSequence :=
  Anchored.cut h.free h.blocks (h.ordered hp) _ _

theorem Anchored.commit_normal {ha : Bytes} (h : r.Anchored timeline)
    (o : r.recollectUntil = none) (hs : newSeq ≤ r.lastSequence) :
    (r.commitNormal env r.lastTimestamp newSeq ha).Anchored timeline := by
  have hco : timeline.Covers r.lastTimestamp newSeq := h.position.covers_iff.mpr hs
  have hst : ∀ t, r.recollectUntil = some t → timeline.Covers t newSeq := by simp [o]
  obtain ⟨hc,heq⟩ | ⟨hc,heq⟩ | ⟨hc,heq⟩ | ⟨hc,heq⟩ :=
    r.commit_normal_cases env r.lastTimestamp newSeq ha
  · rw [heq]
    exact ⟨h.position,h.free,h.blocks,fun _ => hco,fun _ => hs,hst⟩
  · rw [heq]
    have hp := leaves_out_pending (.inl hc)
    exact ⟨h.position,h.free,h.cut_pending hp,fun _ => h.ordered hp,h.original,h.stop⟩
  · rw [heq]
    have hp := leaves_out_pending (.inr hc)
    have hbs := Anchored.cut (r := r.cutPending.record r.lastTimestamp newSeq) h.free
      (h.cut_pending hp) hco [env] false
    exact ⟨h.position,h.free,hbs,fun _ => hco,fun _ => hs,hst⟩
  · rw [heq]
    have hbs := Anchored.cut (r := r.record r.lastTimestamp newSeq) h.free h.blocks hco
      (r.batch.pendingBatch ++ [env]) false
    exact ⟨h.position,h.free,hbs,fun _ => hco,fun _ => hs,hst⟩

theorem Anchored.commit_config {r' : Replica} (h : r.Anchored timeline)
    (o : r.recollectUntil = none) (hs : newSeq ≤ r.lastSequence)
    (ho : r.commitConfig x env r.lastTimestamp newSeq = .ok r') : r'.Anchored timeline := by
  have hc : timeline.Covers r.lastTimestamp newSeq := h.position.covers_iff.mpr hs
  have hst : ∀ t, r.recollectUntil = some t → timeline.Covers t newSeq := by simp [o]
  obtain ⟨cg,rfl⟩ := commit_config_cases ho
  by_cases hp : r.batch.pendingBatch = []
  · simp only [if_pos hp]
    have hbs := Anchored.cut (r := { r with lastOriginalSequence := newSeq }) h.free h.blocks
      hc [env] true
    exact ⟨h.position,h.free,hbs,fun hn => absurd hp hn,fun _ => hs,hst⟩
  · simp only [if_neg hp]
    have hbs := Anchored.cut (r := { r.cutPending with lastOriginalSequence := newSeq })
      h.free (h.cut_pending hp) hc [env] true
    exact ⟨h.position,h.free,hbs,fun hn => absurd rfl hn,fun _ => hs,hst⟩

theorem Anchored.cut_due (h : r.Anchored timeline)
    (o : r.recollectUntil = none) : (r.cutDue r.lastTimestamp r.lastSequence).Anchored timeline := by
  have hc : timeline.Covers r.lastTimestamp r.lastSequence :=
    h.position.covers_iff.mpr (le_refl _)
  have hbs := Anchored.cut (r := { r with lastOriginalSequence := r.lastSequence }) h.free
    h.blocks hc r.batch.pendingBatch false
  refine ⟨h.position,h.free,hbs,fun hn => absurd rfl hn,fun _ => le_refl _,?_⟩
  intro t ht
  rw [show (r.cutDue r.lastTimestamp r.lastSequence).recollectUntil = r.recollectUntil from rfl,
    o] at ht
  cases ht

theorem original_of_le (hl : r.lastOriginalSequence ≤ n)
    (hm : msg.originalSeq ≤ n) : r.originalOf msg ≤ n := by
  unfold originalOf
  split
  · exact hl
  · exact hm

theorem Handling.anchored {r' : Replica} {hh : Bytes}
    (h : Handling x r r.lastTimestamp r.lastSequence hh msg r' effect)
    (ha : r.Anchored timeline) (he : ∀ m, msg = .regular m → m.originalSeq ≤ r.lastSequence) :
    r'.Anchored timeline := by
  cases h with
  | recollecting | passed => exact ha
  | recollected on =>
    have hc := ha.stop _ on
    rw [ha.position.covers_iff] at hc
    refine ⟨ha.position,ha.free,ha.blocks,ha.ordered,fun _ => hc,?_⟩
    intro t ht
    cases ht
  | normal o =>
    exact ha.commit_normal o (original_of_le (ha.original o) (he _ rfl))
  | config o _ _ _ _ co =>
    exact ha.commit_config o (original_of_le (ha.original o) (he _ rfl)) co
  | cut o => exact ha.cut_due o
  | started =>
    obtain ⟨next,heq⟩ := r.orderer_started_cases _
    rw [heq]
    exact ⟨ha.position,ha.free,ha.blocks,ha.ordered,ha.original,ha.stop⟩

theorem Anchored.arrive {d : Replica} (h : r.Anchored timeline)
    (hc : r.Carried d) (hp : timeline.At d.lastSequence d.lastTimestamp)
    (f : timeline.At d.chunkFreeSequence d.chunkFree) (hs : r.lastSequence ≤ d.lastSequence) :
    d.Anchored timeline := by
  refine ⟨hp,f,?_,?_,?_,?_⟩
  · rw [hc.blocks]
    exact h.blocks
  · rw [hc.batch,hc.lastOrdered,hc.lastOriginalSequence]
    exact h.ordered
  · rw [hc.recollectUntil,hc.lastOriginalSequence]
    intro o
    exact (h.original o).trans hs
  · rw [hc.recollectUntil,hc.lastOriginalSequence]
    exact h.stop

theorem Receiving.anchored {d : Replica}
    (h : Receiving x accepts r re d received) (ha : r.Anchored timeline)
    (hm : timeline.At re.sequenceNumber re.consensusTimestamp)
    (hs : re.sequenceNumber = r.lastSequence + 1) : d.Anchored timeline := by
  obtain ⟨hts,hl⟩ := h.position
  rw [hs] at hm
  refine ha.arrive h.carried ?_ ?_ (by omega)
  · rw [hts,hl]
    exact hm
  · obtain ⟨hf,hfs⟩ | ⟨hf,hfs,_⟩ := h.chunk_free
    · rw [hf,hfs]
      exact ha.free
    · rw [hf,hfs]
      exact hm

theorem step_anchored {r' : Replica}
    (h : r.step x accepts re = .ok (r',effect)) (ha : r.Anchored timeline)
    (hma : timeline.At re.sequenceNumber re.consensusTimestamp)
    (he : ∀ d m h1, r.receive x accepts re = .ok (d,.message (.regular m) h1) →
      m.originalSeq ≤ re.sequenceNumber) : r'.Anchored timeline := by
  obtain ⟨d,rd,hr,hc⟩ := step_cases h
  obtain ⟨hs,_,hre⟩ := receive_cases hr
  have hd := hre.anchored ha hma hs
  obtain ⟨hts,hl⟩ := hre.position
  obtain ⟨rfl,_⟩ | ⟨ms,h1,rfl,hh⟩ := hc
  · exact hd
  rw [← hts,hs,← hl] at hh
  apply hh.anchored hd
  intro m hm
  subst hm
  rw [hl,← hs]
  exact he d m h1 hr

end Replica

def Block.content (b : Block) : List Envelope × Bool := (b.envelopes,b.isConfig)

def configAfter (x : Externals) (config : ChannelConfig) :
    List (List Envelope × Bool) → Option ChannelConfig
  | [] => some config
  | (_,false) :: rest => configAfter x config rest
  | (envelopes,true) :: rest =>
    match envelopes with
    | [env] =>
      match x.applyConfig config env with
      | none => none
      | some config => configAfter x config rest
    | _ => none

/-- The process is started again over the first blocks of the ledger: all, or those before a crash
in the middle of a step. -/
def Chain.restart (x : Externals) (genesis : ChannelConfig) (c : Chain) (blocks : Nat) :
    Option Chain :=
  let ledger := { c.ledger with blocks := c.ledger.blocks.take blocks }
  match configAfter x genesis (ledger.blocks.map Block.content) with
  | none => none
  | some config =>
    match newChain x c.operatorPublicKeyBytes config ledger with
    | .error _ => none
    | .ok c => if c.startable then some c else none

inductive LifeMove
  | handle (resp : Response) (own : LocalOutcome)
  | restart (blocks : Nat)

def Chain.live (x : Externals) (genesis : ChannelConfig) (topic : Topic) (c : Chain) :
    LifeMove → Option Chain
  | .handle resp own =>
    if resp ∈ topic.responses then
      match c.processResponse x own resp with
      | .error _ => none
      | .ok (c,_) => some c
    else none
  | .restart blocks => c.restart x genesis blocks

def Chain.Lives (x : Externals) (genesis : ChannelConfig) (topic : Topic) (c : Chain)
    (m : LifeMove) (c' : Chain) : Prop :=
  c.live x genesis topic m = some c'

/-- A resubmission that the response delivers names a message delivered before it, as with every
orderer that follows the protocol. -/
def Chain.NamesEarlier (x : Externals) (c : Chain) (resp : Response) : Prop :=
  match c.receive x resp with
  | .ok (_,.message (.regular msg) _) => msg.originalSeq < resp.sequenceNumber
  | _ => True

def Chain.NamesEarlierIn (x : Externals) (c : Chain) : LifeMove → Prop
  | .handle resp _ => c.NamesEarlier x resp
  | .restart _ => True

theorem Chain.NamesEarlier.original_le {c : Chain} {ha : Bytes} (h : c.NamesEarlier x re)
    (hr : c.replica.receive x (fun _ => verify x c.publicKeys) re =
      .ok (d,.message (.regular msg) ha)) : msg.originalSeq ≤ re.sequenceNumber := by
  rw [← own_receive x c re] at hr
  unfold Chain.NamesEarlier at h
  cases hc : c.receive x re with
  | error e => simp [hc,Except.map] at hr
  | ok o =>
    simp only [hc,Except.map,Except.ok.injEq,Prod.mk.injEq] at hr
    obtain ⟨_,hm⟩ := hr
    obtain ⟨d',rd⟩ := o
    subst hm
    simp only [hc] at h
    exact h.le

theorem initial_anchored {timeline : Timeline}
    (h : ∀ b ∈ l.blocks.map Block.shared, timeline.At b.chunkFreeSequence b.chunkFree ∧
      timeline.Covers b.persisted b.originalSequence) :
    (initialChain key publicKeys timeout config l).replica.Anchored timeline := by
  have hst : ∀ se, getStateFromMetadata (l.blocks.getLast?.map Block.metadata) = se →
      timeline.At se.lastChunkFreeSequenceProcessed
        se.lastChunkFreeConsensusTimestampPersisted ∧
      timeline.Covers se.lastConsensusTimestampPersisted se.lastOriginalSequenceProcessed := by
    intro se hs
    subst hs
    cases hl : l.blocks.getLast? with
    | none => exact ⟨.inl ⟨rfl,rfl⟩,0,.inl ⟨rfl,rfl⟩,le_refl _⟩
    | some b => exact h b.shared (mem_map_of_mem (mem_of_getLast? hl))
  obtain ⟨hf,hc⟩ := hst _ rfl
  refine ⟨hf,hf,h,fun hn => absurd rfl hn,?_,?_⟩
  · intro ho
    have hsa := ho
    simp only [Chain.replica,initialChain,decide_eq_true_eq,ite_eq_right_iff,reduceCtorEq,
      imp_false,ne_eq,not_not] at hsa
    rw [hsa,hf.covers_iff] at hc
    exact hc
  · intro t ht
    simp only [Chain.replica,initialChain,decide_eq_true_eq] at ht
    split at ht
    · cases ht
      exact hc
    · cases ht

theorem restart_cases {c c' : Chain} (h : c.restart x genesis blocks = some c') :
    ∃ co, configAfter x genesis ((c.ledger.blocks.take blocks).map Block.content) = some co ∧
      newChain x c.operatorPublicKeyBytes co
        { c.ledger with blocks := c.ledger.blocks.take blocks } = .ok c' ∧
      c'.startable = true := by
  unfold Chain.restart at h
  cases hc : configAfter x genesis ((c.ledger.blocks.take blocks).map Block.content) with
  | none =>
    simp only [hc] at h
    cases h
  | some co =>
    simp only [hc] at h
    cases hn : newChain x c.operatorPublicKeyBytes co
        { c.ledger with blocks := c.ledger.blocks.take blocks } with
    | error e => simp [hn] at h
    | ok d =>
      simp only [hn] at h
      split at h
      · rename_i hs
        cases h
        exact ⟨co,rfl,hn,hs⟩
      · cases h

theorem restart_anchored {timeline : Timeline} {c c' : Chain}
    (h : c.restart x genesis blocks = some c')
    (ha : c.replica.Anchored timeline) : c'.replica.Anchored timeline := by
  obtain ⟨co,_,hn,_⟩ := restart_cases h
  obtain ⟨_,_,_,_,_,_,rfl⟩ := new_chain_cases hn
  apply initial_anchored
  intro b hb
  obtain ⟨b',hb',rfl⟩ := mem_map.mp hb
  exact ha.blocks b'.shared (mem_map_of_mem (mem_of_mem_take hb'))

theorem lives_handle {tc : Topic} (h : Chain.Lives x genesis tc c (.handle re own) c') :
    re ∈ tc.responses ∧ ∃ o, c.processResponse x own re = .ok (c',o) := by
  simp only [Chain.Lives,Chain.live] at h
  split at h
  · rename_i hm
    cases hc : c.processResponse x own re with
    | error e => simp [hc] at h
    | ok ou =>
      simp only [hc] at h
      cases h
      exact ⟨hm,ou.2,rfl⟩
  · cases h

theorem live_anchored {tc : Topic} {c c' : Chain} (h : Chain.Lives x genesis tc c m c')
    (ha : c.replica.Anchored tc.timeline) (he : c.NamesEarlierIn x m) :
    c'.replica.Anchored tc.timeline := by
  cases m with
  | handle re ow =>
    obtain ⟨hme,o,hs⟩ := lives_handle h
    have hr := own_step (e := ⟨re,ow,o⟩) hs
    have hm : tc.timeline.At re.sequenceNumber re.consensusTimestamp :=
      .inr (mem_map_of_mem hme)
    exact Replica.step_anchored hr ha hm fun d m hh hre => he.original_le hre
  | restart bs => exact restart_anchored h ha

theorem life_anchored {tc : Topic} (hb : newChain x key genesis ⟨base,[]⟩ = .ok c₀)
    (l : Run (Chain.Lives x genesis tc) c₀ es c)
    (he : ∀ e ∈ es, e.before.NamesEarlierIn x e.label) : c.replica.Anchored tc.timeline := by
  obtain ⟨_,_,_,_,_,_,rfl⟩ := new_chain_cases hb
  refine (l.invariant_when (I := fun c => c.replica.Anchored tc.timeline) ?_
    (initial_anchored (by simp)) he).1
  intro e ha hs hc
  exact live_anchored hs ha hc

end PluggableHcs.Hcs
