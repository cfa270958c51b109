import PluggableHcs.Hcs.Agreement
import PluggableHcs.Hcs.Gate
import PluggableHcs.Hcs.Life

namespace PluggableHcs.Hcs
open Runs Outcomes

def Chain.delivered (x : Externals) (c : Chain) (resp : Response) : Option HcsMessageRegular :=
  match c.receive x resp with
  | .ok (d,.message (.regular msg) _) => if d.recollectPendingChunks then none else some msg
  | _ => none

def HcsMessageRegular.Readable (x : Externals) (msg : HcsMessageRegular) : Prop :=
  (x.unmarshalEnvelope msg.payload).isSome ∧ (msg.cls = .normal ∨ msg.cls = .config)
deriving Decidable

def Chain.CutsOnTime (x : Externals) (c : Chain) (resp : Response) : Prop :=
  match c.receive x resp with
  | .ok (d,.message (.timeToCut msg) _) =>
    d.recollectPendingChunks = false ∧ d.createBlock msg = .ok true
  | _ => False

instance (x : Externals) (c : Chain) (resp : Response) : Decidable (c.CutsOnTime x resp) :=
  decidable_of_iff ((match c.receive x resp with
    | .ok (d,.message (.timeToCut msg) _) =>
      decide (d.recollectPendingChunks = false ∧ d.createBlock msg = .ok true)
    | _ => false) = true) (by unfold Chain.CutsOnTime; split <;> simp)

variable {c : Chain}

/-- Resubmissions up to the one of the sequence come in the order of their original sequences, and
none delivered is a current one of the sequence itself. -/
def Chain.Awaits (x : Externals) (sequence : Nat) (c : Chain) (resp : Response) : Prop :=
  ∀ msg ∈ c.delivered x resp, msg.Readable x →
    msg.originalSeq ≤ sequence ∧ (msg.originalSeq = sequence → c.Stale msg)
deriving Decidable

theorem delivered_iff : msg ∈ c.delivered x rp ↔ ∃ d ha,
      c.receive x rp = .ok (d,.message (.regular msg) ha) ∧ d.recollectPendingChunks = false := by
  unfold Chain.delivered
  cases hre : c.receive x rp with
  | error e => simp
  | ok o =>
    obtain ⟨d,re⟩ := o
    cases re with
    | undecodable | refused | incomplete | unreadable => simp
    | message m ha =>
      cases m with
      | timeToCut | ordererStarted | unset => simp
      | regular m =>
        cases hr : d.recollectPendingChunks with
        | true =>
          simp only [hr,if_true,Option.not_mem_none,false_iff,not_exists,not_and]
          intro d' h' heq
          cases heq
          simp [hr]
        | false =>
          simp only [hr,Bool.false_eq_true,if_false,Option.mem_some_iff]
          constructor
          · intro he
            subst he
            exact ⟨d,ha,rfl,hr⟩
          intro h
          obtain ⟨d',h',heq,_⟩ := h
          cases heq
          rfl

variable {sequence : Nat}

namespace Replica

theorem Handling.original_lt_iff {ha : Bytes}
    (h : Handling x r ts seq ha msg r' effect) (o1 : r.recollectUntil = none)
    (hs : sequence < seq) (o : ∀ m, msg = .regular m → m.Readable x →
      m.originalSeq ≤ sequence ∧ (m.originalSeq = sequence → r.Stale m)) :
    r'.lastOriginalSequence < sequence ↔
      r.lastOriginalSequence < sequence ∧ ∀ m, msg = .timeToCut m → r.createBlock m ≠ .ok true := by
  have hc : ∀ m en, msg = .regular m → x.unmarshalEnvelope m.payload = some en →
      (m.cls = .normal ∨ m.cls = .config) → ¬ r.Consumed m → ¬ r.Stale m →
      (r.originalOf m < sequence ↔ r.lastOriginalSequence < sequence) := by
    intro m en hm hp hcl hf hcu
    obtain ⟨hle,heq⟩ := o m hm ⟨by simp [hp],hcl⟩
    have hne : m.originalSeq ≠ sequence := fun he => hcu (heq he)
    unfold originalOf
    split
    · rfl
    rename_i hz
    have hlt : r.lastOriginalSequence < m.originalSeq := by
      by_contra hge
      exact hf ⟨hz,not_lt.mp hge⟩
    constructor <;> intro _ <;> omega
  cases h with
  | recollecting on | recollected on =>
    rw [o1] at on
    cases on
  | passed _ ps =>
    cases ps with
    | late du => simp [du]
    | _ => simp
  | @normal en m _ pa cs f cu =>
    have ho := hc m en rfl pa (.inl cs) f cu
    simp only [reduceCtorEq,false_imp_iff,implies_true,and_true]
    obtain ⟨_,heq⟩ | ⟨_,heq⟩ | ⟨_,heq⟩ | ⟨_,heq⟩ :=
      r.commit_normal_cases en ts (r.originalOf m) ha
    · rw [heq]
      exact ho
    · rw [heq]
      exact Iff.rfl
    · rw [heq]
      exact ho
    · rw [heq]
      exact ho
  | @config en m _ _ pa cs f cu co =>
    have ho := hc m en rfl pa (.inr cs) f cu
    simp only [reduceCtorEq,false_imp_iff,implies_true,and_true]
    obtain ⟨config,rfl⟩ := commit_config_cases co
    split <;> exact ho
  | @cut m _ du =>
    have hl : (r.cutDue ts seq).lastOriginalSequence = seq := rfl
    refine iff_of_false (by omega) ?_
    intro h
    exact h.2 m rfl du
  | started =>
    obtain ⟨next,heq⟩ := r.orderer_started_cases _
    rw [heq]
    simp

theorem original_of_ge {r : Replica} (hge : n ≤ r.lastOriginalSequence) (f : ¬ r.Consumed msg) :
    n ≤ r.originalOf msg := by
  unfold originalOf
  split
  · exact hge
  rename_i hz
  by_contra hlt
  exact f ⟨hz,by omega⟩

theorem Handling.original_ge {r r' : Replica} {ha : Bytes}
    (h : Handling x r ts seq ha msg r' effect) (hge : n ≤ r.lastOriginalSequence)
    (hs : n ≤ seq) : n ≤ r'.lastOriginalSequence := by
  cases h with
  | recollecting | recollected | passed => exact hge
  | @normal en m _ _ _ f =>
    have ho := original_of_ge hge f
    obtain ⟨_,heq⟩ | ⟨_,heq⟩ | ⟨_,heq⟩ | ⟨_,heq⟩ :=
      r.commit_normal_cases en ts (r.originalOf m) ha
    · rw [heq]
      exact ho
    · rw [heq]
      exact hge
    · rw [heq]
      exact ho
    · rw [heq]
      exact ho
  | config _ _ _ f _ co =>
    have ho := original_of_ge hge f
    obtain ⟨config,rfl⟩ := commit_config_cases co
    split <;> exact ho
  | cut => exact hs
  | started =>
    obtain ⟨next,heq⟩ := r.orderer_started_cases _
    rw [heq]
    exact hge

theorem Handling.recorded {ha : Bytes}
    (h : Handling x r ts seq ha m r' (.committed msg env)) (hn : msg.originalSeq ≠ 0)
    (hf : msg.cls = .normal → ¬ r.batch.LeavesPending r.config.batchSize env) :
    r'.lastOriginalSequence = msg.originalSeq := by
  have ho : r.originalOf msg = msg.originalSeq := if_neg hn
  cases h with
  | passed _ pa => cases pa
  | normal _ _ cs =>
    obtain ⟨_,heq⟩ | ⟨hl,_⟩ | ⟨_,heq⟩ | ⟨_,heq⟩ :=
      r.commit_normal_cases env ts (r.originalOf msg) ha
    · rw [heq]
      exact ho
    · exact absurd hl (hf cs)
    · rw [heq]
      exact ho
    · rw [heq]
      exact ho
  | config _ _ _ _ _ co =>
    obtain ⟨config,rfl⟩ := commit_config_cases co
    split <;> exact ho

end Replica

theorem cuts_on_time_iff : c.CutsOnTime x re ↔ ∃ d ms ha,
      c.receive x re = .ok (d,.message (.timeToCut ms) ha) ∧
        d.recollectPendingChunks = false ∧ d.createBlock ms = .ok true := by
  unfold Chain.CutsOnTime
  split
  · rename_i d ms ha heq
    constructor
    · intro h
      exact ⟨d,ms,ha,heq,h⟩
    intro h
    obtain ⟨d',m',h',heq',h⟩ := h
    rw [heq] at heq'
    cases heq'
    exact h
  · rename_i hno
    simp only [false_iff,not_exists,not_and]
    intro d ms ha heq
    exact absurd heq (hno d ms ha)

variable {c' : Chain}

theorem process_response_original_lt (h : c.processResponse x own resp = .ok (c',outcome))
    (o : c.recollectPendingChunks = false) (hse : sequence ≤ c.lastSequenceProcessed)
    (hw : c.Awaits x sequence resp) :
    c'.lastOriginalSequenceProcessed < sequence ↔
      c.lastOriginalSequenceProcessed < sequence ∧ ¬ c.CutsOnTime x resp := by
  obtain ⟨d,re,hr,hnu,hrv,hca⟩ := process_response_handling h
  have hc := hrv.carried
  have hl : d.lastOriginalSequenceProcessed = c.lastOriginalSequenceProcessed :=
    hc.lastOriginalSequence
  have hco : d.config = c.config := hc.config
  have ho : d.replica.recollectUntil = none := by
    rw [hc.recollectUntil,recollect_until_none]
    exact o
  rw [cuts_on_time_iff,hr]
  obtain ⟨rfl,_,hno⟩ | ⟨ms,ha,rfl,hh⟩ := hca
  · rw [hl]
    refine (and_iff_left ?_).symm
    intro h
    obtain ⟨_,m,ha,heq,_⟩ := h
    cases heq
    exact absurd rfl (hno _ _)
  · have hor : ∀ m, ms = .regular m → m.Readable x →
        m.originalSeq ≤ sequence ∧ (m.originalSeq = sequence → d.replica.Stale m) := by
      intro m hm hre
      subst hm
      have hde := delivered_iff.mpr ⟨d,ha,hr,(recollect_until_none d).mp ho⟩
      obtain ⟨hle,hst⟩ := hw m hde hre
      refine ⟨hle,fun he => ?_⟩
      have hs := hst he
      unfold Chain.Stale at hs
      rw [← hco] at hs
      exact hs
    refine (hh.original_lt_iff ho (by omega) hor).trans ?_
    have hl' : d.replica.lastOriginalSequence = c.lastOriginalSequenceProcessed := hl
    rw [hl']
    refine and_congr_right fun _ => ?_
    constructor
    · intro hn h
      obtain ⟨d',m,h',heq,_,hd⟩ := h
      cases heq
      exact hn m rfl hd
    intro hn m hm hd
    subst hm
    exact hn ⟨d,m,ha,rfl,(recollect_until_none d).mp ho,hd⟩

def Chain.Past (sequence : Nat) (c : Chain) : Prop :=
  c.recollectPendingChunks = false ∧ sequence ≤ c.lastSequenceProcessed

theorem Chain.Past.step (hp : c.Past sequence)
    (h : c.processResponse x own re = .ok (c',outcome)) : c'.Past sequence := by
  obtain ⟨hs,ho⟩ := process_response_position h
  exact ⟨ho hp.1,by rw [hs]; exact hp.2.trans (Nat.le_succ _)⟩

theorem run_original_lt (hr : Run (Chain.Step x) c es c') (hp : c.Past sequence)
    (hw : ∀ e ∈ es, e.before.Awaits x sequence e.label.response) :
    c'.lastOriginalSequenceProcessed < sequence ↔ c.lastOriginalSequenceProcessed < sequence ∧
        ∀ e ∈ es, ¬ e.before.CutsOnTime x e.label.response := by
  refine hr.ends_iff (I := Chain.Past sequence)
    (G := fun c => c.lastOriginalSequenceProcessed < sequence)
    (K := fun e => e.before.Awaits x sequence e.label.response) ?_ ?_ hp hw
  · intro e hi hs _
    exact hi.step hs
  · intro e hi hs ha
    exact process_response_original_lt hs hi.1 hi.2 ha

def Chain.GatesOld (c : Chain) : Prop :=
  ∀ n ∈ c.closedChannels, n ≤ c.doneReprocessingMsgInFlight

theorem Chain.GatesOld.closed (hg : c.GatesOld)
    (hga : c'.doneReprocessingMsgInFlight = c.doneReprocessingMsgInFlight)
    (hcl : c'.closedChannels = c.closedChannels ∨
      c'.closedChannels = c.doneReprocessingMsgInFlight :: c.closedChannels) : c'.GatesOld := by
  intro n hn
  rw [hga]
  obtain hcl | hcl := hcl
  · rw [hcl] at hn
    exact hg n hn
  rw [hcl] at hn
  obtain rfl | hn := List.mem_cons.mp hn
  · exact le_refl _
  · exact hg n hn

theorem Chain.GatesOld.handling {ha : Bytes} (hg : c.GatesOld)
    (h : Handling x own ts seq ha c msg c' outcome) : c'.GatesOld := by
  cases h with
  | caughtUp => exact hg.closed rfl (.inr rfl)
  | configRefused _ _ _ _ no =>
    obtain ⟨hga,hcl⟩ := note_resubmission_gate no
    exact hg.closed hga (hcl.imp_right And.right)
  | configResubmitted _ _ _ _ no =>
    obtain ⟨hga,hcl⟩ := note_resubmission_gate no
    have ho := hg.closed hga (hcl.imp_right And.right)
    intro n hn
    exact (ho n hn).trans (Nat.le_succ _)
  | configCommitted _ _ _ _ no _ co ue =>
    obtain ⟨hga,hcl⟩ := note_resubmission_gate no
    obtain ⟨o,cg,ks,rfl,_⟩ := commit_config_frame co ue
    exact hg.closed hga (hcl.imp_right And.right)
  | recollecting | recollected | badPayload | unsupported | normal | configDiscarded | timeToCut
  | ordererStarted | unset => exact hg.closed rfl (.inl rfl)

theorem Chain.GatesOld.step (hg : c.GatesOld)
    (h : c.processResponse x own re = .ok (c',outcome)) : c'.GatesOld := by
  obtain ⟨a,_,_,⟨rfl,_⟩ | ⟨_,_,_,hh⟩⟩ := process_response_cases h
  · exact hg
  · have ha : (c.withArrival a).GatesOld := hg
    exact ha.handling hh

theorem initial_gates_old : (initialChain key publicKeys timeout config l).GatesOld := by
  intro n hn
  simp only [initialChain] at hn
  split at hn
  · rw [List.mem_singleton.mp hn]
    exact Nat.zero_le _
  · cases hn

theorem life_gates_old {tc : Topic} {c₀ : Chain} (ha : newChain x key genesis lr = .ok c₀)
    (l : Run (Chain.Lives x genesis tc) c₀ es c) : c.GatesOld := by
  obtain ⟨_,_,_,_,_,_,rfl⟩ := new_chain_cases ha
  refine (l.invariant (I := Chain.GatesOld) ?_ initial_gates_old).1
  intro c m c' hg hs
  cases m with
  | handle re o =>
    obtain ⟨_,_,hc⟩ := lives_handle hs
    exact hg.step hc
  | restart bs =>
    obtain ⟨_,_,hn,_⟩ := restart_cases hs
    obtain ⟨_,_,_,_,_,_,rfl⟩ := new_chain_cases hn
    exact initial_gates_old

structure Chain.GateAwaits (sequence : Nat) (c : Chain) : Prop where
  old : c.GatesOld
  marked : sequence ≤ c.lastResubmittedConfigSequence
  opened : c.lastResubmittedConfigSequence = sequence →
    c.doneReprocessingMsgInFlight ∉ c.closedChannels

open Chain

theorem Chain.GateAwaits.note (hg : c.GateAwaits sequence)
    (h : c.noteResubmission msg = .ok c') (hs : msg.originalSeq = sequence → c.Stale msg) :
    sequence ≤ c'.lastResubmittedConfigSequence ∧ (c'.lastResubmittedConfigSequence = sequence →
        c'.doneReprocessingMsgInFlight ∉ c'.closedChannels) := by
  obtain ⟨_,rfl⟩ | ⟨_,hl,hse,_,rfl⟩ | ⟨_,_,rfl⟩ := note_resubmission_cases h
  · exact ⟨hg.marked,hg.opened⟩
  · refine ⟨hg.marked,fun he => ?_⟩
    have hst := hs (hl.trans he)
    unfold Stale at hst
    omega
  have hm := hg.marked
  refine ⟨hm.trans (Nat.le_max_left _ _),fun he => ?_⟩
  exact hg.opened (by simp only at he; omega)

theorem Chain.GateAwaits.step (hg : c.GateAwaits sequence)
    (hp : c.Past sequence) (hw : c.Awaits x sequence re)
    (h : c.processResponse x own re = .ok (c',outcome)) : c'.GateAwaits sequence := by
  have ho := hg.old.step h
  suffices hs : sequence ≤ c'.lastResubmittedConfigSequence ∧
      (c'.lastResubmittedConfigSequence = sequence →
        c'.doneReprocessingMsgInFlight ∉ c'.closedChannels) by
    exact ⟨ho,hs.1,hs.2⟩
  obtain ⟨_,_,_,hnu,_⟩ := process_response_handling h
  have hl := hp.2
  obtain ⟨a,rd,hr,⟨rfl,_⟩ | ⟨ms,ha,rfl,hh⟩⟩ := process_response_cases h
  · exact ⟨hg.marked,hg.opened⟩
  have hga : (c.withArrival a).GateAwaits sequence := ⟨hg.old,hg.marked,hg.opened⟩
  have hst : ∀ m en, ms = .regular m → m.cls = .config →
      x.unmarshalEnvelope m.payload = some en → m.originalSeq = sequence →
      (c.withArrival a).Stale m := by
    intro m en hm hc hpa he
    subst hm
    have hd := delivered_iff.mpr ⟨_,ha,hr,hp.1⟩
    exact (hw m hd ⟨by simp [hpa],.inr hc⟩).2 he
  cases hh with
  | recollecting on | caughtUp on | recollected on => exact absurd (hp.1.symm.trans on) (by simp)
  | badPayload | unsupported | normal | configDiscarded | timeToCut | ordererStarted | unset =>
    exact ⟨hg.marked,hg.opened⟩
  | configRefused _ cs pa _ no => exact hga.note no (hst _ _ rfl cs pa)
  | configResubmitted =>
    have hlt : sequence < re.sequenceNumber := by omega
    exact ⟨hlt.le,fun he => absurd he hlt.ne'⟩
  | configCommitted _ cs pa _ no _ co ue =>
    have hn := hga.note no (hst _ _ rfl cs pa)
    obtain ⟨o,cg,ks,rfl,_⟩ := commit_config_frame co ue
    exact hn

theorem run_gate_awaits (hr : Run (Step x) c es c')
    (hp : c.Past sequence) (hg : c.GateAwaits sequence)
    (hw : ∀ e ∈ es, e.before.Awaits x sequence e.label.response) :
    c'.GateAwaits sequence := by
  refine (hr.invariant_when (I := fun c => c.Past sequence ∧ c.GateAwaits sequence) ?_
    ⟨hp,hg⟩ hw).1.2
  intro e hi hs ha
  exact ⟨hi.1.step hs,hi.2.step hi.1 ha hs⟩

def ConfigRefused (x : Externals) (config : ChannelConfig) (env : Envelope) : Prop :=
  ∀ next keys, x.applyConfig config env = some next → Replica.configKeys x next ≠ .ok keys

theorem commit_config_or_refused (x : Externals) (c : Chain) (env : Envelope) (ts : Time)
    (o : Nat) :
    (∃ d e, c.commitConfigMessage x env ts o = .ok d ∧ d.updatePublicKeys x = .ok e) ∨
      ConfigRefused x c.config env := by
  unfold commitConfigMessage
  cases ha : x.applyConfig c.config env with
  | none =>
    right
    intro next ks hn
    rw [ha] at hn
    cases hn
  | some config =>
    have hke := update_public_keys_replica x
      { c.writeConfigBlocks env ts o with config := config }
    cases hu : updatePublicKeys x
        { c.writeConfigBlocks env ts o with config := config } with
    | ok e => exact .inl ⟨_,e,rfl,hu⟩
    | error er =>
      right
      intro next ks hn hk
      rw [ha] at hn
      cases hn
      simp [hu,hk,Except.map] at hke

theorem process_delivered {d : Chain} {ha : Bytes}
    (hr : c.receive x re = .ok (d,.message (.regular msg) ha))
    (o1 : d.recollectPendingChunks = false) :
    c.processResponse x own re =
      (d.processRegularMessage x own msg re.consensusTimestamp re.sequenceNumber ha).map
        fun o => (o.1,.regular msg o.2) := by
  simp only [processResponse,hr,Chain.handle,o1,Bool.false_eq_true,if_false]
  cases d.processRegularMessage x own msg re.consensusTimestamp re.sequenceNumber ha <;> rfl

theorem delivered_discarded (hd : msg ∈ c.delivered x re)
    (hre : msg.Readable x) (ho : c.Consumed msg) (ow : LocalOutcome) :
    ∃ c', c.processResponse x ow re = .ok (c',.regular msg .discarded) := by
  obtain ⟨d,ha,hr,o⟩ := delivered_iff.mp hd
  obtain ⟨a,rfl⟩ := receive_frame hr
  obtain ⟨hp,hc⟩ := hre
  obtain ⟨en,he⟩ := Option.isSome_iff_exists.mp hp
  have hco : (c.withArrival a).Consumed msg := ho
  refine ⟨c.withArrival a,?_⟩
  rw [process_delivered hr o]
  obtain hc | hc := hc
  · simp [processRegularMessage,he,hc,processNormal,hco,Except.map]
  · simp [processRegularMessage,he,hc,processConfig,hco,Except.map]

theorem note_resubmission_ok (h : msg.originalSeq = c.lastResubmittedConfigSequence →
      c.doneReprocessingMsgInFlight ∉ c.closedChannels) :
    ∃ c', c.noteResubmission msg = .ok c' := by
  unfold noteResubmission reprocessComplete
  by_cases hz : msg.originalSeq = 0
  · exact ⟨c,by simp [hz]⟩
  by_cases hl : msg.originalSeq = c.lastResubmittedConfigSequence ∧
      msg.configSeq = c.config.sequence
  · simp only [if_neg hz,if_pos hl,if_neg (h hl.1)]
    exact ⟨_,rfl⟩
  · simp only [if_neg hz,if_neg hl]
    exact ⟨_,rfl⟩

theorem delivered_committed (hd : msg ∈ c.delivered x rp)
    (hp : x.unmarshalEnvelope msg.payload = some env)
    (hc : msg.cls = .normal ∨ msg.cls = .config) (f : ¬ c.Consumed msg)
    (hb : ¬ c.Stale msg)
    (g : msg.cls = .config → msg.originalSeq = c.lastResubmittedConfigSequence →
      c.doneReprocessingMsgInFlight ∉ c.closedChannels) (ow : LocalOutcome) :
    (∃ c', c.processResponse x ow rp = .ok (c',.regular msg (.committed env))) ∨
      (msg.cls = .config ∧ ConfigRefused x c.config env) := by
  obtain ⟨d,ha,hr,o⟩ := delivered_iff.mp hd
  obtain ⟨a,rfl⟩ := receive_frame hr
  have hf : ¬ (c.withArrival a).Consumed msg := f
  rw [process_delivered hr o]
  obtain hc | hc := hc
  · have hcu : ¬ (c.withArrival a).Stale msg := hb
    left
    simp [processRegularMessage,hp,hc,processNormal,hf,hcu,Except.map]
  obtain ⟨d,hn⟩ := note_resubmission_ok (c := c.withArrival a) (g hc)
  obtain ⟨cl,re,rfl⟩ := note_resubmission_frame hn
  have hcu : ¬ ((c.withArrival a).marked cl re).Stale msg := hb
  obtain ⟨d,e,hco,hu⟩ | href := commit_config_or_refused x
      ((c.withArrival a).marked cl re) env rp.consensusTimestamp
      (((c.withArrival a).marked cl re).newSeq msg)
  · left
    refine ⟨e,?_⟩
    simp only [processRegularMessage,hp,hc,processConfig,hf,if_false,hn,hcu,hco,hu,Except.map]
  · exact .inr ⟨hc,href⟩

theorem committed_recorded (h : c.processResponse x own rp = .ok (c',.regular msg (.committed env)))
    (hn : msg.originalSeq ≠ 0)
    (hf : msg.cls = .normal → ¬ c.blockCutter.LeavesPending c.config.batchSize env) :
    c'.lastOriginalSequenceProcessed = msg.originalSeq := by
  obtain ⟨d,re,_,_,hr,hc⟩ := process_response_handling h
  have hb : d.replica.batch = c.blockCutter := hr.carried.batch
  have hco : d.replica.config = c.config := hr.carried.config
  obtain ⟨_,he,_⟩ | ⟨m,ha,_,hh⟩ := hc
  · cases he
  · exact Replica.Handling.recorded hh hn (by rw [hb,hco]; exact hf)

theorem run_consumed (hu : Run (Step x) c es c') (hp : c.Past sequence)
    (hge : sequence ≤ c.lastOriginalSequenceProcessed) :
    sequence ≤ c'.lastOriginalSequenceProcessed := by
  refine (hu.invariant (I := fun c => c.Past sequence ∧
    sequence ≤ c.lastOriginalSequenceProcessed) ?_ ⟨hp,hge⟩).1.2
  intro c e c' hi hs
  refine ⟨hi.1.step hs,?_⟩
  obtain ⟨d,re,_,hn,hr,hc⟩ := process_response_handling hs
  have hl := hi.1.2
  have hd : sequence ≤ d.replica.lastOriginalSequence := by
    rw [hr.carried.lastOriginalSequence]
    exact hi.2
  obtain ⟨rfl,_⟩ | ⟨ms,ha,_,hh⟩ := hc
  · exact hd
  · exact hh.original_ge hd (by omega)

theorem process_normal_resubmitted {ha : Bytes}
    (h : c.processNormal x own msg env ts seq ha = (c',.resubmitted sent)) :
    sent.originalSeq = seq ∧ sent.cls = .normal ∧
      c'.lastOriginalSequenceProcessed = c.lastOriginalSequenceProcessed := by
  unfold processNormal at h
  split at h
  · cases h
  split at h
  · split at h
    · cases h
    split at h
    · cases h
    · cases h
      exact ⟨rfl,rfl,rfl⟩
  · cases h

theorem resubmitted_state {c₁ c₂ : Chain}
    (o : c₁.processResponse x o₁ r₁ = .ok (c₂,.regular m₀ (.resubmitted sent)))
    (hb : c₁.recollectPendingChunks = false →
      c₁.lastOriginalSequenceProcessed ≤ c₁.lastSequenceProcessed)
    (hf : c₁.GatesOld) :
    sent.originalSeq = r₁.sequenceNumber ∧ sent.cls = m₀.cls ∧
      (m₀.cls = .normal ∨ m₀.cls = .config) ∧ c₂.Past r₁.sequenceNumber ∧
      c₂.lastOriginalSequenceProcessed < r₁.sequenceNumber ∧
      (m₀.cls = .config → c₂.GateAwaits r₁.sequenceNumber) := by
  obtain ⟨hsq,ho⟩ := process_response_position o
  obtain ⟨_,_,_,hn,_⟩ := process_response_handling o
  have hd := hf.step o
  have hl : c₁.recollectPendingChunks = false →
      c₁.lastOriginalSequenceProcessed < r₁.sequenceNumber := by
    intro o1
    have hle := hb o1
    omega
  have hp : r₁.sequenceNumber ≤ c₂.lastSequenceProcessed := by omega
  obtain ⟨a,_,_,⟨_,hou,_⟩ | ⟨ms,ha,_,hh⟩⟩ := process_response_cases o
  · cases hou
  cases hh with
  | normal o1 cs pa ca =>
    obtain ⟨hse,hc,hor⟩ := process_normal_resubmitted ca
    refine ⟨hse,hc.trans cs.symm,.inl cs,⟨ho o1,hp⟩,?_,by simp [cs]⟩
    rw [hor]
    exact hl o1
  | configRefused _ _ _ _ _ _ wh =>
    obtain ⟨he,_⟩ | ⟨he,_⟩ := wh
    · cases he
    · cases he
  | @configResubmitted _ _ d _ _ _ o1 cs pa f no se =>
    obtain ⟨hg,hcl⟩ := note_resubmission_gate no
    obtain ⟨cl,re,rfl⟩ := note_resubmission_frame no
    refine ⟨rfl,cs.symm,.inr cs,⟨ho o1,hp⟩,hl o1,fun _ => ⟨hd,le_refl _,?_⟩⟩
    intro _ hm
    have hs : cl = c₁.closedChannels := by
      obtain hcl | ⟨hcu,_⟩ := hcl
      · exact hcl
      · exact absurd se hcu
    have hle := hf (c₁.doneReprocessingMsgInFlight + 1) (hs ▸ hm)
    omega

/-- Of a message that was sent again, the first current copy is committed if no time-to-cut message
that was due came between, and discarded if one did. Further copies are discarded, unless it was a
normal message that did not fit into the pending batch. -/
theorem resubmission_outcome {topic : Topic} {c₀ c₁ c₂ c : Chain}
    (start : newChain x key genesis ⟨base,[]⟩ = .ok c₀)
    (life : Run (Lives x genesis topic) c₀ ls c₁)
    (earlier : ∀ e ∈ ls, e.before.NamesEarlierIn x e.label)
    (original : c₁.processResponse x own₁ resp₁ = .ok (c₂,.regular m₀ (.resubmitted sent)))
    (run : Run (Step x) c₂ es c)
    (awaits : ∀ e ∈ es, e.before.Awaits x resp₁.sequenceNumber e.label.response)
    (copy : msg ∈ c.delivered x resp) (number : msg.originalSeq = resp₁.sequenceNumber)
    (cls : msg.cls = m₀.cls) (payload : x.unmarshalEnvelope msg.payload = some env)
    (current : ¬ c.Stale msg) (own : LocalOutcome) :
    sent.originalSeq = resp₁.sequenceNumber ∧ sent.cls = m₀.cls ∧
    ((∀ e ∈ es, ¬ e.before.CutsOnTime x e.label.response) →
      (∃ c', c.processResponse x own resp = .ok (c',.regular msg (.committed env))) ∨
        (msg.cls = .config ∧ ConfigRefused x c.config env)) ∧
    ((∃ e ∈ es, e.before.CutsOnTime x e.label.response) →
      ∃ c', c.processResponse x own resp = .ok (c',.regular msg .discarded)) ∧
    (∀ c' fs d, c.processResponse x own resp = .ok (c',.regular msg (.committed env)) →
      (msg.cls = .normal → ¬ c.blockCutter.LeavesPending c.config.batchSize env) →
      Run (Step x) c' fs d → ∀ further resp', further ∈ d.delivered x resp' →
        further.Readable x → further.originalSeq = resp₁.sequenceNumber →
        ∀ own', ∃ d', d.processResponse x own' resp' = .ok (d',.regular further .discarded)) := by
  have ha := life_anchored start life earlier
  have ho := life_gates_old start life
  obtain ⟨hse,hn,hcl,hp,hl,hga⟩ := resubmitted_state original
    (fun o => ha.original ((recollect_until_none c₁).mpr o)) ho
  have hr : msg.cls = .normal ∨ msg.cls = .config := by rw [cls]; exact hcl
  have hz : msg.originalSeq ≠ 0 := by omega
  have hif := run_original_lt run hp awaits
  refine ⟨hse,hn,?_,?_,?_⟩
  · intro hno
    have hlt := hif.mpr ⟨hl,hno⟩
    have hfr : ¬ c.Consumed msg := fun h => absurd h.2 (by omega)
    apply delivered_committed copy payload hr hfr current
    intro hcn hm
    have hg := run_gate_awaits run hp (hga (cls ▸ hcn)) awaits
    exact hg.opened (hm.symm.trans number)
  · intro hc
    obtain ⟨e,he,hc⟩ := hc
    have hge : ¬ c.lastOriginalSequenceProcessed < resp₁.sequenceNumber :=
      fun hlt => (hif.mp hlt).2 e he hc
    exact delivered_discarded copy ⟨by simp [payload],hr⟩ ⟨hz,by omega⟩ own
  · intro c' fs d hco hf r' further resp' hd hre hfu own'
    have hrc := committed_recorded hco hz hf
    have hp' := (run.invariant (fun _ _ _ hi hs => hi.step hs) hp).1.step hco
    have hge := run_consumed r' hp' (by omega)
    exact delivered_discarded hd hre ⟨by omega,by omega⟩ own'

def resentNormal : Codec.SignedMessage :=
  ⟨Codec.operatorA,.regular ⟨Codec.envelope ⟨[1],[]⟩,1,.normal,1⟩,
    0xed100ccdf4bb2431df34f94f61c776190a4b911ad29280b61ad1fe7e57ec4e8b,
    0x770ff397739ec9e8dfaba26ab571b4e30cd8d12ed3ad14d94fbe0cc34e7d4869,
    0xf526924083b5ced780ae43c22de03dc46e8447dc185f9dc3f30ca9290e921202⟩
def cutFirst : Codec.SignedMessage :=
  ⟨Codec.operatorA,.timeToCut (.blockNumber 1),
    0x8f0a77fe70e16251b967b6822a2ba7c0a6d392abbc815aa47deb703466caf79f,
    0x073959db0217972ed2954408b27dcdab34a29002fcf39a79dca1a070dfff3b45,
    0xa3b67baaa9203eaac2532d582b377ec712616d6330eddc2563642d926a4ca800⟩
def resentMessage : HcsMessageRegular := ⟨Codec.envelope ⟨[1],[]⟩,1,.normal,1⟩
def resentExternals : Externals := Codec.externals
  (Codec.knownOf [staleNormal,currentNormal,resentNormal,cutFirst] [])
def resentStart : Except ParseConfigError Chain :=
  newChain resentExternals Codec.operatorA
    (Codec.channelConfig 1 ⟨10,1000⟩ [Codec.operatorA] ['3','0','s']) ⟨1,[]⟩
def resentChain : Chain := Outcomes.okValue resentStart (by decide +kernel)

def sentAgain : Chain × Outcome := Outcomes.okValue
  (resentChain.processResponse resentExternals resends (staleNormal.respond 1)) (by decide +kernel)
def sentAgainRun : Chain × List (Transition Chain Event) := Outcomes.okValue
  (sentAgain.1.processMessages resentExternals [(currentNormal.respond 2,idle)])
  (by decide +kernel)

theorem sent_again_step :
    resentChain.processResponse resentExternals resends (staleNormal.respond 1) =
      .ok (sentAgain.1,.regular ⟨Codec.envelope ⟨[1],[]⟩,0,.normal,0⟩
        (.resubmitted resentMessage)) := by
  have ho : sentAgain.2 = .regular ⟨Codec.envelope ⟨[1],[]⟩,0,.normal,0⟩
      (.resubmitted resentMessage) := by decide +kernel
  have hc : resentChain.processResponse resentExternals resends (staleNormal.respond 1) =
      .ok sentAgain := by
    exact ok_value_eq _
  rw [hc,← ho]

theorem resubmission_outcome_committed :
    ∃ c', sentAgainRun.1.processResponse resentExternals idle (resentNormal.respond 3) =
      .ok (c',.regular resentMessage (.committed ⟨[1],[]⟩)) := by
  have hst : resentStart = .ok resentChain := ok_value_eq _
  have hr : Run (Step resentExternals) sentAgain.1 sentAgainRun.2 sentAgainRun.1 := by
    exact process_messages_value _
  have hl : Run (Lives resentExternals
      (Codec.channelConfig 1 ⟨10,1000⟩ [Codec.operatorA] ['3','0','s'])
      ⟨[],.nil,by simp⟩) resentChain [] resentChain := .nil
  have hcy : resentMessage ∈
      sentAgainRun.1.delivered resentExternals (resentNormal.respond 3) := by decide +kernel
  have hp : resentExternals.unmarshalEnvelope resentMessage.payload = some ⟨[1],[]⟩ := by
    decide +kernel
  obtain ⟨_,_,hco,_⟩ := resubmission_outcome hst hl (by simp) sent_again_step hr
    (by decide +kernel) hcy (by decide +kernel) rfl hp (by decide +kernel) idle
  obtain h | ⟨hc,_⟩ := hco (by decide +kernel)
  · exact h
  · exact absurd hc (by decide)

def cutRun : Chain × List (Transition Chain Event) := Outcomes.okValue
  (resentChain.processMessages resentExternals
    [(staleNormal.respond 1,resends),(currentNormal.respond 2,idle),(cutFirst.respond 3,idle),
      (resentNormal.respond 4,idle)]) (by decide +kernel)

/-- A block is cut on time between a message and its resubmission, which is then discarded. -/
theorem cut_loses_resubmission : resentStart = .ok resentChain ∧
    Run (Step resentExternals) resentChain cutRun.2 cutRun.1 ∧
    cutRun.2.map (fun e => e.label.outcome) =
      [.regular ⟨Codec.envelope ⟨[1],[]⟩,0,.normal,0⟩ (.resubmitted resentMessage),
        .regular ⟨Codec.envelope ⟨[2],[]⟩,1,.normal,0⟩ (.committed ⟨[2],[]⟩),
        .timeToCut (.blockNumber 1) true,.regular resentMessage .discarded] := by
  refine ⟨ok_value_eq _,?_,by decide +kernel⟩
  exact process_messages_value _

end PluggableHcs.Hcs
