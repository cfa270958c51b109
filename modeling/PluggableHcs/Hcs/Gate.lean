import PluggableHcs.Hcs.Keys

namespace PluggableHcs.Hcs
open Runs List

def Chain.Resubmits (x : Externals) (own : LocalOutcome) (c : Chain) (resp : Response) : Prop :=
  match c.receive x resp with
  | .ok (d,.message (.regular msg) _) =>
    d.recollectPendingChunks = false ∧ msg.cls = .config ∧
      (x.unmarshalEnvelope msg.payload).isSome ∧ ¬ d.Consumed msg ∧ d.Stale msg ∧
      own.processConfigMsg.isSome ∧ own.enqueue.isSome
  | _ => False

instance (x : Externals) (own : LocalOutcome) (c : Chain) (resp : Response) :
    Decidable (c.Resubmits x own resp) := by
  unfold Chain.Resubmits
  split <;> infer_instance

theorem note_resubmission_cases {c c' : Chain} (h : c.noteResubmission msg = .ok c') :
    (msg.originalSeq = 0 ∧ c' = c) ∨
    (msg.originalSeq ≠ 0 ∧ msg.originalSeq = c.lastResubmittedConfigSequence ∧
      msg.configSeq = c.config.sequence ∧ c.doneReprocessingMsgInFlight ∉ c.closedChannels ∧
      c' = { c with closedChannels := c.doneReprocessingMsgInFlight :: c.closedChannels }) ∨
    (msg.originalSeq ≠ 0 ∧ ¬ (msg.originalSeq = c.lastResubmittedConfigSequence ∧
        msg.configSeq = c.config.sequence) ∧
      c' = { c with
        lastResubmittedConfigSequence := max c.lastResubmittedConfigSequence msg.originalSeq }) := by
  unfold Chain.noteResubmission at h
  split at h
  · rename_i hz
    exact .inl ⟨hz,(Except.ok.inj h).symm⟩
  rename_i hz
  by_cases hl : msg.originalSeq = c.lastResubmittedConfigSequence ∧
      msg.configSeq = c.config.sequence
  · simp only [if_pos hl,Chain.reprocessComplete] at h
    by_cases hcl : c.doneReprocessingMsgInFlight ∈ c.closedChannels
    · simp [hcl] at h
    simp only [if_neg hcl] at h
    refine .inr (.inl ⟨hz,hl.1,hl.2,hcl,?_⟩)
    rw [← Except.ok.inj h,hl.1,Nat.max_self]
  · simp only [if_neg hl] at h
    exact .inr (.inr ⟨hz,hl,(Except.ok.inj h).symm⟩)

theorem note_resubmission_gate {c c' : Chain} (h : c.noteResubmission msg = .ok c') :
    c'.doneReprocessingMsgInFlight = c.doneReprocessingMsgInFlight ∧
      (c'.closedChannels = c.closedChannels ∨ (¬ c.Stale msg ∧
          c'.closedChannels = c.doneReprocessingMsgInFlight :: c.closedChannels)) := by
  obtain ⟨_,rfl⟩ | ⟨_,_,hs,_,rfl⟩ | ⟨_,_,rfl⟩ := note_resubmission_cases h
  · exact ⟨rfl,.inl rfl⟩
  · refine ⟨rfl,.inr ⟨?_,rfl⟩⟩
    unfold Chain.Stale
    omega
  · exact ⟨rfl,.inl rfl⟩

theorem process_response_gate {c c' : Chain} (h : c.processResponse x own rp = .ok (c',outcome)) :
    (c.Resubmits x own rp ∧ c'.doneReprocessingMsgInFlight = c.doneReprocessingMsgInFlight + 1 ∧
      c'.closedChannels = c.closedChannels) ∨
    (¬ c.Resubmits x own rp ∧ c'.doneReprocessingMsgInFlight = c.doneReprocessingMsgInFlight ∧
      (c'.closedChannels = c.closedChannels ∨
        c'.closedChannels = c.doneReprocessingMsgInFlight :: c.closedChannels)) := by
  obtain ⟨a,re,hr,⟨rfl,_,hno⟩ | ⟨ms,ha,rfl,hh⟩⟩ := process_response_cases h
  · refine .inr ⟨?_,rfl,.inl rfl⟩
    unfold Chain.Resubmits
    rw [hr]
    cases re with
    | message ms ha => exact absurd rfl (hno ms ha)
    | undecodable | refused | incomplete | unreadable => simp
  unfold Chain.Resubmits
  rw [hr]
  cases hh with
  | recollecting on =>
    refine .inr ⟨?_,rfl,.inl rfl⟩
    cases ms <;> simp [on]
  | caughtUp on =>
    refine .inr ⟨?_,rfl,.inr rfl⟩
    cases ms <;> simp [on]
  | recollected on =>
    refine .inr ⟨?_,rfl,.inl rfl⟩
    cases ms <;> simp [on]
  | badPayload _ hn => exact .inr ⟨by simp [hn],rfl,.inl rfl⟩
  | unsupported _ cs | normal _ cs => exact .inr ⟨by simp [cs],rfl,.inl rfl⟩
  | configDiscarded _ _ co => exact .inr ⟨by simp [co],rfl,.inl rfl⟩
  | configRefused _ _ _ _ no se wh =>
    obtain ⟨hg,hcl⟩ := note_resubmission_gate no
    refine .inr ⟨?_,hg,hcl.imp_right And.right⟩
    obtain ⟨_,hp⟩ | ⟨_,hq⟩ := wh
    · simp [hp]
    · simp [hq]
  | configResubmitted o1 cs pa f no se va en =>
    obtain ⟨hg,hcl⟩ := note_resubmission_gate no
    refine .inl ⟨⟨o1,cs,by simp [pa],f,se,by simp [va],by simp [en]⟩,congrArg (· + 1) hg,?_⟩
    obtain hcl | ⟨hc,_⟩ := hcl
    · exact hcl
    · exact absurd se hc
  | configCommitted _ _ _ _ no cu ct ue =>
    obtain ⟨hg,hcl⟩ := note_resubmission_gate no
    obtain ⟨o,cg,ks,rfl,_⟩ := commit_config_frame ct ue
    exact .inr ⟨by simp [cu],hg,hcl.imp_right And.right⟩
  | timeToCut | ordererStarted | unset => exact .inr ⟨by simp,rfl,.inl rfl⟩

/-- A chain and the calls of WaitReady on it. The calls that have not returned are kept as the
gate channels they have fetched. -/
structure Ingress where
  channelID : String
  chain : Chain
  started : Bool
  halted : Bool
  waiting : List Nat

inductive IngressMove
  | start
  | halt
  | process (resp : Response) (own : LocalOutcome)
  | waitReady
  | wake (channel : Nat)

def Ingress.waitReady (s : Ingress) : Except String Nat :=
  if s.started then .ok s.chain.doneReprocessingMsgInFlight
  else .error "consenter has not completed bootstraping; try again later"

def Ingress.returned (s : Ingress) (channel : Nat) : Option (Except String Unit) :=
  if s.halted then
    some (.error s!"[channel: {s.channelID}] consenter for this channel has been halted")
  else if channel ∈ s.chain.closedChannels then some (.ok ())
  else none

/-- The loop handles messages once the chain has started, and maybe after a halt, since it selects
among what is ready. -/
def Ingress.move (x : Externals) (s : Ingress) : IngressMove → Option Ingress
  | .start => if s.started then none else some { s with started := true }
  | .halt => if s.started then some { s with halted := true } else none
  | .process resp own =>
    if s.started then
      match s.chain.processResponse x own resp with
      | .error _ => none
      | .ok (chain,_) => some { s with chain := chain }
    else none
  | .waitReady =>
    match s.waitReady with
    | .error _ => some s
    | .ok channel => some { s with waiting := channel :: s.waiting }
  | .wake channel =>
    if channel ∈ s.waiting ∧ (s.returned channel).isSome then
      some { s with waiting := s.waiting.erase channel }
    else none

def Ingress.Step (x : Externals) (s : Ingress) (m : IngressMove) (s' : Ingress) : Prop :=
  s.move x m = some s'

/-- A call that still waits, waits on the gate that the chain will close next. -/
def Ingress.NoneStranded (s : Ingress) : Prop :=
  ∀ channel ∈ s.waiting, s.returned channel = none → channel = s.chain.doneReprocessingMsgInFlight
deriving Decidable

def Ingress.Strands (x : Externals) (s : Ingress) : IngressMove → Prop
  | .process resp own =>
    s.chain.Resubmits x own resp ∧ s.chain.doneReprocessingMsgInFlight ∈ s.waiting ∧
      s.returned s.chain.doneReprocessingMsgInFlight = none
  | _ => False

open Ingress (Step Strands move returned)

instance (x : Externals) (s : Ingress) (m : IngressMove) : Decidable (s.Strands x m) := by
  unfold Strands
  split <;> infer_instance

theorem returned_eq_none_iff (s : Ingress) (ch : Nat) :
    s.returned ch = none ↔ s.halted = false ∧ ch ∉ s.chain.closedChannels := by
  unfold returned
  cases s.halted <;> simp

theorem process_none_stranded {s : Ingress}
    (h : s.chain.processResponse x own re = .ok (chain,outcome)) (hs : s.NoneStranded) :
    { s with chain := chain }.NoneStranded ↔ ¬ s.Strands x (.process re own) := by
  obtain ⟨hre,hg,hcl⟩ | ⟨hre,hg,hcl⟩ := process_response_gate h
  · simp only [Strands,hre,true_and]
    constructor
    · intro h' hw
      obtain ⟨hm,hr⟩ := hw
      have heq := h' _ hm (by
        rw [returned_eq_none_iff] at hr ⊢
        simpa [hcl] using hr)
      simp only [hg] at heq
      omega
    · intro h' ch hm hr
      rw [returned_eq_none_iff] at hr
      simp only [hcl] at hr
      have hr' := (returned_eq_none_iff s ch).mpr hr
      obtain rfl := hs ch hm hr'
      exact absurd ⟨hm,hr'⟩ h'
  · simp only [Strands,hre,false_and,not_false_eq_true,iff_true]
    intro ch hm hr
    rw [returned_eq_none_iff] at hr
    have ho : ch ∉ s.chain.closedChannels := by
      obtain hc | hc := hcl
      · simpa [hc] using hr.2
      have h' := hr.2
      simp only [hc,mem_cons,not_or] at h'
      exact h'.2
    simp only [hg]
    exact hs ch hm ((returned_eq_none_iff s ch).mpr ⟨hr.1,ho⟩)

theorem move_none_stranded {s s' : Ingress} (h : s.move x m = some s') (hs : s.NoneStranded) :
    s'.NoneStranded ↔ ¬ s.Strands x m := by
  cases m with
  | start =>
    simp only [move] at h
    split at h
    · cases h
    · cases h
      exact iff_of_true hs (by simp [Strands])
  | halt =>
    simp only [move] at h
    split at h
    · cases h
      refine iff_of_true ?_ (by simp [Strands])
      intro cl _ hr
      simp [returned] at hr
    · cases h
  | process re o =>
    simp only [move] at h
    split at h
    · cases hc : s.chain.processResponse x o re with
      | error e => simp [hc] at h
      | ok ou =>
        simp only [hc] at h
        cases h
        exact process_none_stranded hc hs
    · cases h
  | waitReady =>
    refine iff_of_true ?_ (by simp [Strands])
    simp only [move,Ingress.waitReady] at h
    split at h
    · cases h
      exact hs
    rename_i cl hw
    cases h
    intro ch hm hr
    obtain rfl | hm := mem_cons.mp hm
    · split at hw
      · cases hw
        rfl
      · cases hw
    · exact hs ch hm hr
  | wake cl =>
    refine iff_of_true ?_ (by simp [Strands])
    simp only [move] at h
    split at h
    · cases h
      intro ch hm hr
      exact hs ch (mem_of_mem_erase hm) hr
    · cases h

theorem Ingress.NoneStranded.released {s : Ingress} (h : s.NoneStranded)
    (hc : s.chain.reprocessComplete = .ok c) :
    ∀ ch ∈ s.waiting, ({ s with chain := c }.returned ch).isSome := by
  intro ch hm
  unfold Chain.reprocessComplete at hc
  split at hc
  · cases hc
  cases hc
  rw [Option.isSome_iff_ne_none]
  intro hr
  rw [returned_eq_none_iff] at hr
  simp only [mem_cons,not_or] at hr
  exact hr.2.1 (h ch hm ((returned_eq_none_iff s ch).mpr ⟨hr.1,hr.2.2⟩))

/-- In exactly the runs in which no config message is sent again while a call waits on the current
gate, every waiting call is on it and returns with the next completion. -/
theorem none_stranded_iff {c : Chain} {s : Ingress}
    (run : Run (Step x) ⟨channelID,c,false,false,[]⟩ es s) :
    ((∀ e ∈ es, e.after.NoneStranded) ↔ ∀ e ∈ es, ¬ e.before.Strands x e.label) ∧
      ∀ e ∈ es, e.after.NoneStranded → ∀ c', e.after.chain.reprocessComplete = .ok c' →
        ∀ channel ∈ e.after.waiting, ({ e.after with chain := c' }.returned channel).isSome := by
  constructor
  · refine run.stays_iff (I := fun _ => True) (fun _ _ _ _ _ => trivial) ?_ trivial ?_
    · intro e _ hs hst
      exact move_none_stranded hst hs
    · intro channel hm
      cases hm
  · intro e _ hs c' ca
    exact hs.released ca

def firstUpdate : Codec.SignedMessage :=
  ⟨Codec.operatorA,.regular ⟨Codec.envelope ⟨[1],[]⟩,0,.config,0⟩,
    0x80546eac3dd71aaef603bc65f2c5e078cf0af9f0ddb33adf0448289e570946c7,
    0x3c28f5f448c6eb86f8a1c3cb9949dbf27341b512cbd769b8be21220265db392c,
    0xf92890446b7902208653bc70f2716021c9d8bf84175cd202b60042014218bb0b⟩
def secondUpdate : Codec.SignedMessage :=
  ⟨Codec.operatorA,.regular ⟨Codec.envelope ⟨[2],[]⟩,0,.config,0⟩,
    0x9a4db42c73b4bafaffc86bc28abbf986502862d2ebbe73f43ffe4b6ee4beb3a0,
    0x6ea0b8dad4cb8ab8e672093f601b69b80b12f18dbb050a9687b00873dff1596e,
    0x340981c7c4a969c9bed9c344c128f6673b8ac430b43f41e6b1b8906f2306b90f⟩

def updateExternals : Externals := Codec.externals (Codec.knownOf [firstUpdate,secondUpdate] [])
def updateStart : Except ParseConfigError Chain :=
  newChain updateExternals Codec.operatorA
    (Codec.channelConfig 1 ⟨10,1000⟩ [Codec.operatorA] ['3','0','s']) genesisLedger
def updateChain : Chain := Outcomes.okValue updateStart (by decide +kernel)
def ingress : Ingress := ⟨"channel",updateChain,false,false,[]⟩

def resendsFirst : LocalOutcome := ⟨none,some (⟨[3],[]⟩,1),some (Codec.bytesOfNat 32
  0x65ec916cca923a344b73b42bc2538ddc72d209e223b8a669788fec1170780cb2)⟩
def resendsSecond : LocalOutcome := ⟨none,some (⟨[4],[]⟩,1),some (Codec.bytesOfNat 32
  0xae2715fc9e5c4fb504d343d3b33660b19f3d2576f1442a2f8b80caf775151d6a)⟩

def waitRun : Ingress × List (Transition Ingress IngressMove) :=
  (trace (move updateExternals) ingress
    [.start,.process (firstUpdate.respond 1) resendsFirst,.waitReady]).get (by decide +kernel)

theorem none_stranded_wait : Run (Step updateExternals) ingress waitRun.2 waitRun.1 ∧
    ∀ e ∈ waitRun.2, e.after.NoneStranded := by
  have hr : Run (Step updateExternals) ingress waitRun.2 waitRun.1 := by
    exact trace_get_run _
  exact ⟨hr,(none_stranded_iff hr).1.mpr (by decide +kernel)⟩

def strandedRun : Ingress × List (Transition Ingress IngressMove) :=
  (trace (move updateExternals) ingress
    [.start,.process (firstUpdate.respond 1) resendsFirst,.waitReady,
      .process (secondUpdate.respond 2) resendsSecond]).get (by decide +kernel)

/-- A call waits for the first update, and the gate is replaced when the second is sent again:
nothing closes the old channel. -/
theorem second_update_strands : updateStart = .ok updateChain ∧
    Run (Step updateExternals) ingress strandedRun.2 strandedRun.1 ∧
    strandedRun.1.waiting = [1] ∧ strandedRun.1.returned 1 = none ∧
    strandedRun.1.chain.doneReprocessingMsgInFlight = 2 := by
  refine ⟨Outcomes.ok_value_eq _,?_,by decide +kernel⟩
  exact trace_get_run _

end PluggableHcs.Hcs
