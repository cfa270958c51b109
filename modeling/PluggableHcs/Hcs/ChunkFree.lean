import PluggableHcs.Hcs.Keys
import PluggableHcs.Hcs.ReplicaSteps

namespace PluggableHcs.Hcs

def SharedBlock.Restartable (b : SharedBlock) : Prop := b.chunkFree.nanos ≤ b.persisted.nanos

namespace Replica

def Restartable (r : Replica) : Prop := ∀ b ∈ r.blocks, b.Restartable

structure Timely (r : Replica) : Prop where
  chunkFree : r.chunkFree.nanos ≤ r.lastTimestamp.nanos
  lastOrdered : r.lastOrdered.nanos ≤ r.lastTimestamp.nanos

def LeavesOut (r : Replica) (msg : HcsMessageRegular) (env : Envelope) : Prop :=
  (msg.cls = .normal ∧ r.batch.LeavesOut r.config.batchSize env) ∨
    (msg.cls = .config ∧ r.batch.pendingBatch ≠ [])

/-- The message is committed, and the batch it ends was ordered before the chunk-free point. -/
structure CutsBehind (x : Externals) (r : Replica) (msg : HcsMessageRegular) (env : Envelope) :
    Prop where
  off : r.recollectUntil = none
  payload : x.unmarshalEnvelope msg.payload = some env
  fresh : ¬ r.Consumed msg
  current : ¬ r.Stale msg
  out : r.LeavesOut msg env
  behind : r.lastOrdered.nanos < r.chunkFree.nanos

theorem restartable_cut (r : Replica) (en : List Envelope) (ic : Bool) (ts : Time) :
    (r.cutBlock en ic ts).Restartable ↔ r.Restartable ∧ r.chunkFree.nanos ≤ ts.nanos := by
  simp [Restartable,cutBlock,SharedBlock.Restartable,or_imp,forall_and]

theorem restartable_cut_pending (r : Replica) :
    r.cutPending.Restartable ↔ r.Restartable ∧ r.chunkFree.nanos ≤ r.lastOrdered.nanos :=
  restartable_cut r _ _ _

variable {r : Replica}

theorem commit_normal_restartable {ha : Bytes} (hg : r.Restartable)
    (hts : r.chunkFree.nanos ≤ ts.nanos) :
    (r.commitNormal env ts o ha).Restartable ↔
      (r.batch.LeavesOut r.config.batchSize env → r.chunkFree.nanos ≤ r.lastOrdered.nanos) := by
  obtain ⟨h,heq⟩ | ⟨h,heq⟩ | ⟨h,heq⟩ | ⟨h,heq⟩ := r.commit_normal_cases env ts o ha
  · rw [heq]
    have ho := joins_not_leaves_out h
    simp only [ho,false_imp_iff,iff_true]
    exact hg
  · rw [heq]
    have hc : r.cutPending.Restartable ↔ _ := r.restartable_cut_pending
    simp only [hg,true_and] at hc
    have ho : r.batch.LeavesOut r.config.batchSize env := .inl h
    simp only [ho,true_imp_iff]
    exact hc
  · rw [heq,restartable_cut]
    have hc : r.cutPending.Restartable ↔ _ := r.restartable_cut_pending
    simp only [hg,true_and] at hc
    have ho : r.batch.LeavesOut r.config.batchSize env := .inr h
    simp only [ho,true_imp_iff]
    refine Iff.trans ?_ hc
    exact and_iff_left hts
  · rw [heq]
    have ho := cuts_one_not_leaves_out h
    simp only [ho,false_imp_iff,iff_true]
    exact ((r.record ts o).restartable_cut _ _ _).mpr ⟨hg,hts⟩

variable {r' : Replica}

theorem commit_config_restartable (hg : r.Restartable)
    (hts : r.chunkFree.nanos ≤ ts.nanos) (h : r.commitConfig x env ts o = .ok r') :
    r'.Restartable ↔ (r.batch.pendingBatch ≠ [] → r.chunkFree.nanos ≤ r.lastOrdered.nanos) := by
  obtain ⟨co,rfl⟩ := commit_config_cases h
  by_cases hp : r.batch.pendingBatch = []
  · simp only [hp,if_true,ne_eq,not_true,false_imp_iff,iff_true]
    exact (restartable_cut _ _ _ _).mpr ⟨hg,hts⟩
  simp only [hp,if_false,ne_eq,not_false_eq_true,true_imp_iff]
  refine Iff.trans (restartable_cut { r.cutPending with lastOriginalSequence := o }
    _ _ _) ?_
  refine Iff.trans (and_iff_left hts) ?_
  refine Iff.trans r.restartable_cut_pending ?_
  exact and_iff_right hg

theorem Handling.restartable {ha : Bytes} (h : Handling x r ts seq ha msg r' effect)
    (hg : r.Restartable) (hts : r.chunkFree.nanos ≤ ts.nanos) :
    r'.Restartable ↔ ∀ m env, msg = .regular m → ¬ r.CutsBehind x m env := by
  cases h with
  | recollecting on | recollected on =>
    refine iff_of_true hg ?_
    intro m env _ hc
    rw [hc.off] at on
    cases on
  | passed o ps =>
    refine iff_of_true hg ?_
    intro m env hm hc
    subst hm
    obtain ⟨-,hp,hf,hcu,ho,-⟩ := hc
    cases ps with
    | badPayload hn => simp [hn] at hp
    | unsupported _ cs => simp [LeavesOut,cs] at ho
    | discarded _ _ co => exact hf co
    | stale _ _ _ stale => exact hcu stale
  | @normal env m o pa cs f cu =>
    rw [commit_normal_restartable hg hts]
    constructor
    · intro h m' e' hm hc
      cases hm
      obtain rfl := Option.some.inj (pa.symm.trans hc.payload)
      obtain ⟨_,ho⟩ | ⟨hcl,_⟩ := hc.out
      · exact absurd hc.behind (not_lt.mpr (h ho))
      · simp [cs] at hcl
    · intro h ho
      by_contra hlt
      exact h m env rfl ⟨o,pa,f,cu,.inl ⟨cs,ho⟩,not_le.mp hlt⟩
  | @config env m _ o pa cs f cu ct =>
    rw [commit_config_restartable hg hts ct]
    constructor
    · intro h m' e' hm hc
      cases hm
      obtain ⟨hcl,_⟩ | ⟨_,ho⟩ := hc.out
      · simp [cs] at hcl
      · exact absurd hc.behind (not_lt.mpr (h ho))
    · intro h ho
      by_contra hlt
      exact h m env rfl ⟨o,pa,f,cu,.inr ⟨cs,ho⟩,not_le.mp hlt⟩
  | cut =>
    refine iff_of_true ?_ ?_
    · exact (restartable_cut { r with lastOriginalSequence := seq } _ _ _).mpr ⟨hg,hts⟩
    · intro m env hm
      cases hm
  | started =>
    refine iff_of_true ?_ ?_
    · obtain ⟨next,heq⟩ := r.orderer_started_cases _
      rw [heq]
      exact hg
    · intro m env hm
      cases hm

theorem Receiving.timely (h : Receiving x accepts r re d received)
    (ht : r.Timely) (hts : r.lastTimestamp.nanos < re.consensusTimestamp.nanos) : d.Timely := by
  have hl := h.position.1
  have ho := h.carried.lastOrdered
  constructor
  · rw [hl]
    obtain ⟨hf,_⟩ | ⟨hf,_⟩ := h.chunk_free
    · rw [hf]
      exact ht.chunkFree.trans hts.le
    · rw [hf]
  · rw [hl,ho]
    exact ht.lastOrdered.trans hts.le

theorem step_timely (h : r.step x accepts rp = .ok (r',effect)) (ht : r.Timely) : r'.Timely := by
  obtain ⟨d,re,hre,hc⟩ := step_cases h
  obtain ⟨_,hts,hr⟩ := receive_cases hre
  have hd := hr.timely ht hts
  obtain ⟨rfl,_⟩ | ⟨ms,ha,_,hh⟩ := hc
  · exact hd
  have hp := hh.placed
  constructor
  · rw [hp.chunkFree,hp.lastTimestamp]
    exact hd.chunkFree
  · rw [hp.lastTimestamp]
    obtain ho | ho := hh.last_ordered
    · rw [ho]
      exact hd.lastOrdered
    · rw [ho,hr.position.1]

theorem step_restartable (h : r.step x accepts rp = .ok (r',effect))
    (ht : r.Timely) (hg : r.Restartable) :
    r'.Restartable ↔ ∀ d ms hs env, r.receive x accepts rp = .ok (d,.message (.regular ms) hs) →
        ¬ d.CutsBehind x ms env := by
  obtain ⟨d,re,hr,hca⟩ := step_cases h
  obtain ⟨_,hts,hre⟩ := receive_cases hr
  have hgd : d.Restartable := by
    unfold Restartable
    rw [hre.carried.blocks]
    exact hg
  have hd := hre.timely ht hts
  obtain ⟨rfl,_,hno⟩ | ⟨ms,hs,rfl,hh⟩ := hca
  · refine iff_of_true hgd ?_
    intro d ms hs env hr'
    rw [hr] at hr'
    cases hr'
    exact absurd rfl (hno _ _)
  · have hc := hd.chunkFree
    rw [hre.position.1] at hc
    rw [hh.restartable hgd hc]
    constructor
    · intro ha d' m h' env hr'
      rw [hr] at hr'
      cases hr'
      exact ha m env rfl
    · intro ha m env hm
      subst hm
      exact ha d m hs env hr

end Replica

open Runs

def Block.Restartable (b : Block) : Prop :=
  b.metadata.lastChunkFreeConsensusTimestampPersisted.nanos ≤
    b.metadata.lastConsensusTimestampPersisted.nanos
deriving Decidable

/-- The message is committed and ends a batch without being in it, and the last message of that
batch was ordered before the chunk-free point. -/
def Chain.EndsBehind (d : Chain) (msg : HcsMessageRegular) (env : Envelope) : Prop :=
  d.recollectPendingChunks = false ∧ ¬ d.Consumed msg ∧ ¬ d.Stale msg ∧
    ((msg.cls = .normal ∧ d.blockCutter.LeavesOut d.config.batchSize env) ∨
      (msg.cls = .config ∧ d.blockCutter.pendingBatch ≠ [])) ∧
    d.lastOrdereredConsensusTimestamp.nanos < d.lastChunkFreeConsensusTimestamp.nanos
deriving Decidable

/-- The response completes such a message. -/
def Chain.CutsBehind (x : Externals) (c : Chain) (resp : Response) : Prop :=
  match c.receive x resp with
  | .ok (d,.message (.regular msg) _) => ∃ env ∈ x.unmarshalEnvelope msg.payload,
      d.EndsBehind msg env
  | _ => False

instance (x : Externals) (c : Chain) (resp : Response) : Decidable (c.CutsBehind x resp) :=
  decidable_of_iff ((match c.receive x resp with
    | .ok (d,.message (.regular msg) _) => decide (∃ env ∈ x.unmarshalEnvelope msg.payload,
        d.EndsBehind msg env)
    | _ => false) = true) (by unfold Chain.CutsBehind; split <;> simp)

theorem restartable_replica (c : Chain) :
    c.replica.Restartable ↔ ∀ b ∈ c.ledger.blocks, b.Restartable := by
  simp [Replica.Restartable,Chain.replica,Block.shared,SharedBlock.Restartable,Block.Restartable]

theorem cuts_behind_replica (d : Chain) (ms : HcsMessageRegular) (en : Envelope)
    (hp : x.unmarshalEnvelope ms.payload = some en) :
    d.replica.CutsBehind x ms en ↔ d.EndsBehind ms en := by
  rw [Chain.EndsBehind,← recollect_until_none]
  constructor
  · intro h
    exact ⟨h.off,h.fresh,h.current,h.out,h.behind⟩
  · intro h
    obtain ⟨o,f,cu,ou,be⟩ := h
    exact ⟨o,hp,f,cu,ou,be⟩

theorem not_cuts_behind_iff (x : Externals) (c : Chain) (re : Response) :
    ¬ c.CutsBehind x re ↔ ∀ d ms ha env, c.replica.receive x (fun _ => verify x c.publicKeys) re =
        .ok (d,.message (.regular ms) ha) → ¬ d.CutsBehind x ms env := by
  rw [← own_receive x c re]
  unfold Chain.CutsBehind
  cases hr : c.receive x re with
  | error e => simp [Except.map]
  | ok o =>
    obtain ⟨d,rd⟩ := o
    cases rd with
    | undecodable | refused | incomplete | unreadable => simp [Except.map]
    | message ms ha =>
      cases ms with
      | timeToCut | ordererStarted | unset => simp [Except.map]
      | regular ms =>
        simp only [Except.map,Except.ok.injEq,Prod.mk.injEq,Received.message.injEq,
          HcsMessage.regular.injEq]
        cases hp : x.unmarshalEnvelope ms.payload with
        | none =>
          simp only [Option.not_mem_none,false_and,exists_false,not_false_eq_true,true_iff]
          intro d' m h' env h hc
          obtain ⟨rfl,rfl,rfl⟩ := h
          rw [hc.payload] at hp
          cases hp
        | some env =>
          simp only [Option.mem_some_iff,exists_eq_left',← cuts_behind_replica d ms env hp]
          constructor
          · intro h d' m h' e' heq hc
            obtain ⟨rfl,rfl,rfl⟩ := heq
            rw [hc.payload] at hp
            cases hp
            exact h hc
          · intro h
            exact h _ _ _ env ⟨rfl,rfl,rfl⟩

theorem new_chain_timely (h : newChain x key config l = .ok c) : c.replica.Timely := by
  obtain ⟨_,_,_,_,_,_,rfl⟩ := new_chain_cases h
  exact ⟨le_refl _,Time.lower _⟩

/-- Every block is written with a chunk-free point that is not after the point it persists,
in exactly the runs in which no message cuts a batch behind the chunk-free point. -/
theorem blocks_restartable_iff {c₀ c : Chain} (start : newChain x key config ledger = .ok c₀)
    (good : ∀ b ∈ ledger.blocks, b.Restartable) (run : Run (Chain.Step x) c₀ es c) :
    (∀ e ∈ es, ∀ b ∈ e.after.ledger.blocks, b.Restartable) ↔
      ∀ e ∈ es, ¬ e.before.CutsBehind x e.label.response := by
  have hl : c₀.ledger = ledger := by
    obtain ⟨_,_,_,_,_,_,rfl⟩ := new_chain_cases start
    rfl
  refine run.stays_iff (I := fun c => c.replica.Timely)
    (G := fun c => ∀ b ∈ c.ledger.blocks, b.Restartable) ?_ ?_ (new_chain_timely start)
    (by rw [hl]; exact good)
  · intro c e c' ht hs
    exact Replica.step_timely (own_step hs) ht
  · intro e ht hg hs
    have hr := own_step hs
    rw [← restartable_replica] at hg ⊢
    rw [Replica.step_restartable hr ht hg,not_cuts_behind_iff]

def firstNormal : Codec.SignedMessage :=
  ⟨Codec.operatorA,.regular ⟨Codec.envelope ⟨[1],[]⟩,1,.normal,0⟩,
    0x9afa9c333e66b34c7d5f67d4ac42d14bf5968a5ceea252193ea41a878a486ef9,
    0xe5f52b9bec393e36ed5e5a1d7ff184ef657d0a11a873cd68abe3e4b6e233ff6e,
    0xf3a6415b6bf25db481ff1da2bf0410163392a2d9b5da9bb5aa3d138c8cd2a00e⟩
def secondNormal : Codec.SignedMessage :=
  ⟨Codec.operatorA,.regular ⟨Codec.envelope ⟨[2],[]⟩,1,.normal,0⟩,
    0xf99eda5ec37a2bf928a1a0f3d677e1676c91e16c145779e3255ff0a05916584b,
    0x658087a51570445377c48107d263ff6107fe26f19f71ea422713dfea0c96f2dd,
    0x5ce29d8212d59af3ec7a50dfd23fcfa7d22c2983e4ea6fe21586cf57dc9b3e02⟩
def firstTwo : List (Response × LocalOutcome) :=
  [(firstNormal.respond 1,⟨none,none,none⟩),(secondNormal.respond 2,⟨none,none,none⟩)]

def twoExternals : Externals := Codec.externals (Codec.knownOf [firstNormal,secondNormal] [])
def twoChain (batchSize : BatchSize) : Except ParseConfigError Chain :=
  newChain twoExternals Codec.operatorA
    (Codec.channelConfig 1 batchSize [Codec.operatorA] ['3','0','s']) genesisLedger

def countChain : Chain := Outcomes.okValue (twoChain ⟨2,1000⟩) (by decide +kernel)
def countRun : Chain × List (Transition Chain Event) :=
  Outcomes.okValue (countChain.processMessages twoExternals firstTwo) (by decide +kernel)

theorem blocks_restartable_count : Run (Chain.Step twoExternals) countChain countRun.2 countRun.1 ∧
    ∀ e ∈ countRun.2, ∀ b ∈ e.after.ledger.blocks, b.Restartable := by
  have hst : twoChain ⟨2,1000⟩ = .ok countChain := Outcomes.ok_value_eq _
  have hr : Run (Chain.Step twoExternals) countChain countRun.2 countRun.1 := by
    exact process_messages_value _
  exact ⟨hr,(blocks_restartable_iff hst (by decide) hr).mpr (by decide +kernel)⟩

def overflowChain : Chain := Outcomes.okValue (twoChain ⟨10,1⟩) (by decide +kernel)
def overflowRun : Chain × List (Transition Chain Event) :=
  Outcomes.okValue (overflowChain.processMessages twoExternals firstTwo) (by decide +kernel)

/-- The second message does not fit: the block of the first has a chunk-free point after the point
it persists, and a chain over this ledger does not start. -/
theorem overflow_cuts_behind : twoChain ⟨10,1⟩ = .ok overflowChain ∧
    Run (Chain.Step twoExternals) overflowChain overflowRun.2 overflowRun.1 ∧
    (∃ b ∈ overflowRun.1.ledger.blocks, ¬ b.Restartable) ∧
    (newChain twoExternals Codec.operatorA overflowRun.1.config overflowRun.1.ledger).map
      Chain.startable = .ok false := by
  refine ⟨Outcomes.ok_value_eq _,?_,by decide +kernel,by decide +kernel⟩
  exact process_messages_value _

end PluggableHcs.Hcs
