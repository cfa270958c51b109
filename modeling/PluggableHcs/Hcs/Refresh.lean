import PluggableHcs.Hcs.Holders
import PluggableHcs.Hcs.Keys
import PluggableHcs.Hcs.ReplicaSteps

namespace PluggableHcs.Hcs
open Runs

namespace Replica

theorem Receiving.timeout (h : Receiving x accepts r re d received) :
    d.reassembler.reassembleTimeout = r.reassembler.reassembleTimeout := by
  cases h with
  | undecodable => rfl
  | chunk _ ca =>
    rw [(reassembled_carried _ _).2.1]
    exact reassemble_timeout ca

theorem Handling.timeout {ha : Bytes} (h : Handling x r ts seq ha msg r' effect) :
    r'.reassembler.reassembleTimeout = r.reassembler.reassembleTimeout := by
  cases h with
  | recollecting | recollected | passed | cut => rfl
  | normal =>
    obtain ⟨_,h⟩ | ⟨_,h⟩ | ⟨_,h⟩ | ⟨_,h⟩ := r.commit_normal_cases _ ts _ ha
    all_goals
      rw [h]
      rfl
  | config _ _ _ _ _ co =>
    obtain ⟨config,rfl⟩ := commit_config_cases co
    split <;> rfl
  | @started iy =>
    unfold ordererStarted
    cases he : r.reassembler.expireByAppID iy with
    | none => rfl
    | some o => exact expire_by_app_id_timeout he

theorem step_timeout {r r' : Replica} (h : r.step x accepts rp = .ok (r',effect)) :
    r'.reassembler.reassembleTimeout = r.reassembler.reassembleTimeout := by
  obtain ⟨d,re,hr,hc⟩ := step_cases h
  have hd := (receive_cases hr).2.2.timeout
  obtain ⟨rfl,_⟩ | ⟨ms,ha,_,hh⟩ := hc
  · exact hd
  · exact hh.timeout.trans hd

end Replica

/-- What a chain that was started from a configuration holds of it all along. -/
structure Chain.Derived (x : Externals) (key : Bytes) (config : ChannelConfig) (c : Chain) :
    Prop where
  operator : c.operatorPublicKeyBytes = key
  keysCurrent : c.KeysCurrent x
  timeout : configTimeout x config = some c.appMsgProcessor.reassembleTimeout

theorem new_chain_derived (h : newChain x key config l = .ok c) : c.Derived x key config := by
  have hk := new_chain_keys_current h
  obtain ⟨_,_,_,_,_,ht,rfl⟩ := new_chain_cases h
  exact ⟨rfl,hk,ht⟩

theorem run_derived {c₀ c : Chain} (ha : newChain x key config l = .ok c₀)
    (hr : Run (Chain.Step x) c₀ es c) : c.Derived x key config := by
  refine (hr.invariant (I := fun c => c.Derived x key config) ?_ (new_chain_derived ha)).1
  intro c e c' h hs
  obtain ⟨hk,ho⟩ := process_response_keys hs h.keysCurrent
  refine ⟨ho.trans h.operator,hk,h.timeout.trans ?_⟩
  exact congrArg some (Replica.step_timeout (own_step hs)).symm

/-- The keys in use are those that a start from the configuration in force would derive. So is the
reassemble timeout exactly if it has not changed since the start. -/
theorem derived_state_current_iff {c₀ c : Chain} (start : newChain x key config ledger = .ok c₀)
    (run : Run (Chain.Step x) c₀ es c) :
    (∀ topicID publicKeys timeout,
      parseConfig x c.config.consensusMetadata key = .ok (topicID,publicKeys,timeout) →
        publicKeys = c.publicKeys) ∧
    ((∃ topicID, parseConfig x c.config.consensusMetadata key =
        .ok (topicID,c.publicKeys,c.appMsgProcessor.reassembleTimeout)) ↔
      ∃ topicID publicKeys timeout, parseConfig x c.config.consensusMetadata key =
        .ok (topicID,publicKeys,timeout) ∧ configTimeout x config = some timeout) := by
  obtain ⟨ho,hc,hti⟩ := run_derived start run
  have hke : ∀ topicID publicKeys timeout,
      parseConfig x c.config.consensusMetadata key = .ok (topicID,publicKeys,timeout) →
        publicKeys = c.publicKeys := by
    intro topicID publicKeys timeout h
    obtain ⟨me,hm,hk,_⟩ := parse_config_cases h
    obtain ⟨m',hm',hk'⟩ := hc
    rw [hm] at hm'
    cases hm'
    rw [ho,hk] at hk'
    exact Option.some.inj hk'
  refine ⟨hke,?_⟩
  constructor
  · intro h
    obtain ⟨topicID,h⟩ := h
    exact ⟨topicID,_,_,h,hti⟩
  intro h
  obtain ⟨topicID,publicKeys,timeout,h,ht⟩ := h
  rw [hti] at ht
  cases ht
  obtain rfl := hke _ _ _ h
  exact ⟨topicID,h⟩

def currentUpdate : Codec.SignedMessage :=
  ⟨Codec.operatorA,.regular ⟨Codec.envelope ⟨[1],[]⟩,1,.config,0⟩,
    0xab0b2318b7b31500d815b184aafd4bb1710b3619e179185564002e8b9f4a200a,
    0x363867e062f718217cb5557b9dc7b58045f4a7e6b1f30196c8b2f7f97fb4d080,
    0x206930706ff06df945e4564bf788cf14ee6a47586e0f8cf2e35519370e648002⟩

def refreshExternals (timeout : List Char) : Externals :=
  Codec.externals (Codec.knownOf [currentUpdate]
    [(⟨[1],[]⟩,Codec.channelConfig 2 ⟨10,1000⟩ [Codec.operatorA,Codec.operatorB] timeout)])
def refreshStart (timeout : List Char) : Except ParseConfigError Chain :=
  newChain (refreshExternals timeout) Codec.operatorA
    (Codec.channelConfig 1 ⟨10,1000⟩ [Codec.operatorA] ['3','0','s']) genesisLedger

def keptChain : Chain := Outcomes.okValue (refreshStart ['3','0','s']) (by decide +kernel)
def keptRun : Chain × List (Transition Chain Event) := Outcomes.okValue
  (keptChain.processMessages (refreshExternals ['3','0','s']) [(currentUpdate.respond 1,⟨none,none,none⟩)])
  (by decide +kernel)

theorem derived_state_current_kept :
    ∃ topicID, parseConfig (refreshExternals ['3','0','s']) keptRun.1.config.consensusMetadata
        Codec.operatorA =
      .ok (topicID,keptRun.1.publicKeys,keptRun.1.appMsgProcessor.reassembleTimeout) := by
  have hst : refreshStart ['3','0','s'] = .ok keptChain := Outcomes.ok_value_eq _
  have hr : Run (Chain.Step (refreshExternals ['3','0','s'])) keptChain keptRun.2
      keptRun.1 := by
    exact process_messages_value _
  have hp : parseConfig (refreshExternals ['3','0','s']) keptRun.1.config.consensusMetadata
      Codec.operatorA = .ok (⟨0,0,7⟩,keptRun.1.publicKeys,30000000000) := by decide +kernel
  exact (derived_state_current_iff hst hr).2.mpr
    ⟨_,_,_,hp,by decide +kernel⟩

def changedChain : Chain := Outcomes.okValue (refreshStart ['6','0','s']) (by decide +kernel)
def changedRun : Chain × List (Transition Chain Event) := Outcomes.okValue
  (changedChain.processMessages (refreshExternals ['6','0','s'])
    [(currentUpdate.respond 1,⟨none,none,none⟩)]) (by decide +kernel)

/-- A config block changes the reassemble timeout to 60 seconds, and the running chain still
expires chunks after 30. -/
theorem timeout_not_refreshed : refreshStart ['6','0','s'] = .ok changedChain ∧
    Run (Chain.Step (refreshExternals ['6','0','s'])) changedChain changedRun.2 changedRun.1 ∧
    parseConfig (refreshExternals ['6','0','s']) changedRun.1.config.consensusMetadata
      Codec.operatorA = .ok (⟨0,0,7⟩,changedRun.1.publicKeys,60000000000) ∧
    changedRun.1.appMsgProcessor.reassembleTimeout = 30000000000 := by
  refine ⟨Outcomes.ok_value_eq _,?_,by decide +kernel⟩
  exact process_messages_value _

end PluggableHcs.Hcs
