import PluggableHcs.Hcs.Keys

namespace PluggableHcs.Hcs
open Runs

def ChannelConfig.Lists (x : Externals) (config : ChannelConfig) (key : Bytes) : Prop :=
  ∃ keys, Replica.configKeys x config = .ok keys ∧ key ∈ keys

instance (x : Externals) (config : ChannelConfig) (key : Bytes) : Decidable (config.Lists x key) :=
  match h : Replica.configKeys x config with
  | .ok keys => decidable_of_iff (key ∈ keys) (by simp [ChannelConfig.Lists,h])
  | .error _ => .isFalse (by simp [ChannelConfig.Lists,h])

def listedAccepts (x : Externals) (config : ChannelConfig) (message key signature : Bytes) : Bool :=
  match Replica.configKeys x config with
  | .ok keys => verify x keys message key signature
  | .error _ => false

theorem Chain.KeysCurrent.accepts {c : Chain} (h : c.KeysCurrent x)
    (hl : c.config.Lists x c.operatorPublicKeyBytes) :
    verify x c.publicKeys = listedAccepts x c.config := by
  obtain ⟨l,hk,hm⟩ := h.mem_iff
  obtain ⟨ks,hk',ho⟩ := hl
  rw [hk] at hk'
  cases hk'
  funext message key signature
  simp only [listedAccepts,hk]
  rw [Bool.eq_iff_iff,verify_iff,verify_iff,hm]
  constructor
  · intro h
    obtain ⟨hs,rfl | hin⟩ := h
    · exact ⟨hs,ho⟩
    · exact ⟨hs,hin⟩
  · intro h
    exact ⟨h.1,.inr h.2⟩

theorem new_chain_replica (h₁ : newChain x k₁ config l = .ok c₁)
    (h₂ : newChain x k₂ config l = .ok c₂) : c₁.replica = c₂.replica := by
  obtain ⟨_,_,t₁,_,_,ht₁,rfl⟩ := new_chain_cases h₁
  obtain ⟨_,_,t₂,_,_,ht₂,rfl⟩ := new_chain_cases h₂
  rw [ht₁] at ht₂
  cases ht₂
  rfl

theorem step_agrees {c₁ c₂ d₁ d₂ : Chain} (hr : c₁.replica = c₂.replica)
    (hk₁ : c₁.KeysCurrent x) (hk₂ : c₂.KeysCurrent x)
    (hl₁ : c₁.config.Lists x c₁.operatorPublicKeyBytes)
    (hl₂ : c₁.config.Lists x c₂.operatorPublicKeyBytes)
    (h₁ : c₁.processResponse x ow₁ re = .ok (d₁,o₁))
    (h₂ : c₂.processResponse x ow₂ re = .ok (d₂,o₂)) : d₁.replica = d₂.replica := by
  have hc : c₁.config = c₂.config := congrArg Replica.config hr
  have hs₁ := process_response_step (hk₁.accepts hl₁) h₁
  have hs₂ := process_response_step (hk₂.accepts (hc ▸ hl₂)) h₂
  rw [hr,hs₂] at hs₁
  exact (congrArg Prod.fst (Except.ok.inj hs₁)).symm

theorem runs_agree {c₁ c₂ d₁ d₂ : Chain} (r₁ : Run (Chain.Step x) c₁ es₁ d₁)
    (r₂ : Run (Chain.Step x) c₂ es₂ d₂)
    (hs : es₁.map (fun e => e.label.response) = es₂.map (fun e => e.label.response))
    (hr : c₁.replica = c₂.replica) (hk₁ : c₁.KeysCurrent x) (hk₂ : c₂.KeysCurrent x)
    (l : ∀ e ∈ es₁, e.before.config.Lists x c₁.operatorPublicKeyBytes ∧
      e.before.config.Lists x c₂.operatorPublicKeyBytes) : d₁.replica = d₂.replica := by
  induction r₁ generalizing c₂ es₂ with
  | nil =>
    cases r₂ with
    | nil => exact hr
    | cons => simp at hs
  | @cons c₁ e₁ m₁ es₁ d₁ h₁ t₁ ih =>
    cases r₂ with
    | nil => simp at hs
    | @cons _ e₂ m₂ es₂ _ h₂ t₂ =>
      obtain ⟨hre,hrt⟩ := List.cons.inj hs
      simp only at hre
      unfold Chain.Step at h₁ h₂
      rw [← hre] at h₂
      obtain ⟨hl₁,hl₂⟩ := l _ List.mem_cons_self
      have hm := step_agrees hr hk₁ hk₂ hl₁ hl₂ h₁ h₂
      obtain ⟨hkm₁,ho₁⟩ := process_response_keys h₁ hk₁
      obtain ⟨hkm₂,ho₂⟩ := process_response_keys h₂ hk₂
      apply ih t₂ hrt hm hkm₁ hkm₂
      intro e he
      rw [ho₁,ho₂]
      exact l e (List.mem_cons_of_mem _ he)

/-- Two orderers whose keys the channel lists hold the same blocks, batch, hashes and marks after
the same responses, whatever their own outcomes. -/
theorem orderers_agree {c₁ c₂ d₁ d₂ : Chain} (start₁ : newChain x key₁ config ledger = .ok c₁)
    (start₂ : newChain x key₂ config ledger = .ok c₂)
    (run₁ : Run (Chain.Step x) c₁ es₁ d₁) (run₂ : Run (Chain.Step x) c₂ es₂ d₂)
    (same : es₁.map (fun e => e.label.response) = es₂.map (fun e => e.label.response))
    (listed : ∀ e ∈ es₁, e.before.config.Lists x key₁ ∧ e.before.config.Lists x key₂) :
    d₁.ledger.blocks.map (fun b => (b.envelopes,b.isConfig)) =
        d₂.ledger.blocks.map (fun b => (b.envelopes,b.isConfig)) ∧
      d₁.lastCutBlockNumber = d₂.lastCutBlockNumber ∧
      d₁.blockCutter.pendingBatch = d₂.blockCutter.pendingBatch ∧
      d₁.messageHashes = d₂.messageHashes ∧
      d₁.lastOriginalSequenceProcessed = d₂.lastOriginalSequenceProcessed := by
  have hk₁ : c₁.operatorPublicKeyBytes = key₁ := by
    obtain ⟨_,_,_,_,_,_,rfl⟩ := new_chain_cases start₁
    rfl
  have hk₂ : c₂.operatorPublicKeyBytes = key₂ := by
    obtain ⟨_,_,_,_,_,_,rfl⟩ := new_chain_cases start₂
    rfl
  have hd := runs_agree run₁ run₂ same (new_chain_replica start₁ start₂)
    (new_chain_keys_current start₁) (new_chain_keys_current start₂)
    (by rw [hk₁,hk₂]; exact listed)
  have hbs := congrArg (fun r : Replica =>
    r.blocks.map fun b => (b.envelopes,b.isConfig)) hd
  simp only [Chain.replica,List.map_map] at hbs
  exact ⟨hbs,congrArg Replica.lastCutBlockNumber hd,
    congrArg (fun r : Replica => r.batch.pendingBatch) hd,congrArg Replica.messageHashes hd,
    congrArg Replica.lastOriginalSequence hd⟩

def staleNormal : Codec.SignedMessage :=
  ⟨Codec.operatorA,.regular ⟨Codec.envelope ⟨[1],[]⟩,0,.normal,0⟩,
    0x7570032f4b513174ce336f8d38d4f009dc7f19eaa189eb688a0e435b90250101,
    0xb95d25945b2305637ab65ae9693465b9eb128983f6f529f816699eb125a209da,
    0xac0571c6523f621ddce1d864498a73e523599be853beeb5612e0a71ea935e70a⟩
def currentNormal : Codec.SignedMessage :=
  ⟨Codec.operatorA,.regular ⟨Codec.envelope ⟨[2],[]⟩,1,.normal,0⟩,
    0xf99eda5ec37a2bf928a1a0f3d677e1676c91e16c145779e3255ff0a05916584b,
    0x658087a51570445377c48107d263ff6107fe26f19f71ea422713dfea0c96f2dd,
    0x5ce29d8212d59af3ec7a50dfd23fcfa7d22c2983e4ea6fe21586cf57dc9b3e02⟩

def pairConfig : ChannelConfig :=
  Codec.channelConfig 1 ⟨1,1000⟩ [Codec.operatorA,Codec.operatorB] ['3','0','s']
def pairExternals : Externals :=
  Codec.externals (Codec.knownOf [staleNormal,currentNormal] [])
def idle : LocalOutcome := ⟨none,none,none⟩

def resends : LocalOutcome := ⟨some 1,none,some (Codec.bytesOfNat 32
  0xed100ccdf4bb2431df34f94f61c776190a4b911ad29280b61ad1fe7e57ec4e8b)⟩

def pairStart (key : Bytes) : Except ParseConfigError Chain :=
  newChain pairExternals key pairConfig genesisLedger
def pairA : Chain := Outcomes.okValue (pairStart Codec.operatorA) (by decide +kernel)
def pairB : Chain := Outcomes.okValue (pairStart Codec.operatorB) (by decide +kernel)
def pairRunA : Chain × List (Transition Chain Event) := Outcomes.okValue
  (pairA.processMessages pairExternals
    [(staleNormal.respond 1,resends),(currentNormal.respond 2,idle)]) (by decide +kernel)
def pairRunB : Chain × List (Transition Chain Event) := Outcomes.okValue
  (pairB.processMessages pairExternals
    [(staleNormal.respond 1,idle),(currentNormal.respond 2,idle)]) (by decide +kernel)

theorem pair_run_a : Run (Chain.Step pairExternals) pairA pairRunA.2 pairRunA.1 := by
  exact process_messages_value _

theorem pair_run_b : Run (Chain.Step pairExternals) pairB pairRunB.2 pairRunB.1 := by
  exact process_messages_value _

theorem orderers_agree_pair : pairRunA.1.ledger.blocks.map (fun b => (b.envelopes,b.isConfig)) =
      pairRunB.1.ledger.blocks.map (fun b => (b.envelopes,b.isConfig)) := by
  have hA : pairStart Codec.operatorA = .ok pairA := Outcomes.ok_value_eq _
  have hB : pairStart Codec.operatorB = .ok pairB := Outcomes.ok_value_eq _
  exact (orderers_agree hA hB pair_run_a pair_run_b (by decide +kernel) (by decide +kernel)).1

end PluggableHcs.Hcs
