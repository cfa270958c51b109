import PluggableHcs.Hcs.Codec
import PluggableHcs.Hcs.Frames

namespace PluggableHcs.Hcs
open Outcomes

inductive Chain.Reachable (x : Externals) : Chain → Prop
  | start (new : newChain x key channelConfig ledger₀ = .ok c) : Reachable x c
  | step (before : Reachable x c) (call : c.processResponse x own resp = .ok (c',outcome)) :
      Reachable x c'

def Chain.KeysCurrent (x : Externals) (c : Chain) : Prop :=
  ∃ metadata, x.unmarshalHcsConfigMetadata c.config.consensusMetadata = some metadata ∧
    getPublicKeys x metadata.publicKeys c.operatorPublicKeyBytes = some c.publicKeys

def configTimeout (x : Externals) (config : ChannelConfig) : Option Int :=
  (x.unmarshalHcsConfigMetadata config.consensusMetadata).bind
    fun metadata => x.parseDuration metadata.reassembleTimeout

theorem parse_config_cases
    (h : parseConfig x config.consensusMetadata key = .ok (topicID,publicKeys,timeout)) :
    ∃ me, x.unmarshalHcsConfigMetadata config.consensusMetadata = some me ∧
      getPublicKeys x me.publicKeys key = some publicKeys ∧
      configTimeout x config = some timeout := by
  unfold parseConfig at h
  cases hm : x.unmarshalHcsConfigMetadata config.consensusMetadata with
  | none => simp [hm] at h
  | some me =>
    cases ht : x.topicIDFromString me.topicId with
    | none => simp [hm,ht] at h
    | some tc =>
      cases hk : getPublicKeys x me.publicKeys key with
      | none => simp [hm,ht,hk] at h
      | some ks =>
        cases hd : x.parseDuration me.reassembleTimeout with
        | none => simp [hm,ht,hk,hd] at h
        | some du =>
          by_cases hz : du = 0
          · simp [hm,ht,hk,hd,hz] at h
          simp only [hm,ht,hk,hd,hz,if_false,Except.ok.injEq,Prod.mk.injEq] at h
          obtain ⟨_,rfl,rfl⟩ := h
          exact ⟨me,rfl,hk,by simp [configTimeout,hm,hd]⟩

theorem new_chain_cases (h : newChain x key config ledger = .ok c) : ∃ me pk ti,
      x.unmarshalHcsConfigMetadata config.consensusMetadata = some me ∧
      getPublicKeys x me.publicKeys key = some pk ∧
      configTimeout x config = some ti ∧
      c = initialChain key pk ti config ledger := by
  unfold newChain at h
  cases hp : parseConfig x config.consensusMetadata key with
  | error e => simp [hp] at h
  | ok o =>
    obtain ⟨td,pk,ti⟩ := o
    simp only [hp] at h
    cases h
    obtain ⟨me,hm,hk,ht⟩ := parse_config_cases hp
    exact ⟨me,pk,ti,hm,hk,ht,rfl⟩

theorem new_chain_keys_current (h : newChain x key config l = .ok c) : c.KeysCurrent x := by
  obtain ⟨me,pk,ti,hm,hk,_,rfl⟩ := new_chain_cases h
  exact ⟨me,hm,hk⟩

theorem update_public_keys_current {d e : Chain} (h : d.updatePublicKeys x = .ok e) :
    e.KeysCurrent x ∧ e.operatorPublicKeyBytes = d.operatorPublicKeyBytes ∧
      e.config = d.config := by
  unfold Chain.updatePublicKeys at h
  cases hm : x.unmarshalHcsConfigMetadata d.config.consensusMetadata with
  | none => simp [hm] at h
  | some me =>
    cases hk : getPublicKeys x me.publicKeys d.operatorPublicKeyBytes with
    | none => simp [hm,hk] at h
    | some ks =>
      simp only [hm,hk] at h
      cases h
      exact ⟨⟨me,hm,hk⟩,rfl,rfl⟩

theorem handling_keys {c c' : Chain} {ha : Bytes} (h : Handling x own ts seq ha c msg c' outcome)
    (hk : c.KeysCurrent x) :
    c'.KeysCurrent x ∧ c'.operatorPublicKeyBytes = c.operatorPublicKeyBytes := by
  cases h with
  | configCommitted _ _ _ _ no _ co ue =>
    obtain ⟨cl,re,rfl⟩ := note_resubmission_frame no
    obtain ⟨hc,hop,_⟩ := update_public_keys_current ue
    obtain ⟨o,cg,ks,rfl,_⟩ := commit_config_frame co ue
    exact ⟨hc,rfl⟩
  | configRefused _ _ _ _ no | configResubmitted _ _ _ _ no =>
    obtain ⟨cl,re,rfl⟩ := note_resubmission_frame no
    exact ⟨hk,rfl⟩
  | recollecting | caughtUp | recollected | badPayload | unsupported | normal | configDiscarded | timeToCut
  | ordererStarted | unset => exact ⟨hk,rfl⟩

theorem process_response_keys {c c' : Chain}
    (h : c.processResponse x own re = .ok (c',outcome)) (hk : c.KeysCurrent x) :
    c'.KeysCurrent x ∧ c'.operatorPublicKeyBytes = c.operatorPublicKeyBytes := by
  obtain ⟨a,_,_,⟨rfl,_⟩ | ⟨_,_,_,hh⟩⟩ := process_response_cases h
  · exact ⟨hk,rfl⟩
  have hd : (c.withArrival a).KeysCurrent x := hk
  have hke := handling_keys hh hd
  exact hke

theorem Chain.Reachable.keys_current {c : Chain} (h : c.Reachable x) : c.KeysCurrent x := by
  induction h with
  | start nw => exact new_chain_keys_current nw
  | step _ ca ih => exact (process_response_keys ca ih).1

theorem Chain.KeysCurrent.mem_iff {c : Chain} (h : c.KeysCurrent x) :
    ∃ listed, Replica.configKeys x c.config = .ok listed ∧
      ∀ k, k ∈ c.publicKeys ↔ k = c.operatorPublicKeyBytes ∨ k ∈ listed := by
  obtain ⟨me,hm,hk⟩ := h
  obtain ⟨listed,hl,hme⟩ := mem_public_keys hk
  exact ⟨listed,by simp [Replica.configKeys,hm,hl],hme⟩

def SignedBy (x : Externals) (message signerPublicKey signature : Bytes) : Prop :=
  message ≠ [] ∧ signerPublicKey ≠ [] ∧ signature ≠ [] ∧
    x.ed25519Verify signerPublicKey message signature = true
deriving Decidable

theorem verify_iff (x : Externals) (keys : List Bytes) (me ke si : Bytes) :
    verify x keys me ke si = true ↔ SignedBy x me ke si ∧ ke ∈ keys := by
  unfold verify SignedBy
  split
  · rename_i h
    tauto
  rename_i h
  split
  · rename_i hm
    simp [hm]
  rename_i hm
  simp only [not_or] at h
  simp only [not_not] at hm
  simp [h,hm]

/-- Two orderers give different verdicts exactly on what is signed with the operator key of one of
them when the configuration does not list that key. -/
theorem verdicts_differ_iff {c₁ c₂ : Chain} (h₁ : c₁.Reachable x) (h₂ : c₂.Reachable x)
    (hconfig : c₁.config = c₂.config) (message key signature : Bytes) :
    verify x c₁.publicKeys message key signature ≠ verify x c₂.publicKeys message key signature ↔
      SignedBy x message key signature ∧
      (∀ listed, Replica.configKeys x c₁.config = .ok listed → key ∉ listed) ∧
      ¬ (key = c₁.operatorPublicKeyBytes ↔ key = c₂.operatorPublicKeyBytes) := by
  obtain ⟨listed,hl,hm₁⟩ := h₁.keys_current.mem_iff
  obtain ⟨l₂,hl₂,hm₂⟩ := h₂.keys_current.mem_iff
  rw [← hconfig,hl] at hl₂
  cases hl₂
  have hli : (∀ l, Replica.configKeys x c₁.config = .ok l → key ∉ l) ↔ key ∉ listed := by
    rw [hl]
    constructor
    · intro h
      exact h listed rfl
    · intro h l hl'
      cases hl'
      exact h
  rw [hli,ne_eq,Bool.eq_iff_iff,verify_iff,verify_iff,hm₁,hm₂]
  tauto

def onlyB : ChannelConfig := Codec.channelConfig 1 ⟨10,1000⟩ [Codec.operatorB] ['3','0','s']
def genesisLedger : Ledger := ⟨1,[]⟩
def digestOne : Bytes :=
  Codec.bytesOfNat 32 0x4bf5122f344554c53bde2ebb8cd2b7e3d1600ad631c385a5d7cce23c7785459a
def signedByA : Bytes :=
  Codec.bytesOfNat 32 0x3914cc5efe90cdae8a222223301376c8ddbf110ece469327868bef91ce4db406 ++
  Codec.bytesOfNat 32 0xaa4b75dc66a14a863e1aac212f7f3d9fd0b28b2b229a15972f0c3204239cea0e
def keyExternals : Externals :=
  Codec.externals ⟨[([1],digestOne)],[(Codec.operatorA,digestOne,signedByA)],[]⟩

theorem process_messages_value (h : (c.processMessages x ip).toOption.isSome) :
    Runs.Run (Chain.Step x) c (Outcomes.okValue _ h).2 (Outcomes.okValue _ h).1 :=
  (process_messages_run (ok_value_eq h)).1

def chainA : Chain :=
  Outcomes.okValue (newChain keyExternals Codec.operatorA onlyB genesisLedger) (by decide +kernel)
def chainB : Chain :=
  Outcomes.okValue (newChain keyExternals Codec.operatorB onlyB genesisLedger) (by decide +kernel)

theorem verdicts_differ_only_b :
    verify keyExternals chainA.publicKeys digestOne Codec.operatorA signedByA ≠
      verify keyExternals chainB.publicKeys digestOne Codec.operatorA signedByA := by
  have hli : Replica.configKeys keyExternals chainA.config = .ok [Codec.operatorB] := by
    decide +kernel
  apply (verdicts_differ_iff (.start (ok_value_eq _)) (.start (ok_value_eq _))
    (by decide +kernel) digestOne Codec.operatorA signedByA).mpr
  refine ⟨by decide +kernel,?_,by decide +kernel⟩
  intro l hl
  obtain rfl := Except.ok.inj (hli.symm.trans hl)
  decide +kernel

/-- The orderer whose own key signed accepts the message, and the other one rejects it. -/
theorem own_key_splits_verdict :
    newChain keyExternals Codec.operatorA onlyB genesisLedger = .ok chainA ∧
    newChain keyExternals Codec.operatorB onlyB genesisLedger = .ok chainB ∧
    verify keyExternals chainA.publicKeys digestOne Codec.operatorA signedByA = true ∧
    verify keyExternals chainB.publicKeys digestOne Codec.operatorA signedByA = false :=
  ⟨ok_value_eq _,ok_value_eq _,by decide +kernel,by decide +kernel⟩

end PluggableHcs.Hcs
