import PluggableHcs.Hcs.Agreement
import PluggableHcs.Hcs.Subscription

namespace PluggableHcs.Hcs
open Runs List

/-- Not empty, no larger than the configuration allows, and a config message is alone. -/
structure SharedBlock.Proper (limit : Nat) (b : SharedBlock) : Prop where
  some : b.envelopes ≠ []
  alone : b.isConfig = true → b.envelopes.length = 1
  within : b.envelopes.length ≤ max 1 limit

def Replica.limit (r : Replica) : Nat := r.config.batchSize.maxMessageCount

def Replica.Bounded (r : Replica) : Prop := r.batch.pendingBatch.length ≤ r.limit - 1

theorem proper_single {b : SharedBlock} (h : b.envelopes = [en]) : b.Proper n :=
  ⟨by simp [h],by simp [h],by simp [h]⟩

theorem Replica.Bounded.proper {r : Replica} {b : SharedBlock} (hr : r.Bounded)
    (hp : r.batch.pendingBatch ≠ []) (h : b.envelopes = r.batch.pendingBatch)
    (hc : b.isConfig = false) : b.Proper r.limit := by
  have hl : _ ≤ r.limit - 1 := hr
  exact ⟨h ▸ hp,by simp [hc],by rw [h]; omega⟩

def Replica.Writes (r r' : Replica) : Prop :=
  ∃ bs, r'.blocks = r.blocks ++ bs ∧
    (r.limit < 2 ^ 32 → r.Bounded → r'.Bounded ∧ ∀ b ∈ bs, b.Proper r.limit)

/-- The pending batch is cut before it exceeds the limit, and before the limit changes. -/
theorem Replica.Handling.writes {ha : Bytes} (h : Handling x r ts seq ha msg r' effect) :
    r.Writes r' := by
  cases h with
  | recollecting | recollected | passed => exact ⟨[],by simp,fun _ hb => ⟨hb,by simp⟩⟩
  | cut _ _ hp =>
    exact ⟨[_],rfl,fun _ hb => ⟨Nat.zero_le _,forall_mem_singleton.mpr (hb.proper hp rfl rfl)⟩⟩
  | @normal en =>
    obtain ⟨⟨_,_,hj⟩,h⟩ | ⟨hj,h⟩ | ⟨hj,h⟩ | ⟨_,h⟩ := r.commit_normal_cases en ts _ ha
    all_goals rw [h]
    · refine ⟨[],by simp [record],fun hl hb => ⟨?_,by simp⟩⟩
      unfold Bounded Replica.limit at *
      simp only [record,Receiver.push,length_append,length_singleton]
      omega
    · refine ⟨[_],rfl,fun _ hb => ⟨?_,forall_mem_singleton.mpr (hb.proper
        (leaves_out_pending (.inl hj)) rfl rfl)⟩⟩
      have := hj.2.2
      exact Nat.le_sub_one_of_lt this
    · refine ⟨[_,_],append_assoc _ _ _,fun _ hb => ⟨Nat.zero_le _,?_⟩⟩
      rw [forall_mem_cons,forall_mem_singleton]
      exact ⟨hb.proper (leaves_out_pending (.inr hj)) rfl rfl,proper_single rfl⟩
    · refine ⟨[_],rfl,fun _ hb => ⟨Nat.zero_le _,forall_mem_singleton.mpr ⟨?_,?_,?_⟩⟩⟩
      · simp
      · simp
      · unfold Bounded at hb
        simp only [length_append,length_singleton]
        omega
  | config _ _ _ _ _ co =>
    obtain ⟨config,rfl⟩ := commit_config_cases co
    split
    · rename_i hp
      refine ⟨[_],rfl,fun _ _ => ⟨?_,forall_mem_singleton.mpr (proper_single rfl)⟩⟩
      simp [Bounded,cutBlock,hp]
    · rename_i hp
      refine ⟨[_,_],append_assoc _ _ _,fun _ hb => ⟨Nat.zero_le _,?_⟩⟩
      rw [forall_mem_cons,forall_mem_singleton]
      exact ⟨hb.proper hp rfl rfl,proper_single rfl⟩
  | started =>
    obtain ⟨_,h⟩ := r.orderer_started_cases _
    rw [h]
    exact ⟨[],by simp,fun _ hb => ⟨hb,by simp⟩⟩

theorem step_writes {c d : Chain} (h : Chain.Step x c e d) : c.replica.Writes d.replica := by
  obtain ⟨m,_,_,_,hr,hc⟩ := process_response_handling h
  have hm := hr.carried
  have hl : m.replica.limit = c.replica.limit := congrArg (·.batchSize.maxMessageCount) hm.config
  have hb : m.replica.Bounded ↔ c.replica.Bounded := by
    unfold Replica.Bounded
    rw [hm.batch,hl]
  rw [Replica.Writes,← hm.blocks,← hl,← hb]
  obtain ⟨rfl,_⟩ | ⟨_,_,_,hh⟩ := hc
  · exact ⟨[],by simp,fun _ hb => ⟨hb,by simp⟩⟩
  · exact hh.writes

theorem run_grows {c d : Chain} (h : Run (Chain.Step x) c es d) :
    c.replica.blocks <+: d.replica.blocks := by
  refine (h.invariant (I := (c.replica.blocks <+: ·.replica.blocks)) ?_ prefix_rfl).1
  intro s e t hs ht
  obtain ⟨bs,he,_⟩ := step_writes ht
  exact hs.trans ⟨bs,he.symm⟩

/-- A response is known by its number. -/
theorem run_follows {c d : Chain} (tc : FullTopic) (h : Run (Chain.Step x) c es d)
    (hm : ∀ e ∈ es, e.label.response ∈ tc.responses) :
    es.map (fun e => e.label.response) <+: tc.responses.drop c.lastSequenceProcessed := by
  induction h with
  | nil => exact nil_prefix
  | cons hd _ ih =>
    rw [forall_mem_cons] at hm
    obtain ⟨i,hi,he⟩ := mem_iff_getElem.mp hm.1
    obtain ⟨_,_,_,hs,_⟩ := process_response_handling hd
    have hn := tc.numbered i _ (List.getElem?_eq_some_iff.mpr ⟨hi,he⟩)
    obtain rfl : i = _ := Nat.succ.inj (hn.symm.trans hs)
    rw [drop_eq_getElem_cons hi,he,map_cons,prefix_cons_inj,← (process_response_position hd).1]
    exact ih hm.2

/-- Only a response that is handled without an error changes the chain. -/
theorem Service.step_chain (h : Step x tc s mo t) (hs : s.topicSubscription ⊆ tc.responses) :
    t.topicSubscription ⊆ tc.responses ∧ (t.chain = s.chain ∨
      ∃ e, e.response ∈ tc.responses ∧ Chain.Step x s.chain e t.chain) := by
  obtain ⟨_,h⟩ := step_cases h
  cases h with
  | retry =>
    simp only [retrySubscription,closeHaltChan]
    split_ifs
    · exact ⟨filter_sublist.subset,.inl rfl⟩
    all_goals exact ⟨hs,.inl rfl⟩
  | @response re rt o _ hr =>
    rw [hr,cons_subset] at hs
    obtain ⟨_,ou,hp,h⟩ | ⟨_,_,h⟩ | ⟨_,_,_,h⟩ := handle_response_cases x s o re rt
    all_goals rw [h]
    · exact ⟨hs.2,.inr ⟨⟨re,o,ou⟩,hs.1,hp⟩⟩
    · exact ⟨hs.2,.inl rfl⟩
    · exact ⟨hs.2,.inl rfl⟩
  | error =>
    simp only [streamingError,closeHaltChan]
    split_ifs <;> exact ⟨nil_subset _,.inl rfl⟩
  | send | sendHash | haltClose =>
    simp only [closeHaltChan,sendRequest]
    split_ifs <;> exact ⟨hs,.inl rfl⟩
  | halt | closed | timer | haltTest | haltReturn | call | check | submit | callReturn | leave
  | waited | close => exact ⟨hs,.inl rfl⟩

/-- The responses that the event loop handles are a run of its chain. -/
theorem Service.run_chain (h : Run (Step x tc) s es u) (hs : s.topicSubscription ⊆ tc.responses) :
    ∃ fs, Run (Chain.Step x) s.chain fs u.chain ∧
      ∀ f ∈ fs, f.label.response ∈ tc.responses ∧ ∃ e ∈ es, f.before = e.before.chain := by
  induction h with
  | nil => exact ⟨[],.nil,by simp⟩
  | cons hd _ ih =>
    obtain ⟨ht,hc⟩ := step_chain hd hs
    obtain ⟨fs,hr,hf⟩ := ih ht
    obtain hc | ⟨e,he,hc⟩ := hc
    · exact ⟨fs,hc ▸ hr,fun f hm => (hf f hm).imp_right fun ⟨e,he,hb⟩ => ⟨e,.tail _ he,hb⟩⟩
    · refine ⟨_,.cons hc hr,forall_mem_cons.mpr ⟨⟨he,_,.head _,rfl⟩,fun f hm => ?_⟩⟩
      exact (hf f hm).imp_right fun ⟨e,he,hb⟩ => ⟨e,.tail _ he,hb⟩

def Chain.Adds (c d : Chain) : Prop :=
  ∃ bs, d.replica.blocks = c.replica.blocks ++ bs ∧ ∀ b ∈ bs, b.Proper c.replica.limit

structure Service.Bounded (topic : FullTopic) (s : Service) : Prop where
  topicSubscription : s.topicSubscription ⊆ topic.responses
  chain : s.chain.replica.Bounded

theorem Service.Bounded.step (hb : s.Bounded tc) (h : Step x tc s mo t)
    (hl : s.chain.replica.limit < 2 ^ 32) : t.Bounded tc ∧ s.chain.Adds t.chain := by
  obtain ⟨ht,hc | ⟨_,_,hc⟩⟩ := step_chain h hb.topicSubscription
  · exact ⟨⟨ht,hc ▸ hb.chain⟩,[],by simp [hc],by simp⟩
  · obtain ⟨bs,he,hp⟩ := step_writes hc
    obtain ⟨hd,hp⟩ := hp hl hb.chain
    exact ⟨⟨ht,hd⟩,bs,he,hp⟩

/-- An orderer only adds blocks, and only proper ones. -/
theorem blocks_proper {c : Chain} (start : newChain x key config ledger = .ok c)
    (run : Run (Service.Step x topic) (startThread topic c) es s)
    (limits : ∀ e ∈ es, e.before.chain.replica.limit < 2 ^ 32) :
    ∀ e ∈ es, e.before.chain.Adds e.after.chain := by
  have hc : c.replica.Bounded := by
    obtain ⟨_,_,_,_,_,_,rfl⟩ := new_chain_cases start
    exact Nat.zero_le _
  obtain ⟨_,hi⟩ := run.invariant_when (I := Service.Bounded topic)
    (fun e hb h hl => (hb.step h hl).1) ⟨filter_sublist.subset,hc⟩ limits
  intro e he
  exact ((hi e he).1.step (run.step_of_mem he) (limits e he)).2

theorem broken_run : Run (Service.Step twoExternals twoTopic) (startThread twoTopic countChain)
    brokenRun.2 brokenRun.1 := trace_get_run _

theorem broken_blocks_proper : brokenRun.2.Forall fun e => e.before.chain.Adds e.after.chain := by
  have hs : twoChain ⟨2,1000⟩ = .ok countChain := Outcomes.ok_value_eq _
  rw [forall_iff_forall_mem]
  exact blocks_proper hs broken_run (by decide +kernel)

theorem prefix_agrees {c₁ c₂ d₁ d₂ : Chain} (r₁ : Run (Chain.Step x) c₁ es₁ d₁)
    (r₂ : Run (Chain.Step x) c₂ es₂ d₂)
    (hp : es₁.map (fun e => e.label.response) <+: es₂.map (fun e => e.label.response))
    (hr : c₁.replica = c₂.replica) (hk₁ : c₁.KeysCurrent x) (hk₂ : c₂.KeysCurrent x)
    (l : ∀ e ∈ es₁, e.before.config.Lists x c₁.operatorPublicKeyBytes ∧
      e.before.config.Lists x c₂.operatorPublicKeyBytes) :
    d₁.replica.blocks <+: d₂.replica.blocks := by
  have ht := prefix_iff_eq_take.mp hp
  rw [← map_take] at ht
  rw [← take_append_drop (es₁.map fun e => e.label.response).length es₂] at r₂
  obtain ⟨m,h₁,h₂⟩ := r₂.split
  rw [runs_agree r₁ h₁ ht hr hk₁ hk₂ l]
  exact run_grows h₂

/-- Of two orderers on one topic, whatever happens to their subscriptions, timers and callers, one
has written the first blocks of the other. -/
theorem orderers_never_fork {c₁ c₂ : Chain} (start₁ : newChain x key₁ config ledger = .ok c₁)
    (start₂ : newChain x key₂ config ledger = .ok c₂)
    (run₁ : Run (Service.Step x topic) (startThread topic c₁) es₁ s₁)
    (run₂ : Run (Service.Step x topic) (startThread topic c₂) es₂ s₂)
    (listed : ∀ e ∈ es₁ ++ es₂, e.before.chain.config.Lists x c₁.operatorPublicKeyBytes ∧
      e.before.chain.config.Lists x c₂.operatorPublicKeyBytes) :
    s₁.chain.replica.blocks <+: s₂.chain.replica.blocks ∨
      s₂.chain.replica.blocks <+: s₁.chain.replica.blocks := by
  have hr := new_chain_replica start₁ start₂
  have hk₁ := new_chain_keys_current start₁
  have hk₂ := new_chain_keys_current start₂
  obtain ⟨fs₁,h₁,hf₁⟩ := Service.run_chain run₁ filter_sublist.subset
  obtain ⟨fs₂,h₂,hf₂⟩ := Service.run_chain run₂ filter_sublist.subset
  have hp₁ := run_follows topic h₁ fun f hf => (hf₁ f hf).1
  have hp₂ := run_follows topic h₂ fun f hf => (hf₂ f hf).1
  have hn : c₁.lastSequenceProcessed = c₂.lastSequenceProcessed := congrArg Replica.lastSequence hr
  rw [startThread,hn] at hp₁
  obtain hp | hp := prefix_or_prefix_of_prefix hp₁ hp₂
  · refine .inl (prefix_agrees h₁ h₂ hp hr hk₁ hk₂ fun f hf => ?_)
    obtain ⟨_,e,he,hb⟩ := hf₁ f hf
    rw [hb]
    exact listed e (mem_append_left _ he)
  · refine .inr (prefix_agrees h₂ h₁ hp hr.symm hk₂ hk₁ fun f hf => ?_)
    obtain ⟨_,e,he,hb⟩ := hf₂ f hf
    rw [hb]
    exact (listed e (mem_append_right _ he)).symm

def pairTopic : FullTopic where
  responses := [staleNormal.respond 1,currentNormal.respond 2]
  increasing := by decide +kernel
  later := by decide +kernel
  numbered := by
    intro i resp h
    match i with
    | 0 | 1 =>
      cases h
      rfl
    | i + 2 => cases h

def pairServe (c : Chain) (moves : List Move) : Option (Service × List (Transition Service Move)) :=
  trace (Service.next pairExternals pairTopic) (startThread pairTopic c) moves

/-- The first operator submits the stale message again, the second one has lost its subscription
and is a block behind. -/
def aheadRun : Service × List (Transition Service Move) :=
  (pairServe pairA [.response resends,.send,.response idle]).get (by decide +kernel)
def behindRun : Service × List (Transition Service Move) :=
  (pairServe pairB [.response idle,.error ⟨.unavailable,[]⟩,.timer,.retry true]).get
    (by decide +kernel)

theorem pair_never_forks :
    aheadRun.1.chain.replica.blocks.length = behindRun.1.chain.replica.blocks.length + 1 ∧
    (aheadRun.1.chain.replica.blocks <+: behindRun.1.chain.replica.blocks ∨
      behindRun.1.chain.replica.blocks <+: aheadRun.1.chain.replica.blocks) := by
  have ha : pairStart Codec.operatorA = .ok pairA := Outcomes.ok_value_eq _
  have hb : pairStart Codec.operatorB = .ok pairB := Outcomes.ok_value_eq _
  have ra : Run (Service.Step pairExternals pairTopic) (startThread pairTopic pairA)
      aheadRun.2 aheadRun.1 := trace_get_run _
  have rb : Run (Service.Step pairExternals pairTopic) (startThread pairTopic pairB)
      behindRun.2 behindRun.1 := trace_get_run _
  exact ⟨by decide +kernel,orderers_never_fork ha hb ra rb (by decide +kernel)⟩

end PluggableHcs.Hcs
