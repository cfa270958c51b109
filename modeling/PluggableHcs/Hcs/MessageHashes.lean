import PluggableHcs.Hcs.ChunkFree

namespace PluggableHcs.Hcs
open Runs List

def Effect.normals (hash : Bytes) : Effect → List (Bytes × Envelope)
  | .committed msg env => if msg.cls = .normal then [(hash,env)] else []
  | _ => []

def normals (x : Externals) (es : List (Transition Chain Event)) : List (Bytes × Envelope) :=
  es.flatMap fun e =>
    match e.before.receive x e.label.response with
    | .ok (_,.message _ hash) => e.label.outcome.effect.normals hash
    | _ => []

namespace Replica
variable {r r' : Replica} {pending : List (Bytes × Envelope)} {hash : Bytes}

/-- These messages are in the pending batch, and their hashes are the ones recorded. -/
structure Mirrors (r : Replica) (pending : List (Bytes × Envelope)) : Prop where
  batch : r.batch.pendingBatch = pending.map Prod.snd
  hashes : ∀ hash, hash ∈ r.messageHashes ↔ hash ∈ pending.map Prod.fst

theorem Mirrors.of_eq (h : r.Mirrors pending) (hb : r'.batch = r.batch)
    (hh : r'.messageHashes = r.messageHashes) : r'.Mirrors pending :=
  ⟨by rw [hb,h.batch],by rw [hh]; exact h.hashes⟩

theorem mirrors_nothing (hb : r.batch = newReceiverImpl) (hh : r.messageHashes = []) :
    r.Mirrors [] :=
  ⟨by rw [hb]; rfl,by simp [hh]⟩

theorem commit_normal_mirrors (h : r.Mirrors pending) (en : Envelope) (ts : Time)
    (o : Nat) (hash : Bytes) : ∃ p', (r.commitNormal en ts o hash).Mirrors p' ∧
        p' <:+ pending ++ [(hash,en)] := by
  obtain ⟨_,he⟩ | ⟨_,he⟩ | ⟨_,he⟩ | ⟨_,he⟩ := r.commit_normal_cases en ts o hash
  all_goals rw [he]
  · refine ⟨_,⟨?_,?_⟩,suffix_refl _⟩
    · simp [Receiver.push,h.batch]
    · simp [mem_insert_iff,h.hashes,or_comm]
  · exact ⟨[(hash,en)],⟨rfl,by simp⟩,suffix_append _ _⟩
  · exact ⟨[],mirrors_nothing rfl rfl,nil_suffix⟩
  · exact ⟨[],mirrors_nothing rfl rfl,nil_suffix⟩

theorem commit_config_mirrors (h : r.Mirrors pending)
    (hc : r.commitConfig x env ts o = .ok r') : r'.Mirrors [] := by
  obtain ⟨cg,rfl⟩ := commit_config_cases hc
  split
  · rename_i he
    rw [h.batch,map_eq_nil_iff] at he
    subst he
    exact h.of_eq rfl rfl
  · exact mirrors_nothing rfl rfl

theorem Handling.mirrors (hh : Handling x r ts seq hash msg r' effect) (h : r.Mirrors pending) :
    ∃ p', r'.Mirrors p' ∧ p' <:+ pending ++ effect.normals hash := by
  cases hh with
  | recollecting | recollected => exact ⟨pending,h.of_eq rfl rfl,by simp [Effect.normals]⟩
  | passed _ pa => exact ⟨pending,h,by cases pa <;> simp [Effect.normals]⟩
  | normal _ _ cs =>
    rw [Effect.normals,if_pos cs]
    exact commit_normal_mirrors h _ _ _ _
  | config _ _ _ _ _ co => exact ⟨[],commit_config_mirrors h co,nil_suffix⟩
  | cut => exact ⟨[],mirrors_nothing rfl rfl,nil_suffix⟩
  | started =>
    obtain ⟨next,he⟩ := r.orderer_started_cases _
    rw [he]
    exact ⟨pending,h.of_eq rfl rfl,by simp [Effect.normals]⟩

end Replica

theorem step_mirrors (hp : Chain.Step x c e c') (h : c.replica.Mirrors pending) :
    ∃ p', c'.replica.Mirrors p' ∧ p' <:+ pending ++ normals x [⟨c,e,c'⟩] := by
  obtain ⟨d,re,hr,_,hre,hc⟩ := process_response_handling hp
  have hd := h.of_eq hre.carried.batch hre.carried.messageHashes
  obtain ⟨rfl,_,hno⟩ | ⟨ms,ha,rfl,hh⟩ := hc
  · refine ⟨pending,hd,?_⟩
    cases re with
    | message ms ha => exact absurd rfl (hno ms ha)
    | undecodable | refused | incomplete | unreadable => simp [normals,hr]
  · obtain ⟨p',hm,hs⟩ := hh.mirrors hd
    exact ⟨p',hm,by simpa [normals,hr] using hs⟩

theorem run_mirrors (hu : Run (Chain.Step x) c₀ es c) (h : c₀.replica.Mirrors pending) :
    ∃ p', c.replica.Mirrors p' ∧ p' <:+ pending ++ normals x es := by
  induction hu generalizing pending with
  | nil => exact ⟨pending,h,by simp [normals]⟩
  | cons he _ ih =>
    obtain ⟨mi,hmi,hs⟩ := step_mirrors he h
    obtain ⟨p',hm,hr⟩ := ih hmi
    obtain ⟨be,hb⟩ := hs
    refine ⟨p',hm,hr.trans ⟨be,?_⟩⟩
    rw [← append_assoc,hb,append_assoc]
    simp [normals]

/-- The recorded hashes are those of the pending messages, which are the last ones ordered. A
time-to-cut message with a hash cuts a block exactly when a message with this hash is pending. -/
theorem message_hashes_mirror {c₀ c : Chain} (start : newChain x key config ledger = .ok c₀)
    (run : Run (Chain.Step x) c₀ es c) : ∃ pending, pending <:+ normals x es ∧
      c.blockCutter.pendingBatch = pending.map Prod.snd ∧
      (∀ hash, hash ∈ c.messageHashes ↔ hash ∈ pending.map Prod.fst) ∧
      ∀ hash ts seq, ∃ c' cut, c.processTimeToCutMessage (.messageHash hash) ts seq = .ok (c',cut) ∧
        (cut = true ↔ hash ∈ pending.map Prod.fst) ∧
        c'.ledger.blocks.map Block.envelopes = c.ledger.blocks.map Block.envelopes ++
          if cut then [c.blockCutter.pendingBatch] else [] := by
  have hst : c₀.replica.Mirrors [] := by
    obtain ⟨_,_,_,_,_,_,rfl⟩ := new_chain_cases start
    exact Replica.mirrors_nothing rfl rfl
  obtain ⟨pending,hm,hs⟩ := run_mirrors run hst
  have hh : ∀ hash, hash ∈ c.messageHashes ↔ hash ∈ pending.map Prod.fst := hm.hashes
  have hb : c.blockCutter.pendingBatch = pending.map Prod.snd := hm.batch
  refine ⟨pending,hs,hb,hh,?_⟩
  intro hash ts seq
  unfold Chain.processTimeToCutMessage Chain.createBlock
  by_cases hin : hash ∈ c.messageHashes
  · have hp : ¬ c.blockCutter.pendingBatch.length = 0 := by
      obtain ⟨e,he,_⟩ := mem_map.mp ((hh hash).mp hin)
      simp [hb,ne_nil_of_mem he]
    simp only [hin,decide_true,Receiver.cut,hp,if_false]
    exact ⟨_,true,rfl,by simp [← hh,hin],by simp [Chain.writeBlock]⟩
  · exact ⟨c,false,by simp [hin],by simp [← hh,hin],by simp⟩

/-- The run of two messages of which the second waits. -/
theorem message_hashes_mirror_overflow : overflowRun.1.blockCutter.pendingBatch.length = 1 ∧
    ∃ pending, pending <:+ normals twoExternals overflowRun.2 ∧
      overflowRun.1.blockCutter.pendingBatch = pending.map Prod.snd := by
  have hst : twoChain ⟨10,1⟩ = .ok overflowChain := Outcomes.ok_value_eq _
  have hr : Run (Chain.Step twoExternals) overflowChain overflowRun.2 overflowRun.1 := by
    exact process_messages_value _
  obtain ⟨pending,hs,hb,_⟩ := message_hashes_mirror hst hr
  exact ⟨by decide +kernel,pending,hs,hb⟩

end PluggableHcs.Hcs
