import PluggableHcs.Lib.Cuts
import PluggableHcs.Hcs.ChunkFree

namespace PluggableHcs.Hcs
open Runs List Effect

def Effect.items (ts : Time) : Effect → List (Int × Envelope)
  | .committed _ env => [(ts.nanos,env)]
  | _ => []

def SharedBlock.cut (b : SharedBlock) : Cuts.Block Int Envelope := ⟨b.envelopes,b.persisted.nanos⟩

namespace Replica

def written (r : Replica) (n : Nat) : List (Cuts.Block Int Envelope) :=
  (r.blocks.drop n).map SharedBlock.cut

def persisted (r : Replica) : Time := (r.blocks.getLast?.map SharedBlock.persisted).getD unixEpoch

/-- The message ends a batch without being part of it, and the last block already accounts for the
last message recorded as ordered. -/
def CutsAgain (r : Replica) (effect : Effect) : Prop :=
  ∃ msg env, effect = .committed msg env ∧ r.LeavesOut msg env ∧ r.lastOrdered = r.persisted

/-- The blocks after the first ones and the pending batch hold what was committed; the last message
recorded as ordered is the last one committed or that of the last block. -/
structure Tallied (n : Nat) (start now : Int) (log : List (Int × Envelope)) (r : Replica) :
    Prop where
  tally : Cuts.Tally start now (r.written n) r.batch.pendingBatch log
  standing : n ≤ r.blocks.length
  mark : Cuts.lastMark start (r.written n) = r.persisted.nanos
  behind : r.batch.pendingBatch ≠ [] → r.lastOrdered.nanos ≤ now
  ordered : r.batch.pendingBatch ≠ [] →
    (∀ m ∈ log, m.1 ≤ r.lastOrdered.nanos) ∨ r.lastOrdered = r.persisted

variable {n : Nat} {start no : Int} {log : List (Int × Envelope)} {r r' : Replica} {ts : Time}

theorem written_cut (h : n ≤ r.blocks.length) (en : List Envelope) (ic : Bool)
    (ts : Time) : (r.cutBlock en ic ts).written n = r.written n ++ [⟨en,ts.nanos⟩] := by
  simp only [written,cutBlock,drop_append_of_le_length h,map_append]
  rfl

theorem persisted_cut (r : Replica) (en : List Envelope) (ic : Bool) (ts : Time) :
    (r.cutBlock en ic ts).persisted = ts := by
  simp [persisted,cutBlock]

theorem Tallied.of_eq (h : r.Tallied n start no log) (hbs : r'.blocks = r.blocks)
    (hb : r'.batch = r.batch) (ho : r'.lastOrdered = r.lastOrdered) :
    r'.Tallied n start no log := by
  have hwr : r'.written n = r.written n := by simp only [written,hbs]
  have hp : r'.persisted = r.persisted := by simp only [persisted,hbs]
  refine ⟨?_,?_,?_,?_,?_⟩
  · rw [hwr,hb]
    exact h.tally
  · rw [hbs]
    exact h.standing
  · rw [hwr,hp]
    exact h.mark
  · rw [hb,ho]
    exact h.behind
  · rw [hb,ho,hp]
    exact h.ordered

theorem Tallied.later (h : r.Tallied n start no log) (hle : no ≤ t) : r.Tallied n start t log :=
  ⟨h.tally.later hle,h.standing,h.mark,fun hp => (h.behind hp).trans hle,h.ordered⟩

theorem tallied_cut {t : Replica} (hbs : r'.blocks = (t.cutBlock en isConfig ts).blocks)
    (hs : n ≤ t.blocks.length) (hb : r'.batch.pendingBatch = [])
    (ht : Cuts.Tally start no (t.written n ++ [⟨en,ts.nanos⟩]) [] log) :
    r'.Tallied n start no log := by
  have hwr : r'.written n = t.written n ++ [⟨en,ts.nanos⟩] := by
    rw [← written_cut hs en isConfig ts]
    simp only [written,hbs]
  have hpe : r'.persisted = ts := by
    rw [← persisted_cut t en isConfig ts]
    simp only [persisted,hbs]
  have hn : ¬ r'.batch.pendingBatch ≠ [] := not_not.mpr hb
  refine ⟨?_,?_,?_,fun hp => absurd hp hn,fun hp => absurd hp hn⟩
  · rw [hwr,hb]
    exact ht
  · rw [hbs]
    simp only [cutBlock,length_append]
    omega
  · rw [hwr,hpe,Cuts.last_mark_snoc]

theorem Tallied.exact_cut_pending (h : r.Tallied n start no log) (hp : r.batch.pendingBatch ≠ []) :
    Cuts.Exact start (r.written n ++ [⟨r.batch.pendingBatch,r.lastOrdered.nanos⟩]) log ↔
      Cuts.Exact start (r.written n) log ∧ r.lastOrdered ≠ r.persisted := by
  constructor
  · intro he
    refine ⟨he.dropLast,?_⟩
    intro heq
    refine Cuts.not_exact_same ?_ he
    rw [heq,h.mark]
  · intro he
    obtain ⟨he,hne⟩ := he
    obtain ha | heq := h.ordered hp
    · exact (h.tally.exact_cut ha (h.tally.last_mark_lt he hp ha)).mpr he
    · exact absurd heq hne

theorem Tallied.cut_pending (h : r.Tallied n start no log) (hp : r.batch.pendingBatch ≠ []) :
    r.cutPending.Tallied n start no log :=
  tallied_cut (t := r) rfl h.standing rfl (h.tally.cut (h.behind hp))

theorem Tallied.exact_last (h : r.Tallied n start no log) (hts : no < ts.nanos)
    (hwr : r'.written n = r.written n ++ [⟨r.batch.pendingBatch ++ [env],ts.nanos⟩]) :
    Cuts.Exact start (r'.written n) (log ++ [(ts.nanos,env)]) ↔
      Cuts.Exact start (r.written n) log := by
  rw [hwr]
  have hp := h.tally.push hts env
  refine Iff.trans (hp.exact_cut ?_ ?_) (h.tally.exact_push hts env)
  · exact fun m hm => (hp.stamps m hm).2
  · exact h.tally.last_mark_le.trans_lt hts

theorem not_cuts_again {effect : Effect} (h : ∀ ms en, effect ≠ .committed ms en) :
    ¬ r.CutsAgain effect := by
  intro hc
  obtain ⟨ms,en,rfl,_⟩ := hc
  exact h ms en rfl

theorem cuts_again_iff : r.CutsAgain (.committed msg env) ↔
    r.LeavesOut msg env ∧ r.lastOrdered = r.persisted := by
  constructor
  · intro h
    obtain ⟨_,_,heq,ho⟩ := h
    cases heq
    exact ho
  · intro h
    exact ⟨msg,env,rfl,h⟩

def Tallies (n : Nat) (start : Int) (ts : Time) (log : List (Int × Envelope)) (r : Replica)
    (effect : Effect) (r' : Replica) : Prop :=
  r'.Tallied n start ts.nanos (log ++ effect.items ts) ∧
    (Cuts.Exact start (r'.written n) (log ++ effect.items ts) ↔
      Cuts.Exact start (r.written n) log ∧ ¬ r.CutsAgain effect)

theorem tallies_commit_normal {ha : Bytes} {ms : HcsMessageRegular}
    (h : r.Tallied n start no log) (hts : no < ts.nanos) (hs : ms.cls = .normal) :
    Tallies n start ts log r (.committed ms env) (r.commitNormal env ts o ha) := by
  have hpu := h.tally.push hts env
  have ho : r.LeavesOut ms env ↔ r.batch.LeavesOut r.config.batchSize env := by
    simp [LeavesOut,hs]
  unfold Tallies items
  rw [cuts_again_iff,ho]
  obtain ⟨hc,heq⟩ | ⟨hc,heq⟩ | ⟨hc,heq⟩ | ⟨hc,heq⟩ := r.commit_normal_cases env ts o ha
  · rw [heq]
    have hin := joins_not_leaves_out hc
    refine ⟨⟨hpu,h.standing,h.mark,fun _ => le_refl _,fun _ => .inl ?_⟩,?_⟩
    · exact fun m hm => (hpu.stamps m hm).2
    · simp only [hin,false_and,not_false_eq_true,and_true]
      exact h.tally.exact_push hts env
  · rw [heq]
    -- the message is pending, but the one recorded as ordered is still that of the block
    have hin : r.batch.LeavesOut r.config.batchSize env := .inl hc
    have hp := leaves_out_pending hin
    have hcu := h.cut_pending hp
    have hwr := written_cut h.standing r.batch.pendingBatch false r.lastOrdered
    have hpe := r.persisted_cut r.batch.pendingBatch false r.lastOrdered
    simp only [hin,true_and]
    refine ⟨⟨hcu.tally.push hts env,hcu.standing,hcu.mark,?_,fun _ => .inr ?_⟩,?_⟩
    · exact fun _ => (h.behind hp).trans hts.le
    · exact hpe.symm
    refine Iff.trans (hcu.tally.exact_push hts env) ?_
    rw [show r.cutPending.written n = _ from hwr]
    exact h.exact_cut_pending hp
  · rw [heq]
    have hin : r.batch.LeavesOut r.config.batchSize env := .inr hc
    have hp := leaves_out_pending hin
    have hcu := h.cut_pending hp
    have hwr := written_cut h.standing r.batch.pendingBatch false r.lastOrdered
    have hl := written_cut (r := r.cutPending.record ts o) hcu.standing [env] false ts
    simp only [hin,true_and]
    refine ⟨?_,?_⟩
    · exact tallied_cut (t := r.cutPending.record ts o) rfl hcu.standing rfl
        ((hcu.tally.push hts env).cut (le_refl _))
    refine Iff.trans (hcu.exact_last hts hl) ?_
    rw [show r.cutPending.written n = _ from hwr]
    exact h.exact_cut_pending hp
  · rw [heq]
    have hin := cuts_one_not_leaves_out hc
    have hl := written_cut (r := r.record ts o) h.standing
      (r.batch.pendingBatch ++ [env]) false ts
    simp only [hin,false_and,not_false_eq_true,and_true]
    refine ⟨?_,?_⟩
    · exact tallied_cut (t := r.record ts o) rfl h.standing rfl (hpu.cut (le_refl _))
    · exact h.exact_last hts hl

theorem tallies_commit_config {ms : HcsMessageRegular} (h : r.Tallied n start no log)
    (hts : no < ts.nanos) (hs : ms.cls = .config)
    (ha : r.commitConfig x env ts o = .ok r') :
    Tallies n start ts log r (.committed ms env) r' := by
  have ho : r.LeavesOut ms env ↔ r.batch.pendingBatch ≠ [] := by simp [LeavesOut,hs]
  unfold Tallies items
  rw [cuts_again_iff,ho]
  obtain ⟨cg,rfl⟩ := commit_config_cases ha
  by_cases hp : r.batch.pendingBatch = []
  · have hl := written_cut (r := { r with lastOriginalSequence := o }) h.standing
      [env] true ts
    have hpu := h.tally.push hts env
    rw [hp,nil_append] at hpu
    simp only [hp,if_true,ne_eq,not_true,false_and,not_false_eq_true,and_true]
    refine ⟨?_,?_⟩
    · exact tallied_cut (t := { r with lastOriginalSequence := o }) rfl h.standing hp
        (hpu.cut (le_refl _))
    refine h.exact_last hts ?_
    rw [hp]
    exact hl
  · have hc := h.cut_pending hp
    have hwr := written_cut h.standing r.batch.pendingBatch false r.lastOrdered
    have hl := written_cut (r := { r.cutPending with lastOriginalSequence := o })
      hc.standing [env] true ts
    simp only [hp,if_false,ne_eq,not_false_eq_true,true_and]
    refine ⟨?_,?_⟩
    · exact tallied_cut (t := { r.cutPending with lastOriginalSequence := o }) rfl
        hc.standing rfl ((hc.tally.push hts env).cut (le_refl _))
    refine Iff.trans (hc.exact_last hts hl) ?_
    rw [show r.cutPending.written n = _ from hwr]
    exact h.exact_cut_pending hp

theorem tallies_same {effect : Effect} (h : r.Tallied n start no log) (hts : no ≤ ts.nanos)
    (hi : ∀ ms en, effect ≠ .committed ms en) (hbs : r'.blocks = r.blocks)
    (hb : r'.batch = r.batch) (ho : r'.lastOrdered = r.lastOrdered) :
    Tallies n start ts log r effect r' := by
  have hn : effect.items ts = [] := by
    cases effect with
    | committed ms en => exact absurd rfl (hi ms en)
    | received | recollected | ignored | discarded | stale | timeToCut | ordererStarted
    | unset => rfl
  have hwr : r'.written n = r.written n := by simp only [written,hbs]
  have hno : ¬ r.CutsAgain effect := not_cuts_again hi
  unfold Tallies
  rw [hn,append_nil,hwr]
  exact ⟨(h.of_eq hbs hb ho).later hts,by simp [hno]⟩

theorem tallies_cut_due (h : r.Tallied n start no log) (hts : no < ts.nanos) :
    Tallies n start ts log r (.timeToCut msg true) (r.cutDue ts seq) := by
  have hl := h.later hts.le
  have hla := written_cut (r := { r with lastOriginalSequence := seq }) h.standing
    r.batch.pendingBatch false ts
  have hn : ¬ r.CutsAgain (.timeToCut msg true) := not_cuts_again (by simp)
  unfold Tallies items
  rw [append_nil]
  refine ⟨?_,?_⟩
  · exact tallied_cut (t := { r with lastOriginalSequence := seq }) rfl h.standing rfl
      (hl.tally.cut (le_refl _))
  simp only [hn,not_false_eq_true,and_true]
  rw [show (r.cutDue ts seq).written n = _ from hla]
  exact h.tally.exact_cut (fun m hm => (hl.tally.stamps m hm).2)
    (h.tally.last_mark_le.trans_lt hts)

theorem Handling.tallies {ha : Bytes} (h : Handling x r ts seq ha msg r' effect)
    (o : r.recollectUntil = none) (ht : r.Tallied n start no log) (hts : no < ts.nanos) :
    Tallies n start ts log r effect r' := by
  cases h with
  | recollecting on | recollected on =>
    rw [o] at on
    cases on
  | passed _ pa => exact tallies_same ht hts.le (by cases pa <;> simp) rfl rfl rfl
  | normal _ _ cs => exact tallies_commit_normal ht hts cs
  | config _ _ cs _ _ co => exact tallies_commit_config ht hts cs co
  | cut => exact tallies_cut_due ht hts
  | started =>
    obtain ⟨next,heq⟩ := r.orderer_started_cases _
    rw [heq]
    exact tallies_same ht hts.le (by simp) rfl rfl rfl

/-- Up to where the stream has been ordered: to the last response, or to the point of the last
block as long as chunks are recollected. -/
def reached (start : Int) (r : Replica) : Int :=
  match r.recollectUntil with
  | none => r.lastTimestamp.nanos
  | some _ => start

structure Counted (n : Nat) (start : Int) (log : List (Int × Envelope)) (r : Replica) : Prop where
  tallied : r.Tallied n start (r.reached start) log
  stop : ∀ stop, r.recollectUntil = some stop → stop.nanos = start

theorem step_counted (h : r.step x accepts re = .ok (r',effect)) (hc : r.Counted n start log) :
    r'.Counted n start (log ++ effect.items re.consensusTimestamp) ∧
      (Cuts.Exact start (r'.written n) (log ++ effect.items re.consensusTimestamp) ↔
        Cuts.Exact start (r.written n) log ∧ ¬ r.CutsAgain effect) := by
  obtain ⟨d,rd,hrc,hce⟩ := step_cases h
  obtain ⟨_,hts,hre⟩ := receive_cases hrc
  have hca := hre.carried
  have hl := hre.position.1
  have hd : d.Tallied n start (r.reached start) log :=
    hc.tallied.of_eq hca.blocks hca.batch hca.lastOrdered
  have hwr : d.written n = r.written n := by simp only [written,hca.blocks]
  have ha : d.CutsAgain effect ↔ r.CutsAgain effect := by
    simp only [CutsAgain,LeavesOut,persisted,hca.blocks,hca.batch,hca.config,hca.lastOrdered]
  rw [← hwr,← ha]
  cases hon : r.recollectUntil with
  | none =>
    have ho : d.recollectUntil = none := hca.recollectUntil.trans hon
    have hr : r.reached start < re.consensusTimestamp.nanos := by
      simpa [reached,hon] using hts
    have hta : Tallies n start re.consensusTimestamp log d effect r' ∧
        r'.recollectUntil = none ∧ r'.lastTimestamp = re.consensusTimestamp := by
      obtain ⟨rfl,rfl,_⟩ | ⟨ms,h1,_,hh⟩ := hce
      · exact ⟨tallies_same hd hr.le (by simp) rfl rfl rfl,ho,hl⟩
      · exact ⟨hh.tallies ho hd hr,hh.off ho,hh.placed.lastTimestamp.trans hl⟩
    obtain ⟨⟨ht,he⟩,ho',hl'⟩ := hta
    refine ⟨⟨?_,by simp [ho']⟩,he⟩
    simpa [reached,ho',hl'] using ht
  | some stop =>
    have hs := hc.stop stop hon
    have hso : d.recollectUntil = some stop := hca.recollectUntil.trans hon
    simp only [reached,hon] at hd
    have hk : d.Counted n start log := by
      refine ⟨by simpa [reached,hso] using hd,?_⟩
      intro s' hs'
      rw [hso] at hs'
      cases hs'
      exact hs
    obtain ⟨rfl,rfl,_⟩ | ⟨ms,h1,_,hh⟩ := hce
    · have hn : ¬ r'.CutsAgain (.received rd) := not_cuts_again (by simp)
      simp only [items,append_nil,hn,not_false_eq_true,and_true]
      exact hk
    have hn : ∀ b, ¬ d.CutsAgain (.recollected b) := fun b => not_cuts_again (by simp)
    cases hh with
    | recollecting =>
      simp only [items,append_nil,hn,not_false_eq_true,and_true]
      exact hk
    | recollected on =>
      -- recollection ends at the point of the last block, where the stream is taken up again
      rw [hso] at on
      cases on
      simp only [items,append_nil,hn,not_false_eq_true,and_true]
      refine ⟨⟨?_,by simp⟩,Iff.rfl⟩
      simp only [reached,hl,hs]
      exact hd.of_eq rfl rfl rfl
    | passed o | normal o | config o | cut o | started o =>
      rw [hso] at o
      cases o

end Replica

def Block.cut (b : Block) : Cuts.Block Int Envelope :=
  ⟨b.envelopes,b.metadata.lastConsensusTimestampPersisted.nanos⟩

def Chain.written (c : Chain) (ledger : Ledger) : List (Cuts.Block Int Envelope) :=
  (c.ledger.blocks.drop ledger.blocks.length).map Block.cut

def committed (es : List (Transition Chain Event)) : List (Int × Envelope) :=
  es.flatMap fun e => e.label.outcome.effect.items e.label.response.consensusTimestamp

def Chain.lastPersisted (c : Chain) : Time :=
  (getStateFromMetadata
    (c.ledger.blocks.getLast?.map Block.metadata)).lastConsensusTimestampPersisted

/-- A committed message ends a batch without being in it, while the last message recorded as ordered
is the one up to which the last block persists the stream. -/
def CutsAgain (e : Transition Chain Event) : Prop :=
  match e.label.outcome with
  | .regular msg (.committed env) =>
    ((msg.cls = .normal ∧ e.before.blockCutter.LeavesOut e.before.config.batchSize env) ∨
      (msg.cls = .config ∧ e.before.blockCutter.pendingBatch ≠ [])) ∧
    e.before.lastOrdereredConsensusTimestamp = e.before.lastPersisted
  | _ => False

instance (e : Transition Chain Event) : Decidable (CutsAgain e) := by
  unfold CutsAgain
  split <;> infer_instance

theorem written_replica (c : Chain) (ledger : Ledger) :
    c.replica.written ledger.blocks.length = c.written ledger := by
  simp only [Replica.written,Chain.replica,Chain.written,← map_drop,map_map]
  rfl

theorem persisted_replica (c : Chain) : c.replica.persisted = c.lastPersisted := by
  simp only [Replica.persisted,Chain.replica,Chain.lastPersisted,List.getLast?_map]
  cases c.ledger.blocks.getLast? <;> rfl

theorem cuts_again_replica (e : Transition Chain Event) :
    e.before.replica.CutsAgain e.label.outcome.effect ↔ CutsAgain e := by
  unfold CutsAgain
  cases ho : e.label.outcome with
  | regular ms o =>
    cases o with
    | committed en =>
      rw [← persisted_replica]
      exact Replica.cuts_again_iff
    | badPayload | discarded | rejected | notEnqueued | resubmitted | unsupported =>
      exact iff_of_false (Replica.not_cuts_again (by simp [Outcome.effect,RegularOutcome.effect]))
        id
  | received | recollected | timeToCut | ordererStarted | unset =>
    exact iff_of_false (Replica.not_cuts_again (by simp [Outcome.effect])) id

theorem new_chain_counted (h : newChain x key config l = .ok c) :
    c.replica.Counted l.blocks.length c.lastConsensusTimestampPersisted.nanos [] := by
  obtain ⟨_,_,_,_,_,_,rfl⟩ := new_chain_cases h
  generalize hc : initialChain _ _ _ config l = c
  have hwr : c.replica.written l.blocks.length = [] := by
    rw [written_replica,← hc]
    simp [Chain.written,initialChain]
  have hpe : c.replica.persisted = c.lastConsensusTimestampPersisted := by
    rw [persisted_replica,← hc]
    rfl
  have hb : c.replica.batch.pendingBatch = [] := by
    rw [← hc]
    rfl
  refine ⟨⟨?_,?_,?_,fun hp => absurd hb hp,fun hp => absurd hb hp⟩,?_⟩
  · rw [hwr,hb]
    refine ⟨rfl,by simp,by simp,?_⟩
    unfold Replica.reached
    cases hon : c.replica.recollectUntil with
    | some sp => exact le_refl _
    | none =>
      rw [recollect_until_none,← hc] at hon
      rw [← hc]
      simp only [initialChain,ne_eq,decide_eq_false_iff_not,not_not] at hon
      exact (congrArg Time.nanos hon).le
  · rw [← hc]
    simp [Chain.replica,initialChain]
  · rw [hwr,hpe]
    rfl
  · intro sp hon
    simp only [Chain.replica] at hon
    split at hon
    · cases hon
      rfl
    · cases hon

theorem run_counted (hu : Run (Chain.Step x) c₀ es c) (hc : c₀.replica.Counted n start log) :
    c.replica.Counted n start (log ++ committed es) ∧
      (Cuts.Exact start (c.replica.written n) (log ++ committed es) ↔
        Cuts.Exact start (c₀.replica.written n) log ∧ ∀ e ∈ es, ¬ CutsAgain e) := by
  induction hu generalizing log with
  | nil =>
    simp only [committed,flatMap_nil,append_nil]
    exact ⟨hc,by simp⟩
  | @cons c₀ e d es c he ta ih =>
    obtain ⟨hd,hs⟩ := Replica.step_counted (own_step he) hc
    obtain ⟨hco,hr⟩ := ih hd
    have ha := cuts_again_replica ⟨c₀,e,d⟩
    rw [append_assoc] at hco hr
    refine ⟨hco,hr.trans ?_⟩
    rw [hs,forall_mem_cons,and_assoc]
    exact and_congr_right fun _ => and_congr_left fun _ => not_congr ha

/-- The blocks and the pending batch hold the committed messages in order. The persisted timestamps
are exact cuts and increase in exactly the runs in which no batch is cut where the last block was
cut already. -/
theorem persisted_exact_iff {c₀ c : Chain} (start : newChain x key config ledger = .ok c₀)
    (run : Run (Chain.Step x) c₀ es c) :
    Cuts.held (c.written ledger) ++ c.blockCutter.pendingBatch = (committed es).map Prod.snd ∧
      (Cuts.Exact c₀.lastConsensusTimestampPersisted.nanos (c.written ledger) (committed es) ↔
        ∀ e ∈ es, ¬ CutsAgain e) := by
  have hst := new_chain_counted start
  obtain ⟨hc,ha⟩ := run_counted run hst
  have he : c₀.replica.written ledger.blocks.length = [] := by
    obtain ⟨_,_,_,_,_,_,rfl⟩ := new_chain_cases start
    rw [written_replica]
    simp [Chain.written,initialChain]
  rw [nil_append,written_replica] at ha
  rw [he] at ha
  have hp := hc.tallied.tally.placed
  rw [nil_append,written_replica] at hp
  refine ⟨hp,ha.trans ?_⟩
  exact and_iff_right ⟨by simp,by simp⟩

/-- One batch is cut before a message that does not fit. -/
theorem persisted_exact_overflow :
    Cuts.Exact 0 (overflowRun.1.written genesisLedger) (committed overflowRun.2) := by
  have hst : twoChain ⟨10,1⟩ = .ok overflowChain := Outcomes.ok_value_eq _
  have hr : Run (Chain.Step twoExternals) overflowChain overflowRun.2 overflowRun.1 := by
    exact process_messages_value _
  exact (persisted_exact_iff hst hr).2.mpr (by decide +kernel)

def thirdNormal : Codec.SignedMessage :=
  ⟨Codec.operatorA,.regular ⟨Codec.envelope ⟨[3],[]⟩,1,.normal,0⟩,
    0xb10176a3f44d2cfe8c353fe6778b21ddc6cffb17dbebb3cfaea718fd78b82284,
    0xb8d0d8bbe2186ca4eb73bc0e15416843c3a18241b1c88265b2f8fccb8a4dd182,
    0xdadf617acda4035f004cb637481f28737de703ae4c57581ff4ea8d359fc90906⟩
def threeExternals : Externals :=
  Codec.externals (Codec.knownOf [firstNormal,secondNormal,thirdNormal] [])
def threeStart : Except ParseConfigError Chain :=
  newChain threeExternals Codec.operatorA
    (Codec.channelConfig 1 ⟨10,1⟩ [Codec.operatorA] ['3','0','s']) genesisLedger

def threeChain : Chain := Outcomes.okValue threeStart (by decide +kernel)
def threeRun : Chain × List (Transition Chain Event) := Outcomes.okValue
  (threeChain.processMessages threeExternals
    (firstTwo ++ [(thirdNormal.respond 3,⟨none,none,none⟩)])) (by decide +kernel)

/-- The second and the third message do not fit: the block of the second persists the timestamp of
the first, as the block before it does. -/
theorem overflow_persists_again : threeStart = .ok threeChain ∧
    Run (Chain.Step threeExternals) threeChain threeRun.2 threeRun.1 ∧
    threeRun.1.ledger.blocks.map Block.envelopes = [[⟨[1],[]⟩],[⟨[2],[]⟩]] ∧
    threeRun.1.ledger.blocks.map (fun b => b.metadata.lastConsensusTimestampPersisted) =
      [(firstNormal.respond 1).consensusTimestamp,(firstNormal.respond 1).consensusTimestamp] ∧
    ¬ Cuts.Exact 0 (threeRun.1.written genesisLedger) (committed threeRun.2) := by
  refine ⟨Outcomes.ok_value_eq _,?_,by decide +kernel,by decide +kernel,?_⟩
  · unfold threeRun
    exact process_messages_value _
  intro h
  have hi := h.increasing
  revert hi
  decide +kernel

end PluggableHcs.Hcs
