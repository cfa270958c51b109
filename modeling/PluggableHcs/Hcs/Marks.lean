import PluggableHcs.Hcs.Deliveries

namespace PluggableHcs.Hcs
open List

def Chain.Writes (c : Chain) (ts : Time) (original : Nat) (b : Block) : Prop :=
  b.metadata.lastResubmittedConfigSequence = c.lastResubmittedConfigSequence ∧
    ((c.blockCutter.pendingBatch ≠ [] ∧
        b.metadata.lastConsensusTimestampPersisted = c.lastOrdereredConsensusTimestamp ∧
        b.metadata.lastOriginalSequenceProcessed = c.lastOriginalSequenceProcessed) ∨
      (b.metadata.lastConsensusTimestampPersisted = ts ∧
        b.metadata.lastOriginalSequenceProcessed = original))

theorem mem_snoc_or {W : Block → Prop} {b d : Block} (hb : b ∈ bs ++ [d]) (hd : W d) :
    b ∈ bs ∨ W b := by
  obtain hb | hb := mem_append.mp hb
  · exact .inl hb
  · exact .inr (mem_singleton.mp hb ▸ hd)

theorem commit_normal_writes (c : Chain) (en : Envelope) (ts : Time) (o : Nat) (ha : Bytes) :
    ∀ b ∈ (c.commitNormalMessage en ts o ha).ledger.blocks,
      b ∈ c.ledger.blocks ∨ c.Writes ts o b := by
  intro b hb
  obtain h | h | h | h := ordered_cases c.blockCutter c.config.batchSize en
  · simp only [Chain.commitNormalMessage,ordered_joins h] at hb
    exact .inl hb
  · simp only [Chain.commitNormalMessage,ordered_leaves_pending h] at hb
    have hp := leaves_out_pending (.inl h)
    exact mem_snoc_or hb ⟨rfl,.inl ⟨hp,rfl,rfl⟩⟩
  · simp only [Chain.commitNormalMessage,ordered_cuts_two h] at hb
    have hp := leaves_out_pending (.inr h)
    obtain hb | hb : _ ∨ c.Writes ts o b := mem_snoc_or hb ⟨rfl,.inr ⟨rfl,rfl⟩⟩
    · exact mem_snoc_or hb ⟨rfl,.inl ⟨hp,rfl,rfl⟩⟩
    · exact .inr hb
  · simp only [Chain.commitNormalMessage,ordered_cuts_one h] at hb
    exact mem_snoc_or hb ⟨rfl,.inr ⟨rfl,rfl⟩⟩

theorem write_config_writes (c : Chain) (en : Envelope) (ts : Time) (o : Nat) :
    ∀ b ∈ (c.writeConfigBlocks en ts o).ledger.blocks, b ∈ c.ledger.blocks ∨ c.Writes ts o b := by
  intro b hb
  unfold Chain.writeConfigBlocks at hb
  by_cases hp : c.blockCutter.pendingBatch = []
  · simp only [Receiver.cut,hp,if_true] at hb
    exact mem_snoc_or hb ⟨rfl,.inr ⟨rfl,rfl⟩⟩
  simp only [Receiver.cut,hp,if_false] at hb
  obtain hb | hb : _ ∨ c.Writes ts o b := mem_snoc_or hb ⟨rfl,.inr ⟨rfl,rfl⟩⟩
  · exact mem_snoc_or hb ⟨rfl,.inl ⟨hp,rfl,rfl⟩⟩
  · exact .inr hb

variable {c : Chain}

theorem commit_config_writes {d e : Chain} (ho : c.commitConfigMessage x env ts o = .ok d)
    (hu : d.updatePublicKeys x = .ok e) :
    ∀ b ∈ e.ledger.blocks, b ∈ c.ledger.blocks ∨ c.Writes ts o b := by
  have hl : e.ledger = (c.writeConfigBlocks env ts o).ledger := by
    unfold Chain.commitConfigMessage at ho
    split at ho
    · cases ho
    cases ho
    unfold Chain.updatePublicKeys at hu
    split at hu
    · cases hu
    split at hu
    · cases hu
    · cases hu
      rfl
  rw [hl]
  exact write_config_writes c env ts o

variable {c' : Chain}

theorem process_time_to_cut_cases (h : c.processTimeToCutMessage msg ts seq = .ok (c',cut)) :
    c' = c ∨ (c.createBlock msg = .ok true ∧ c'.lastOriginalSequenceProcessed = seq ∧
      ∀ b ∈ c'.ledger.blocks, b ∈ c.ledger.blocks ∨ c.Writes ts seq b) := by
  unfold Chain.processTimeToCutMessage at h
  cases hc : c.createBlock msg with
  | error e => simp [hc] at h
  | ok du =>
    cases du with
    | false =>
      simp only [hc] at h
      cases h
      exact .inl rfl
    | true =>
      by_cases hp : c.blockCutter.pendingBatch.length = 0
      · simp [hc,Receiver.cut,hp] at h
      simp only [hc,Receiver.cut,hp,if_false] at h
      cases h
      refine .inr ⟨rfl,rfl,?_⟩
      intro b hb
      exact mem_snoc_or hb ⟨rfl,.inr ⟨rfl,rfl⟩⟩

def Outcome.resubmission : Outcome → Option HcsMessageRegular
  | .regular _ (.resubmitted msg) => some msg
  | _ => none

variable {hash : Bytes}

theorem process_normal_cases (h : c.processNormal x own msg env ts seq hash = (c',outcome)) :
    (∃ rs, c' = { c with timeToCutRequests := rs }) ∨ (¬ c.Consumed msg ∧ ¬ c.Stale msg ∧
        c' = c.commitNormalMessage env ts (c.newSeq msg) hash) := by
  unfold Chain.processNormal at h
  split at h
  · cases h
    exact .inl ⟨_,rfl⟩
  rename_i hfr
  split at h
  · split at h
    · cases h
      exact .inl ⟨_,rfl⟩
    split at h
    · cases h
      exact .inl ⟨_,rfl⟩
    · cases h
      exact .inl ⟨_,rfl⟩
  · rename_i hc
    cases h
    exact .inr ⟨hfr,hc,rfl⟩

theorem commit_normal_original (c : Chain) (en : Envelope) (ts : Time) (o : Nat) (hash : Bytes) :
    (c.commitNormalMessage en ts o hash).lastOriginalSequenceProcessed = o ∨
      (c.commitNormalMessage en ts o hash).lastOriginalSequenceProcessed =
        c.lastOriginalSequenceProcessed := by
  have hr : (c.commitNormalMessage en ts o hash).lastOriginalSequenceProcessed =
      (c.replica.commitNormal en ts o hash).lastOriginalSequence :=
    congrArg Replica.lastOriginalSequence (commit_normal_replica c en ts o hash)
  rw [hr]
  obtain ⟨_,h⟩ | ⟨_,h⟩ | ⟨_,h⟩ | ⟨_,h⟩ := c.replica.commit_normal_cases en ts o hash
  · rw [h]
    exact .inl rfl
  · rw [h]
    exact .inr rfl
  · rw [h]
    exact .inl rfl
  · rw [h]
    exact .inl rfl

/-- The gate fits the marks at the position up to which the marks account for messages. -/
structure Chain.Fits (x : Externals) (sent : List HcsMessageRegular) (log : Log) (c : Chain)
    (n : Nat) : Prop where
  gate : c.doneReprocessingMsgInFlight ∈ c.closedChannels ↔
    c.lastResubmittedConfigSequence ≤ c.lastOriginalSequenceProcessed
  consistent : Consistent x sent log c.lastResubmittedConfigSequence
    c.lastOriginalSequenceProcessed n

open Chain

def Block.Fits (x : Externals) (sent : List HcsMessageRegular) (log : Log) (b : Block) : Prop :=
  ∀ n, log.timeline.At n b.metadata.lastConsensusTimestampPersisted →
    Consistent x sent log b.metadata.lastResubmittedConfigSequence
      b.metadata.lastOriginalSequenceProcessed n

variable {log : Log}

theorem Block.Fits.send {b : Block} (h : b.Fits x sent log)
    (ms : List HcsMessageRegular) : b.Fits x (ms ++ sent) log := by
  intro n hn
  induction ms with
  | nil => exact h n hn
  | cons m ms ih => exact ih.send m

theorem Chain.Fits.send (h : c.Fits x sent log n)
    (ms : List HcsMessageRegular) : c.Fits x (ms ++ sent) log n := by
  refine ⟨h.gate,?_⟩
  induction ms with
  | nil => exact h.consistent
  | cons m ms ih => exact ih.send m

/-- A message at a position of the log, about to be handled by a chain that follows. -/
structure Chain.Faces (x : Externals) (sent : List HcsMessageRegular) (log : Log) (c : Chain)
    (e : Entry) (n : Nat) : Prop where
  mem : e ∈ log.entries
  seq : e.sequence = n + 1
  original : c.lastOriginalSequenceProcessed ≤ n
  ordered : c.blockCutter.pendingBatch ≠ [] →
    ∀ k, log.timeline.At k c.lastOrdereredConsensusTimestamp → k ≤ n
  earlier : log.NamesEarlier
  sent : ∀ m ∈ e.regular, m ∈ sent

theorem Chain.Writes.fits {b : Block} {e : Entry}
    (hb : c.Writes e.timestamp ol b) (he : e ∈ log.entries) (hs : e.sequence = n + 1)
    (ha : Consistent x sent log c.lastResubmittedConfigSequence
      c.lastOriginalSequenceProcessed n)
    (hd : Consistent x sent log c.lastResubmittedConfigSequence ol (n + 1))
    (o : c.blockCutter.pendingBatch ≠ [] →
      ∀ k, log.timeline.At k c.lastOrdereredConsensusTimestamp → k ≤ n) : b.Fits x sent log := by
  obtain ⟨hr,⟨hp,hts,ho⟩ | ⟨hts,ho⟩⟩ := hb
  · intro k hk
    rw [hr,ho]
    rw [hts] at hk
    exact ha.back (o hp k hk)
  intro k hk
  rw [hr,ho]
  rw [hts] at hk
  have hm : log.timeline.At e.sequence e.timestamp :=
    .inr (mem_map_of_mem he)
  rw [← hk.unique hm] at hs
  rw [hs]
  exact hd

theorem new_seq_ge (f : ¬ c.Consumed msg) : c.lastOriginalSequenceProcessed ≤ c.newSeq msg := by
  unfold newSeq
  split
  · exact le_refl _
  rename_i hz
  by_contra hlt
  exact f ⟨hz,by omega⟩

section
variable {x : Externals} {se : List HcsMessageRegular} {log : Log} {c c' : Chain} {e : Entry}
variable {n : Nat} {hash : Bytes}

variable {ms : HcsMessageRegular}

theorem fits_normal (hf : c.Fits x se log n)
    (ha : c.Faces x se log e n) (hg : e.regular = some ms) (hs : ms.cls = .normal)
    (hd : c.processNormal x own ms env e.timestamp e.sequence hash = (c.withOrdering o,outcome))
    (hh : ¬ c.Consumed ms → ¬ c.Stale ms →
      c.lastOriginalSequenceProcessed < c.lastResubmittedConfigSequence →
      ms.originalSeq < c.lastResubmittedConfigSequence)
    (hbs : ∀ b ∈ c.ledger.blocks, b.Fits x se log) :
    (c.withOrdering o).Fits x se log (n + 1) ∧
      ∀ b ∈ (c.withOrdering o).ledger.blocks, b.Fits x se log := by
  have he := hf.consistent.extend ha.mem ha.seq (by
    intro m hm hc
    rw [hg] at hm
    cases hm
    simp [hs] at hc)
  obtain ⟨rs,heq⟩ | ⟨hfr,hcu,heq⟩ := process_normal_cases hd
  · rw [heq]
    exact ⟨⟨hf.gate,he⟩,hbs⟩
  have hge := new_seq_ge hfr
  have hn : c.lastOriginalSequenceProcessed < c.lastResubmittedConfigSequence →
      c.newSeq ms < c.lastResubmittedConfigSequence := by
    intro hlt
    unfold newSeq
    split
    · exact hlt
    · exact hh hfr hcu hlt
  have hws := commit_normal_writes c env e.timestamp (c.newSeq ms) hash
  have hor := commit_normal_original c env e.timestamp (c.newSeq ms) hash
  rw [← heq] at hws hor
  constructor
  · have hle : c.lastOriginalSequenceProcessed ≤
        (c.withOrdering o).lastOriginalSequenceProcessed := by
      obtain h | h := hor <;> rw [h]
      exact hge
    refine ⟨?_,he.raise hle⟩
    refine hf.gate.trans ⟨fun h => h.trans hle,fun h => ?_⟩
    by_contra hlt
    have hlt' := hn (not_le.mp hlt)
    obtain ho | ho := hor
    · rw [ho] at h
      exact absurd hlt' (not_lt.mpr h)
    · rw [ho] at h
      exact hlt h
  · intro b hb
    obtain hb | hb := hws b hb
    · exact hbs b hb
    · exact hb.fits ha.mem ha.seq hf.consistent (he.raise hge) ha.ordered

theorem fits_refused (hf : c.Fits x se log n) (ha : c.Faces x se log e n) (hg : e.regular = some ms)
    (hn : c.noteResubmission ms = .ok c') (hb : c.Stale ms)
    (hd : ms.originalSeq ≠ 0 → ms.originalSeq < c.lastResubmittedConfigSequence)
    (hbs : ∀ b ∈ c.ledger.blocks, b.Fits x se log) :
    c'.Fits x se log (n + 1) ∧ ∀ b ∈ c'.ledger.blocks, b.Fits x se log := by
  have he := hf.consistent.extend ha.mem ha.seq (by
    intro m hm _ _ hlt
    rw [hg] at hm
    cases hm
    exact hd (by omega))
  obtain ⟨_,rfl⟩ | ⟨_,_,hs,_⟩ | ⟨hz,_,rfl⟩ := note_resubmission_cases hn
  · exact ⟨⟨hf.gate,he⟩,hbs⟩
  · unfold Stale at hb
    omega
  have hma := Nat.max_eq_left (hd hz).le
  simp only [hma]
  exact ⟨⟨hf.gate,he⟩,hbs⟩

theorem fits_resubmitted {m : HcsMessageRegular} (hf : c.Faces x se log e n)
    (o : c.GatesOld) (hn : c.noteResubmission ms = .ok c') (ha : c.Stale ms)
    (hd : m.cls = .config) (hu : m.originalSeq = e.sequence) (hr : m.Readable x)
    (hbs : ∀ b ∈ c.ledger.blocks, b.Fits x se log) :
    ({ c' with lastResubmittedConfigSequence := e.sequence }.reprocessPending).Fits x (m :: se)
        log (n + 1) ∧
      ∀ b ∈ c'.ledger.blocks, b.Fits x (m :: se) log := by
  obtain ⟨_,hcl⟩ := note_resubmission_gate hn
  obtain ⟨cl,rd,rfl⟩ := note_resubmission_frame hn
  have hs : cl = c.closedChannels := by
    obtain h | ⟨hcu,_⟩ := hcl
    · exact h
    · exact absurd ha hcu
  subst hs
  have ho := hf.original
  have hq := hf.seq
  have hc : Consistent x (m :: se) log e.sequence c.lastOriginalSequenceProcessed
      e.sequence := .resubmit hf.earlier hd hu hr
  refine ⟨⟨iff_of_false ?_ ?_,?_⟩,fun b hb => (hbs b hb).send [m]⟩
  · intro hm
    have hle : c.doneReprocessingMsgInFlight + 1 ≤ c.doneReprocessingMsgInFlight := o _ hm
    omega
  · intro hle
    have hle' : e.sequence ≤ c.lastOriginalSequenceProcessed := hle
    omega
  · rw [← hq]
    exact hc

section
variable (hf : c.Fits x se log n) (hc : c.Faces x se log e n) (h1 : e.regular = some ms)
  (cs : ms.cls = .config) (re : ms.Readable x) (fr : ¬ c.Consumed ms)
  (hq : ms.configSeq = c.config.sequence) (no : c.noteResubmission ms = .ok c')
include hf hc h1 cs re fr hq no

theorem noted_committed (hh : c.lastOriginalSequenceProcessed < c.lastResubmittedConfigSequence →
      ms.originalSeq ≤ c.lastResubmittedConfigSequence) :
    Consistent x se log c'.lastResubmittedConfigSequence c'.lastOriginalSequenceProcessed n ∧
    Consistent x se log c'.lastResubmittedConfigSequence (c'.newSeq ms) (n + 1) ∧
    (c'.doneReprocessingMsgInFlight ∈ c'.closedChannels ↔
      c'.lastResubmittedConfigSequence ≤ c'.newSeq ms) := by
  have hlt : ms.originalSeq ≠ 0 → c.lastOriginalSequenceProcessed < ms.originalSeq := by
    intro hz
    by_contra hge
    exact fr ⟨hz,not_lt.mp hge⟩
  obtain ⟨hz,rfl⟩ | ⟨hz,hl,_,ho,rfl⟩ | ⟨hz,hno,rfl⟩ := note_resubmission_cases no
  · have he := hf.consistent.extend hc.mem hc.seq (by
      intro m hm _ _ hlt
      rw [h1] at hm
      cases hm
      omega)
    simp only [newSeq,if_pos hz]
    exact ⟨hf.consistent,he,hf.gate⟩
  · have hs := hf.consistent.settle hc.mem hc.seq h1 (hlt hz) hl.ge
    simp only [newSeq,if_neg hz]
    rw [← hl]
    refine ⟨?_,hs,iff_of_true mem_cons_self (le_refl _)⟩
    rw [hl]
    exact hf.consistent
  · simp only [newSeq,if_neg hz]
    obtain hb | heq | ha :=
      Nat.lt_trichotomy ms.originalSeq c.lastResubmittedConfigSequence
    · have he := hf.consistent.extend hc.mem hc.seq (by
        intro m hm _ _ _
        rw [h1] at hm
        cases hm
        exact hb)
      rw [Nat.max_eq_left hb.le]
      refine ⟨hf.consistent,he.raise (hlt hz).le,iff_of_false ?_ (not_le.mpr hb)⟩
      rw [hf.gate]
      exact not_le.mpr ((hlt hz).trans hb)
    · exact absurd ⟨heq,hq⟩ hno
    · have hcl : c.lastResubmittedConfigSequence ≤ c.lastOriginalSequenceProcessed := by
        by_contra hgt
        exact absurd (hh (not_le.mp hgt)) (not_le.mpr ha)
      have hn := hf.consistent.note (hc.sent ms h1) cs re (hlt hz)
      have hs := hf.consistent.settle hc.mem hc.seq h1 (hlt hz) ha.le
      rw [Nat.max_eq_right ha.le] at hn ⊢
      exact ⟨hn,hs,iff_of_true (hf.gate.mpr hcl) (le_refl _)⟩

theorem fits_committed (hd : c'.commitConfigMessage x env e.timestamp (c'.newSeq ms) = .ok d)
    (hu : d.updatePublicKeys x = .ok f)
    (hh : c.lastOriginalSequenceProcessed < c.lastResubmittedConfigSequence →
      ms.originalSeq ≤ c.lastResubmittedConfigSequence)
    (hbs : ∀ b ∈ c.ledger.blocks, b.Fits x se log) :
    f.Fits x se log (n + 1) ∧ ∀ b ∈ f.ledger.blocks, b.Fits x se log := by
  obtain ⟨hbe,ha,hg⟩ :=
    noted_committed hf hc h1 cs re fr hq no hh
  have hws := commit_config_writes hd hu
  obtain ⟨o,cg,ks,rfl,_,ho⟩ := commit_config_frame hd hu
  obtain ⟨cl,rd,rfl⟩ := note_resubmission_frame no
  constructor
  · constructor
    · simp only [withOrdering,ho]
      exact hg
    · simp only [withOrdering,ho]
      exact ha
  · intro b hb
    obtain hb | hb := hws b hb
    · exact hbs b hb
    · exact hb.fits hc.mem hc.seq hbe ha hc.ordered

end

theorem fits_time_to_cut {ms : HcsMessageTimeToCut} (hf : c.Fits x se log n)
    (he : c.Faces x se log e n) (hm : e.regular = none)
    (ha : c.processTimeToCutMessage ms e.timestamp e.sequence = .ok (c.withOrdering o,cut))
    (hl : c.createBlock ms = .ok true →
      c.lastResubmittedConfigSequence ≤ c.lastOriginalSequenceProcessed)
    (hbs : ∀ b ∈ c.ledger.blocks, b.Fits x se log) :
    (c.withOrdering o).Fits x se log (n + 1) ∧
      ∀ b ∈ (c.withOrdering o).ledger.blocks, b.Fits x se log := by
  obtain heq | ⟨hd,ho,hws⟩ := process_time_to_cut_cases ha
  · rw [heq]
    refine ⟨⟨hf.gate,hf.consistent.extend he.mem he.seq ?_⟩,hbs⟩
    simp [hm]
  have hle := hl hd
  have hs := he.seq
  have hle' : c.lastResubmittedConfigSequence ≤ e.sequence := by
    have ho := he.original
    omega
  have hc : Consistent x se log c.lastResubmittedConfigSequence e.sequence (n + 1) := by
    rw [← hs]
    exact .cut he.earlier hle'
  constructor
  · constructor
    · rw [ho]
      exact iff_of_true (hf.gate.mpr hle) hle'
    · rw [ho]
      exact hc
  · intro b hb
    obtain hb | hb := hws b hb
    · exact hbs b hb
    · exact hb.fits he.mem hs hf.consistent hc he.ordered

end

/-- The envelope of a config message that is sent again can be read back. -/
def LocalOutcome.RoundTrips (x : Externals) (own : LocalOutcome) : Prop :=
  ∀ out ∈ own.processConfigMsg, x.unmarshalEnvelope (x.marshalEnvelope out.1) = some out.1
deriving Decidable

def Chain.RefusesAhead (x : Externals) (own : LocalOutcome) (c : Chain)
    (msg : HcsMessageRegular) : Prop :=
  msg.cls = .config ∧ (x.unmarshalEnvelope msg.payload).isSome ∧ ¬ c.Consumed msg ∧
    c.Stale msg ∧ msg.originalSeq ≠ 0 ∧ c.lastResubmittedConfigSequence ≤ msg.originalSeq ∧
    (own.processConfigMsg = none ∨ own.enqueue = none)
deriving Decidable

/-- While a config message is awaited, a resubmission is committed that the marker is behind,
or a normal one that it is not ahead of. -/
def Chain.CommitsAhead (x : Externals) (c : Chain) (msg : HcsMessageRegular) : Prop :=
  (x.unmarshalEnvelope msg.payload).isSome ∧ ¬ c.Consumed msg ∧ ¬ c.Stale msg ∧
    c.lastOriginalSequenceProcessed < c.lastResubmittedConfigSequence ∧
    ((msg.cls = .config ∧ c.lastResubmittedConfigSequence < msg.originalSeq) ∨
      (msg.cls = .normal ∧ c.lastResubmittedConfigSequence ≤ msg.originalSeq))
deriving Decidable

def Chain.CutsAhead (c : Chain) (msg : HcsMessageTimeToCut) : Prop :=
  c.lastOriginalSequenceProcessed < c.lastResubmittedConfigSequence ∧ c.createBlock msg = .ok true
deriving Decidable

theorem regular_message {e : Entry} (hm : e.message = some (msg,hash))
    (h : m ∈ e.regular) : msg = .regular m := by
  unfold Entry.regular at h
  rw [hm] at h
  cases msg with
  | regular m' =>
    cases h
    rfl
  | timeToCut | ordererStarted | unset => cases h

theorem resubmission_cases (h : m ∈ Outcome.resubmission outcome) :
    ∃ ms, outcome = .regular ms (.resubmitted m) := by
  unfold Outcome.resubmission at h
  split at h
  · cases h
    exact ⟨_,rfl⟩
  · cases h

theorem handling_resubmission (h : Handling x own ts seq hash c msg c' outcome) :
    ∀ m ∈ outcome.resubmission, m.originalSeq = seq := by
  intro m hm
  obtain ⟨_,rfl⟩ := resubmission_cases hm
  cases h with
  | normal _ _ _ ca => exact (process_normal_resubmitted ca).1
  | configRefused _ _ _ _ _ _ wh =>
    obtain ⟨he,_⟩ | ⟨he,_⟩ := wh
    · cases he
    · cases he
  | configResubmitted => rfl

theorem handling_fits (ho : own.RoundTrips x)
    (h : Handling x own e.timestamp e.sequence hash c msg c' outcome)
    (hme : e.message = some (msg,hash)) (o : c.recollectPendingChunks = false)
    (hf : c.Fits x sent log n) (ha : c.Faces x sent log e n) (hi : c.GatesOld)
    (hbs : ∀ b ∈ c.ledger.blocks, b.Fits x sent log)
    (hu : ∀ m ∈ e.regular, m.configSeq ≤ c.config.sequence)
    (hj : ∀ m, msg = .regular m → ¬ c.RefusesAhead x own m)
    (hk : ∀ m, msg = .regular m → ¬ c.CommitsAhead x m)
    (c1 : ∀ m, msg = .timeToCut m → ¬ c.CutsAhead m) :
    c'.Fits x (outcome.resubmission.toList ++ sent) log (n + 1) ∧
      ∀ b ∈ c'.ledger.blocks, b.Fits x (outcome.resubmission.toList ++ sent) log := by
  have hl : (c'.Fits x sent log (n + 1) ∧ ∀ b ∈ c'.ledger.blocks, b.Fits x sent log) →
      c'.Fits x (outcome.resubmission.toList ++ sent) log (n + 1) ∧
        ∀ b ∈ c'.ledger.blocks, b.Fits x (outcome.resubmission.toList ++ sent) log :=
    fun hs => ⟨hs.1.send _,fun b hb => (hs.2 b hb).send _⟩
  have he : (∀ m, msg = .regular m → m.cls = .config → m.Readable x →
      m.originalSeq ≤ c.lastOriginalSequenceProcessed) →
      Consistent x sent log c.lastResubmittedConfigSequence c.lastOriginalSequenceProcessed
        (n + 1) := by
    intro hno
    refine hf.consistent.extend ha.mem ha.seq ?_
    intro m hm hc hr hlt
    obtain rfl := regular_message hme hm
    exact absurd (hno m rfl hc hr) (not_le.mpr hlt)
  cases h with
  | recollecting on | caughtUp on | recollected on => exact absurd (o.symm.trans on) (by simp)
  | badPayload _ hn =>
    refine hl ⟨⟨hf.gate,he ?_⟩,hbs⟩
    intro m hm _ hr
    cases hm
    simp [HcsMessageRegular.Readable,hn] at hr
  | unsupported _ cs =>
    refine hl ⟨⟨hf.gate,he ?_⟩,hbs⟩
    intro m hm hc _
    cases hm
    simp [cs] at hc
  | @normal _ m _ _ _ cs pa ca =>
    have hg : e.regular = some m := by simp [Entry.regular,hme]
    have hr : m.Readable x := ⟨by simp [pa],.inl cs⟩
    refine hl (fits_normal hf ha hg cs ca ?_ hbs)
    intro hfr hcu hlt
    by_contra hge
    exact hk m rfl ⟨hr.1,hfr,hcu,hlt,.inr ⟨cs,not_lt.mp hge⟩⟩
  | configDiscarded _ _ cd =>
    refine hl ⟨⟨hf.gate,he ?_⟩,hbs⟩
    intro m hm _ _
    cases hm
    exact cd.2
  | @configRefused _ m _ _ _ cs pa f no se wh =>
    have hg : e.regular = some m := by simp [Entry.regular,hme]
    have hr : m.Readable x := ⟨by simp [pa],.inr cs⟩
    refine hl (fits_refused hf ha hg no se ?_ hbs)
    intro hz
    by_contra hge
    exact hj m rfl ⟨cs,hr.1,f,se,hz,not_lt.mp hge,wh.imp And.right And.right⟩
  | configResubmitted _ cs pa f no se va en =>
    exact fits_resubmitted ha hi no se rfl rfl
      ⟨by simp [ho _ va],.inr rfl⟩ hbs
  | @configCommitted _ m _ _ _ _ cs pa f no nt ct ue =>
    have hg : e.regular = some m := by simp [Entry.regular,hme]
    have hr : m.Readable x := ⟨by simp [pa],.inr cs⟩
    have hq : m.configSeq = c.config.sequence := by
      have hle := hu m hg
      unfold Stale at nt
      omega
    refine hl (fits_committed hf ha hg cs hr f hq no ct ue ?_ hbs)
    intro hlt
    by_contra hgt
    exact hk m rfl ⟨hr.1,f,nt,hlt,.inl ⟨cs,not_le.mp hgt⟩⟩
  | timeToCut _ ca =>
    have hg : e.regular = none := by simp [Entry.regular,hme]
    refine hl (fits_time_to_cut hf ha hg ca ?_ hbs)
    intro hd
    by_contra hlt
    exact c1 _ rfl ⟨not_le.mp hlt,hd⟩
  | ordererStarted | unset =>
    refine hl ⟨⟨hf.gate,he ?_⟩,hbs⟩
    intro m hm
    cases hm

theorem note_closes_twice (h : c.noteResubmission msg = .error err) :
    msg.originalSeq ≠ 0 ∧ msg.originalSeq = c.lastResubmittedConfigSequence ∧
      c.doneReprocessingMsgInFlight ∈ c.closedChannels := by
  unfold noteResubmission reprocessComplete at h
  split_ifs at h with hz hl hcl
  exact ⟨hz,hl.1,hcl⟩

theorem update_keys_never_closes
    (h : c.updatePublicKeys x = .error .closeOfClosedChannel) : False := by
  unfold updatePublicKeys at h
  split at h
  · cases h
  split at h
  · cases h
  · cases h

theorem process_config_closes_twice
    (h : c.processConfig x own msg env ts seq = .error .closeOfClosedChannel) :
    c.doneReprocessingMsgInFlight ∈ c.closedChannels ∧
      c.lastOriginalSequenceProcessed < c.lastResubmittedConfigSequence := by
  unfold processConfig at h
  split at h
  · cases h
  rename_i hfr
  cases hn : c.noteResubmission msg with
  | error er =>
    obtain ⟨hz,hl,hcl⟩ := note_closes_twice hn
    refine ⟨hcl,?_⟩
    by_contra hge
    exact hfr ⟨hz,by omega⟩
  | ok d =>
    simp only [hn] at h
    split at h
    · split at h
      · cases h
      split at h
      · cases h
      · cases h
    · split at h
      · rename_i hc
        cases h
        unfold commitConfigMessage at hc
        split at hc <;> cases hc
      split at h
      · rename_i hu
        cases h
        exact (update_keys_never_closes hu).elim
      · cases h

theorem time_to_cut_never_closes
    (h : c.processTimeToCutMessage msg ts seq = .error .closeOfClosedChannel) : False := by
  unfold processTimeToCutMessage at h
  cases hc : c.createBlock msg with
  | error er =>
    simp only [hc] at h
    cases h
    unfold createBlock at hc
    split at hc
    · split_ifs at hc
      cases hc
    · cases hc
    · cases hc
  | ok du =>
    cases du with
    | false => simp [hc] at h
    | true =>
      simp only [hc] at h
      split at h
      · cases h
      · cases h

theorem handle_closes_twice (h : c.handle x own ts seq ms hash = .error .closeOfClosedChannel) :
    c.doneReprocessingMsgInFlight ∈ c.closedChannels ∧ (c.recollectPendingChunks = false →
        c.lastOriginalSequenceProcessed < c.lastResubmittedConfigSequence) := by
  cases hr : c.recollectPendingChunks with
  | true =>
    simp only [handle,hr,if_true,recollect,reprocessComplete] at h
    split_ifs at h with _ _ hcl
    · exact ⟨hcl,by simp⟩
    · cases h
  | false =>
    simp only [handle,hr,Bool.false_eq_true,if_false] at h
    cases ms with
    | regular ms =>
      cases hc : c.processRegularMessage x own ms ts seq hash with
      | ok o => simp [hc] at h
      | error er =>
        simp only [hc] at h
        cases h
        unfold processRegularMessage at hc
        split at hc
        · cases hc
        split at hc
        · cases hc
        · obtain ⟨hcl,hlt⟩ := process_config_closes_twice hc
          exact ⟨hcl,fun _ => hlt⟩
        · cases hc
    | timeToCut ms =>
      cases hc : c.processTimeToCutMessage ms ts seq with
      | ok o => simp [hc] at h
      | error er =>
        simp only [hc] at h
        cases h
        exact (time_to_cut_never_closes hc).elim
    | ordererStarted | unset => cases h

end PluggableHcs.Hcs
