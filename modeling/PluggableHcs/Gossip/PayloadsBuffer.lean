import Mathlib.Data.List.Nodup
import PluggableHcs.Lib.Runs
import PluggableHcs.Gossip.StateTransfer

namespace PluggableHcs.Gossip
open Runs List Option

structure RawBlock where
  header : Option UInt64
  data : Option (List Bytes)

/-- How a peer reads what it is sent, with the remaining checks of VerifyBlock. -/
structure Peer (τ : Type) where
  unmarshalBlock : Bytes → Option RawBlock
  unmarshalPvtData : Bytes → Option τ
  remainingChecks : RawBlock → Bool

open Peer

structure PayloadsBuffer where
  next : UInt64
  buf : List Payload
  ready : Bool

open PayloadsBuffer

namespace PayloadsBuffer

def takes (b : PayloadsBuffer) (payload : Payload) : Bool :=
  !(payload.seqNum < b.next || b.buf.any fun q => q.seqNum = payload.seqNum)

def push (b : PayloadsBuffer) (payload : Payload) : PayloadsBuffer :=
  if b.takes payload then
    {b with buf := payload :: b.buf, ready := b.ready || payload.seqNum = b.next}
  else b

/-- The number advances with the payload; an empty buffer drains the ready channel. -/
def pop (b : PayloadsBuffer) : Option (Payload × PayloadsBuffer) :=
  (b.buf.find? fun q => q.seqNum = b.next).map fun payload =>
    let buf := b.buf.filter fun q => q.seqNum ≠ b.next
    (payload,⟨b.next + 1,buf,b.ready && !buf.isEmpty⟩)

end PayloadsBuffer

inductive Delivery
  | waiting
  | popping
  | holding (payload : Payload)
  | stopped

def Delivery.held : Delivery → Option Payload
  | .holding payload => some payload
  | _ => none

inductive CommitResult
  | stored
  | executionFailure
  | failure
deriving DecidableEq

/-- A failed execution ends the goroutine and any other failure panics. -/
def CommitResult.goesOn : CommitResult → Delivery
  | .stored => .popping
  | .executionFailure => .stopped
  | .failure => .stopped

variable {τ : Type}

/-- The state provider, with the blocks it has handed to commitBlock. -/
structure Provider (τ : Type) where
  buffer : PayloadsBuffer
  loop : Delivery
  handed : List (RawBlock × List τ)

def Provider.initial (height : UInt64) : Provider τ := ⟨⟨height,[],false⟩,.waiting,[]⟩

def Provider.numbers (s : Provider τ) : List (Option UInt64) := s.handed.map fun b => b.1.header

inductive Event
  | push (payload : Payload)
  | receive
  | pop
  | commit (result : CommitResult)
  | stop

def Event.delivers : Event → Bool
  | .receive => true
  | .pop => true
  | .commit result => result = .stored
  | _ => false

variable (peer : Peer τ)

def Peer.verifyBlock (seqNum : UInt64) (block : RawBlock) : Bool :=
  block.header = some seqNum && block.data.any (!·.isEmpty) && peer.remainingChecks block

def Peer.verified (payload : Payload) : Bool :=
  (peer.unmarshalBlock payload.data).any (peer.verifyBlock payload.seqNum)

def Peer.readPayload (payload : Payload) : Option (RawBlock × List τ) := do
  let rawBlock ← peer.unmarshalBlock payload.data
  guard (rawBlock.data.isSome && rawBlock.header.isSome)
  let pvtData ← (payload.privateData.getD []).mapM peer.unmarshalPvtData
  pure (rawBlock,pvtData)

/-- Pushes come at any time; all other steps are those of the one goroutine. -/
def Peer.step (s : Provider τ) : Event → Option (Provider τ)
  | .push payload =>
    if peer.verified payload then some {s with buffer := s.buffer.push payload} else none
  | .receive =>
    match s.loop with
    | .waiting =>
      if s.buffer.ready then
        some {s with buffer := {s.buffer with ready := false}, loop := .popping}
      else none
    | _ => none
  | .pop =>
    match s.loop with
    | .popping =>
      match s.buffer.pop with
      | none => some {s with loop := .waiting}
      | some (payload,buffer) => some {s with buffer, loop := .holding payload}
    | _ => none
  | .commit result =>
    match s.loop with
    | .holding payload =>
      match peer.readPayload payload with
      | none => some {s with loop := .popping}
      | some block => some {s with handed := s.handed ++ [block], loop := result.goesOn}
    | _ => none
  | .stop =>
    match s.loop with
    | .waiting => some {s with loop := .stopped}
    | _ => none

inductive Stepped : Provider τ → Event → Provider τ → Prop
  | push (verified : peer.verified p = true) :
    Stepped ⟨b,loop,handed⟩ (.push p) ⟨b.push p,loop,handed⟩
  | receive (ready : b.ready = true) :
    Stepped ⟨b,.waiting,handed⟩ .receive ⟨{b with ready := false},.popping,handed⟩
  | empty (none : b.pop = none) : Stepped ⟨b,.popping,handed⟩ .pop ⟨b,.waiting,handed⟩
  | pop (found : b.pop = some (p,b')) : Stepped ⟨b,.popping,handed⟩ .pop ⟨b',.holding p,handed⟩
  | dropped (unread : peer.readPayload p = none) :
    Stepped ⟨b,.holding p,handed⟩ (.commit result) ⟨b,.popping,handed⟩
  | commit (read : peer.readPayload p = some block) :
    Stepped ⟨b,.holding p,handed⟩ (.commit result) ⟨b,result.goesOn,handed ++ [block]⟩
  | stop : Stepped ⟨b,.waiting,handed⟩ .stop ⟨b,.stopped,handed⟩

variable {peer}

theorem Peer.step_stepped (h : peer.step s x = some t) : Stepped peer s x t := by
  obtain ⟨b,l,ha⟩ := s
  cases x with
  | push p =>
    obtain ⟨hv,heq⟩ := ite_none_right_eq_some.mp h
    cases heq
    exact .push hv
  | receive =>
    cases l with
    | waiting =>
      obtain ⟨hre,heq⟩ := ite_none_right_eq_some.mp h
      cases heq
      exact .receive hre
    | _ => cases h
  | pop =>
    cases l with
    | popping =>
      simp only [step] at h
      split at h
      · rename_i hp
        cases h
        exact .empty hp
      rename_i hp
      cases h
      exact .pop hp
    | _ => cases h
  | commit re =>
    cases l with
    | holding p =>
      simp only [step] at h
      split at h
      · rename_i hr
        cases h
        exact .dropped hr
      rename_i hr
      cases h
      exact .commit hr
    | _ => cases h
  | stop =>
    cases l with
    | waiting =>
      cases h
      exact .stop
    | _ => cases h

variable {b : PayloadsBuffer}

theorem PayloadsBuffer.pop_found (h : b.pop = some (p,b')) :
    p ∈ b.buf ∧ p.seqNum = b.next ∧ b'.next = b.next + 1 ∧ ∀ q ∈ b'.buf, q ∈ b.buf := by
  obtain ⟨q,hf,heq⟩ := map_eq_some_iff.mp h
  cases heq
  refine ⟨mem_of_find?_eq_some hf,?_,rfl,fun q hq => mem_of_mem_filter hq⟩
  have hd := List.find?_some hf
  exact of_decide_eq_true hd

theorem PayloadsBuffer.pop_none (h : b.pop = none) (hp : p ∈ b.buf) : p.seqNum ≠ b.next := by
  have hf := List.find?_eq_none.mp (map_eq_none_iff.mp h) p hp
  exact fun heq => hf (decide_eq_true heq)

theorem PayloadsBuffer.push_mem (h : q ∈ (b.push p).buf) :
    q ∈ b.buf ∨ q = p ∧ b.takes p = true := by
  unfold PayloadsBuffer.push at h
  split at h
  · rename_i ht
    rcases mem_cons.mp h with heq | hq
    · exact .inr ⟨heq,ht⟩
    · exact .inl hq
  · exact .inl h

@[simp] theorem PayloadsBuffer.push_next (b : PayloadsBuffer) : (b.push p).next = b.next := by
  unfold PayloadsBuffer.push
  split <;> rfl

theorem PayloadsBuffer.push_has (h : b.next ≤ p.seqNum) :
    ∃ q ∈ (b.push p).buf, q.seqNum = p.seqNum ∧ (q = p ∨ q ∈ b.buf) := by
  unfold PayloadsBuffer.push
  split
  · exact ⟨p,mem_cons_self,rfl,.inl rfl⟩
  rename_i ht
  rw [PayloadsBuffer.takes,Bool.not_eq_true,Bool.not_eq_false',Bool.or_eq_true] at ht
  rcases ht with hlt | ha
  · exact absurd (of_decide_eq_true hlt) (UInt64.not_lt.mpr h)
  · obtain ⟨q,hq,heq⟩ := List.any_eq_true.mp ha
    exact ⟨q,hq,of_decide_eq_true heq,.inr hq⟩

def Provider.Awake (s : Provider τ) : Prop :=
  s.loop = .waiting → ∀ p ∈ s.buffer.buf, p.seqNum = s.buffer.next → s.buffer.ready = true

theorem PayloadsBuffer.push_ready (hq : q ∈ (b.push p).buf) (hn : q.seqNum = b.next)
    (ha : ∀ q ∈ b.buf, q.seqNum = b.next → b.ready = true) : (b.push p).ready = true := by
  rcases push_mem hq with ho | ⟨rfl,ht⟩
  · have hr := ha q ho hn
    unfold PayloadsBuffer.push
    split
    · exact Bool.or_eq_true_iff.mpr (.inl hr)
    · exact hr
  · unfold PayloadsBuffer.push
    rw [if_pos ht]
    exact Bool.or_eq_true_iff.mpr (.inr (decide_eq_true hn))

theorem Stepped.awake (h : Stepped peer s x t) (awake : s.Awake) : t.Awake := by
  cases h with
  | push =>
    intro hl q hq hn
    rw [push_next] at hn
    exact push_ready hq hn (awake hl)
  | empty none =>
    intro _ q hq hn
    exact absurd hn (pop_none none hq)
  | @commit _ _ _ _ re =>
    intro hl
    cases re <;> cases hl
  | _ =>
    intro hl
    cases hl

def numbersFrom (height : UInt64) (n : Nat) : List (Option UInt64) :=
  (List.range n).map fun i => some (height + UInt64.ofNat i)

theorem numbersFrom_succ :
    numbersFrom height (n + 1) = numbersFrom height n ++ [some (height + UInt64.ofNat n)] := by
  simp [numbersFrom,range_succ]

theorem numbersFrom_nodup (h : n ≤ 2 ^ 64) : (numbersFrom height n).Nodup := by
  refine List.Nodup.map_on (fun i hi j hj heq => ?_) nodup_range
  have hi' := mem_range.mp hi
  have hj' := mem_range.mp hj
  have ho := (UInt64.add_right_inj height).mp (Option.some.inj heq)
  have ht := congrArg UInt64.toNat ho
  rwa [UInt64.toNat_ofNat_of_lt' (Nat.lt_of_lt_of_le hi' h),
    UInt64.toNat_ofNat_of_lt' (Nat.lt_of_lt_of_le hj' h)] at ht

theorem numbersFrom_append_left (h : xs ++ ys = numbersFrom height (xs ++ ys).length) :
    xs = numbersFrom height xs.length := by
  have ht := congrArg (List.take xs.length) h
  rw [take_left,numbersFrom,← map_take,take_range,
    Nat.min_eq_left (by rw [length_append]; omega)] at ht
  exact ht

def Provider.taken (s : Provider τ) : List (Option UInt64) :=
  s.numbers ++ (s.loop.held.map fun p => some p.seqNum).toList

def Peer.Readable (peer : Peer τ) (p : Payload) : Prop :=
  peer.verified p = true ∧ (peer.readPayload p).isSome

/-- All that is buffered can be read, and the numbers are taken one after the other. -/
structure Provider.Ordered (peer : Peer τ) (height : UInt64) (s : Provider τ) : Prop where
  buffered : ∀ p ∈ s.buffer.buf, peer.Readable p
  holding : ∀ p, s.loop = .holding p → peer.Readable p
  taken : s.taken = numbersFrom height s.taken.length
  next : s.buffer.next = height + UInt64.ofNat s.taken.length

theorem Provider.initial_ordered : (Provider.initial height : Provider τ).Ordered peer height where
  buffered := forall_mem_nil _
  holding := by
    intro p hp
    cases hp
  taken := rfl
  next := (UInt64.add_zero height).symm

theorem Peer.read_number (hv : peer.verified p = true) (hr : peer.readPayload p = some block) :
    block.1.header = some p.seqNum := by
  obtain ⟨rb,hb,hr⟩ := bind_eq_some_iff.mp hr
  obtain ⟨_,_,hr⟩ := bind_eq_some_iff.mp hr
  obtain ⟨_,_,hr⟩ := bind_eq_some_iff.mp hr
  cases hr
  rw [Peer.verified,hb,any_some,verifyBlock,Bool.and_eq_true,Bool.and_eq_true] at hv
  exact of_decide_eq_true hv.1.1

def TakesReadable (peer : Peer τ) (e : Transition (Provider τ) Event) : Prop :=
  ∀ p, e.label = .push p → e.before.buffer.takes p = true → (peer.readPayload p).isSome

theorem Stepped.ordered (h : Stepped peer s x t)
    (hc : ∀ p, x = .push p → s.buffer.takes p = true → (peer.readPayload p).isSome)
    (ordered : s.Ordered peer height) : t.Ordered peer height := by
  obtain ⟨bu,hg,ta,next⟩ := ordered
  cases h with
  | push ve =>
    refine ⟨fun q hq => ?_,hg,ta,?_⟩
    · rcases push_mem hq with ho | ⟨rfl,hta⟩
      · exact bu q ho
      · exact ⟨ve,hc q rfl hta⟩
    · rw [push_next]
      exact next
  | receive | empty => exact ⟨bu,fun p hp => (by cases hp),ta,next⟩
  | @pop p b' b ha f =>
    obtain ⟨hm,hs,he,hr⟩ := pop_found f
    have hp := bu p hm
    have ht : Provider.taken (⟨b',.holding p,ha⟩ : Provider τ) =
        Provider.taken (⟨b,.popping,ha⟩ : Provider τ) ++ [some b.next] := by
      rw [← hs]
      simp [Provider.taken,Provider.numbers,Delivery.held]
    refine ⟨fun q hq => bu q (hr q hq),fun q hq => (by cases hq; exact hp),?_,?_⟩
    · rw [ht,length_append,length_singleton,numbersFrom_succ,← ta]
      exact congrArg (fun n => _ ++ [some n]) next
    rw [ht,length_append,length_singleton]
    have hb : b.next = _ := next
    rw [he,hb,UInt64.add_assoc,UInt64.ofNat_add]
    rfl
  | dropped un =>
    have := (hg _ rfl).2
    rw [un] at this
    cases this
  | @commit p bl b ha re rd =>
    have ht : Provider.taken (⟨b,re.goesOn,ha ++ [bl]⟩ : Provider τ) =
        Provider.taken (⟨b,.holding p,ha⟩ : Provider τ) := by
      have hn := read_number (hg p rfl).1 rd
      cases re <;>
        simp [Provider.taken,Provider.numbers,Delivery.held,CommitResult.goesOn,hn]
    refine ⟨bu,fun q hq => (by cases re <;> cases hq),?_,?_⟩
    · rw [ht]
      exact ta
    · rw [ht]
      exact next
  | stop => exact ⟨bu,fun p hp => (by cases hp),ta,next⟩

theorem Provider.Ordered.numbers {s : Provider τ} (h : s.Ordered peer height) :
    s.numbers = numbersFrom height s.handed.length := by
  have hn := numbersFrom_append_left h.taken
  rwa [Provider.numbers,length_map] at hn

theorem pops_next (hp : p ∈ b.buf) (he : p.seqNum = b.next)
    (hu : ∀ p ∈ b.buf, peer.Readable p) (ha : List (RawBlock × List τ)) :
    ∃ u fs, trace peer.step ⟨b,.popping,ha⟩ [.pop,.commit .stored] = some (u,fs) ∧
      some b.next ∈ u.numbers := by
  cases hpo : b.pop with
  | none => exact absurd he (pop_none hpo hp)
  | some o =>
    obtain ⟨q,b'⟩ := o
    obtain ⟨hm,hs,_,_⟩ := pop_found hpo
    obtain ⟨hv,hr⟩ := hu q hm
    obtain ⟨bl,hb⟩ := isSome_iff_exists.mp hr
    have hn := read_number hv hb
    have hc : peer.step ⟨b',.holding q,ha⟩ (.commit .stored) = some ⟨b',.popping,ha ++ [bl]⟩ := by
      simp only [step,hb,CommitResult.goesOn]
    have ht : peer.step ⟨b,.popping,ha⟩ .pop = some ⟨b',.holding q,ha⟩ := by
      simp only [step,hpo]
    refine ⟨_,_,trace_cons ht (trace_cons hc rfl),?_⟩
    simp [Provider.numbers,hn,hs]

theorem Provider.Ordered.delivers (h : s.Ordered peer height) (hw : s.Awake)
    (hp : p ∈ s.buffer.buf) (hn : p.seqNum = s.buffer.next) (hl : s.loop ≠ .stopped) :
    ∃ xs u fs, xs.all Event.delivers = true ∧ trace peer.step s xs = some (u,fs) ∧
      some s.buffer.next ∈ u.numbers := by
  obtain ⟨b,l,ha⟩ := s
  cases l with
  | waiting =>
    have hr : b.ready = true := hw rfl p hp hn
    obtain ⟨u,fs,ht,hm⟩ := pops_next (b := {b with ready := false}) hp hn h.buffered ha
    exact ⟨[.receive,.pop,.commit .stored],u,_,rfl,trace_cons (if_pos hr) ht,hm⟩
  | popping =>
    obtain ⟨u,fs,ht,hm⟩ := pops_next hp hn h.buffered ha
    exact ⟨[.pop,.commit .stored],u,fs,rfl,ht,hm⟩
  | holding q =>
    obtain ⟨bl,hb⟩ := isSome_iff_exists.mp (h.holding q rfl).2
    obtain ⟨u,fs,ht,hm⟩ := pops_next hp hn h.buffered (ha ++ [bl])
    have hc : peer.step ⟨b,.holding q,ha⟩ (.commit .stored) = some ⟨b,.popping,ha ++ [bl]⟩ := by
      simp only [step,hb,CommitResult.goesOn]
    exact ⟨[.commit .stored,.pop,.commit .stored],u,_,rfl,trace_cons hc ht,hm⟩
  | stopped => exact absurd rfl hl

/-- As long as every payload in the buffer can be read, blocks are handed over in order and without
a gap, a good payload has its number handed over, and no wake-up is lost. -/
theorem payloads_delivered (peer : Peer τ) (height : UInt64)
    (h : Run (fun s x t => peer.step s x = some t) (.initial height) es s)
    (readable : ∀ e ∈ es, TakesReadable peer e) :
    s.numbers = numbersFrom height s.handed.length ∧ (s.handed.length ≤ 2 ^ 64 → s.numbers.Nodup) ∧
      (∀ p, (peer.readPayload p).isSome → s.buffer.next ≤ p.seqNum →
        ∃ q ∈ (s.buffer.push p).buf, q.seqNum = p.seqNum ∧ (peer.readPayload q).isSome) ∧
      (∀ p ∈ s.buffer.buf, p.seqNum = s.buffer.next → s.loop ≠ .stopped →
        ∃ xs u fs, xs.all Event.delivers = true ∧ trace peer.step s xs = some (u,fs) ∧
          some s.buffer.next ∈ u.numbers) ∧
      s.Awake := by
  obtain ⟨o,_⟩ := h.invariant_when (I := Provider.Ordered peer height)
    (fun _ hs hst hc => (step_stepped hst).ordered hc hs) Provider.initial_ordered readable
  obtain ⟨aw,_⟩ := h.invariant (I := Provider.Awake)
    (fun _ _ _ hs hst => (step_stepped hst).awake hs)
    (fun _ => forall_mem_nil _)
  refine ⟨o.numbers,fun hl => ?_,fun p hr hn => ?_,fun p hp hn al => ?_,aw⟩
  · rw [o.numbers]
    exact numbersFrom_nodup hl
  · obtain ⟨q,hq,hse,ho⟩ := push_has hn
    refine ⟨q,hq,hse,?_⟩
    rcases ho with rfl | ho
    · exact hr
    · exact (o.buffered q ho).2
  · exact o.delivers aw hp hn al

def samplePeer : Peer UInt8 where
  unmarshalBlock
    | [n] => some ⟨some n.toUInt64,some [[n]]⟩
    | _ => none
  unmarshalPvtData
    | [1,x] => some x
    | _ => none
  remainingChecks := fun _ => true

def sampleEvents : List Event :=
  [.push ⟨6,[6],none⟩,.push ⟨5,[5],some [[1,7]]⟩,.receive,.push ⟨5,[5],none⟩,.pop,
    .push ⟨5,[5],some [[0]]⟩,.commit .stored,.pop,.commit .stored]

def sampleDelivery : Provider UInt8 × List (Transition (Provider UInt8) Event) :=
  (trace samplePeer.step (.initial 5) sampleEvents).get rfl

theorem sample_takes_readable : ∀ e ∈ sampleDelivery.2, TakesReadable samplePeer e := by
  have ha : sampleDelivery.2.all (fun e =>
      match e.label with
      | .push p => !e.before.buffer.takes p || (samplePeer.readPayload p).isSome
      | _ => true) = true := by
    decide
  intro e he p hp ht
  have h := List.all_eq_true.mp ha e he
  rw [hp] at h
  simpa [ht] using h

theorem sample_delivered : sampleDelivery.1.numbers = [some 5,some 6] ∧
    sampleDelivery.1.numbers = numbersFrom 5 sampleDelivery.1.handed.length ∧
      sampleDelivery.1.Awake := by
  have h := payloads_delivered samplePeer 5 (trace_get_run rfl) sample_takes_readable
  exact ⟨by decide,h.1,h.2.2.2.2⟩

/-- A payload with unreadable private data takes the place of block 5: a good one of the number is
thrown away and block 6 is handed over. -/
theorem unreadable_payload_skipped : ∃ s es, trace samplePeer.step (.initial 5)
        [.push ⟨5,[5],some [[0]]⟩,.receive,.pop,.commit .stored,.push ⟨5,[5],some [[1,7]]⟩,
          .push ⟨6,[6],none⟩,.pop,.commit .stored] = some (s,es) ∧
      s.numbers = [some 6] :=
  ⟨_,_,rfl,rfl⟩

end PluggableHcs.Gossip
