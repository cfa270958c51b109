import PluggableHcs.Gossip.PayloadsBuffer

namespace PluggableHcs.Gossip
open Runs List

/-- The last block asked for, the settings, and what becomes of the blocks received. -/
structure Transfer (β : Type) where
  endSeq : UInt64
  stateBatchSize : UInt64
  stateMaxRetries : Int
  stateBlockBufferSize : Int
  unmarshalBlock : Bytes → Option β
  verifyBlock : UInt64 → β → Bool

inductive Reply where
  | timeout
  | closed
  | message (nonceMatches : Bool) (payloads : List Payload)

structure Attempt where
  ledgerHeights : List (Option UInt64)
  reply : Reply

/-- A response in handleStateResponse: the highest number so far and the payloads that are left.
addPayload has slept so many times over the first of them. -/
structure Handling where
  max : UInt64
  left : List Payload
  slept : Nat

/-- The loops of requestBlocksInRange, with the number of responses accepted so far. -/
structure Requesting where
  prev : UInt64
  tryCounts : Nat
  accepted : Nat
  payloads : PayloadsBuffer
  response : Option Handling

/-- A request with its reply, a round over a payload, and what others do to the buffer. -/
inductive Move where
  | request (attempt : Attempt)
  | payload (heightKnown : Bool)
  | others (payloads : PayloadsBuffer)

section
variable {β : Type} (T : Transfer β)

def Transfer.reads (payload : Payload) : Bool :=
  (T.unmarshalBlock payload.data).any (T.verifyBlock payload.seqNum)

def higher (max : UInt64) (payload : Payload) : UInt64 :=
  if max < payload.seqNum then payload.seqNum else max

def Transfer.full (b : PayloadsBuffer) : Bool := T.stateBlockBufferSize * 2 < b.buf.length

/-- In blocking mode there is nothing to go on with as long as the buffer is full. An unknown height
is an error that is only logged. -/
def Transfer.addPayload (b : PayloadsBuffer) (payload : Payload) (heightKnown : Bool) :
    Option PayloadsBuffer :=
  if !heightKnown then some b else if T.full b then none else some (b.push payload)

namespace Requesting

/-- There is no next state when requestBlocksInRange returns. -/
def request (s : Requesting) (attempt : Attempt) : Option Requesting :=
  if T.endSeq < s.prev ∨ T.stateMaxRetries < s.tryCounts then none
  else
    let next := Gossip.min T.endSeq (s.prev + T.stateBatchSize)
    let tried := { s with tryCounts := s.tryCounts + 1 }
    if attempt.ledgerHeights.all (·.all (· < next)) then none
    else
      match attempt.reply with
      | .timeout | .message false _ | .message true [] => some tried
      | .closed => none
      | .message true (payload :: payloads) =>
        some { tried with response := some ⟨0,payload :: payloads,0⟩ }

/-- A payload that cannot be read or is refused ends the response with an error. The height is asked
for once, before the waiting. -/
def handleStateResponse (s : Requesting) (r : Handling) (heightKnown : Bool) : Option Requesting :=
  match r.left with
  | [] => none
  | payload :: left =>
    if !T.reads payload then some { s with response := none }
    else
      match T.addPayload s.payloads payload (heightKnown || 0 < r.slept) with
      | none => some { s with response := some { r with slept := r.slept + 1 } }
      | some b =>
        if left.isEmpty then some ⟨higher r.max payload + 1,0,s.accepted + 1,b,none⟩
        else some { s with payloads := b, response := some ⟨higher r.max payload,left,0⟩ }

def next (s : Requesting) : Move → Option Requesting
  | .request attempt => if s.response.isNone then s.request T attempt else none
  | .payload heightKnown => s.response.bind fun r => s.handleStateResponse T r heightKnown
  | .others payloads => some { s with payloads := payloads }

def begin (start : UInt64) (payloads : PayloadsBuffer) : Requesting := ⟨start,0,0,payloads,none⟩

def left (s : Requesting) : Nat := s.response.elim 0 (·.left.length)

def slept (s : Requesting) : Nat := s.response.elim 0 (·.slept)

end Requesting

abbrev Requests := Run fun s move t => Requesting.next T s move = some t

def Move.received : Move → List Payload
  | .request ⟨_,.message true payloads⟩ => payloads
  | _ => []

def Move.isRequest : Move → Bool
  | .request _ => true
  | _ => false

def Move.isRound : Move → Bool
  | .payload _ => true
  | _ => false

def requests (es : List (Transition Requesting Move)) : Nat := es.countP (·.label.isRequest)

def rounds (es : List (Transition Requesting Move)) : Nat := es.countP (·.label.isRound)

def received (es : List (Transition Requesting Move)) : Nat :=
  (es.flatMap (·.label.received)).length

/-- The highest number is not before the position and not the highest there is. -/
def Reaches (prev max : UInt64) (payloads : List Payload) : Prop :=
  prev ≤ payloads.foldl higher max ∧ payloads.foldl higher max ≠ maxUint64
deriving Decidable

/-- A response that will be accepted reaches at least the block that was asked for first. -/
def Forward (e : Transition Requesting Move) : Prop :=
  e.label.received ≠ [] → (∀ p ∈ e.label.received, T.reads p = true) →
    Reaches e.before.prev 0 e.label.received
deriving Decidable

/-- There is room in the buffer after so many times of sleeping. -/
def Patient (waits : Nat) (e : Transition Requesting Move) : Prop :=
  e.label.isRound = true → T.full e.before.payloads = true → e.before.slept < waits
deriving Decidable

/-- All the steps, with what they do to the counters. -/
inductive Advance (s : Requesting) : Move → Requesting → Prop
  | missed (inRange : s.prev ≤ T.endSeq) (allowed : s.tryCounts ≤ T.stateMaxRetries)
      (idle : s.response = none) :
      Advance s (.request attempt) { s with tryCounts := s.tryCounts + 1 }
  | answered (inRange : s.prev ≤ T.endSeq) (allowed : s.tryCounts ≤ T.stateMaxRetries)
      (idle : s.response = none) (nonempty : payloads ≠ []) :
      Advance s (.request ⟨heights,.message true payloads⟩)
        { s with tryCounts := s.tryCounts + 1, response := some ⟨0,payloads,0⟩ }
  | refused (busy : s.response = some ⟨highest,payload :: left,slept⟩)
      (bad : T.reads payload = false) : Advance s (.payload known) { s with response := none }
  | sleeps (busy : s.response = some ⟨highest,payload :: left,slept⟩)
      (full : T.full s.payloads = true) :
      Advance s (.payload known) { s with response := some ⟨highest,payload :: left,slept + 1⟩ }
  | added (busy : s.response = some ⟨highest,payload :: left,slept⟩) (good : T.reads payload = true)
      (more : left ≠ []) : Advance s (.payload known)
        { s with payloads := b, response := some ⟨higher highest payload,left,0⟩ }
  | accepted (busy : s.response = some ⟨highest,[payload],slept⟩) (good : T.reads payload = true) :
      Advance s (.payload known) ⟨higher highest payload + 1,0,s.accepted + 1,b,none⟩
  | others : Advance s (.others b) { s with payloads := b }

end

variable {β : Type} {T : Transfer β} {s t u : Requesting} {move : Move}

theorem request_advances (idle : s.response = none) (h : s.request T attempt = some t) :
    Advance T s (.request attempt) t := by
  unfold Requesting.request at h
  split at h
  · cases h
  rename_i hg
  rw [not_or,UInt64.not_lt,Int.not_lt] at hg
  obtain ⟨heights,reply⟩ := attempt
  dsimp only at h
  split at h
  · cases h
  cases reply with
  | timeout =>
    cases h
    exact .missed hg.1 hg.2 idle
  | closed => cases h
  | message nonceMatches payloads =>
    cases nonceMatches with
    | false =>
      cases h
      exact .missed hg.1 hg.2 idle
    | true =>
      cases payloads with
      | nil =>
        cases h
        exact .missed hg.1 hg.2 idle
      | cons payload payloads =>
        cases h
        exact .answered hg.1 hg.2 idle (cons_ne_nil _ _)

theorem add_payload_waits (h : T.addPayload b payload known = none) : T.full b = true := by
  unfold Transfer.addPayload at h
  split at h
  · cases h
  split at h
  · assumption
  · cases h

theorem response_advances {r : Handling} (busy : s.response = some r)
    (h : s.handleStateResponse T r known = some t) : Advance T s (.payload known) t := by
  obtain ⟨max,left,slept⟩ := r
  cases left with
  | nil => cases h
  | cons payload left =>
    simp only [Requesting.handleStateResponse] at h
    cases hr : T.reads payload with
    | false =>
      rw [hr] at h
      cases h
      exact .refused busy hr
    | true =>
      rw [hr] at h
      cases ha : T.addPayload s.payloads payload (known || decide (0 < slept)) with
      | none =>
        rw [ha] at h
        cases h
        exact .sleeps busy (add_payload_waits ha)
      | some b =>
        rw [ha] at h
        cases left with
        | nil =>
          cases h
          exact .accepted busy hr
        | cons next left =>
          cases h
          exact .added busy hr (cons_ne_nil _ _)

theorem next_advances (h : Requesting.next T s move = some t) : Advance T s move t := by
  cases move with
  | request attempt =>
    rw [Requesting.next] at h
    split at h
    · rename_i idle
      exact request_advances (Option.isNone_iff_eq_none.mp idle) h
    · cases h
  | payload known =>
    obtain ⟨r,busy,h⟩ := Option.bind_eq_some_iff.mp h
    exact response_advances busy h
  | others b =>
    cases h
    exact .others

theorem try_counts_le (hs : s.tryCounts ≤ (T.stateMaxRetries + 1).toNat) (h : Requests T s es u) :
    u.tryCounts ≤ (T.stateMaxRetries + 1).toNat := by
  refine (h.invariant (I := fun s => s.tryCounts ≤ (T.stateMaxRetries + 1).toNat) ?_ hs).1
  intro s move t hs h
  cases next_advances h with
  | missed _ allowed | answered _ allowed =>
    dsimp only
    omega
  | refused | sleeps | added | others => exact hs
  | accepted => exact Nat.zero_le _

/-- The tries begin again with each response that is accepted. -/
theorem requests_le (hs : s.tryCounts ≤ (T.stateMaxRetries + 1).toNat) (h : Requests T s es u) :
    requests es + s.accepted * (T.stateMaxRetries + 1).toNat + s.tryCounts ≤
      u.accepted * (T.stateMaxRetries + 1).toNat + u.tryCounts := by
  induction h with
  | nil => simp [requests]
  | @cons s move t es u head tail ih =>
    have ht := try_counts_le hs (.cons head .nil)
    have hi := ih ht
    rw [requests] at hi ⊢
    cases next_advances head with
    | missed | answered =>
      rw [countP_cons_of_pos rfl]
      dsimp only at hi
      omega
    | refused | sleeps | added | others =>
      rw [countP_cons_of_neg (by simp [Move.isRequest])]
      exact hi
    | accepted =>
      rw [countP_cons_of_neg (by simp [Move.isRequest])]
      dsimp only at hi
      rw [Nat.add_mul] at hi
      omega

section
variable {waits : Nat}

/-- A response has payloads left, and the waiting is within its bound. -/
def Waiting (waits : Nat) (s : Requesting) : Prop :=
  ∀ r ∈ s.response, r.left ≠ [] ∧ r.slept ≤ waits

theorem waiting_step (hw : Waiting waits s) (h : Advance T s move t)
    (hp : Patient T waits ⟨s,move,t⟩) : Waiting waits t := by
  cases h with
  | missed | others => exact hw
  | answered _ _ _ nonempty =>
    rintro r ⟨⟩
    exact ⟨nonempty,Nat.zero_le _⟩
  | refused | accepted => rintro r ⟨⟩
  | sleeps busy full =>
    rintro r ⟨⟩
    have hlt := hp rfl full
    simp only [Requesting.slept,busy] at hlt
    exact ⟨cons_ne_nil _ _,hlt⟩
  | added _ _ more =>
    rintro r ⟨⟩
    exact ⟨more,Nat.zero_le _⟩

/-- A round sleeps or is done with a payload, for which there are so many rounds of sleeping. -/
theorem rounds_step (hw : Waiting waits s) (h : Advance T s move t) :
    (if move.isRound then 1 else 0) + t.left * (waits + 1) + s.slept ≤
      (s.left + move.received.length) * (waits + 1) + t.slept := by
  cases h with
  | missed _ _ idle =>
    simp [Requesting.left,Requesting.slept,idle,Move.isRound]
  | answered _ _ idle =>
    simp [Requesting.left,Requesting.slept,idle,Move.received,Move.isRound]
  | others => simp [Requesting.left,Requesting.slept,Move.received,Move.isRound]
  | refused busy | accepted busy | added busy =>
    have hle := (hw _ busy).2
    dsimp only at hle
    simp only [Requesting.left,Requesting.slept,busy,Move.received,Move.isRound,Option.elim,
      length_cons,length_nil,Nat.add_mul,if_true]
    omega
  | sleeps busy =>
    simp only [Requesting.left,Requesting.slept,busy,Move.received,Move.isRound,Option.elim,
      length_nil,Nat.add_zero,if_true]
    omega

theorem rounds_le (hw : Waiting waits s) (h : Requests T s es u)
    (hp : ∀ e ∈ es, Patient T waits e) : Waiting waits u ∧
      rounds es + u.left * (waits + 1) + s.slept ≤
        (s.left + received es) * (waits + 1) + u.slept := by
  induction h with
  | nil => exact ⟨hw,by simp [rounds,received]⟩
  | @cons s move t es u head tail ih =>
    obtain ⟨hfirst,hrest⟩ := forall_mem_cons.mp hp
    have ha := next_advances head
    obtain ⟨hu,hi⟩ := ih (waiting_step hw ha hfirst) hrest
    have hs := rounds_step hw ha
    refine ⟨hu,?_⟩
    rw [rounds,received] at hi ⊢
    rw [countP_cons,flatMap_cons,length_append]
    simp only [Nat.add_mul] at hi hs ⊢
    omega

end

/-- Where a response that will be accepted leads. -/
def Heading (T : Transfer β) (s : Requesting) : Prop :=
  ∀ r ∈ s.response, (∀ p ∈ r.left, T.reads p = true) → Reaches s.prev r.max r.left

theorem heading_step (hh : Heading T s) (h : Advance T s move t) (hf : Forward T ⟨s,move,t⟩) :
    Heading T t := by
  cases h with
  | missed | others => exact hh
  | answered _ _ _ nonempty =>
    rintro r ⟨⟩
    exact hf nonempty
  | refused | accepted => rintro r ⟨⟩
  | sleeps busy =>
    have hb := hh _ busy
    rintro r ⟨⟩
    exact hb
  | added busy good =>
    have hb := hh _ busy
    rintro r ⟨⟩ hr
    exact hb (forall_mem_cons.mpr ⟨good,hr⟩)

/-- One number is passed with each response. -/
theorem accepted_le {start : UInt64} (hle : start ≤ T.endSeq)
    (h : Requests T (.begin start b) es u) (hf : ∀ e ∈ es, Forward T e) :
    u.accepted ≤ T.endSeq.toNat - start.toNat + 1 := by
  have hse := UInt64.le_iff_toNat_le.mp hle
  have hi := h.invariant_when (C := Forward T) (I := fun s => Heading T s ∧
    s.accepted + start.toNat ≤ s.prev.toNat ∧
    (s.response ≠ none → s.prev ≤ T.endSeq) ∧ s.accepted + start.toNat ≤ T.endSeq.toNat + 1)
    (fun e hi hn hf => ?_) ⟨by rintro r ⟨⟩,by simp [Requesting.begin],nofun,
      by simp [Requesting.begin]; omega⟩ hf
  · omega
  obtain ⟨hh,hp,hb,he⟩ := hi
  obtain ⟨s,move,t⟩ := e
  have ha : Advance T s move t := next_advances hn
  refine ⟨heading_step hh ha hf,?_⟩
  cases ha with
  | missed | others => exact ⟨hp,hb,he⟩
  | answered inRange => exact ⟨hp,fun _ => inRange,he⟩
  | refused => exact ⟨hp,fun h => absurd rfl h,he⟩
  | sleeps busy | added busy => exact ⟨hp,fun _ => hb (by simp [busy]),he⟩
  | accepted busy good =>
    obtain ⟨hlo,hhi⟩ := hh _ busy (forall_mem_singleton.mpr good)
    have hr := UInt64.le_iff_toNat_le.mp (hb (by simp [busy]))
    have hlo := UInt64.le_iff_toNat_le.mp hlo
    have hs := succ_toNat (max_toNat hhi)
    simp only [foldl_cons,foldl_nil] at hlo hs
    refine ⟨?_,fun h => absurd rfl h,?_⟩
    · dsimp only at hp ⊢
      omega
    · dsimp only at hp hr ⊢
      omega

/-- As long as every accepted response moves forward, there is at most one for each block, with no
more requests around it than the retries allow. As long as there is room for each payload after some
waiting, the rounds over the payloads are bounded as well. -/
theorem requests_bounded {start : UInt64} {waits : Nat} (hle : start ≤ T.endSeq)
    (h : Requests T (.begin start b) es u) (hf : ∀ e ∈ es, Forward T e)
    (hp : ∀ e ∈ es, Patient T waits e) :
    u.accepted ≤ T.endSeq.toNat - start.toNat + 1 ∧
      requests es ≤ (u.accepted + 1) * (T.stateMaxRetries + 1).toNat ∧
      rounds es ≤ received es * (waits + 1) := by
  have ht := try_counts_le (Nat.zero_le _) h
  have hr := requests_le (Nat.zero_le _) h
  obtain ⟨hw,hro⟩ := rounds_le (by rintro r ⟨⟩) h hp
  refine ⟨accepted_le hle h hf,?_,?_⟩
  · rw [Nat.add_mul]
    omega
  · cases hu : u.response with
    | none =>
      simp only [Requesting.begin,Requesting.left,Requesting.slept,hu,Option.elim,Nat.zero_add] at hro
      omega
    | some r =>
      obtain ⟨hne,hsl⟩ := hw r hu
      have hpos := length_pos_iff.mpr hne
      have hmul := Nat.mul_le_mul_right (waits + 1) hpos
      simp only [Requesting.begin,Requesting.left,Requesting.slept,hu,Option.elim,Nat.zero_add] at hro
      omega

def sampleTransfer (endSeq : UInt64) : Transfer Bytes := ⟨endSeq,1,0,0,some,fun _ _ => true⟩

def answer (numbers : List UInt64) : Move :=
  .request ⟨[some 2],.message true (numbers.map fun n => ⟨n,[],none⟩)⟩

def sampleBegin : Requesting := .begin 1 ⟨1,[],false⟩

/-- The second block has to wait until the first one is taken from the buffer. -/
def sampleRequests : Requesting × List (Transition Requesting Move) :=
  (trace (Requesting.next (sampleTransfer 2)) sampleBegin [answer [1,2],.payload true,.payload true,
    .others ⟨2,[],false⟩,.payload true]).get rfl

theorem sample_requests_bounded : sampleRequests.1.prev = 3 ∧ rounds sampleRequests.2 = 3 ∧
    sampleRequests.1.accepted ≤ 2 ∧ requests sampleRequests.2 ≤ (sampleRequests.1.accepted + 1) * 1 ∧
    rounds sampleRequests.2 ≤ received sampleRequests.2 * 2 := by
  have h : Requests (sampleTransfer 2) sampleBegin sampleRequests.2 sampleRequests.1 :=
    trace_get_run _
  have hp : ∀ e ∈ sampleRequests.2, Patient (sampleTransfer 2) 1 e := by decide
  exact ⟨rfl,rfl,requests_bounded (by decide) h (by decide) hp⟩

/-- A peer that answers with the block before keeps the transfer going for ever. A block that has no
room behind one from the future waits for ever, as the buffer has nothing to deliver. -/
theorem old_block_forever :
    (¬ ∃ n, ∀ es u, Requests (sampleTransfer 1) sampleBegin es u → u.accepted ≤ n) ∧
    ∃ es s, Requests (sampleTransfer 1) sampleBegin es s ∧ s.payloads.pop = none ∧
      ¬ ∃ n, ∀ fs u, Requests (sampleTransfer 1) s fs u → u.slept ≤ n := by
  constructor
  · rintro ⟨n,h⟩
    have hr : ∀ k, ∃ es, Requests (sampleTransfer 1) sampleBegin es
        { sampleBegin with accepted := k } := by
      intro k
      induction k with
      | zero => exact ⟨[],.nil⟩
      | succ k ih =>
        obtain ⟨es,hs⟩ := ih
        have ha : Requesting.next (sampleTransfer 1) { sampleBegin with accepted := k }
            (answer [0]) = some ⟨1,1,k,⟨1,[],false⟩,some ⟨0,[⟨0,[],none⟩],0⟩⟩ := by
          have hm : Gossip.min 1 2 = 1 := rfl
          simp [Requesting.next,Requesting.request,sampleTransfer,sampleBegin,Requesting.begin,
            answer,hm]
        exact ⟨_,(hs.snoc ha).snoc (x := .payload true) rfl⟩
    obtain ⟨es,hs⟩ := hr (n + 1)
    exact Nat.not_succ_le_self n (h es _ hs)
  · have hr : ∀ k, ∃ fs, Requests (sampleTransfer 1)
        ⟨1,1,0,⟨1,[⟨7,[],none⟩],false⟩,some ⟨7,[⟨1,[],none⟩],0⟩⟩ fs
        ⟨1,1,0,⟨1,[⟨7,[],none⟩],false⟩,some ⟨7,[⟨1,[],none⟩],k⟩⟩ := by
      intro k
      induction k with
      | zero => exact ⟨[],.nil⟩
      | succ k ih =>
        obtain ⟨fs,hs⟩ := ih
        exact ⟨_,hs.snoc (x := .payload true) rfl⟩
    refine ⟨_,_,.cons (x := answer [7,1]) rfl (.cons (x := .payload true) rfl .nil),rfl,?_⟩
    rintro ⟨n,h⟩
    obtain ⟨fs,hs⟩ := hr (n + 1)
    exact Nat.not_succ_le_self n (h fs _ hs)

end PluggableHcs.Gossip
