import PluggableHcs.Hcs.Messages

namespace PluggableHcs.Hcs
open List

/-- The pending batch is nil exactly when it is empty, and has size zero then; its start time only
feeds a metric and is left out. -/
structure Receiver where
  pendingBatch : List Envelope
  pendingBatchSizeBytes : Nat
  empty_size : pendingBatch = [] → pendingBatchSizeBytes = 0
deriving DecidableEq

open Receiver

def newReceiverImpl : Receiver := ⟨[],0,fun _ => rfl⟩

/-- Lengths are added as Go ints and converted to a uint32. -/
def messageSizeBytes (message : Envelope) : Nat :=
  (message.payload.length + message.signature.length) % 2 ^ 32

section
variable (r : Receiver)

def Receiver.cut : List Envelope × Receiver := (r.pendingBatch,newReceiverImpl)

def Receiver.push (msg : Envelope) : Receiver :=
  ⟨r.pendingBatch ++ [msg],(r.pendingBatchSizeBytes + messageSizeBytes msg) % 2 ^ 32,by simp⟩

variable (size : BatchSize)

variable (msg : Envelope)

def Oversize : Prop :=
  size.preferredMaxBytes < messageSizeBytes msg
deriving Decidable

/-- The message does not fit into what is left of the pending batch. The sum is a uint32. -/
def Receiver.Overflows : Prop :=
  size.preferredMaxBytes < (r.pendingBatchSizeBytes + messageSizeBytes msg) % 2 ^ 32
deriving Decidable

structure OrderedResult where
  receiver : Receiver
  messageBatches : List (List Envelope)
  pending : Bool
deriving DecidableEq

def Receiver.ordered : OrderedResult :=
  if Oversize size msg then
    if r.pendingBatch.length > 0 then ⟨r.cut.2,[r.cut.1,[msg]],false⟩ else ⟨r,[[msg]],false⟩
  else
    let (batches,r) := if r.Overflows size msg then ([r.cut.1],r.cut.2) else ([],r)
    let r := r.push msg
    if r.pendingBatch.length % 2 ^ 32 ≥ size.maxMessageCount then
      ⟨r.cut.2,batches ++ [r.cut.1],false⟩
    else ⟨r,batches,true⟩

def Receiver.Joins : Prop :=
  ¬ Oversize size msg ∧ ¬ r.Overflows size msg ∧
    (r.pendingBatch.length + 1) % 2 ^ 32 < size.maxMessageCount
deriving Decidable

def Receiver.LeavesPending : Prop :=
  ¬ Oversize size msg ∧ r.Overflows size msg ∧ 1 < size.maxMessageCount
deriving Decidable

def Receiver.CutsTwo : Prop :=
  (Oversize size msg ∧ r.pendingBatch ≠ []) ∨
    (¬ Oversize size msg ∧ r.Overflows size msg ∧ size.maxMessageCount ≤ 1)
deriving Decidable

def Receiver.CutsOne : Prop :=
  (Oversize size msg ∧ r.pendingBatch = []) ∨ (¬ Oversize size msg ∧ ¬ r.Overflows size msg ∧
      size.maxMessageCount ≤ (r.pendingBatch.length + 1) % 2 ^ 32)

end

variable {r : Receiver}

theorem Receiver.overflow_pending (hs : ¬ Oversize size msg)
    (ho : r.Overflows size msg) : r.pendingBatch ≠ [] := by
  intro he
  have hz := r.empty_size he
  simp only [Overflows,Oversize,hz,Nat.zero_add] at ho hs
  omega

theorem ordered_joins (h : r.Joins size msg) : r.ordered size msg = ⟨r.push msg,[],true⟩ := by
  obtain ⟨hs,ho,hc⟩ := h
  simp only [ordered,hs,ho,↓reduceIte,push,length_append,length_cons,
    length_nil,Nat.zero_add,ge_iff_le,Nat.not_le.mpr hc]

theorem ordered_leaves_pending (h : r.LeavesPending size msg) :
    r.ordered size msg = ⟨newReceiverImpl.push msg,[r.pendingBatch],true⟩ := by
  obtain ⟨hs,ho,hc⟩ := h
  simpa [ordered,hs,ho,cut,push,newReceiverImpl] using hc

theorem ordered_cuts_two (h : r.CutsTwo size msg) :
    r.ordered size msg = ⟨newReceiverImpl,[r.pendingBatch,[msg]],false⟩ := by
  obtain ⟨hs,hp⟩ | ⟨hs,ho,hc⟩ := h
  · have hl : 0 < r.pendingBatch.length := length_pos_iff.mpr hp
    simp [ordered,hs,hl,cut]
  · simpa [ordered,hs,ho,cut,push,newReceiverImpl] using hc

theorem ordered_cuts_one (h : r.CutsOne size msg) :
    r.ordered size msg = ⟨newReceiverImpl,[r.pendingBatch ++ [msg]],false⟩ := by
  obtain ⟨hs,hp⟩ | ⟨hs,ho,hc⟩ := h
  · have hz := r.empty_size hp
    obtain ⟨ba,bs,_⟩ := r
    subst hp hz
    simp [ordered,hs,newReceiverImpl]
  · simpa [ordered,hs,ho,cut,push] using hc

def Receiver.LeavesOut (r : Receiver) (size : BatchSize) (msg : Envelope) : Prop :=
  r.LeavesPending size msg ∨ r.CutsTwo size msg
deriving Decidable

theorem joins_not_leaves_out (h : r.Joins size msg) : ¬ r.LeavesOut size msg := by
  obtain ⟨hs,ho,_⟩ := h
  simp [LeavesOut,LeavesPending,CutsTwo,hs,ho]

theorem cuts_one_not_leaves_out (h : r.CutsOne size msg) : ¬ r.LeavesOut size msg := by
  obtain ⟨hs,hp⟩ | ⟨hs,ho,_⟩ := h
  · simp [LeavesOut,LeavesPending,CutsTwo,hs,hp]
  · simp [LeavesOut,LeavesPending,CutsTwo,hs,ho]

theorem cuts_two_not_leaves_pending (h : r.CutsTwo size msg) : ¬ r.LeavesPending size msg := by
  intro hl
  obtain ⟨hs,_,hc⟩ := hl
  obtain ⟨hs',_⟩ | ⟨_,_,hc'⟩ := h
  · exact hs hs'
  · omega

theorem cuts_one_not_joins (h : r.CutsOne size msg) : ¬ r.Joins size msg := by
  intro hj
  obtain ⟨hs,_,hc⟩ := hj
  obtain ⟨hs',_⟩ | ⟨_,_,hc'⟩ := h
  · exact hs hs'
  · omega

theorem leaves_out_pending (h : r.LeavesOut size msg) : r.pendingBatch ≠ [] := by
  obtain ⟨hs,ho,_⟩ | ⟨_,hp⟩ | ⟨hs,ho,_⟩ := h
  · exact r.overflow_pending hs ho
  · exact hp
  · exact r.overflow_pending hs ho

theorem ordered_cases (r : Receiver) (si : BatchSize) (msg : Envelope) :
    r.Joins si msg ∨ r.LeavesPending si msg ∨ r.CutsTwo si msg ∨ r.CutsOne si msg := by
  unfold Joins LeavesPending CutsTwo CutsOne
  by_cases hs : Oversize si msg <;> by_cases ho : r.Overflows si msg <;>
    by_cases hp : r.pendingBatch = [] <;> simp [hs,ho,hp] <;> omega

inductive CutterCall
  | ordered (size : BatchSize) (msg : Envelope)
  | cut

def CutterCall.given : CutterCall → List Envelope
  | .ordered _ msg => [msg]
  | .cut => []

def Receiver.call (r : Receiver) : CutterCall → Receiver × List (List Envelope)
  | .ordered size msg => ((r.ordered size msg).receiver,(r.ordered size msg).messageBatches)
  | .cut => (r.cut.2,[r.cut.1])

def Receiver.calls (r : Receiver) : List CutterCall → Receiver × List (List Envelope)
  | [] => (r,[])
  | c :: cs => (((r.call c).1.calls cs).1,(r.call c).2 ++ ((r.call c).1.calls cs).2)

theorem Receiver.calls_keep {P : Receiver → Prop} {Q : List Envelope → Prop} (hr : P r)
    (hs : ∀ c ∈ cs, ∀ r : Receiver, P r → P (r.call c).1 ∧ ∀ b ∈ (r.call c).2, Q b) :
    P (r.calls cs).1 ∧ ∀ b ∈ (r.calls cs).2, Q b := by
  induction cs generalizing r with
  | nil => exact ⟨hr,by simp [calls]⟩
  | cons c cs ih =>
    obtain ⟨hp,hq⟩ := hs c mem_cons_self r hr
    obtain ⟨hp,hq'⟩ := ih hp fun c hc => hs c (mem_cons_of_mem _ hc)
    exact ⟨hp,forall_mem_append.mpr ⟨hq,hq'⟩⟩

theorem Receiver.calls_conserve (r : Receiver) (cs : List CutterCall) :
    (r.calls cs).2.flatten ++ (r.calls cs).1.pendingBatch =
      r.pendingBatch ++ cs.flatMap CutterCall.given := by
  induction cs generalizing r with
  | nil => simp [calls]
  | cons c cs ih =>
    have hc : (r.call c).2.flatten ++ (r.call c).1.pendingBatch = r.pendingBatch ++ c.given := by
      cases c with
      | cut => simp [call,cut,newReceiverImpl,CutterCall.given]
      | ordered si ms =>
        obtain h | h | h | h := ordered_cases r si ms
        · simp [call,ordered_joins h,push,CutterCall.given]
        · simp [call,ordered_leaves_pending h,push,newReceiverImpl,CutterCall.given]
        · simp [call,ordered_cuts_two h,newReceiverImpl,CutterCall.given]
        · simp [call,ordered_cuts_one h,newReceiverImpl,CutterCall.given]
    rw [calls,flatten_append,append_assoc,ih,← append_assoc,hc,flatMap_cons,append_assoc]

/-- The batches are not empty, and the result is one of those the consenters branch on. -/
structure OrderedResult.Tabled (o : OrderedResult) : Prop where
  batches : ∀ b ∈ o.messageBatches, b ≠ []
  table : (o.messageBatches.length,o.pending) ∈ [(0,true),(1,true),(1,false),(2,false)]
  pending_iff : o.pending = true ↔ o.receiver.pendingBatch ≠ []

theorem ordered_tabled (r : Receiver) (si : BatchSize) (ms : Envelope) :
    (r.ordered si ms).Tabled := by
  obtain h | h | h | h := ordered_cases r si ms
  · rw [ordered_joins h]
    exact ⟨by simp,by simp,by simp [push]⟩
  · rw [ordered_leaves_pending h]
    exact ⟨by simpa using leaves_out_pending (.inl h),by simp,by simp [push]⟩
  · rw [ordered_cuts_two h]
    exact ⟨by simpa using leaves_out_pending (.inr h),by simp,by simp [newReceiverImpl]⟩
  · rw [ordered_cuts_one h]
    exact ⟨by simp,by simp,by simp [newReceiverImpl]⟩

theorem Receiver.call_limited (hr : r.pendingBatch.length < n) (hn : n < 2 ^ 32)
    (hc : ∀ si ms, c = .ordered si ms → si.maxMessageCount = n) :
    (r.call c).1.pendingBatch.length < n ∧ ∀ b ∈ (r.call c).2, b.length ≤ n := by
  cases c with
  | cut =>
    simp only [call,cut,newReceiverImpl,length_nil,mem_singleton,forall_eq]
    omega
  | ordered si ms =>
    have hs := hc si ms rfl
    have hm : (r.pendingBatch.length + 1) % 2 ^ 32 = r.pendingBatch.length + 1 :=
      Nat.mod_eq_of_lt (by omega)
    obtain h | h | h | h := ordered_cases r si ms
    · have := h.2.2
      simp only [call,ordered_joins h,push,length_append,length_singleton,not_mem_nil]
      exact ⟨by omega,fun b hb => hb.elim⟩
    · have := h.2.2
      simp [call,ordered_leaves_pending h,push,newReceiverImpl]
      omega
    · simp [call,ordered_cuts_two h,newReceiverImpl]
      omega
    · simp [call,ordered_cuts_one h,newReceiverImpl]
      omega

/-- Nothing is lost, repeated or put in another order, every call of Ordered obeys its table, and
a limit that does not change is kept. -/
theorem cutter_conserves (calls : List CutterCall) :
    (newReceiverImpl.calls calls).2.flatten ++ (newReceiverImpl.calls calls).1.pendingBatch =
        calls.flatMap CutterCall.given ∧
      (∀ size msg, ((newReceiverImpl.calls calls).1.ordered size msg).Tabled) ∧
      ∀ n, 1 ≤ n → n < 2 ^ 32 → (∀ size msg, .ordered size msg ∈ calls → size.maxMessageCount = n) →
        (newReceiverImpl.calls calls).1.pendingBatch.length ≤ n ∧
          ∀ b ∈ (newReceiverImpl.calls calls).2, b.length ≤ n := by
  refine ⟨calls_conserve _ _,ordered_tabled _,fun n hp hn hs => ?_⟩
  have hl := calls_keep (P := fun r => r.pendingBatch.length < n)
    (Q := fun b => b.length ≤ n) (r := newReceiverImpl) hp fun c hc r hr =>
      r.call_limited hr hn fun size msg he => hs size msg (he ▸ hc)
  exact ⟨hl.1.le,hl.2⟩

def Envelope.size (msg : Envelope) : Nat := msg.payload.length + msg.signature.length

def totalSize (batch : List Envelope) : Nat := (batch.map Envelope.size).sum

def Receiver.Exact (r : Receiver) (limit : Nat) : Prop :=
  r.pendingBatchSizeBytes = totalSize r.pendingBatch ∧ totalSize r.pendingBatch ≤ limit

theorem new_exact : newReceiverImpl.Exact limit := ⟨rfl,Nat.zero_le _⟩

theorem Receiver.Exact.pushed (hr : r.Exact limit) (hl : limit < 2 ^ 32) (hms : msg.size < 2 ^ 32)
    (h : r.pendingBatchSizeBytes + messageSizeBytes msg ≤ limit) : (r.push msg).Exact limit := by
  have hm : messageSizeBytes msg = msg.size := Nat.mod_eq_of_lt hms
  have hp : totalSize (r.push msg).pendingBatch = totalSize r.pendingBatch + msg.size := by
    simp [push,totalSize]
  have he := hr.1
  rw [hm] at h
  refine ⟨?_,by omega⟩
  rw [hp,← he,← hm]
  exact Nat.mod_eq_of_lt (by omega)

theorem Receiver.Exact.called (hr : r.Exact limit) (hl : limit < 2 ^ 31)
    (hc : ∀ si ms, c = .ordered si ms → si.preferredMaxBytes = limit ∧ ms.size < 2 ^ 32) :
    (r.call c).1.Exact limit ∧ ∀ b ∈ (r.call c).2, 1 < b.length → totalSize b ≤ limit := by
  have hp : 1 < r.pendingBatch.length → totalSize r.pendingBatch ≤ limit := fun _ => hr.2
  cases c with
  | cut => exact ⟨new_exact,by simpa [call,cut] using hp⟩
  | ordered si ms =>
    obtain ⟨rfl,hm⟩ := hc si ms rfl
    have hb := hr.1.trans_le hr.2
    have hf (hs : ¬ Oversize si ms) (ho : ¬ r.Overflows si ms) :
        (r.push ms).Exact si.preferredMaxBytes := by
      simp only [Oversize,Overflows] at hs ho
      rw [Nat.mod_eq_of_lt (by omega)] at ho
      exact hr.pushed (by omega) hm (by omega)
    obtain h | h | h | h := ordered_cases r si ms
    · rw [call,ordered_joins h]
      exact ⟨hf h.1 h.2.1,by simp⟩
    · rw [call,ordered_leaves_pending h]
      have hs := h.1
      unfold Oversize at hs
      refine ⟨new_exact.pushed (by omega) hm ?_,by simpa using hp⟩
      simpa [newReceiverImpl] using hs
    · rw [call,ordered_cuts_two h]
      exact ⟨new_exact,by simpa using hp⟩
    · rw [call,ordered_cuts_one h]
      refine ⟨new_exact,?_⟩
      obtain ⟨_,hn⟩ | ⟨hs,ho,_⟩ := h
      · simp [hn]
      · exact forall_mem_singleton.mpr fun _ => (hf hs ho).2

/-- With a count of one every message is cut on its own. -/
theorem Receiver.call_single (hr : r.pendingBatch = [])
    (hc : ∀ si ms, c = .ordered si ms → si.maxMessageCount = 1) :
    (r.call c).1.pendingBatch = [] ∧ ∀ b ∈ (r.call c).2, b.length ≤ 1 := by
  cases c with
  | cut => simp [call,cut,newReceiverImpl,hr]
  | ordered si ms =>
    have hone := hc si ms rfl
    obtain h | h | h | h := ordered_cases r si ms
    · have := h.2.2
      simp [hr,hone] at this
    · exact absurd hr (leaves_out_pending (.inl h))
    · exact absurd hr (leaves_out_pending (.inr h))
    · simp [call,ordered_cuts_one h,newReceiverImpl,hr]

theorem big_message : ∃ msg : Envelope, msg.size = 2 ^ 31 ∧ messageSizeBytes msg = 2 ^ 31 := by
  obtain ⟨payload,hl⟩ : ∃ payload : Bytes, payload.length = 2 ^ 31 := ⟨_,length_replicate (a := 0)⟩
  exact ⟨⟨payload,[]⟩,hl,by simp [messageSizeBytes,hl]⟩

theorem big_joins (hm : messageSizeBytes msg = 2 ^ 31) (hl : 2 ^ 31 ≤ limit) (hn : 1 < n) :
    newReceiverImpl.Joins ⟨n,limit⟩ msg := by
  simp [Joins,Oversize,Overflows,hm,newReceiverImpl]
  omega

/-- Two messages of 2^31 bytes have size 0 together, so the second one never overflows. -/
theorem big_wraps (hm : messageSizeBytes msg = 2 ^ 31) (hl : 2 ^ 31 ≤ limit) (hn : 1 < n) :
    [msg,msg] ∈ (newReceiverImpl.calls [.ordered ⟨n,limit⟩ msg,.ordered ⟨n,limit⟩ msg,.cut]).2 := by
  have hs : ¬ Oversize ⟨n,limit⟩ msg := by
    simp only [Oversize,hm]
    omega
  have ho : ¬ (newReceiverImpl.push msg).Overflows ⟨n,limit⟩ msg := by
    simp [Overflows,push,hm,newReceiverImpl]
  by_cases h : n = 2
  · have hc : (newReceiverImpl.push msg).CutsOne ⟨n,limit⟩ msg :=
      .inr ⟨hs,ho,by simp [push,newReceiverImpl,h]⟩
    simp only [calls,call,ordered_joins (big_joins hm hl hn),ordered_cuts_one hc]
    simp [push,newReceiverImpl]
  · have hj : (newReceiverImpl.push msg).Joins ⟨n,limit⟩ msg :=
      ⟨hs,ho,by simp [push,newReceiverImpl]; omega⟩
    simp only [calls,call,ordered_joins (big_joins hm hl hn),ordered_joins hj]
    simp [push,newReceiverImpl,cut]

/-- A batch of several messages is within the preferred size, and the recorded size of the pending
one is exact, exactly for limits whose sums do not wrap or where no batch has several messages. -/
theorem batches_within_limit (limit : Nat) (counts : Nat → Prop) (fits : limit < 2 ^ 32)
    (positive : ∀ n, counts n → 1 ≤ n) :
    (∀ calls : List CutterCall, (∀ size msg, .ordered size msg ∈ calls →
        size.preferredMaxBytes = limit ∧ counts size.maxMessageCount ∧ msg.size < 2 ^ 32) →
      (newReceiverImpl.calls calls).1.pendingBatchSizeBytes =
          totalSize (newReceiverImpl.calls calls).1.pendingBatch ∧
        ∀ b ∈ (newReceiverImpl.calls calls).2, 1 < b.length → totalSize b ≤ limit) ↔
      (limit < 2 ^ 31 ∨ ∀ n, counts n → n = 1) := by
  constructor
  · intro h
    by_contra! hw
    obtain ⟨hl,n,hn,hne⟩ := hw
    have hp := positive n hn
    obtain ⟨msg,hs,hm⟩ := big_message
    have ht := (h [.ordered ⟨n,limit⟩ msg,.ordered ⟨n,limit⟩ msg,.cut] (by simp [hn,hs])).2 _
      (big_wraps hm hl (by omega)) (by simp)
    simp [totalSize,hs] at ht
    omega
  rintro (low | single) calls sizes
  · have ha := calls_keep (P := fun r => r.Exact limit) new_exact fun c hc r hr =>
      hr.called low fun size msg he =>
        ⟨(sizes size msg (he ▸ hc)).1,(sizes size msg (he ▸ hc)).2.2⟩
    exact ⟨ha.1.1,ha.2⟩
  · have ha := calls_keep (P := fun r => r.pendingBatch = []) (Q := fun b => b.length ≤ 1)
      (r := newReceiverImpl) rfl fun c hc r hr => call_single hr fun size msg he =>
        single _ (sizes size msg (he ▸ hc)).2.1
    refine ⟨?_,fun b hb hl => absurd (ha.2 b hb) (by omega)⟩
    rw [ha.1,empty_size _ ha.1]
    rfl

/-- The third message does not fit, and the two before it are cut together. -/
theorem two_within_limit : let calls := replicate 3 (.ordered ⟨4,5⟩ ⟨[1],[2]⟩)
    (newReceiverImpl.calls calls).2 = [[⟨[1],[2]⟩,⟨[1],[2]⟩]] ∧
      totalSize [⟨[1],[2]⟩,⟨[1],[2]⟩] ≤ 5 ∧
      (newReceiverImpl.calls calls).1.pendingBatchSizeBytes =
        totalSize (newReceiverImpl.calls calls).1.pendingBatch := by
  intro calls
  have hb : (newReceiverImpl.calls calls).2 = [[⟨[1],[2]⟩,⟨[1],[2]⟩]] := by decide
  have h := (batches_within_limit 5 (· = 4) (by decide) (by omega)).mpr (.inl (by decide)) calls (by
    simp [calls,replicate,Envelope.size])
  exact ⟨hb,h.2 _ (by rw [hb]; simp) (by simp),h.1⟩

/-- Two messages of 2^31 bytes have size 0 together. -/
theorem sizes_wrap : ∃ msg r, msg.size = 2 ^ 31 ∧ totalSize [msg,msg] = 2 ^ 32 ∧
    newReceiverImpl.calls [.ordered ⟨3,2 ^ 31⟩ msg,.ordered ⟨3,2 ^ 31⟩ msg] = (r,[]) ∧
    r.pendingBatchSizeBytes = 0 ∧ r.cut.1 = [msg,msg] := by
  obtain ⟨msg,hs,hb⟩ := big_message
  have hf : newReceiverImpl.Joins ⟨3,2 ^ 31⟩ msg := big_joins hb (by decide) (by decide)
  have hse : (newReceiverImpl.push msg).Joins ⟨3,2 ^ 31⟩ msg := by
    simp [Joins,Oversize,Overflows,push,hb,newReceiverImpl]
  refine ⟨_,(newReceiverImpl.push msg).push msg,hs,?_,?_,?_,rfl⟩
  · simp [totalSize,hs]
  · simp only [calls,call,ordered_joins hf,ordered_joins hse,append_nil]
  · simp [push,newReceiverImpl,hb]

end PluggableHcs.Hcs
