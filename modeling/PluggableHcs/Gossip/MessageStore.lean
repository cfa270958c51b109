import Mathlib.Data.List.Basic

namespace PluggableHcs.Gossip
open List

inductive InvalidationResult where
  | messageNoAction
  | messageInvalidates
  | messageInvalidated
  deriving DecidableEq

open InvalidationResult

structure Msg (α : Type) where
  data : α
  created : Int
  expired : Bool

structure MessageStore (α : Type) where
  messages : List (Msg α)
  expiredCount : Int

section
variable {α : Type} (pol : α → α → InvalidationResult) (msgTTL : Int)

/-- The loop of Add: the messages left, and whether none of them rejects the new one. What was
superseded before a rejection is gone. -/
def scan (message : α) : List (Msg α) → List (Msg α) × Bool
  | [] => ([],true)
  | m :: ms =>
    match pol message m.data with
    | messageInvalidated => (m :: ms,false)
    | messageInvalidates => scan message ms
    | messageNoAction => (m :: (scan message ms).1,(scan message ms).2)

/-- The loop of expireMessages. The clock is read for each message. -/
def expire : (Nat → Int) → List (Msg α) → Int → List (Msg α) × Int
  | _,[],expiredCount => ([],expiredCount)
  | clock,m :: ms,expiredCount =>
    let since := clock 0 - m.created
    let later := expire (clock ∘ Nat.succ) ms
    if !m.expired then
      if msgTTL < since then
        let r := later (expiredCount + 1)
        ({ m with expired := true } :: r.1,r.2)
      else
        let r := later expiredCount
        (m :: r.1,r.2)
    else if msgTTL * 2 < since then later (expiredCount - 1)
    else
      let r := later expiredCount
      (m :: r.1,r.2)

namespace MessageStore
variable (s : MessageStore α)

def add (message : α) (now : Int) : MessageStore α × Bool :=
  let (ms,fits) := scan pol message s.messages
  if fits then ({ s with messages := ms ++ [⟨message,now,false⟩] },true)
  else ({ s with messages := ms },false)

def purge (shouldBePurged : α → Bool) : MessageStore α :=
  if s.messages.any (shouldBePurged ·.data) then
    { s with messages := s.messages.filter (!shouldBePurged ·.data) }
  else s

def expireMessages (clock : Nat → Int) : MessageStore α :=
  let r := expire msgTTL clock s.messages s.expiredCount
  ⟨r.1,r.2⟩

def size : Int := s.messages.length - s.expiredCount

def get : List α := (s.messages.filter (!·.expired)).map Msg.data

def expired : List (Msg α) := s.messages.filter (·.expired)

end MessageStore

inductive StoreCall (α : Type) where
  | add (message : α) (now : Int)
  | purge (shouldBePurged : α → Bool)
  | expireMessages (clock : Nat → Int)

namespace MessageStore

def step (s : MessageStore α) : StoreCall α → MessageStore α
  | .add message now => (s.add pol message now).1
  | .purge shouldBePurged => s.purge shouldBePurged
  | .expireMessages clock => s.expireMessages msgTTL clock

def run (calls : List (StoreCall α)) : MessageStore α := calls.foldl (step pol msgTTL) ⟨[],0⟩

/-- Expired messages leave the store by expireMessages only. -/
def Spares : MessageStore α → List (StoreCall α) → Prop
  | _,[] => True
  | s,call :: calls =>
    let t := s.step pol msgTTL call
    ((∃ clock, call = .expireMessages clock) ∨ t.expired = s.expired) ∧ Spares t calls

end MessageStore
end

namespace MessageStore
variable {α : Type} {pol : α → α → InvalidationResult} {msgTTL : Int}

/-- By how much the counter exceeds the number of expired messages. -/
def excess (s : MessageStore α) : Int := s.expiredCount - s.expired.length

theorem size_eq (s : MessageStore α) : s.size = s.get.length - s.excess := by
  have h := s.messages.length_eq_length_filter_add (·.expired)
  rw [size,get,excess,expired,length_map,h]
  omega

theorem scan_sublist (m : α) (ms : List (Msg α)) : (scan pol m ms).1 <+ ms := by
  induction ms with
  | nil => exact .refl _
  | cons x ms ih =>
    rw [scan]
    split
    · exact .refl _
    · exact .cons _ ih
    · exact .cons_cons _ ih

theorem add_expired (s : MessageStore α) (m : α) (no : Int) :
    (s.add pol m no).1.expired <+ s.expired ∧ (s.add pol m no).1.expiredCount = s.expiredCount := by
  have h : _ <+ s.expired := (@scan_sublist α pol m s.messages).filter (·.expired)
  unfold add
  dsimp only
  split
  · refine ⟨?_,rfl⟩
    rw [expired,filter_append]
    simpa using h
  · exact ⟨h,rfl⟩

theorem purge_expired (s : MessageStore α) (p : α → Bool) :
    (s.purge p).expired <+ s.expired ∧ (s.purge p).expiredCount = s.expiredCount := by
  unfold purge
  split
  · exact ⟨(filter_sublist).filter _,rfl⟩
  · exact ⟨.refl _,rfl⟩

theorem expire_excess (cl : Nat → Int) (ms : List (Msg α)) (n : Int) :
    (expire msgTTL cl ms n).2 - ((expire msgTTL cl ms n).1.filter (·.expired)).length =
      n - (ms.filter (·.expired)).length := by
  induction ms generalizing cl n with
  | nil => rfl
  | cons m ms ih =>
    rw [expire]
    cases hm : m.expired with
    | false =>
      simp only [Bool.not_false,if_true]
      split
      · have := ih (cl ∘ Nat.succ) (n + 1)
        simp [hm]
        omega
      · simpa [hm] using ih (cl ∘ Nat.succ) n
    | true =>
      simp only [Bool.not_true,Bool.false_eq_true,if_false]
      split
      · have := ih (cl ∘ Nat.succ) (n - 1)
        simp [hm]
        omega
      have := ih (cl ∘ Nat.succ) n
      simp [hm]
      omega

theorem step_excess (s : MessageStore α) (ca : StoreCall α) (hs : 0 ≤ s.excess) :
    0 ≤ (s.step pol msgTTL ca).excess ∧ ((s.step pol msgTTL ca).excess = 0 ↔
      s.excess = 0 ∧ ((∃ cl, ca = .expireMessages cl) ∨
        (s.step pol msgTTL ca).expired = s.expired)) := by
  have ke : ∀ t : MessageStore α, t.expired <+ s.expired ∧ t.expiredCount = s.expiredCount →
      0 ≤ t.excess ∧ (t.excess = 0 ↔ s.excess = 0 ∧ t.expired = s.expired) := by
    rintro t ⟨hl,hc⟩
    have hle := hl.length_le
    have heq : t.expired = s.expired ↔ t.expired.length = s.expired.length :=
      ⟨congrArg _,fun h => hl.eq_of_length h⟩
    rw [heq]
    unfold excess at hs ⊢
    omega
  cases ca with
  | add m no => simpa [step] using ke _ (add_expired s m no)
  | purge p => simpa [step] using ke _ (purge_expired s p)
  | expireMessages cl =>
    have he : (s.expireMessages msgTTL cl).excess = s.excess := expire_excess cl s.messages _
    simpa [step,he] using hs

theorem run_excess (s : MessageStore α) (calls : List (StoreCall α)) (hs : 0 ≤ s.excess) :
    (calls.foldl (step pol msgTTL) s).excess = 0 ↔ s.excess = 0 ∧ Spares pol msgTTL s calls := by
  induction calls generalizing s with
  | nil => simp [Spares]
  | cons ca calls ih =>
    obtain ⟨hn,hz⟩ := step_excess s ca hs
    rw [foldl_cons,ih _ hn,hz,Spares,and_assoc]

/-- The size is the number of messages exactly as long as no expired message is superseded or
purged. -/
theorem size_eq_length_iff (pol : α → α → InvalidationResult) (msgTTL : Int)
    (calls : List (StoreCall α)) :
    (run pol msgTTL calls).size = (run pol msgTTL calls).get.length ↔
      Spares pol msgTTL ⟨[],0⟩ calls := by
  have h := @run_excess α pol msgTTL ⟨[],0⟩ calls (Int.le_refl 0)
  rw [size_eq]
  constructor
  · intro hl
    exact (h.mp (by unfold run at hl; omega)).2
  intro hp
  have hz := h.mpr ⟨rfl,hp⟩
  unfold run
  omega

/-- A newer message takes the place of an expired one, or the expired one is purged. -/
theorem superseded_expired_still_counted : ∃ pol : Nat → Nat → InvalidationResult,
      (run pol 1 [.add 0 0,.expireMessages fun _ => 2,.add 1 2]).size = 0 ∧
      (run pol 1 [.add 0 0,.expireMessages fun _ => 2,.add 1 2]).get = [1] ∧
      (run pol 1 [.add 0 0,.expireMessages fun _ => 2,.purge fun _ => true]).size = -1 :=
  ⟨fun a b => if b < a then messageInvalidates else messageInvalidated,by decide,by decide,by decide⟩

end MessageStore
end PluggableHcs.Gossip
