import PluggableHcs.Gossip.MessageStore
import PluggableHcs.Gossip.StateTransfer
import Mathlib.Data.List.Induction
import Mathlib.Data.List.Pairwise

namespace PluggableHcs.Gossip
open List InvalidationResult

structure PeerTime where
  incNum : UInt64
  seqNum : UInt64

inductive StampedKind where
  | aliveMsg
  | stateInfo
  | leadershipMsg
  deriving DecidableEq

/-- Messages with what the comparator reads. -/
inductive GossipMessage where
  | stamped (kind : StampedKind) (pkiId : Bytes) (timestamp : PeerTime)
  | peerIdentity (pkiId : Bytes)
  | dataMsg (seqNum : UInt64)

open GossipMessage

def compareTimestamps (thisTS thatTS : PeerTime) : InvalidationResult :=
  if thisTS.incNum = thatTS.incNum then
    if thatTS.seqNum < thisTS.seqNum then messageInvalidates else messageInvalidated
  else if thisTS.incNum < thatTS.incNum then messageInvalidated
  else messageInvalidates

def dataInvalidationPolicy (dataBlockStorageSize : Nat) (this that : UInt64) : InvalidationResult :=
  if this = that then messageInvalidated
  else
    let diff := if that < this then this - that else that - this
    if diff.toNat ≤ dataBlockStorageSize then messageNoAction
    else if that < this then messageInvalidates
    else messageInvalidated

/-- The policies of the three kinds of messages with a time are the same. -/
def invalidationPolicy (dataBlockStorageSize : Nat) :
    GossipMessage → GossipMessage → InvalidationResult
  | stamped k p t,stamped l q u => if k = l ∧ p = q then compareTimestamps t u else messageNoAction
  | dataMsg n,dataMsg k => dataInvalidationPolicy dataBlockStorageSize n k
  | peerIdentity p,peerIdentity q => if p = q then messageInvalidated else messageNoAction
  | _,_ => messageNoAction

section
variable {α : Type} (pol : α → α → InvalidationResult)

/-- What is superseded and what rejects have an effect on each other, and what was rejected by a
superseded message is rejected by the one that supersedes it. -/
structure Consistent : Prop where
  symm : pol a b = messageNoAction → pol b a = messageNoAction
  apart : pol m a = messageInvalidates → pol m b = messageInvalidated → pol a b ≠ messageNoAction
  self : pol a a = messageInvalidated
  passed : pol m b = messageInvalidates → pol a b = messageInvalidated → pol a m = messageInvalidated

def filled (adds : List (α × Int)) : MessageStore α :=
  adds.foldl (fun s a => (s.add pol a.1 a.2).1) ⟨[],0⟩

/-- The stored messages have no effect on each other, and each one that was added is stored or
rejected by a stored one. -/
structure Newest (added stored : List α) : Prop where
  apart : stored.Pairwise fun a b => pol a b = messageNoAction
  among : stored ⊆ added
  covered : ∀ a ∈ added, ∃ b ∈ stored, pol a b = messageInvalidated

end

section
variable {α : Type} {pol : α → α → InvalidationResult}

/-- Nothing is lost when a message is rejected. -/
theorem scan_eq (hc : Consistent pol) (m : α) {ms : List (Msg α)}
    (hp : (ms.map Msg.data).Pairwise fun a b => pol a b = messageNoAction) :
    (∃ x ∈ ms, pol m x.data = messageInvalidated) ∧ scan pol m ms = (ms,false) ∨
      (∀ x ∈ ms, pol m x.data ≠ messageInvalidated) ∧
        scan pol m ms = (ms.filter (pol m ·.data = messageNoAction),true) := by
  induction ms with
  | nil => exact .inr ⟨fun x hx => (by cases hx),rfl⟩
  | cons x ms ih =>
    rw [map_cons,pairwise_cons] at hp
    rw [scan]
    cases hx : pol m x.data with
    | messageInvalidated => exact .inl ⟨⟨x,mem_cons_self,hx⟩,rfl⟩
    | messageInvalidates =>
      rcases ih hp.2 with ⟨⟨y,hy,hr⟩,_⟩ | ⟨hn,he⟩
      · exact absurd (hp.1 _ (mem_map_of_mem hy)) (hc.apart hx hr)
      · exact .inr ⟨by simpa [hx] using hn,by simp [hx,he]⟩
    | messageNoAction =>
      rcases ih hp.2 with ⟨⟨y,hy,hr⟩,he⟩ | ⟨hn,he⟩
      · exact .inl ⟨⟨y,mem_cons_of_mem _ hy,hr⟩,by simp [he]⟩
      · exact .inr ⟨by simpa [hx] using hn,by simp [hx,he]⟩

theorem add_newest (hc : Consistent pol) {s : MessageStore α} (m : α) (now : Int)
    (h : Newest pol l (s.messages.map Msg.data)) :
    Newest pol (l ++ [m]) ((s.add pol m now).1.messages.map Msg.data) ∧
      ((s.add pol m now).2 = false → (s.add pol m now).1 = s) := by
  rw [MessageStore.add]
  rcases scan_eq hc m h.apart with ⟨⟨x,hx,hr⟩,he⟩ | ⟨hn,he⟩
  · rw [he]
    refine ⟨⟨h.apart,fun a ha => mem_append_left _ (h.among ha),?_⟩,fun _ => rfl⟩
    intro a ha
    rcases mem_append.mp ha with ha | ha
    · exact h.covered a ha
    · rw [mem_singleton.mp ha]
      exact ⟨_,mem_map_of_mem hx,hr⟩
  · rw [he]
    simp only [if_true]
    refine ⟨⟨?_,?_,?_⟩,fun hf => (by cases hf)⟩
    · rw [map_append,pairwise_append]
      refine ⟨h.apart.sublist (filter_sublist.map _),pairwise_singleton _ _,?_⟩
      simp only [mem_map,mem_filter,decide_eq_true_eq]
      rintro _ ⟨x,⟨_,hx⟩,rfl⟩ _ ⟨y,hy,rfl⟩
      rw [mem_singleton.mp hy]
      exact hc.symm hx
    · rw [map_append]
      exact append_subset.mpr ⟨fun a ha => mem_append_left _
        (h.among ((filter_sublist.map _).subset ha)),fun a ha => mem_append_right _ ha⟩
    · intro a ha
      rcases mem_append.mp ha with ha | ha
      · obtain ⟨_,hb,hr⟩ := h.covered a ha
        obtain ⟨x,hx,rfl⟩ := mem_map.mp hb
        cases hp : pol m x.data with
        | messageInvalidated => exact absurd hp (hn x hx)
        | messageInvalidates => exact ⟨m,by simp,hc.passed hp hr⟩
        | messageNoAction => exact ⟨x.data,by simp; exact .inl ⟨x,⟨hx,hp⟩,rfl⟩,hr⟩
      · rw [mem_singleton.mp ha]
        exact ⟨m,by simp,hc.self⟩

theorem filled_newest (hc : Consistent pol) (adds : List (α × Int)) :
    Newest pol (adds.map Prod.fst) ((filled pol adds).messages.map Msg.data) := by
  induction adds using List.reverseRecOn with
  | nil => exact ⟨.nil,nil_subset _,fun a ha => (by cases ha)⟩
  | append_singleton adds a ih =>
    rw [filled,foldl_append,map_append]
    exact (add_newest hc a.1 a.2 ih).1

theorem Newest.no_action {a b : α} (h : Newest pol l ms) (hc : Consistent pol) (ha : a ∈ ms)
    (hb : b ∈ ms) (hne : a ≠ b) : pol a b = messageNoAction := by
  have : Std.Symm fun a b => pol a b = messageNoAction := ⟨fun _ _ => hc.symm⟩
  exact h.apart.forall ha hb hne

end

/-- The incarnation and the sequence number as one number. -/
def PeerTime.rank (t : PeerTime) : Nat := t.incNum.toNat * 2 ^ 64 + t.seqNum.toNat

theorem compare_eq (t u : PeerTime) : compareTimestamps t u =
    if u.rank < t.rank then messageInvalidates else messageInvalidated := by
  have ht := t.seqNum.toNat_lt
  have hu := u.seqNum.toNat_lt
  unfold compareTimestamps PeerTime.rank
  simp only [← UInt64.toNat_inj,UInt64.lt_iff_toNat_lt]
  split_ifs <;> first | rfl | omega

theorem data_eq (w : Nat) (n k : UInt64) : dataInvalidationPolicy w n k =
    if k.toNat + w < n.toNat then messageInvalidates
    else if n.toNat = k.toNat ∨ n.toNat + w < k.toNat then messageInvalidated
    else messageNoAction := by
  unfold dataInvalidationPolicy
  by_cases he : n = k
  · simp [he]
  rw [if_neg he]
  have hne := mt UInt64.toNat_inj.mp he
  by_cases hl : k < n
  · have := UInt64.lt_iff_toNat_lt.mp hl
    simp only [hl,if_true,UInt64.toNat_sub_of_le _ _ (UInt64.le_of_lt hl)]
    split_ifs <;> first | rfl | omega
  have hk := UInt64.not_lt.mp hl
  have := UInt64.le_iff_toNat_le.mp hk
  simp only [hl,if_false,UInt64.toNat_sub_of_le _ _ hk]
  split_ifs <;> first | rfl | omega

theorem stamped_rejected (h : invalidationPolicy w (stamped k p t) b = messageInvalidated) :
    ∃ u, b = stamped k p u ∧ t.rank ≤ u.rank := by
  cases b with
  | stamped l q u =>
    rw [invalidationPolicy,compare_eq] at h
    split_ifs at h with he hl
    obtain ⟨rfl,rfl⟩ := he
    exact ⟨u,rfl,Nat.le_of_not_lt hl⟩
  | peerIdentity q | dataMsg n => cases h

theorem data_rejected (h : invalidationPolicy w (dataMsg n) b = messageInvalidated) :
    ∃ k, b = dataMsg k ∧ (n.toNat = k.toNat ∨ n.toNat + w < k.toNat) := by
  cases b with
  | dataMsg k =>
    rw [invalidationPolicy,data_eq] at h
    split_ifs at h with _ hk
    exact ⟨k,rfl,hk⟩
  | peerIdentity q | stamped l q u => cases h

/-- Messages of one peer always have an effect on each other. -/
theorem stamped_acts (w : Nat) (k : StampedKind) (p : Bytes) (t u : PeerTime) :
    invalidationPolicy w (stamped k p t) (stamped k p u) ≠ messageNoAction := by
  rw [invalidationPolicy,if_pos ⟨rfl,rfl⟩,compare_eq]
  split <;> simp

theorem superseded (h : invalidationPolicy w m a = messageInvalidates) :
    (∃ k p t u, m = stamped k p t ∧ a = stamped k p u ∧ u.rank < t.rank) ∨
      ∃ n j, m = dataMsg n ∧ a = dataMsg j ∧ j.toNat + w < n.toNat := by
  cases m <;> cases a <;> simp only [invalidationPolicy,compare_eq,data_eq,reduceCtorEq] at h
  · split_ifs at h with he hl
    obtain ⟨rfl,rfl⟩ := he
    exact .inl ⟨_,_,_,_,rfl,rfl,hl⟩
  · split_ifs at h
  · split_ifs at h with hl
    exact .inr ⟨_,_,rfl,rfl,hl⟩

theorem policy_consistent (w : Nat) : Consistent (invalidationPolicy w) where
  symm := by
    intro a b h
    cases a <;> cases b <;> simp only [invalidationPolicy,compare_eq,data_eq] at h ⊢
    all_goals split_ifs at h ⊢ <;> first | rfl | omega | simp_all
  self := by
    intro a
    cases a <;> simp [invalidationPolicy,compare_eq,data_eq]
  apart := by
    intro m a b ha hb
    rcases superseded ha with ⟨k,p,t,u,rfl,rfl,_⟩ | ⟨n,j,rfl,rfl,hl⟩
    · obtain ⟨v,rfl,_⟩ := stamped_rejected hb
      exact stamped_acts w k p u v
    · obtain ⟨i,rfl,hi⟩ := data_rejected hb
      rw [invalidationPolicy,data_eq,if_neg (by omega),if_pos (by omega)]
      simp
  passed := by
    intro m b a hb ha
    cases a with
    | stamped k p t =>
      obtain ⟨u,rfl,hu⟩ := stamped_rejected ha
      rcases superseded hb with ⟨l,q,v,_,rfl,⟨⟩,hl⟩ | ⟨n,j,_,h,_⟩
      · rw [invalidationPolicy,if_pos ⟨rfl,rfl⟩,compare_eq,if_neg (by omega)]
      · cases h
    | dataMsg n =>
      obtain ⟨k,rfl,hk⟩ := data_rejected ha
      rcases superseded hb with ⟨l,q,v,_,_,h,_⟩ | ⟨i,j,rfl,⟨⟩,hl⟩
      · cases h
      · rw [invalidationPolicy,data_eq,if_neg (by omega),if_pos (by omega)]
    | peerIdentity p =>
      rcases superseded hb with ⟨l,q,v,u,_,rfl,_⟩ | ⟨i,j,_,rfl,_⟩ <;> cases ha

/-- Stored messages have no effect on each other, a rejected one changes nothing, and stored are the
newest of each peer and the blocks within the window of the highest. -/
theorem store_keeps_newest (w : Nat) (adds : List (GossipMessage × Int)) :
    let s := filled (invalidationPolicy w) adds
    let stored := s.messages.map Msg.data
    let added := adds.map Prod.fst
    stored.Pairwise (fun a b => invalidationPolicy w a b = messageNoAction ∧
      invalidationPolicy w b a = messageNoAction) ∧ stored.Nodup ∧
    (∀ m now, (s.add (invalidationPolicy w) m now).2 = false →
      (s.add (invalidationPolicy w) m now).1 = s) ∧
    (∀ k p t, stamped k p t ∈ added → ∃ u, stamped k p u ∈ stored ∧
      ∀ v, stamped k p v ∈ added → v.rank ≤ u.rank) ∧
    ∀ n, dataMsg n ∈ added → (∀ k, dataMsg k ∈ added → k ≤ n) →
      ∀ k, dataMsg k ∈ stored → n.toNat ≤ k.toNat + w := by
  have hc := policy_consistent w
  have h := filled_newest hc adds
  refine ⟨h.apart.imp fun hn => ⟨hn,hc.symm hn⟩,h.apart.imp ?_,
    fun m now => (add_newest hc m now h).2,?_,?_⟩
  · rintro a _ hn rfl
    rw [hc.self] at hn
    cases hn
  · intro k p t ht
    obtain ⟨b,hb,hr⟩ := h.covered _ ht
    obtain ⟨u,rfl,_⟩ := stamped_rejected hr
    refine ⟨u,hb,fun v hv => ?_⟩
    obtain ⟨b',hb',hr'⟩ := h.covered _ hv
    obtain ⟨u',rfl,hle⟩ := stamped_rejected hr'
    by_cases he : stamped k p u' = stamped k p u
    · cases he
      exact hle
    have hn := h.no_action hc hb' hb he
    rw [invalidationPolicy,if_pos ⟨rfl,rfl⟩,compare_eq] at hn
    split_ifs at hn
  · intro n hn hg k hk
    obtain ⟨b,hb,hr⟩ := h.covered _ hn
    obtain ⟨j,rfl,hj⟩ := data_rejected hr
    have hjn := UInt64.le_iff_toNat_le.mp (hg j (h.among hb))
    have he : n = j := UInt64.toNat_inj.mp (by omega)
    subst he
    by_cases hkn : dataMsg n = dataMsg k
    · cases hkn
      exact Nat.le_add_right _ _
    have ha := h.no_action hc hb hk hkn
    rw [invalidationPolicy,data_eq] at ha
    split_ifs at ha
    omega

end PluggableHcs.Gossip
