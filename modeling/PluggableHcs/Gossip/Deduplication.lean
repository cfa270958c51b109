import PluggableHcs.Gossip.MsgComparator

namespace PluggableHcs.Gossip
open List InvalidationResult GossipMessage MessageStore

section
variable {α : Type} (pol : α → α → InvalidationResult) (msgTTL : Int)

def MessageStore.checkValid (s : MessageStore α) (message : α) : Bool :=
  s.messages.all (pol message ·.data ≠ messageInvalidated)

/-- Calls within twice the time to live that purge nothing that rejects the message. -/
def StoreCall.Within (message : α) (now : Int) : StoreCall α → Prop
  | .add _ later => now ≤ later
  | .purge shouldBePurged => ∀ a, pol message a = messageInvalidated → shouldBePurged a = false
  | .expireMessages clock => ∀ i, clock i ≤ now + msgTTL * 2

def Apart (s : MessageStore α) : Prop :=
  (s.messages.map Msg.data).Pairwise fun a b => pol a b = messageNoAction

def Rejects (m : α) (now : Int) (s : MessageStore α) : Prop :=
  ∃ x ∈ s.messages, pol m x.data = messageInvalidated ∧ now ≤ x.created

end

variable {α : Type} {pol : α → α → InvalidationResult} {msgTTL : Int} {s : MessageStore α}

def Msg.stamp (m : Msg α) : α × Int := (m.data,m.created)

theorem expire_keeps (msgTTL : Int) (cl : Nat → Int) (ms : List (Msg α)) (n : Int) :
    (expire msgTTL cl ms n).1.map Msg.stamp <+ ms.map Msg.stamp ∧
      ∀ x ∈ ms, (∀ i, cl i ≤ x.created + msgTTL * 2) →
        x.stamp ∈ (expire msgTTL cl ms n).1.map Msg.stamp := by
  induction ms generalizing cl n with
  | nil => exact ⟨.slnil,fun x hx => (by cases hx)⟩
  | cons m ms ih =>
    rw [expire]
    dsimp only
    split_ifs with _ _ hlt
    on_goal 3 =>
      refine ⟨(ih _ _).1.cons _,forall_mem_cons.mpr ⟨fun ht => ?_,fun x hx ht => ?_⟩⟩
      · have := ht 0
        omega
      · exact (ih _ _).2 x hx fun i => ht (i + 1)
    all_goals
      refine ⟨(ih _ _).1.cons_cons _,forall_mem_cons.mpr ⟨fun _ => .head _,
        fun x hx ht => .tail _ ?_⟩⟩
      exact (ih _ _).2 x hx fun i => ht (i + 1)

theorem step_apart (hc : Consistent pol) (ca : StoreCall α) (h : Apart pol s) :
    Apart pol (s.step pol msgTTL ca) := by
  cases ca with
  | add m no => exact (add_newest hc m no ⟨h,fun _ => id,fun a ha => ⟨a,ha,hc.self⟩⟩).1.apart
  | purge p =>
    rw [step,purge]
    split
    · exact h.sublist (filter_sublist.map _)
    · exact h
  | expireMessages cl =>
    have hl := (expire_keeps msgTTL cl s.messages s.expiredCount).1.map Prod.fst
    rw [map_map,map_map] at hl
    exact h.sublist hl

/-- What supersedes the message that rejects takes its place. -/
theorem step_rejects (hc : Consistent pol) {ca : StoreCall α} (h : Apart pol s)
    (hr : Rejects pol m no s) (hw : ca.Within pol msgTTL m no) :
    Rejects pol m no (s.step pol msgTTL ca) := by
  obtain ⟨x,hx,hm,hn⟩ := hr
  cases ca with
  | add a la =>
    rw [step,add]
    rcases scan_eq hc a h with ⟨_,he⟩ | ⟨ha,he⟩
    · rw [he]
      exact ⟨x,hx,hm,hn⟩
    rw [he]
    cases hp : pol a x.data with
    | messageInvalidated => exact absurd hp (ha x hx)
    | messageInvalidates => exact ⟨⟨a,la,false⟩,by simp,hc.passed hp hm,hw⟩
    | messageNoAction => exact ⟨x,by simp [hx,hp],hm,hn⟩
  | purge p =>
    rw [step,purge]
    split
    · exact ⟨x,by simp [hx,hw _ hm],hm,hn⟩
    · exact ⟨x,hx,hm,hn⟩
  | expireMessages cl =>
    have hk := (expire_keeps msgTTL cl s.messages s.expiredCount).2 x hx
      fun i => Int.le_trans (hw i) (Int.add_le_add_right hn _)
    obtain ⟨y,hy,he⟩ := mem_map.mp hk
    obtain ⟨hd,ht⟩ := Prod.mk.inj he
    exact ⟨y,hy,hd ▸ hm,ht ▸ hn⟩

/-- A message that was accepted is refused for twice the time to live, also after newer ones have
taken its place and after it has expired. -/
theorem accepted_once (consistent : Consistent pol) (before after : List (StoreCall α))
    (accepted : ((run pol msgTTL before).add pol message now).2 = true)
    (within : ∀ call ∈ after, call.Within pol msgTTL message now) :
    let s := run pol msgTTL (before ++ .add message now :: after)
    s.checkValid pol message = false ∧ ∀ later, s.add pol message later = (s,false) := by
  have ha : Apart pol (run pol msgTTL before) :=
    foldlRecOn before _ .nil fun s h ca _ => step_apart consistent ca h
  have hr : Rejects pol message now ((run pol msgTTL before).add pol message now).1 := by
    rcases scan_eq consistent message ha with ⟨_,he⟩ | ⟨_,he⟩
    all_goals rw [add,he] at accepted ⊢
    · cases accepted
    · exact ⟨⟨message,now,false⟩,by simp,consistent.self,Int.le_refl _⟩
  intro s
  have hs : Apart pol s ∧ Rejects pol message now s := by
    unfold s
    rw [run,foldl_append,foldl_cons]
    apply foldlRecOn (motive := fun t => Apart pol t ∧ Rejects pol message now t)
    · exact ⟨step_apart consistent _ ha,hr⟩
    · intro t h ca hm
      exact ⟨step_apart consistent ca h.1,step_rejects consistent h.1 h.2 (within ca hm)⟩
  obtain ⟨hs,x,hx,hm,_⟩ := hs
  refine ⟨?_,fun later => ?_⟩
  · rw [checkValid,all_eq_false]
    exact ⟨x,hx,by simp [hm]⟩
  rcases scan_eq consistent message hs with ⟨_,he⟩ | ⟨hn,_⟩
  · rw [add,he]
    rfl
  · exact absurd hm (hn x hx)

theorem block_accepted_once : (run (invalidationPolicy 1) 5 [.add (dataMsg 3) 0,
    .add (dataMsg 5) 1,.expireMessages fun _ => 9]).checkValid (invalidationPolicy 1) (dataMsg 3) =
      false :=
  (accepted_once (policy_consistent 1) [] [.add (dataMsg 5) 1,.expireMessages fun _ => 9] rfl
    (by simp [StoreCall.Within])).1

end PluggableHcs.Gossip
