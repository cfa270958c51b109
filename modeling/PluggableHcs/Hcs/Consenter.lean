import PluggableHcs.Hcs.Keys

namespace PluggableHcs.Hcs
open Runs List Text

/-- A topic as the SDK holds it, with its checksum. The fields are uint64; the parser gives it no
negative numbers. -/
structure CheckedTopicID where
  id : TopicID
  checksum : Option Chars
deriving DecidableEq

/-- The numbers are separated by dots, and what follows a first dash is a checksum. -/
def idFromString (s : Chars) : Option CheckedTopicID :=
  let (s,checksum) := Text.cutAt '-' s
  match Text.cutAt '.' s with
  | (_,none) => none
  | (shard,some rest) =>
    match Text.cutAt '.' rest with
    | (_,none) => none
    | (realm,some num) =>
      match Text.atoi shard,Text.atoi realm,Text.atoi num with
      | some shard,some realm,some num => some ⟨⟨shard,realm,num⟩,checksum⟩
      | _,_,_ => none

def TopicID.decimals (id : TopicID) : Chars :=
  Text.decimal id.shard ++ '.' :: Text.decimal id.realm ++ '.' :: Text.decimal id.topic

def CheckedTopicID.string (t : CheckedTopicID) : Chars :=
  match t.checksum with
  | none => t.id.decimals
  | some checksum => t.id.decimals ++ '-' :: checksum

structure Support where
  channelID : Chars
  config : ChannelConfig
  ledger : Ledger

inductive HandleChainError
  | configMetadata
  | topicID
  | topicInUse (topicID channelID : Chars)
  | newChain (err : ParseConfigError)

/-- The registry of topics, with the newest entry of a key first. -/
structure Consenter where
  topicChannelMap : List (Chars × Chars)
deriving DecidableEq

open Consenter

def newConsenter : Consenter := ⟨[]⟩

def Consenter.createChain (x : Externals) (operatorPublicKey : Bytes) (c : Consenter)
    (support : Support) : Except HandleChainError (CheckedTopicID × Chain) :=
  match x.unmarshalHcsConfigMetadata support.config.consensusMetadata with
  | none => .error .configMetadata
  | some metadata =>
    match idFromString metadata.topicId with
    | none => .error .topicID
    | some topicID =>
      match c.topicChannelMap.lookup metadata.topicId with
      | some channelID => .error (.topicInUse metadata.topicId channelID)
      | none =>
        match newChain x operatorPublicKey support.config support.ledger with
        | .error e => .error (.newChain e)
        | .ok chain => .ok (topicID,chain)

def Consenter.handleChain (x : Externals) (operatorPublicKey : Bytes) (c : Consenter)
    (support : Support) : Except HandleChainError Chain × Consenter :=
  match c.createChain x operatorPublicKey support with
  | .error e => (.error e,c)
  | .ok (topicID,chain) =>
    (.ok chain,⟨(topicID.string,support.channelID) :: c.topicChannelMap⟩)

def Consenter.Step (x : Externals) (operatorPublicKey : Bytes) (c : Consenter)
    (support : Support) (d : Consenter) : Prop :=
  (c.handleChain x operatorPublicKey support).2 = d

def Support.topicText (x : Externals) (s : Support) : Option Chars :=
  (x.unmarshalHcsConfigMetadata s.config.consensusMetadata).map HcsConfigMetadata.topicId

def Support.topic (x : Externals) (s : Support) : Option TopicID :=
  (s.topicText x).bind fun text => (idFromString text).map CheckedTopicID.id

/-- The text is what its topic prints as, without a checksum. -/
def Canonical (text : Chars) : Prop :=
  ∀ t, idFromString text = some t → text = t.string ∧ t.checksum = none

theorem canonical_iff (te : Chars) : Canonical te ↔
    ∀ t ∈ idFromString te, te = t.string ∧ t.checksum = none := Iff.rfl

instance (text : Chars) : Decidable (Canonical text) :=
  decidable_of_iff _ (canonical_iff text).symm

def Succeeds (x : Externals) (key : Bytes) (e : Transition Consenter Support) : Prop :=
  ∃ chain, (e.before.handleChain x key e.label).1 = .ok chain

/-- No two calls for different channels succeed with the same topic. -/
def Exclusive (x : Externals) (key : Bytes) (es : List (Transition Consenter Support)) : Prop :=
  es.Pairwise fun d e => Succeeds x key d → Succeeds x key e →
    d.label.channelID ≠ e.label.channelID → d.label.topic x ≠ e.label.topic x

section
variable {x : Externals} {ke : Bytes} {c d : Consenter} {s : Support}

theorem create_chain_ok_iff : c.createChain x ke s = .ok (t,chain) ↔
    ∃ te, s.topicText x = some te ∧ idFromString te = some t ∧
      c.topicChannelMap.lookup te = none ∧ newChain x ke s.config s.ledger = .ok chain := by
  unfold createChain Support.topicText
  constructor
  · intro h
    split at h
    · cases h
    rename_i me hm
    split at h
    · cases h
    rename_i tc ht
    split at h
    · cases h
    rename_i hl
    split at h
    · cases h
    rename_i hn
    cases h
    exact ⟨me.topicId,by rw [hm]; rfl,ht,hl,hn⟩
  · intro h
    obtain ⟨te,hte,ht,hl,hn⟩ := h
    obtain ⟨me,hm,rfl⟩ := Option.map_eq_some_iff.mp hte
    simp only [hm,ht,hl,hn]

theorem handle_chain_ok (h : (c.handleChain x ke s).1 = .ok chain) :
    ∃ te t, s.topicText x = some te ∧ idFromString te = some t ∧
      c.topicChannelMap.lookup te = none ∧ newChain x ke s.config s.ledger = .ok chain ∧
      (c.handleChain x ke s).2 = ⟨(t.string,s.channelID) :: c.topicChannelMap⟩ := by
  unfold handleChain at h ⊢
  cases hc : c.createChain x ke s with
  | error e => simp [hc] at h
  | ok o =>
    obtain ⟨t,c'⟩ := o
    simp only [hc] at h ⊢
    cases h
    obtain ⟨te,hte,ht,hl,hn⟩ := create_chain_ok_iff.mp hc
    exact ⟨te,t,hte,ht,hl,hn,rfl⟩

theorem handle_chain_keeps {te : Chars} (h : c.topicChannelMap.lookup te ≠ none) :
    (c.handleChain x ke s).2.topicChannelMap.lookup te ≠ none := by
  unfold handleChain
  split
  · exact h
  simp only [lookup_cons]
  split
  · simp
  · exact h

theorem run_keeps {te : Chars} (hr : Run (Step x ke) c es d)
    (h : c.topicChannelMap.lookup te ≠ none) : d.topicChannelMap.lookup te ≠ none := by
  refine (hr.invariant (I := fun c => c.topicChannelMap.lookup te ≠ none) ?_ h).1
  intro c s d hc hs
  rw [← hs]
  exact handle_chain_keeps hc

theorem found_canonical {te te' : Chars} (hl : c.topicChannelMap.lookup t.string ≠ none)
    (ht : idFromString te = some t) (ht' : idFromString te' = some t')
    (hc : Canonical te) (hc' : Canonical te') (hs : t.id = t'.id) :
    c.topicChannelMap.lookup te' ≠ none := by
  obtain ⟨_,hp⟩ := hc t ht
  obtain ⟨hte',hp'⟩ := hc' t' ht'
  have heq : t = t' := by
    obtain ⟨id,ch⟩ := t
    obtain ⟨i',c'⟩ := t'
    simp only at hs hp hp'
    rw [hs,hp,hp']
  rw [hte',← heq]
  exact hl

theorem run_exclusive (hu : Run (Step x ke) c es d)
    (hc : ∀ e ∈ es, ∀ te ∈ e.label.topicText x, Canonical te) :
    Exclusive x ke es := by
  induction hu with
  | nil => exact .nil
  | @cons c s c' es d he ta ih =>
    rw [forall_mem_cons] at hc
    refine .cons ?_ (ih hc.2)
    intro f hf hfs hs _ hsa
    obtain ⟨ch,hfs⟩ := hfs
    obtain ⟨te,t,hte,ht,_,_,hr⟩ := handle_chain_ok hfs
    obtain ⟨ch',hs⟩ := hs
    obtain ⟨te',t',hte',ht',hn,_,_⟩ := handle_chain_ok hs
    have hlk : c'.topicChannelMap.lookup t.string ≠ none := by
      rw [← show _ = c' from he,hr]
      simp
    obtain ⟨as,bs,rfl⟩ := append_of_mem hf
    have hl := run_keeps ta.split_cons.1 hlk
    have hid : t.id = t'.id := by
      simpa [Support.topic,hte,hte',ht,ht'] using hsa
    exact found_canonical hl ht ht' (hc.1 te hte)
      (hc.2 f hf te' hte') hid hn

theorem id_from_string_range {te : Chars} (h : idFromString te = some t) :
    ∃ sh re tc : Nat, t.id = ⟨sh,re,tc⟩ ∧ sh < 2 ^ 63 ∧ re < 2 ^ 63 ∧ tc < 2 ^ 63 := by
  unfold idFromString at h
  simp only at h
  split at h
  · cases h
  rename_i sh rest hsh
  split at h
  · cases h
  rename_i re nu hre
  split at h
  · rename_i s r n hs hr hn
    cases h
    have hno : '-' ∉ (Text.cutAt '-' te).1 := fun hm => (mem_cut_at.1 hm).2 rfl
    have hrt : '-' ∉ rest := fun hm => hno (mem_cut_at.2 rest (by rw [hsh]) hm)
    obtain ⟨s',hs',rfl⟩ := atoi_no_sign
      (fun hm => hno (mem_cut_at.1 (by rw [hsh]; exact hm)).1) hs
    obtain ⟨r',hr',rfl⟩ := atoi_no_sign
      (fun hm => hrt (mem_cut_at.1 (by rw [hre]; exact hm)).1) hr
    obtain ⟨n',hn',rfl⟩ := atoi_no_sign
      (fun hm => hrt (mem_cut_at.2 nu (by rw [hre]) hm)) hn
    exact ⟨s',r',n',rfl,hs',hr',hn'⟩
  · cases h

theorem to_digits_no_char {c : Char} (hc : c.isDigit = false) (n : Nat) :
    c ∉ Nat.toDigits 10 n := by
  intro hm
  rw [digit_mem hm] at hc
  cases hc

theorem id_from_decimals {sh re tc : Nat} (hs : sh < 2 ^ 63) (hr : re < 2 ^ 63) (ht : tc < 2 ^ 63) :
    idFromString (TopicID.decimals ⟨sh,re,tc⟩) = some ⟨⟨sh,re,tc⟩,none⟩ := by
  have hda := to_digits_no_char (c := '-') (by decide)
  have hdo := to_digits_no_char (c := '.') (by decide)
  have hd : TopicID.decimals ⟨sh,re,tc⟩ = Nat.toDigits 10 sh ++ '.' ::
      (Nat.toDigits 10 re ++ '.' :: Nat.toDigits 10 tc) := by
    simp [TopicID.decimals,Text.decimal]
  have hn : '-' ∉ TopicID.decimals ⟨sh,re,tc⟩ := by
    rw [hd]
    simp [hda]
  unfold idFromString
  rw [cut_at_none hn,hd]
  simp only [cut_at_some (hdo _),atoi_to_digits hs,atoi_to_digits hr,atoi_to_digits ht]

theorem spelling_left {te : Chars} (ht : idFromString te = some t) (hnt : ¬ Canonical te) :
    ∃ te' t', idFromString te' = some t' ∧ t'.id = t.id ∧ te' ≠ t.string := by
  by_cases hte : te = t.string
  · have hc : t.checksum ≠ none := by
      intro hno
      apply hnt
      intro t' ht'
      rw [ht] at ht'
      cases ht'
      exact ⟨hte,hno⟩
    obtain ⟨ch,hc⟩ := Option.ne_none_iff_exists'.mp hc
    obtain ⟨sh,re,tc,hid,hs,hr,hn⟩ := id_from_string_range ht
    refine ⟨t.id.decimals,⟨t.id,none⟩,?_,rfl,?_⟩
    · rw [hid]
      exact id_from_decimals hs hr hn
    intro heq
    have hl := congrArg List.length heq
    simp only [CheckedTopicID.string,hc,length_append,length_cons] at hl
    omega
  · exact ⟨te,t,ht,rfl,hte⟩

end

/-- Along calls with canonical texts no topic is given to two channels. Any other accepted text
leaves a spelling of its topic under which every further channel is accepted. -/
theorem topic_serves_one_channel {c : Consenter} (run : Run (Step x key) newConsenter es c) :
    ((∀ e ∈ es, ∀ text ∈ e.label.topicText x, Canonical text) → Exclusive x key es) ∧
    ∀ s chain text, (newConsenter.handleChain x key s).1 = .ok chain →
      s.topicText x = some text → ¬ Canonical text →
      ∃ text', ∀ s' chain', s'.topicText x = some text' →
        newChain x key s'.config s'.ledger = .ok chain' →
        s'.topic x = s.topic x ∧
          ((newConsenter.handleChain x key s).2.handleChain x key s').1 = .ok chain' := by
  refine ⟨run_exclusive run,?_⟩
  intro s chain text hok hte hno
  obtain ⟨t₀,t,hte₀,ht,_,_,hr⟩ := handle_chain_ok hok
  rw [hte] at hte₀
  cases hte₀
  obtain ⟨text',t',ht',hid,hne⟩ := spelling_left ht hno
  refine ⟨text',?_⟩
  intro s' chain' hte' hn
  refine ⟨by simp [Support.topic,hte,hte',ht,ht',hid],?_⟩
  rw [hr,handleChain,create_chain_ok_iff.mpr ⟨text',hte',ht',?_,hn⟩]
  have hb : (text' == t.string) = false := beq_false_of_ne hne
  simp [lookup_cons,hb,newConsenter]

def topicSupport (channelID topicID : Chars) : Support :=
  ⟨channelID,⟨1,⟨10,1000⟩,Codec.configMetadata ⟨topicID,[Codec.listing Codec.operatorA],
    ['3','0','s']⟩⟩,⟨1,[]⟩⟩

def topicExternals : Externals :=
  { Codec.externals (Codec.knownOf [] []) with
    topicIDFromString := fun text => (idFromString text).map CheckedTopicID.id }

def callsOf (first second : Support) : List (Transition Consenter Support) :=
  let c := (newConsenter.handleChain topicExternals Codec.operatorA first).2
  [⟨newConsenter,first,c⟩,⟨c,second,(c.handleChain topicExternals Codec.operatorA second).2⟩]

theorem topic_serves_one_channel_plain : Exclusive topicExternals Codec.operatorA
      (callsOf (topicSupport ['a'] "0.0.7".toList) (topicSupport ['b'] "0.0.8".toList)) :=
  (topic_serves_one_channel (.cons rfl (.cons rfl .nil))).1 (by decide +kernel)

def respelled : List (Transition Consenter Support) :=
  callsOf (topicSupport ['a'] "0.0.7".toList) (topicSupport ['b'] "0.0.07".toList)

/-- The topic is registered as 0.0.7 and looked up as 0.0.07. -/
theorem respelled_topic_accepted : Run (Step topicExternals Codec.operatorA) newConsenter respelled
      (⟨[("0.0.7".toList,['b']),("0.0.7".toList,['a'])]⟩) ∧
    ¬ Exclusive topicExternals Codec.operatorA respelled := by
  refine ⟨?_,?_⟩
  · have hl : (⟨[("0.0.7".toList,['b']),("0.0.7".toList,['a'])]⟩ : Consenter) =
        ((newConsenter.handleChain topicExternals Codec.operatorA
          (topicSupport ['a'] "0.0.7".toList)).2.handleChain topicExternals Codec.operatorA
          (topicSupport ['b'] "0.0.07".toList)).2 := by decide +kernel
    exact .cons rfl (.cons rfl .nil)
  · intro h
    have hp := rel_of_pairwise_cons h mem_cons_self
    exact hp ⟨_,Outcomes.ok_value_eq (by decide +kernel)⟩
      ⟨_,Outcomes.ok_value_eq (by decide +kernel)⟩ (by decide) (by decide +kernel)

end PluggableHcs.Hcs
