import PluggableHcs.Lib.Runs
import PluggableHcs.Txmgmt.State

namespace PluggableHcs.Multichannel
open Runs List
open Txmgmt (Bytes)

structure Header where
  number : Nat
  previousHash : Bytes
  dataHash : Bytes
deriving DecidableEq

structure Block where
  header : Header
  data : List Bytes
deriving DecidableEq

/-- What the first envelope of a block is. A config has its sequence. -/
inductive Kind where
  | normal
  | config (sequence : UInt64)
  | ordererTransaction
deriving DecidableEq

structure Protoutil where
  blockHeaderHash : Header → Bytes
  blockDataHash : List Bytes → Bytes
  kindOf : List Bytes → Kind

/-- A block of the ledger with the last config block that its LAST_CONFIG and its signed
OrdererBlockMetadata name. -/
structure Appended where
  block : Block
  lastConfig : Nat
  signed : Nat
deriving DecidableEq

structure BlockWriter where
  lastConfigBlockNum : Nat
  lastConfigSeq : UInt64
  lastBlock : Block
deriving DecidableEq

/-- The calling thread, which may be between the update of the bundle and WriteBlock. -/
inductive Caller where
  | ready
  | updated (block : Block)
deriving DecidableEq

inductive Committing where
  | idle
  | locked
  | configAdded (lastConfig : Nat)
  | signed (lastConfig signed : Nat)
deriving DecidableEq

/-- The sequence is that of the bundle. The blocks of the calls are kept, but for one that a restart has
lost. -/
structure State where
  ledger : List Appended
  writer : BlockWriter
  sequence : UInt64
  caller : Caller
  committing : Committing
  called : List Block
deriving DecidableEq

inductive Event where
  | writeBlock (block : Block)
  | updateBundle (block : Block)
  | writeUpdated
  | addLastConfig
  | addBlockSignature
  | append
  | restart

variable (p : Protoutil)

def BlockWriter.createNextBlock (bw : BlockWriter) (data : List Bytes) : Block :=
  ⟨⟨bw.lastBlock.header.number + 1,p.blockHeaderHash bw.lastBlock.header,p.blockDataHash data⟩,data⟩

def Protoutil.isConfig (b : Block) : Bool :=
  match p.kindOf b.data with
  | .config _ => true
  | _ => false

def Follows (tip b : Block) : Prop :=
  b.header.number = tip.header.number + 1 ∧ b.header.previousHash = p.blockHeaderHash tip.header
deriving Decidable

/-- The config is read from the last config block that the last block names. -/
def newBlockWriter (ledger : List Appended) : Option (BlockWriter × UInt64) := do
  let tip ← ledger.getLast?
  let configBlock ← ledger[tip.signed]?
  match p.kindOf configBlock.block.data with
  | .config sequence =>
    pure (⟨if tip.block.header.number ≠ 0 then tip.signed else 0,sequence,tip.block⟩,sequence)
  | _ => none

def State.start (ledger : List Appended) : Option State :=
  (newBlockWriter p ledger).map fun out =>
    ⟨ledger,out.1,out.2,.ready,.idle,ledger.tail.map Appended.block⟩

/-- The lock is taken, and the goroutine is started. -/
def State.lock (s : State) (b : Block) : State :=
  { s with
    writer := { s.writer with lastBlock := b }
    caller := .ready
    committing := .locked
    called := s.called ++ [b] }

/-- What cannot be done now or ends in a panic is no step. A config is validated against the sequence of
the bundle. -/
def State.next (s : State) : Event → Option State
  | .writeBlock b =>
    if s.caller = .ready ∧ s.committing = .idle ∧ p.isConfig b = false then some (s.lock b) else none
  | .updateBundle b =>
    if s.caller = .ready ∧ s.committing = .idle ∧ p.kindOf b.data = .config (s.sequence + 1) then
      some { s with sequence := s.sequence + 1, caller := .updated b }
    else none
  | .writeUpdated =>
    match s.caller,s.committing with
    | .updated b,.idle => some (s.lock b)
    | _,_ => none
  | .addLastConfig =>
    if s.committing = .locked then
      let writer := if s.writer.lastConfigSeq < s.sequence then
          ⟨s.writer.lastBlock.header.number,s.sequence,s.writer.lastBlock⟩
        else s.writer
      some { s with writer, committing := .configAdded writer.lastConfigBlockNum }
    else none
  | .addBlockSignature =>
    match s.committing with
    | .configAdded lastConfig =>
      some { s with committing := .signed lastConfig s.writer.lastConfigBlockNum }
    | _ => none
  | .append =>
    match s.committing,s.ledger.getLast? with
    | .signed lastConfig signed,some tip =>
      if Follows p tip.block s.writer.lastBlock then
        some { s with
          ledger := s.ledger ++ [⟨s.writer.lastBlock,lastConfig,signed⟩]
          committing := .idle }
      else none
    | _,_ => none
  | .restart => State.start p s.ledger

def Protoutil.lastConfigAfter (last : Nat × UInt64) (b : Block) : Nat × UInt64 :=
  match p.kindOf b.data with
  | .config sequence => (b.header.number,sequence)
  | _ => last

def Protoutil.lastConfigOf (bs : List Block) : Nat × UInt64 := bs.foldl p.lastConfigAfter (0,0)

/-- The sequence of the new config is not zero: the counter has not wrapped. -/
def Event.Counts : Event → Prop
  | .updateBundle b => p.kindOf b.data ≠ .config 0
  | _ => True

/-- A ledger whose blocks follow each other and name the last config block at or before them. -/
inductive Chain : List Appended → Prop
  | genesis (number : a.block.header.number = 0) (signed : a.signed = 0)
      (config : p.isConfig a.block = true) : Chain [a]
  | append (chain : Chain as) (tip : as.getLast? = some last) (follows : Follows p last.block b)
      (named : n = (p.lastConfigOf (as.map Appended.block ++ [b])).1) :
      Chain (as ++ [⟨b,n,n⟩])

/-- The states that are reached. While a block is committed, it is the last one of the calls. -/
inductive Sound : State → Prop
  | ready (chain : Chain p as) (tip : as.getLast? = some last)
      (named : p.lastConfigOf (as.map Appended.block) = (n,q)) :
      Sound ⟨as,⟨n,q,last.block⟩,q,.ready,.idle,as.tail.map Appended.block⟩
  | updated (chain : Chain p as) (tip : as.getLast? = some last)
      (named : p.lastConfigOf (as.map Appended.block) = (n,q))
      (config : p.kindOf b.data = .config (q + 1)) (later : q < q + 1) :
      Sound ⟨as,⟨n,q,last.block⟩,q + 1,.updated b,.idle,as.tail.map Appended.block⟩
  | locked (chain : Chain p as) (named : p.lastConfigOf (as.map Appended.block) = (n,q))
      (next : p.lastConfigAfter (n,q) b = (n',q'))
      (moves : q < q' ∧ n' = b.header.number ∨ n' = n ∧ q' = q) :
      Sound ⟨as,⟨n,q,b⟩,q',.ready,.locked,as.tail.map Appended.block ++ [b]⟩
  | configAdded (chain : Chain p as)
      (named : p.lastConfigOf (as.map Appended.block ++ [b]) = (n,q)) :
      Sound ⟨as,⟨n,q,b⟩,q,.ready,.configAdded n,as.tail.map Appended.block ++ [b]⟩
  | signed (chain : Chain p as) (named : p.lastConfigOf (as.map Appended.block ++ [b]) = (n,q)) :
      Sound ⟨as,⟨n,q,b⟩,q,.ready,.signed n n,as.tail.map Appended.block ++ [b]⟩

variable {p} {as : List Appended} {b : Block} {s t : State}

theorem last_config_append (bs : List Block) (b : Block) :
    p.lastConfigOf (bs ++ [b]) = p.lastConfigAfter (p.lastConfigOf bs) b :=
  foldl_append

theorem Chain.number (hc : Chain p as) (ht : as.getLast? = some last) :
    last.block.header.number + 1 = as.length := by
  induction hc generalizing last with
  | genesis number _ _ =>
    obtain rfl := Option.some.inj ht
    exact congrArg (· + 1) number
  | append hc t' fs na ih =>
    rw [getLast?_concat] at ht
    cases ht
    rw [length_append,← ih t',fs.1]
    rfl

theorem genesis_config {a : Appended} (hn : a.block.header.number = 0)
    (hc : p.isConfig a.block = true) : ∃ q, p.kindOf a.block.data = .config q ∧
      p.lastConfigOf ([a].map Appended.block) = (0,q) := by
  obtain ⟨q,hq⟩ : ∃ q, p.kindOf a.block.data = .config q := by
    rw [Protoutil.isConfig] at hc
    split at hc
    · exact ⟨_,by assumption⟩
    · cases hc
  refine ⟨q,hq,?_⟩
  rw [← hn,Protoutil.lastConfigOf,map_singleton,foldl_cons,foldl_nil,Protoutil.lastConfigAfter,hq]

theorem Chain.last_config (hc : Chain p as) : ∃ a,
    as[(p.lastConfigOf (as.map Appended.block)).1]? = some a ∧
    p.kindOf a.block.data = .config (p.lastConfigOf (as.map Appended.block)).2 := by
  induction hc with
  | @genesis a nu _ co =>
    obtain ⟨q,hq,hl⟩ := genesis_config nu co
    rw [hl]
    exact ⟨a,rfl,hq⟩
  | @append as l b n hc ti fs na ih =>
    obtain ⟨a,ha,hk⟩ := ih
    rw [map_append,map_singleton,last_config_append,Protoutil.lastConfigAfter]
    split
    · rename_i q hq
      refine ⟨⟨b,n,n⟩,?_,hq⟩
      rw [fs.1,hc.number ti,getElem?_append_right (Nat.le_refl _),Nat.sub_self]
      rfl
    · refine ⟨a,?_,hk⟩
      rw [getElem?_append_left (List.getElem?_eq_some_iff.mp ha).1,ha]

theorem Chain.tip (hc : Chain p as) : ∃ tip, as.getLast? = some tip ∧
    tip.signed = (p.lastConfigOf (as.map Appended.block)).1 ∧
    (tip.block.header.number = 0 → tip.signed = 0) := by
  cases hc with
  | @genesis a nu si co =>
    obtain ⟨q,_,hl⟩ := genesis_config nu co
    exact ⟨a,rfl,by rw [si,hl],fun _ => si⟩
  | append _ _ fs na =>
    refine ⟨_,getLast?_concat,?_,fun hz => ?_⟩
    · rw [map_append]
      exact na
    · rw [fs.1] at hz
      cases hz

theorem Chain.start (hc : Chain p as) : ∃ s, State.start p as = some s ∧ Sound p s := by
  obtain ⟨ti,ht,hs,hz⟩ := hc.tip
  obtain ⟨a,ha,hk⟩ := hc.last_config
  refine ⟨_,?_,.ready hc ht rfl⟩
  have hn : (if ti.block.header.number ≠ 0 then ti.signed else 0) = ti.signed := by
    split
    · rfl
    · rename_i hnu
      exact (hz (not_not.mp hnu)).symm
  rw [State.start,newBlockWriter,ht]
  dsimp only [bind,Option.bind]
  rw [hn,hs,ha]
  dsimp only
  rw [hk]
  rfl

theorem Sound.chain (hs : Sound p s) : Chain p s.ledger := by
  cases hs <;> assumption

theorem not_config (h : p.isConfig b = false) (last : Nat × UInt64) :
    p.lastConfigAfter last b = last := by
  rw [Protoutil.isConfig] at h
  rw [Protoutil.lastConfigAfter]
  split at h
  · cases h
  · rfl

theorem Chain.appended (hc : Chain p as)
    (ha : p.lastConfigOf (as.map Appended.block ++ [b]) = (n,q)) (ht : as.getLast? = some last)
    (hf : Follows p last.block b) : Sound p ⟨as ++ [⟨b,n,n⟩],⟨n,q,b⟩,q,.ready,.idle,
      as.tail.map Appended.block ++ [b]⟩ := by
  have hn := hc.append ht hf (n := n) (by rw [ha])
  have hl : p.lastConfigOf ((as ++ [Appended.mk b n n]).map Appended.block) = (n,q) := by
    rw [map_append]
    exact ha
  have hr := Sound.ready hn getLast?_concat hl
  rw [tail_append_of_ne_nil (ne_nil_of_mem (mem_of_getLast? ht)),map_append] at hr
  exact hr

theorem Sound.next (ho : Sound p s) (h : s.next p e = some t) (ha : e.Counts p) : Sound p t := by
  cases e with
  | restart =>
    obtain ⟨s',hst,hs⟩ := ho.chain.start
    obtain rfl := Option.some.inj (hst.symm.trans h)
    exact hs
  | writeBlock b =>
    rw [State.next] at h
    split at h
    · rename_i hc
      cases h
      cases ho with
      | ready ch ti na =>
        exact .locked ch na (not_config hc.2.2 _) (.inr ⟨rfl,rfl⟩)
      | updated => cases hc.1
      | locked | configAdded | signed => cases hc.2.1
    · cases h
  | updateBundle b =>
    rw [State.next] at h
    split at h
    · rename_i hc
      cases h
      cases ho with
      | ready ch ti na =>
        refine .updated ch ti na hc.2.2 (UInt64.lt_add_one fun hm => ha ?_)
        rw [hc.2.2,hm]
        exact congrArg Kind.config (by decide : (-1 : UInt64) + 1 = 0)
      | updated => cases hc.1
      | locked | configAdded | signed => cases hc.2.1
    · cases h
  | writeUpdated =>
    cases ho with
    | @updated as la n q b ch ti na co l =>
      cases h
      have he : p.lastConfigAfter (n,q) b = (b.header.number,q + 1) := by
        rw [Protoutil.lastConfigAfter,co]
      exact .locked ch na he (.inl ⟨l,rfl⟩)
    | ready | locked | configAdded | signed => cases h
  | addLastConfig =>
    cases ho with
    | @locked as n q b n' q' ch na next ms =>
      have hn : p.lastConfigOf (as.map Appended.block ++ [b]) = (n',q') := by
        rw [last_config_append,na,next]
      rw [State.next,if_pos rfl] at h
      dsimp only at h
      rcases ms with ⟨hlt,rfl⟩ | ⟨rfl,rfl⟩
      · rw [if_pos hlt] at h
        cases h
        exact .configAdded ch hn
      rw [if_neg (UInt64.lt_irrefl _)] at h
      cases h
      exact .configAdded ch hn
    | ready | updated | configAdded | signed => cases h
  | addBlockSignature =>
    cases ho with
    | configAdded ch na =>
      cases h
      exact .signed ch na
    | ready | updated | locked | signed => cases h
  | append =>
    cases ho with
    | @signed as b n q ch na =>
      obtain ⟨ti,ht,_,_⟩ := ch.tip
      rw [State.next] at h
      dsimp only at h
      rw [ht] at h
      dsimp only at h
      split at h
      · rename_i hf
        cases h
        exact ch.appended na ht hf
      · cases h
    | ready | updated | locked | configAdded => cases h

/-- The ledger stays a chain in which every block names the last config block, with the blocks of
the calls in order. What CreateNextBlock makes is the next block. -/
theorem writer_keeps_chain {as : List Appended} (chain : Chain p as) (start : State.start p as = some s)
    (run : Run (fun s e t => s.next p e = some t) s es t) (counts : ∀ e ∈ es, e.label.Counts p) :
    Chain p t.ledger ∧ t.called = t.ledger.tail.map Appended.block ++
        (if t.committing = .idle then [] else [t.writer.lastBlock]) ∧
      (t.committing = .idle → ∃ tip, t.ledger.getLast? = some tip ∧
        ∀ data, Follows p tip.block (t.writer.createNextBlock p data)) := by
  obtain ⟨s',hst,hs⟩ := chain.start
  obtain rfl := Option.some.inj (hst.symm.trans start)
  have he := (run.invariant_when (I := Sound p) (fun _ => Sound.next) hs counts).1
  refine ⟨he.chain,?_⟩
  cases he with
  | ready _ tip _ | updated _ tip _ _ _ =>
    exact ⟨(append_nil _).symm,fun _ => ⟨_,tip,fun _ => ⟨rfl,rfl⟩⟩⟩
  | locked | configAdded | signed => exact ⟨rfl,fun h => by cases h⟩

def sampleProtoutil : Protoutil where
  blockHeaderHash h := [UInt8.ofNat h.number]
  blockDataHash data := data.flatten
  kindOf
    | [[1,q]] => .config (q.toUInt64 - 1)
    | _ => .normal

instance (e : Event) : Decidable (e.Counts sampleProtoutil) := by
  unfold Event.Counts
  split <;> infer_instance

def sampleGenesis (q : UInt8) : Appended := ⟨⟨⟨0,[],[]⟩,[[1,q]]⟩,0,0⟩

def sampleEvents (q : UInt8) : List Event :=
  [.updateBundle ⟨⟨1,[0],[]⟩,[[1,q + 1]]⟩,.writeUpdated,.addLastConfig,.addBlockSignature,.append,
    .writeBlock ⟨⟨2,[1],[]⟩,[]⟩,.addLastConfig,.addBlockSignature,.append,.restart]

theorem sample_chain_kept : ∃ s out, State.start sampleProtoutil [sampleGenesis 1] = some s ∧
    trace (fun s e => s.next sampleProtoutil e) s (sampleEvents 1) = some out ∧
    out.1.ledger.map Appended.signed = [0,1,1] ∧ Chain sampleProtoutil out.1.ledger := by
  have hc : Chain sampleProtoutil [sampleGenesis 1] := .genesis rfl rfl rfl
  refine ⟨_,_,rfl,(Option.some_get rfl).symm,by decide,?_⟩
  exact (writer_keeps_chain hc rfl (trace_get_run rfl) (by decide)).1

/-- The sequence goes from its highest value to zero, and the pointer stays at the first block. -/
theorem sequence_wraps : ∃ s out, Chain sampleProtoutil [sampleGenesis 0] ∧
    State.start sampleProtoutil [sampleGenesis 0] = some s ∧
    trace (fun s e => s.next sampleProtoutil e) s (sampleEvents 0) = some out ∧
    sampleProtoutil.lastConfigOf (out.1.ledger.map Appended.block) = (1,0) ∧
    out.1.ledger.map Appended.signed = [0,0,0] :=
  ⟨_,_,.genesis rfl rfl rfl,rfl,(Option.some_get rfl).symm,by decide,by decide⟩

end PluggableHcs.Multichannel
