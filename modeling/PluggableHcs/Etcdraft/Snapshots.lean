import Mathlib.Algebra.Group.Nat.Defs
import PluggableHcs.Txmgmt.State

namespace PluggableHcs.Etcdraft
open List
open Txmgmt (Bytes)

inductive EntryType where
  | entryNormal
  | entryConfChange
deriving DecidableEq

structure Entry where
  type : EntryType
  index : Nat
  data : Bytes
deriving DecidableEq

/-- A normal entry has a block, or nothing when it is of a new leader. -/
def Entry.isBlock (ent : Entry) : Bool := ent.type = .entryNormal && ent.data ≠ []

/-- The number of a block that has a header, and the limit that a config block of the channel sets. -/
structure Block where
  number : Option Nat
  snapshotIntervalSize : Option Nat

inductive ConfChangeType where
  | confChangeAddNode
  | confChangeRemoveNode
  | other
deriving DecidableEq

structure ConfChange where
  type : ConfChangeType
  nodeID : Nat

/-- What is read from the data of entries, and the nodes that raft has after a change. -/
structure Node where
  unmarshalBlock : Bytes → Option Block
  unmarshalConfChange : Bytes → Option ConfChange
  applyConfChange : List Nat → ConfChange → List Nat

structure Chain where
  appliedIndex : Nat
  lastBlock : Nat
  sizeLimit : Nat
  accDataSize : Nat
  lastSnapBlockNum : Nat
  confState : List Nat

structure Gc where
  index : Nat
  state : List Nat
  data : Bytes
deriving DecidableEq

inductive Panic where
  | firstIndex
  | unmarshalBlock
  | nilHeader
  | unexpectedBlock
  | unsupportedConfChange
deriving DecidableEq

section
variable (n : Node)

/-- A limit of zero is none. -/
def Chain.detectConfChange (c : Chain) (b : Block) : Chain :=
  match b.snapshotIntervalSize with
  | some size => if size ≠ 0 then { c with sizeLimit := size } else c
  | none => c

def Chain.writeBlock (c : Chain) (b : Block) : Except Panic Chain :=
  match b.number with
  | none => .error .nilHeader
  | some number =>
    if c.lastBlock + 1 < number then .error .unexpectedBlock
    else if number < c.lastBlock + 1 then .ok c
    else .ok ({ c with lastBlock := number }.detectConfChange b)

def Chain.moveTo (c : Chain) (index : Nat) : Chain :=
  if c.appliedIndex < index then { c with appliedIndex := index } else c

/-- The index does not move on over a change that cannot be read. -/
def Node.applyEntry (c : Chain) (ent : Entry) : Except Panic Chain :=
  match ent.type with
  | .entryNormal =>
    if ent.data = [] then .ok (c.moveTo ent.index)
    else
      let c := { c with accDataSize := (c.accDataSize + ent.data.length) % 2 ^ 32 }
      if ent.index ≤ c.appliedIndex then .ok c
      else
        match n.unmarshalBlock ent.data with
        | none => .error .unmarshalBlock
        | some b => (fun c => c.moveTo ent.index) <$> c.writeBlock b
  | .entryConfChange =>
    match n.unmarshalConfChange ent.data with
    | none => .ok c
    | some cc =>
      if cc.type = .other then .error .unsupportedConfChange
      else .ok ({ c with confState := n.applyConfChange c.confState cc }.moveTo ent.index)

/-- The loop variable and the position after the loop, which starts at zero. -/
def positionFrom : Nat → Nat → List Entry → Nat
  | _,position,[] => position
  | i,position,ent :: ents => positionFrom (i + 1) (if ent.isBlock then i else position) ents

/-- The number of the block is read after the request is sent. -/
def Node.apply (c : Chain) (ents : List Entry) (gcReady : Bool) : Except Panic (Chain × Option Gc) :=
  match ents with
  | [] => .ok (c,none)
  | first :: _ =>
    if c.appliedIndex + 1 < first.index then .error .firstIndex
    else
      match ents.foldlM n.applyEntry c with
      | .error p => .error p
      | .ok c =>
        if c.accDataSize < c.sizeLimit then .ok (c,none)
        else
          let data := ents[positionFrom 0 0 ents]?.elim [] Entry.data
          match n.unmarshalBlock data with
          | none => .error .unmarshalBlock
          | some b =>
            if gcReady then
              match b.number with
              | none => .error .nilHeader
              | some number => .ok ({ c with accDataSize := 0, lastSnapBlockNum := number },
                  some ⟨c.appliedIndex,c.confState,data⟩)
            else .ok (c,none)

def Node.applyAll : Chain → List (List Entry × Bool) → Except Panic (Chain × List Gc)
  | c,[] => .ok (c,[])
  | c,(ents,gcReady) :: rest => do
    let (c,g) ← n.apply c ents gcReady
    let (c,gs) ← applyAll c rest
    pure (c,g.toList ++ gs)

/-- A batch that ends over the limit has a block, and does not end before what is applied. -/
def Node.covered (c : Chain) (ents : List Entry) : Bool :=
  match ents.foldlM n.applyEntry c with
  | .error _ => true
  | .ok c' => c'.accDataSize < c'.sizeLimit || ents.any Entry.isBlock &&
      ents.getLast?.all fun last => c.appliedIndex ≤ last.index

def Node.coveredAll : Chain → List (List Entry × Bool) → Bool
  | _,[] => true
  | c,(ents,gcReady) :: rest => n.covered c ents && match n.apply c ents gcReady with
    | .error _ => true
    | .ok out => coveredAll out.1 rest

def blocksBefore (log : List Entry) (i : Nat) : List Entry := (log.take i).filter Entry.isBlock

/-- The log of the cluster from its first entry on. Blocks follow each other. -/
structure ValidLog (first : Nat) (log : List Entry) : Prop where
  index : ∀ i ent, log[i]? = some ent → ent.index = i + 1
  block : ∀ i ent, log[i]? = some ent → ent.isBlock →
    ∃ b, n.unmarshalBlock ent.data = some b ∧ b.number = some (first + (blocksBefore log i).length)
  confChange : ∀ ent ∈ log, ent.type = .entryConfChange →
    ∃ cc, n.unmarshalConfChange ent.data = some cc ∧ cc.type ≠ .other

/-- What comes next is at most one entry after what is applied. -/
structure Follows (first : Nat) (log : List Entry) (c : Chain) (next : Nat) : Prop where
  next : next ≤ c.appliedIndex
  lastBlock : c.lastBlock + 1 = first + (blocksBefore log c.appliedIndex).length

end

variable {n : Node} {c : Chain} {log en : List Entry} {ent : Entry} {next : Nat}

theorem blocks_before_succ (h : log[next]? = some ent) :
    blocksBefore log (next + 1) = blocksBefore log next ++ if ent.isBlock then [ent] else [] := by
  rw [blocksBefore,take_add_one,h,filter_append]
  cases hb : ent.isBlock <;> simp [hb] <;> rfl

theorem Follows.moveTo (hf : Follows first log c next) (h : log[next]? = some ent)
    (hb : ent.isBlock = false) : Follows first log (c.moveTo (next + 1)) (next + 1) ∧
      (c.moveTo (next + 1)).appliedIndex = max c.appliedIndex (next + 1) := by
  obtain ⟨hn,hl⟩ := hf
  rw [Chain.moveTo]
  split
  · obtain hs : next = c.appliedIndex := by omega
    refine ⟨⟨Nat.le_refl _,?_⟩,?_⟩
    · rw [blocks_before_succ h,hb,hs]
      simpa using hl
    · dsimp only
      omega
  · exact ⟨⟨by omega,hl⟩,by omega⟩

theorem detect_conf_change (c : Chain) (b : Block) :
    (c.detectConfChange b).appliedIndex = c.appliedIndex ∧
      (c.detectConfChange b).lastBlock = c.lastBlock := by
  unfold Chain.detectConfChange
  split
  · split <;> exact ⟨rfl,rfl⟩
  · exact ⟨rfl,rfl⟩

theorem Follows.apply_entry (hv : ValidLog n first log) (hf : Follows first log c next)
    (h : log[next]? = some ent) : ∃ c', n.applyEntry c ent = .ok c' ∧
      Follows first log c' (next + 1) ∧ c'.appliedIndex = max c.appliedIndex (next + 1) := by
  have hi := hv.index next ent h
  cases ht : ent.type with
  | entryConfChange =>
    obtain ⟨cc,hcc,hsu⟩ := hv.confChange ent (mem_of_getElem? h) ht
    have hb : ent.isBlock = false := by simp [Entry.isBlock,ht]
    refine ⟨_,?_,Follows.moveTo (c := { c with confState := n.applyConfChange c.confState cc })
      ⟨hf.next,hf.lastBlock⟩ h hb⟩
    simp only [Node.applyEntry,ht,hcc,if_neg hsu,hi]
  | entryNormal =>
    by_cases hd : ent.data = []
    · have hb : ent.isBlock = false := by simp [Entry.isBlock,hd]
      refine ⟨_,?_,hf.moveTo h hb⟩
      simp only [Node.applyEntry,ht,if_pos hd,hi]
    have hb : ent.isBlock = true := by simp [Entry.isBlock,ht,hd]
    obtain ⟨b,hbl,hn⟩ := hv.block next ent h hb
    by_cases ho : next + 1 ≤ c.appliedIndex
    · refine ⟨{ c with accDataSize := (c.accDataSize + ent.data.length) % 2 ^ 32 },?_,
        ⟨ho,hf.lastBlock⟩,?_⟩
      · simp only [Node.applyEntry,ht,if_neg hd,hi,if_pos ho]
      · dsimp only
        omega
    · have hs : c.appliedIndex = next := by
        have he := hf.next
        omega
      have hl := hf.lastBlock
      rw [hs] at hl
      let wr : Chain := { c with
        accDataSize := (c.accDataSize + ent.data.length) % 2 ^ 32
        lastBlock := first + (blocksBefore log next).length }
      obtain ⟨hi',hl'⟩ := detect_conf_change wr b
      refine ⟨(wr.detectConfChange b).moveTo (next + 1),?_,?_⟩
      · simp only [Node.applyEntry,ht,if_neg hd,hi,if_neg ho,hbl]
        rw [Chain.writeBlock,hn]
        dsimp only
        rw [if_neg (by omega),if_neg (by omega)]
        rfl
      · have hlt : (wr.detectConfChange b).appliedIndex < next + 1 := by
          rw [hi']
          exact Nat.lt_succ_of_le (Nat.le_of_eq hs)
        rw [Chain.moveTo,if_pos hlt]
        refine ⟨⟨Nat.le_refl _,?_⟩,by dsimp only; omega⟩
        dsimp only
        rw [hl',blocks_before_succ h,hb,length_append]
        rfl

theorem Follows.apply_entries (hv : ValidLog n first log) (ha : Follows first log c next)
    (h : log.drop next = en ++ rest) : ∃ c', en.foldlM n.applyEntry c = .ok c' ∧
      Follows first log c' (next + en.length) ∧
      c'.appliedIndex = max c.appliedIndex (next + en.length) := by
  induction en generalizing c next with
  | nil => exact ⟨c,rfl,ha,(Nat.max_eq_left ha.next).symm⟩
  | cons ent en ih =>
    have he : log[next]? = some ent := by
      rw [← Nat.add_zero next,← getElem?_drop,h]
      rfl
    obtain ⟨c₁,hs,hf,hm⟩ := ha.apply_entry hv he
    have hr : log.drop (next + 1) = en ++ rest := by
      rw [← tail_drop,h]
      rfl
    obtain ⟨c₂,hen,hf',hm'⟩ := ih hf hr
    rw [length_cons,← Nat.add_assoc,Nat.add_right_comm]
    refine ⟨c₂,?_,hf',by omega⟩
    rw [foldlM_cons,hs]
    exact hen

theorem position_last (done : List Entry) (pos : Nat) (entries : List Entry) :
    (done ++ entries)[positionFrom done.length pos entries]? =
      (entries.filter Entry.isBlock).getLast?.or (done ++ entries)[pos]? := by
  induction entries generalizing done pos with
  | nil => rfl
  | cons ent entries ih =>
    have hr := ih (done ++ [ent]) (if ent.isBlock then done.length else pos)
    rw [length_append,append_assoc,singleton_append] at hr
    rw [positionFrom]
    refine hr.trans ?_
    cases hb : ent.isBlock with
    | false => simp [hb]
    | true =>
      rw [filter_cons,if_pos hb,getLast?_cons]
      cases (entries.filter Entry.isBlock).getLast? <;> simp

/-- A request has the data of the last block before its index. -/
def Gc.OfLastBlock (log : List Entry) (g : Gc) : Prop :=
  (blocksBefore log g.index).getLast?.map Entry.data = some g.data

theorem last_of_batch (h : log.drop next = en ++ rest) (ha : en.any Entry.isBlock = true) :
    ∃ ent, en[positionFrom 0 0 en]? = some ent ∧
      (blocksBefore log (next + en.length)).getLast? = some ent ∧ ent.isBlock = true ∧
      ∃ i : Nat, log[i]? = some ent := by
  obtain ⟨e',he',hb'⟩ := any_eq_true.mp ha
  obtain ⟨ent,hl⟩ := Option.isSome_iff_exists.mp
    (getLast?_isSome.mpr (ne_nil_of_mem (mem_filter.mpr ⟨he',hb'⟩)))
  obtain ⟨hm,hb⟩ := mem_filter.mp (mem_of_getLast? hl)
  have hp := position_last [] 0 en
  rw [hl,Option.some_or] at hp
  refine ⟨ent,hp,?_,hb,?_⟩
  · rw [blocksBefore,take_add,h,take_left,filter_append,getLast?_append,hl]
    rfl
  refine mem_iff_getElem?.mp (mem_of_mem_drop (i := next) ?_)
  rw [h]
  exact mem_append_left _ hm

theorem ValidLog.last_index (hv : ValidLog n first log) (h : log.drop next = en ++ rest)
    (hl : en.getLast? = some last) : last.index = next + en.length := by
  have hle := length_pos_of_ne_nil (ne_nil_of_mem (mem_of_getLast? hl))
  rw [getLast?_eq_getElem?] at hl
  have hlo : log[next + (en.length - 1)]? = some last := by
    rw [← getElem?_drop,h,getElem?_append_left (by omega),hl]
  rw [hv.index _ _ hlo]
  omega

theorem Follows.apply (hv : ValidLog n first log) (hs : Follows first log c next)
    (h : log.drop next = en ++ rest) (hd : n.covered c en = true) (gcReady : Bool) :
    ∃ c' g, n.apply c en gcReady = .ok (c',g) ∧ Follows first log c' (next + en.length) ∧
      ∀ g' ∈ g, g'.OfLastBlock log := by
  obtain ⟨c',he,hf,hm⟩ := hs.apply_entries hv h
  rw [Node.covered,he] at hd
  cases hc : en with
  | nil =>
    rw [hc] at he hf
    cases he
    exact ⟨c,none,rfl,hf,fun g hg => by cases hg⟩
  | cons head ta =>
    have hh : log[next]? = some head := by
      rw [← Nat.add_zero next,← getElem?_drop,h,hc]
      rfl
    have hin := hv.index _ _ hh
    have hx := hs.next
    rw [Node.apply,if_neg (by omega),← hc,he]
    dsimp only
    split
    · exact ⟨c',none,rfl,hf,fun g hg => by cases hg⟩
    rename_i ho
    rw [Bool.or_eq_true_iff,Bool.and_eq_true_iff] at hd
    obtain ⟨ha,h1⟩ := hd.resolve_left fun hlt => ho (of_decide_eq_true hlt)
    obtain ⟨last,hl⟩ : ∃ last, en.getLast? = some last := by
      rw [hc,getLast?_cons]
      exact ⟨_,rfl⟩
    -- The batch does not end before what is applied, so it ends where the request is.
    have hap : c'.appliedIndex = next + en.length := by
      have hle : c.appliedIndex ≤ last.index := by
        rw [hl] at h1
        exact of_decide_eq_true h1
      rw [hv.last_index h hl] at hle
      omega
    obtain ⟨ent,hp,hr,hb,i,hi⟩ := last_of_batch h ha
    obtain ⟨b,hbl,hn⟩ := hv.block i ent hi hb
    rw [hp,Option.elim_some,hbl]
    dsimp only
    cases gcReady with
    | false => exact ⟨c',none,rfl,hf,fun g hg => by cases hg⟩
    | true =>
      rw [if_pos rfl,hn]
      refine ⟨_,_,rfl,⟨hf.next,hf.lastBlock⟩,fun g hg => ?_⟩
      cases hg
      rw [Gc.OfLastBlock,hap,hr]
      rfl

/-- The requests are for the last blocks before them, if each batch that ends over the limit has a
block and was not applied before. -/
theorem snapshots_of_last_block (valid : ValidLog n first log) (follows : Follows first log c next)
    (h : log.drop next = batches.flatMap Prod.fst ++ rest)
    (covered : n.coveredAll c batches = true) :
    ∃ c' gs, n.applyAll c batches = .ok (c',gs) ∧ ∀ g ∈ gs, g.OfLastBlock log := by
  induction batches generalizing c next with
  | nil => exact ⟨c,[],rfl,forall_mem_nil _⟩
  | cons ba batches ih =>
    obtain ⟨en,gr⟩ := ba
    rw [flatMap_cons,append_assoc] at h
    obtain ⟨he,hb⟩ := Bool.and_eq_true_iff.mp covered
    obtain ⟨c₁,g,hs,hf,hg⟩ := follows.apply valid h he gr
    rw [hs] at hb
    have hr : log.drop (next + en.length) = batches.flatMap Prod.fst ++ rest := by
      rw [← drop_drop,h,drop_left]
    obtain ⟨c₂,gs,ha,hgs⟩ := ih hf hr hb
    refine ⟨c₂,g.toList ++ gs,?_,?_⟩
    · rw [Node.applyAll,hs]
      dsimp only [bind,Except.bind]
      rw [ha]
      rfl
    intro g' hg'
    rcases mem_append.mp hg' with hn | hl
    · exact hg g' (Option.mem_toList.mp hn)
    · exact hgs g' hl

/-- The first byte is the number. -/
def sampleNode : Node where
  unmarshalBlock
    | [] => some ⟨none,none⟩
    | number :: _ => some ⟨some number.toNat,none⟩
  unmarshalConfChange data := some ⟨.confChangeAddNode,data.length⟩
  applyConfChange nodes cc := cc.nodeID :: nodes

def sampleChain : Chain := ⟨0,0,3,0,0,[1]⟩

def sampleLog : List Entry := [⟨.entryNormal,1,[1,7,7]⟩,⟨.entryNormal,2,[]⟩,⟨.entryNormal,3,[2]⟩]

theorem sample_log_valid : ValidLog sampleNode 1 sampleLog where
  index i ent h := by
    rcases i with _ | _ | _ | i <;> cases h <;> rfl
  block i ent h hb := by
    rcases i with _ | _ | _ | i <;> cases h
    · exact ⟨_,rfl,rfl⟩
    · cases hb
    · exact ⟨_,rfl,rfl⟩
  confChange ent h ht := ⟨_,rfl,by simp⟩

/-- The second batch has a block. -/
theorem sample_snapshots : ∃ c' gs, sampleNode.applyAll sampleChain
    [(sampleLog.take 1,false),(sampleLog.drop 1,true)] = .ok (c',gs) ∧
      ∀ g ∈ gs, g.OfLastBlock sampleLog :=
  have fs : Follows 1 sampleLog sampleChain 0 := ⟨Nat.le_refl 0,rfl⟩
  snapshots_of_last_block sample_log_valid fs (append_nil _).symm rfl

/-- The goroutine is busy with the first block, and then there is the entry of a new leader alone. -/
theorem no_block_panics : sampleNode.applyAll sampleChain
    [(sampleLog.take 1,false),((sampleLog.drop 1).take 1,true)] = .error .nilHeader ∧
    ValidLog sampleNode 1 sampleLog :=
  ⟨rfl,sample_log_valid⟩

end PluggableHcs.Etcdraft
