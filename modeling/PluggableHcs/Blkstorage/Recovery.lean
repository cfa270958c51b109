import PluggableHcs.Blkstorage.Layout
import PluggableHcs.Lib.Runs

namespace PluggableHcs.Blkstorage
open Digits Txmgmt Runs List BlockchainInfo
open Located (block entry placed)

section
variable (p : Protoutil) (conf : Conf) (ids : List Bytes)

structure Layout where
  full : List (List Block)
  last : List Block

namespace Layout

def blocks (y : Layout) : List Block := y.full.flatten ++ y.last

def files (y : Layout) : List Bytes := (y.full ++ [y.last]).map (fileOf p)

def located (y : Layout) : List Located := locatedIn p 0 (y.full ++ [y.last])

def extend (y : Layout) (new : List Block) : Layout := ⟨y.full,y.last ++ new⟩

def info (y : Layout) (first : Nat) : BlockfilesInfo :=
  ⟨y.full.length,(fileOf p y.last).length,y.blocks.length = 0,
    if y.blocks.length = 0 then 0 else first + y.blocks.length - 1⟩

end Layout

def Chained : BlockchainInfo → List Block → Prop
  | _,[] => True
  | i,b :: bs => b.header.number = i.height ∧ b.header.previousHash = i.currentBlockHash ∧
      Chained (i.update p b) bs

/-- A block that indexBlock can index. -/
@[mk_iff]
structure Block.Indexable (b : Block) : Prop where
  flagged : Flagged conf.attrsToIndex b.data.length b.metadata
  ids : ∀ tx ∈ b.data, (p.getOrComputeTxIDFromEnvelope tx).length < 2 ^ 64

instance (b : Block) : Decidable (b.Indexable p conf) :=
  decidable_of_iff' _ (b.indexable_iff p conf)

structure Layout.Valid (snapshot : Option BootstrappingSnapshotInfo) (y : Layout) : Prop where
  sized : ∀ b ∈ y.blocks, b.Sized
  indexable : ∀ b ∈ y.blocks, b.Indexable p conf
  full : ∀ bs ∈ y.full, bs ≠ []
  chained : Chained p (bootstrapped snapshot) y.blocks

/-- The ids of a snapshot in the order of its file. -/
def imported (snapshot : Option BootstrappingSnapshotInfo) : List Occurrence :=
  snapshot.elim [] fun s => importedFrom s.lastBlockNum 0 ids

/-- The index of a new store. The import of a snapshot has written its ids and the savepoint. -/
def initialIndex (snapshot : Option BootstrappingSnapshotInfo) : BlockIndex :=
  snapshot.elim ⟨none,[],Tables.Table.empty⟩ fun s => importedIndex s.lastBlockNum ids

/-- The index has the blocks that are located, and goes on after the snapshot. -/
def Indexed (snapshot : Option BootstrappingSnapshotInfo) (index : BlockIndex)
    (ls : List Located) : Prop :=
  index = (ls.map (entry p)).foldl (BlockIndex.put conf.attrsToIndex) (initialIndex ids snapshot)

/-- A manager that is in order. A file that a crash has left without content may follow the last one. -/
structure Holds (m : BlockfileMgr) (y : Layout) : Prop where
  valid : y.Valid p conf m.disk.snapshot
  files : ∃ more, m.disk.files = y.files p ++ more ∧ (more = [] ∨ more = [[]])
  info : m.blockfilesInfo = y.info p (bootstrapped m.disk.snapshot).height
  saved : m.disk.blkfilesInfo = some m.blockfilesInfo
  index : Indexed p conf ids m.disk.snapshot m.disk.index (y.located p)
  bcInfo : m.bcInfo = y.blocks.foldl (update p) (bootstrapped m.disk.snapshot)

end

variable {p : Protoutil} {co : Conf} {ids : List Bytes} {sn : Option BootstrappingSnapshotInfo}

theorem first_possible (sn : Option BootstrappingSnapshotInfo) :
    firstPossibleBlockNumberInBlockFiles sn = (bootstrapped sn).height := by
  cases sn <;> rfl

theorem foldl_height (i : BlockchainInfo) (bs : List Block) :
    (bs.foldl (update p) i).height = i.height + bs.length := by
  induction bs generalizing i with
  | nil => rfl
  | cons b bs ih =>
    rw [foldl_cons,ih,length_cons]
    exact Nat.add_right_comm _ 1 _

theorem chained_append (i : BlockchainInfo) (bs bs' : List Block) :
    Chained p i (bs ++ bs') ↔ Chained p i bs ∧ Chained p (bs.foldl (update p) i) bs' := by
  induction bs generalizing i with
  | nil => exact (and_iff_right trivial).symm
  | cons b bs ih =>
    rw [cons_append,Chained,Chained,ih,foldl_cons,and_assoc,and_assoc]

theorem Chained.number (h : Chained p i bs)
    (hb : bs[n]? = some b) : b.header.number = i.height + n := by
  induction bs generalizing i n with
  | nil => cases hb
  | cons c bs ih =>
    obtain ⟨hn,_,hr⟩ := h
    cases n with
    | zero =>
      cases hb
      exact hn
    | succ n =>
      rw [List.getElem?_cons_succ] at hb
      rw [ih hr hb]
      exact Nat.add_right_comm _ 1 _

theorem Chained.last_number (h : Chained p i (bs ++ [b])) :
    b.header.number = i.height + bs.length :=
  h.number (by rw [List.getElem?_append_right (Nat.le_refl _),Nat.sub_self]; rfl)

namespace Layout

theorem blocks_extend (y : Layout) (new : List Block) : (y.extend new).blocks = y.blocks ++ new :=
  (append_assoc _ _ _).symm

theorem located_extend (y : Layout) (new : List Block) : (y.extend new).located p =
    y.located p ++ Blkstorage.located p y.full.length (fileOf p y.last).length new := by
  rw [Layout.located,Layout.located,located_in_append,located_in_append,append_assoc]
  congr 1
  dsimp only [extend]
  rw [locatedIn,locatedIn,locatedIn,locatedIn,append_nil,append_nil,located_append,
    Nat.zero_add,Nat.zero_add]

theorem located_blocks (y : Layout) : (y.located p).map block = y.blocks := by
  rw [located,located_in_blocks,flatten_append,flatten_singleton]
  rfl

theorem block_mem {y : Layout} (hl : l ∈ y.located p) : l.block ∈ y.blocks := by
  rw [← y.located_blocks (p := p)]
  exact mem_map_of_mem hl

end Layout

theorem Indexed.entries (h : Indexed p co ids sn index ls) :
    index.entries = (ls.map (entry p)).reverse := by
  rw [h,foldl_put]
  cases sn <;> exact append_nil _

theorem Indexed.last (h : Indexed p co ids sn index ls) : index.lastBlockIndexed =
    ls.getLast?.elim (sn.map BootstrappingSnapshotInfo.lastBlockNum)
      fun l => some l.block.header.number := by
  rw [h,foldl_put,List.getLast?_map]
  cases ls.getLast? with
  | none => cases sn <;> rfl
  | some l => rfl

theorem Indexed.tx_ids (h : Indexed p co ids sn index ls) : index.txIDs = putAll Tables.Table.empty
    (imported ids sn ++ (ls.map (entry p)).flatMap (BlockIdxInfo.occurrences co.attrsToIndex)) := by
  rw [h,foldl_put,put_all_append]
  cases sn <;> rfl

theorem Indexed.put (h : Indexed p co ids sn index ls) (l : Located) :
    Indexed p co ids sn (index.put co.attrsToIndex (l.entry p)) (ls ++ [l]) := by
  rw [Indexed,map_append,foldl_append,← h]
  rfl

theorem tx_index_infos_length (o : Nat) (txs : List Bytes) :
    (txIndexInfos p o txs).length = txs.length := by
  induction txs generalizing o with
  | nil => rfl
  | cons tx txs ih => rw [txIndexInfos,length_cons,ih,length_cons]

theorem Block.Indexable.put (h : b.Indexable p co) (ha : co.attrsToIndex ≠ []) (index : BlockIndex)
    (fn o : Nat) : index.indexBlock co.attrsToIndex (blockIdxInfo p fn o b) =
      .ok (index.put co.attrsToIndex (blockIdxInfo p fn o b)) := by
  have hl : (blockIdxInfo p fn o b).txOffsets.length = b.data.length :=
    (length_map _).trans (tx_index_infos_length _ _)
  rw [BlockIndex.indexBlock,if_neg ha,if_pos]
  rw [hl]
  exact h.flagged

theorem index_streamed (ha : co.attrsToIndex ≠ [])
    (hs : ∀ l ∈ ls, l.block.Sized ∧ l.block.Indexable p co) (he : Indexed p co ids sn index ls') :
    ∃ i', indexStreamed p co index (ls.map (placed p)) = .ok i' ∧
      Indexed p co ids sn i' (ls' ++ ls) := by
  induction ls generalizing index ls' with
  | nil => exact ⟨index,rfl,by rwa [append_nil]⟩
  | cons l ls ih =>
    obtain ⟨⟨hl,hx⟩,hls⟩ := forall_mem_cons.mp hs
    obtain ⟨i',hin,hi⟩ := ih hls (he.put l)
    rw [append_assoc] at hi
    refine ⟨i',?_,hi⟩
    rw [map_cons,placed,indexStreamed,extract_serialized hl]
    dsimp only
    rw [Nat.add_sub_cancel_left]
    exact (congrArg (· >>= fun ix => indexStreamed p co ix (ls.map (placed p)))
      (hx.put ha index l.fileNum l.offset)).trans hin

/-- Files that have complete blocks and then a part of one. -/
structure Left (p : Protoutil) (y : Layout) (tail : Bytes) (found : List Bytes) : Prop where
  found : ∃ more, found = y.full.map (fileOf p) ++ ((fileOf p y.last ++ tail) :: more) ∧
    (more = [] ∨ more = [[]])
  torn : Torn p tail

variable {y : Layout} {nw : List Block} {ta : Bytes} {fi : List Bytes} {first : Nat}

theorem Left.last (left : Left p y ta fi) : fi[y.full.length]? = some (fileOf p y.last ++ ta) := by
  obtain ⟨mo,hfs,_⟩ := left.found
  rw [hfs,List.getElem?_append_right (by rw [length_map])]
  simp

theorem Layout.extend_size : (fileOf p (y.extend nw).last).length =
    (fileOf p y.last).length + (fileOf p nw).length := by
  rw [Layout.extend,file_append,length_append]

theorem sync_info (left : Left p (y.extend nw) ta fi) (hi : ∀ b ∈ nw, b.Sized)
    (hd : y.blocks = [] → nw = [] ∨ first = 0) :
    syncBlockfilesInfoFromFS fi (y.info p first) = .ok ((y.extend nw).info p first) := by
  have hc := file_count (p := p) nw
  have hf : fi[y.full.length]? = some (fileOf p y.last ++ (fileOf p nw ++ ta)) := by
    rw [← append_assoc,← file_append]
    exact left.last
  rw [syncBlockfilesInfoFromFS]
  dsimp only [Layout.info]
  rw [hf]
  by_cases hs : (fileOf p y.last ++ (fileOf p nw ++ ta)).length = (fileOf p y.last).length
  · refine (if_pos hs).trans ?_
    rw [length_append,length_append] at hs
    obtain rfl : nw = [] := length_eq_zero_iff.mp (by omega)
    rw [Layout.extend,append_nil]
  refine (if_neg hs).trans ?_
  rw [scan_complete hi hf left.torn,Layout.extend_size,Layout.blocks_extend,length_append]
  by_cases hn : nw.length = 0
  · obtain rfl := length_eq_zero_iff.mp hn
    rfl
  have hfs : y.blocks.length = 0 → first = 0 := fun h =>
    (hd (length_eq_zero_iff.mp h)).resolve_left fun h' =>
      hn (length_eq_zero_iff.mpr h')
  have hsu : (if y.blocks.length = 0 then nw.length - 1
      else (if y.blocks.length = 0 then 0 else first + y.blocks.length - 1) + nw.length) =
      first + (y.blocks.length + nw.length) - 1 := by
    split
    · rename_i hz
      omega
    · omega
  refine (if_neg hn).trans ?_
  rw [if_neg (by omega : ¬ y.blocks.length + nw.length = 0),← hsu]
  simp [Layout.extend,hn]
  rfl

theorem modify_middle {α : Type} (be : List α) (a : α) (after : List α) (f : α → α) :
    (be ++ a :: after).modify be.length f = be ++ f a :: after := by
  induction be with
  | nil => rfl
  | cons b be ih => exact congrArg (b :: ·) ih

theorem Layout.get_file {bs : List Block} {i : Nat} (h : (y.full ++ [y.last])[i]? = some bs)
    (mo : List Bytes) :
    (y.files p ++ mo)[i]? = some (fileOf p bs) := by
  have hi : i < (y.files p).length := by
    rw [Layout.files,length_map]
    exact (List.getElem?_eq_some_iff.mp h).1
  rw [List.getElem?_append_left hi,Layout.files,List.getElem?_map,h]
  rfl

theorem Layout.get_last (y : Layout) : (y.full ++ [y.last])[y.full.length]? = some y.last := by
  rw [List.getElem?_append_right (Nat.le_refl _),Nat.sub_self]
  rfl

theorem Left.truncate (left : Left p y ta fi) : ∃ mo,
    truncateFile (newBlockfileWriter fi y.full.length) y.full.length (fileOf p y.last).length =
      y.files p ++ mo ∧ (mo = [] ∨ mo = [[]]) := by
  obtain ⟨mo,rfl,hm⟩ := left.found
  refine ⟨mo,?_,hm⟩
  have hl : y.full.length = (y.full.map (fileOf p)).length := (length_map _).symm
  rw [newBlockfileWriter,if_pos (by simp),truncateFile,hl,modify_middle,take_left,
    Layout.files,map_append]
  simp

theorem Indexed.next (hi : Indexed p co ids sn index ls)
    (hc : Chained p (bootstrapped sn) (ls.map block)) :
    index.lastBlockIndexed.elim 0 (· + 1) = (bootstrapped sn).height + ls.length := by
  rw [hi.last]
  rcases eq_nil_or_concat ls with rfl | ⟨ls,l,rfl⟩
  · cases sn <;> rfl
  rw [concat_eq_append] at hc ⊢
  rw [map_append] at hc
  have hn := hc.last_number
  rw [List.getLast?_append]
  show l.block.header.number + 1 = _
  rw [hn,length_append,length_map]
  rfl

theorem Layout.Valid.first_file (hv : y.Valid p co sn) (hbs : y.blocks ≠ []) : ∃ b bs,
    (y.full ++ [y.last])[0]? = some (b :: bs) ∧ b.Sized ∧
      b.header.number = (bootstrapped sn).height := by
  have hfs : ∃ b bs, (y.full ++ [y.last])[0]? = some (b :: bs) ∧ y.blocks[0]? = some b := by
    rw [Layout.blocks] at hbs ⊢
    cases hfu : y.full with
    | nil =>
      rw [hfu] at hbs
      cases hl : y.last with
      | nil =>
        rw [hl] at hbs
        exact absurd rfl hbs
      | cons b bs => exact ⟨b,bs,rfl,rfl⟩
    | cons f fs =>
      cases hf : f with
      | nil => exact absurd hf (hv.full f (hfu ▸ mem_cons_self))
      | cons b bs => exact ⟨b,bs,rfl,rfl⟩
  obtain ⟨b,bs,hfi,hg⟩ := hfs
  exact ⟨b,bs,hfi,hv.sized b (mem_of_getElem? hg),hv.chained.number hg⟩

theorem Layout.Valid.first_number (hv : y.Valid p co sn) (hbs : y.blocks ≠ []) (mo : List Bytes) :
    retrieveFirstBlockNumFromFile p (y.files p ++ mo) 0 = .ok (bootstrapped sn).height := by
  obtain ⟨b,bs,hf,hs,hn⟩ := hv.first_file hbs
  have he := next_block (p := p) hs [] (fileOf p bs)
  rw [nil_append,← file_cons] at he
  rw [retrieveFirstBlockNumFromFile,Layout.get_file hf]
  dsimp only
  rw [show ([] : Bytes).length = 0 from rfl] at he
  rw [he]
  dsimp only [Bind.bind,Except.bind]
  rw [extract_serialized hs,← hn]
  rfl

theorem located_split (h : located p fileNum offset bs = ls ++ l :: rest) : ∃ be af,
    bs = be ++ l.block :: af ∧ l.fileNum = fileNum ∧ l.offset = offset + (fileOf p be).length ∧
      l :: rest = located p fileNum l.offset (l.block :: af) := by
  induction bs generalizing offset ls with
  | nil => simp [located] at h
  | cons b bs ih =>
    cases ls with
    | nil =>
      obtain ⟨rfl,rfl⟩ := List.cons.inj h
      exact ⟨[],bs,rfl,rfl,rfl,rfl⟩
    | cons l' ls =>
      obtain ⟨be,af,rfl,hn,ho,hr⟩ := ih (List.cons.inj h).2
      refine ⟨b :: be,af,rfl,hn,?_,hr⟩
      rw [ho,file_cons,length_append,Nat.add_assoc]

theorem located_in_split (h : locatedIn p fileNum fs = ls ++ l :: rest) : ∃ f₁ be af fs₂,
    fs = f₁ ++ (be ++ l.block :: af) :: fs₂ ∧ l.fileNum = fileNum + f₁.length ∧
      l.offset = (fileOf p be).length ∧ l :: rest =
        located p l.fileNum l.offset (l.block :: af) ++ locatedIn p (l.fileNum + 1) fs₂ := by
  induction fs generalizing fileNum ls with
  | nil => simp [locatedIn] at h
  | cons f fs ih =>
    have hl : ∀ ls', locatedIn p (fileNum + 1) fs = ls' ++ l :: rest → ∃ f₁ be af fs₂,
        f :: fs = f₁ ++ (be ++ l.block :: af) :: fs₂ ∧ l.fileNum = fileNum + f₁.length ∧
          l.offset = (fileOf p be).length ∧ l :: rest =
            located p l.fileNum l.offset (l.block :: af) ++ locatedIn p (l.fileNum + 1) fs₂ := by
      intro ls' hin
      obtain ⟨f₁,be,af,fs₂,rfl,hn,ho,hr⟩ := ih hin
      exact ⟨f :: f₁,be,af,fs₂,rfl,by rw [hn,length_cons]; omega,ho,hr⟩
    rcases append_eq_append_iff.mp h with ⟨ls',_,hin⟩ | ⟨ls',hls,hin⟩
    · exact hl ls' hin
    cases ls' with
    | nil => exact hl [] hin.symm
    | cons l' ls' =>
      obtain ⟨rfl,rfl⟩ := List.cons.inj hin
      obtain ⟨be,af,rfl,rfl,ho,hr⟩ := located_split hls
      refine ⟨[],be,af,fs,rfl,rfl,ho.trans (Nat.zero_add _),?_⟩
      rw [← hr]
      rfl

theorem stream_blocks {fs : List (List Block)} (hs : ∀ b ∈ bs ++ fs.flatten, b.Sized)
    (fi mo : List Bytes) (be : Bytes) :
    blockStream (fi ++ (be ++ fileOf p bs) :: (fs.map (fileOf p) ++ mo)) fi.length
        be.length fs.length =
      .ok ((located p fi.length be.length bs ++
        locatedIn p (fi.length + 1) fs).map (placed p)) := by
  induction fs generalizing fi be bs with
  | nil =>
    rw [locatedIn,append_nil]
    exact file_blocks (fun b hb => hs b (mem_append_left _ hb)) (by simp)
  | cons f fs ih =>
    have hr := ih (fun b hb => hs b (mem_append_right bs hb))
      (fi ++ [be ++ fileOf p bs]) []
    rw [length_append,length_singleton,nil_append,append_assoc,singleton_append] at hr
    rw [length_cons,blockStream,
      file_blocks (p := p) (fun b hb => hs b (mem_append_left _ hb)) (by simp)]
    refine (congrArg (fun r => Except.bind (Except.ok _) fun bl => Except.bind r fun re =>
      Except.ok (bl ++ re)) hr).trans ?_
    exact congrArg Except.ok map_append.symm

theorem stream_from (hi : ∀ b ∈ y.blocks, b.Sized) (h : y.located p = ls ++ l :: rest)
    (mo : List Bytes) :
    blockStream (y.files p ++ mo) l.fileNum l.offset (y.full.length - l.fileNum) =
      .ok ((l :: rest).map (placed p)) := by
  obtain ⟨f₁,be,af,f₂,hfs,hn,ho,hr⟩ := located_in_split h
  have hl := congrArg List.length hfs
  simp only [length_append,length_cons,length_nil] at hl
  have hf : y.files p ++ mo = f₁.map (fileOf p) ++
      (fileOf p be ++ fileOf p (l.block :: af)) :: (f₂.map (fileOf p) ++ mo) := by
    rw [Layout.files,hfs,map_append,map_cons,file_append,append_assoc]
    rfl
  have hsi : ∀ b ∈ (l.block :: af) ++ f₂.flatten, b.Sized := by
    intro b hb
    refine hi b ?_
    have hfl : y.blocks = (y.full ++ [y.last]).flatten := by
      rw [flatten_append,flatten_singleton]
      rfl
    rw [hfl,hfs,flatten_append,flatten_cons,append_assoc]
    exact mem_append_right _ (mem_append_right _ hb)
  have hs := stream_blocks (p := p) hsi (f₁.map (fileOf p)) mo (fileOf p be)
  rw [length_map,← hf] at hs
  rw [hr,hn,ho,Nat.zero_add,(by omega : y.full.length - f₁.length = f₂.length)]
  exact hs

theorem stream_all (hi : ∀ b ∈ y.blocks, b.Sized) (mo : List Bytes) :
    blockStream (y.files p ++ mo) 0 0 y.full.length = .ok ((y.located p).map (placed p)) := by
  obtain ⟨fu,l⟩ := y
  cases fu with
  | nil =>
    have hs : ∀ b ∈ l ++ [].flatten, b.Sized := by simpa [Layout.blocks] using hi
    exact stream_blocks hs [] mo []
  | cons f fs =>
    have hs : ∀ b ∈ f ++ (fs ++ [l]).flatten, b.Sized := by
      simpa [Layout.blocks] using hi
    have hst := stream_blocks (p := p) hs [] mo []
    rw [length_append] at hst
    exact hst

theorem lookup_newest {l : Located} {ar : List IndexableAttr} (ha : .blockNum ∈ ar)
    {ix : BlockIndex}
    (hes : ix.entries = l.entry p :: rest) :
    ix.getBlockLocByBlockNum ar l.block.header.number = .ok ⟨l.fileNum,l.offset,0⟩ := by
  have hn : (l.entry p).blockNum = l.block.header.number := rfl
  rw [BlockIndex.getBlockLocByBlockNum,BlockIndex.lookup,if_pos ha,hes,List.findSome?_cons,
    if_pos hn]
  rfl

section
variable {di : Disk} {io : BlockfilesInfo} {n : Nat}

variable (hx : di.index.lastBlockIndexed.elim 0 (· + 1) = n)
  (hg : ¬ (n = 0 ∧ 0 < firstPossibleBlockNumberInBlockFiles di.snapshot))
include hx hg

theorem sync_index_empty (he : io.noBlockFiles = true) : syncIndex p co di io = .ok di.index := by
  simp only [syncIndex,hx,if_neg hg,he,if_true]
  rfl

theorem sync_index_same (hl : n = io.lastPersistedBlock + 1) :
    syncIndex p co di io = .ok di.index := by
  simp only [syncIndex,hx,if_neg hg,if_pos hl,ite_self]
  rfl

theorem sync_index_start (hs : io.noBlockFiles = false) (hl : n ≠ io.lastPersistedBlock + 1)
    (hn : retrieveFirstBlockNumFromFile p di.files 0 = .ok first) (hlt : ¬ first < n)
    (hst : blockStream di.files 0 0 io.latestFileNumber = .ok blocks) :
    syncIndex p co di io = indexStreamed p co di.index blocks := by
  simp only [syncIndex,hx,if_neg hg,hs,if_neg hl,hn]
  refine (if_neg hlt).trans ?_
  rw [hst]
  rfl

theorem sync_index_resume (hs : io.noBlockFiles = false) (hl : n ≠ io.lastPersistedBlock + 1)
    (hn : retrieveFirstBlockNumFromFile p di.files 0 = .ok first) (hlt : first < n)
    (hf : di.index.getBlockLocByBlockNum co.attrsToIndex (n - 1) = .ok flp)
    (hst : blockStream di.files flp.fileSuffixNum flp.loc.offset
      (io.latestFileNumber - flp.fileSuffixNum) = .ok (b :: blocks)) :
    syncIndex p co di io = indexStreamed p co di.index blocks := by
  simp only [syncIndex,hx,if_neg hg,hs,if_neg hl,hn]
  refine (if_pos hlt).trans ?_
  rw [hf]
  change (blockStream di.files flp.fileSuffixNum flp.loc.offset
      (io.latestFileNumber - flp.fileSuffixNum) >>= _) = _
  rw [hst]
  rfl

end

theorem sync_index (ha : .blockNum ∈ co.attrsToIndex) (di : Disk)
    (hv : y.Valid p co di.snapshot) (hd : di.files = y.files p ++ mo)
    (hl : y.located p = ls ++ re) (hj : Indexed p co ids di.snapshot di.index ls) :
    ∃ ix, syncIndex p co di (y.info p (bootstrapped di.snapshot).height) = .ok ix ∧
      Indexed p co ids di.snapshot ix (y.located p) := by
  have hfs := first_possible di.snapshot
  have hbs := y.located_blocks (p := p)
  rw [hl,map_append] at hbs
  have hcn : y.blocks.length = ls.length + re.length := by
    rw [← hbs,length_append,length_map,length_map]
  obtain ⟨hc,_⟩ := (chained_append _ _ _).mp (hbs ▸ hv.chained)
  have hx := hj.next hc
  have hla : y.blocks.length ≠ 0 → (y.info p (bootstrapped di.snapshot).height).lastPersistedBlock +
      1 = (bootstrapped di.snapshot).height + y.blocks.length := by
    intro hne
    rw [Layout.info]
    dsimp only
    rw [if_neg hne]
    omega
  cases re with
  | nil =>
    rw [append_nil] at hl
    refine ⟨di.index,?_,hl ▸ hj⟩
    by_cases he : y.blocks.length = 0
    · exact sync_index_empty hx (by omega) (decide_eq_true he)
    refine sync_index_same hx (by omega) ?_
    rw [hla he,hcn]
    rfl
  | cons l re =>
    rw [length_cons] at hcn
    have hsi : ∀ l' ∈ l :: re, l'.block.Sized ∧ l'.block.Indexable p co := fun l' hl' =>
      have hm := Layout.block_mem (hl ▸ mem_append_right _ hl')
      ⟨hv.sized _ hm,hv.indexable _ hm⟩
    obtain ⟨ix,hi,hin⟩ := index_streamed (ne_nil_of_mem ha) hsi hj
    refine ⟨ix,?_,hl ▸ hin⟩
    have hn := hv.first_number (ne_nil_of_length_pos (by omega)) mo
    have hso : (y.info p (bootstrapped di.snapshot).height).noBlockFiles = false :=
      decide_eq_false (by omega)
    have hb := hla (by omega)
    rw [← hd] at hn
    rcases eq_nil_or_concat ls with rfl | ⟨be,l',hls⟩
    · rw [length_nil] at hx hcn
      have hs := stream_all (p := p) hv.sized mo
      rw [← hd,hl] at hs
      rw [sync_index_start hx (by omega) hso (by omega) hn (by omega) hs]
      exact hi
    · rw [concat_eq_append] at hls
      have hle : ls.length = be.length + 1 := by rw [hls,length_append]; rfl
      have hnu : l'.block.header.number = (bootstrapped di.snapshot).height + ls.length - 1 := by
        rw [hls,map_append] at hc
        rw [hc.last_number,length_map,hle]
        rfl
      have hes : di.index.entries = l'.entry p :: (be.map (entry p)).reverse := by
        rw [hj.entries,hls,map_append,reverse_append]
        rfl
      have hf := lookup_newest ha hes
      rw [hls,append_assoc] at hl
      have hs := stream_from hv.sized hl mo
      rw [hnu] at hf
      rw [← hd] at hs
      rw [sync_index_resume hx (by omega) hso (by omega) hn (by omega) hf hs]
      exact hi

theorem mem_located_in (h : l ∈ locatedIn p fileNum fs) : ∃ (i : Nat) (be af : List Block),
      fs[i]? = some (be ++ l.block :: af) ∧ l.fileNum = fileNum + i ∧
      l.offset = (fileOf p be).length := by
  obtain ⟨ls,re,hs⟩ := append_of_mem h
  obtain ⟨f₁,be,af,f₂,rfl,hn,ho,_⟩ := located_in_split hs
  exact ⟨f₁.length,be,af,by simp,hn,ho⟩

theorem Layout.Valid.fetch (hv : y.Valid p co sn) {l : Located} (h : l ∈ y.located p)
    (mo : List Bytes) :
    fetchBlockBytes (y.files p ++ mo) ⟨l.fileNum,l.offset,0⟩ = .ok (serializeBlock p l.block).1 := by
  obtain ⟨i,be,af,hg,hn,ho⟩ := mem_located_in h
  rw [Nat.zero_add] at hn
  rw [hn,ho]
  exact fetch_located (hv.sized _ (Layout.block_mem h)) (Layout.get_file hg mo) 0

theorem Layout.Valid.newest (hv : y.Valid p co sn) (hbs : y.blocks ≠ [])
    (hi : Indexed p co ids sn index (y.located p)) : ∃ l re bs, l ∈ y.located p ∧
      index.entries = l.entry p :: re ∧ y.blocks = bs ++ [l.block] ∧
      l.block.header.number = (bootstrapped sn).height + bs.length := by
  have hm := y.located_blocks (p := p)
  rcases eq_nil_or_concat (y.located p) with hls | ⟨ls,l,hls⟩
  · rw [hls] at hm
    exact absurd hm.symm hbs
  rw [concat_eq_append] at hls
  have hc := hv.chained
  rw [hls,map_append] at hm
  rw [← hm] at hc
  refine ⟨l,(ls.map (entry p)).reverse,ls.map block,?_,?_,hm.symm,hc.last_number⟩
  · rw [hls]
    exact mem_append_right _ mem_cons_self
  · rw [hi.entries,hls,map_append,reverse_append]
    rfl

theorem retrieve_last_header (ha : .blockNum ∈ co.attrsToIndex) (di : Disk)
    (hv : y.Valid p co di.snapshot) (hf : di.files = y.files p ++ mo)
    (hi : Indexed p co ids di.snapshot di.index (y.located p)) (hbs : y.blocks = bs ++ [b]) :
    retrieveBlockHeaderByNumber p co di
      (y.info p (bootstrapped di.snapshot).height).lastPersistedBlock = .ok b.header := by
  obtain ⟨l,re,b',hl,hes,hbs',hn⟩ := hv.newest (by rw [hbs]; simp) hi
  obtain ⟨rfl,hb⟩ := append_inj' (hbs'.symm.trans hbs) rfl
  obtain rfl := (List.cons.inj hb).1
  have hla : (y.info p (bootstrapped di.snapshot).height).lastPersistedBlock =
      l.block.header.number := by
    rw [Layout.info,hn,hbs]
    simp
  have hs : l.block.Sized := hv.sized _ (by rw [hbs]; simp)
  rw [hla,retrieveBlockHeaderByNumber,Disk.locate,if_neg (by rw [first_possible]; omega),
    lookup_newest ha hes]
  change (fetchBlockBytes di.files ⟨l.fileNum,l.offset,0⟩ >>= _) = _
  rw [hf,hv.fetch hl]
  dsimp only [Bind.bind,Except.bind]
  rw [extract_serialized hs]
  rfl

theorem new_blockfile_mgr {io : BlockfilesInfo} (hs : di.blkfilesInfo = some i₀)
    (hy : syncBlockfilesInfoFromFS di.files i₀ = .ok io)
    (ht : truncateFile (newBlockfileWriter di.files io.latestFileNumber)
      io.latestFileNumber io.latestFileSize = fi)
    (hi : syncIndex p co ⟨fi,some io,di.index,di.snapshot⟩ io = .ok index) :
    newBlockfileMgr p co di = if io.noBlockFiles then
        .ok ⟨⟨fi,some io,index,di.snapshot⟩,io,bootstrapped di.snapshot⟩
      else (retrieveBlockHeaderByNumber p co ⟨fi,some io,index,di.snapshot⟩
        io.lastPersistedBlock).map fun he => ⟨⟨fi,some io,index,di.snapshot⟩,io,
          io.lastPersistedBlock + 1,p.blockHeaderHash he,he.previousHash⟩ := by
  simp only [newBlockfileMgr,hs,hy,bind,Except.bind,ht,hi]
  rfl

theorem comes_up (ha : .blockNum ∈ co.attrsToIndex)
    (hv : z.Valid p co di.snapshot) (hs : di.blkfilesInfo = some i₀)
    (hy : syncBlockfilesInfoFromFS di.files i₀ = .ok (z.info p (bootstrapped di.snapshot).height))
    (ht : ∃ mo, truncateFile (newBlockfileWriter di.files z.full.length) z.full.length
      (fileOf p z.last).length = z.files p ++ mo ∧ (mo = [] ∨ mo = [[]]))
    (hlo : z.located p = ls ++ rest) (he : Indexed p co ids di.snapshot di.index ls) :
    ∃ m, newBlockfileMgr p co di = .ok m ∧ m.disk.snapshot = di.snapshot ∧ Holds p co ids m z := by
  obtain ⟨mo,hfs,hmo⟩ := ht
  obtain ⟨ix,hin,hi⟩ : ∃ ix, syncIndex p co ⟨z.files p ++ mo,
      some (z.info p (bootstrapped di.snapshot).height),di.index,di.snapshot⟩
      (z.info p (bootstrapped di.snapshot).height) = .ok ix ∧
      Indexed p co ids di.snapshot ix (z.located p) :=
    sync_index ha ⟨_,_,di.index,di.snapshot⟩ hv rfl hlo he
  have hm := new_blockfile_mgr hs hy hfs hin
  rcases eq_nil_or_concat z.blocks with hbs | ⟨bs,b,hbs⟩
  · have hn : (z.info p (bootstrapped di.snapshot).height).noBlockFiles = true :=
      decide_eq_true (length_eq_zero_iff.mpr hbs)
    rw [if_pos hn] at hm
    refine ⟨_,hm,rfl,hv,⟨mo,rfl,hmo⟩,rfl,rfl,hi,?_⟩
    rw [hbs]
    rfl
  · rw [concat_eq_append] at hbs
    have hc : z.blocks.length = bs.length + 1 := by rw [hbs,length_append]; rfl
    rw [if_neg (by simp [Layout.info,hc]),
      retrieve_last_header ha ⟨_,_,ix,di.snapshot⟩ hv rfl hi hbs] at hm
    refine ⟨_,hm,rfl,hv,⟨mo,rfl,hmo⟩,rfl,rfl,hi,?_⟩
    rw [hbs,foldl_append,foldl_cons,foldl_nil,update,foldl_height]
    have hl : (z.info p (bootstrapped di.snapshot).height).lastPersistedBlock + 1 =
        (bootstrapped di.snapshot).height + bs.length + 1 := by
      rw [Layout.info]
      dsimp only
      rw [hc,if_neg (Nat.succ_ne_zero _)]
      omega
    exact congrArg (fun n => mk n _ _) hl

end PluggableHcs.Blkstorage
