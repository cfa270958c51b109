import PluggableHcs.Blkstorage.CrashSafety

namespace PluggableHcs.Blkstorage
open Digits Txmgmt Runs List Option BlockfileMgr BootstrappingSnapshotInfo Layout BlockIndex

variable {p : Protoutil} {conf : Conf} {ids : List Bytes} {m : BlockfileMgr} {y : Layout}

theorem Holds.lookup {α : Type} (hs : Holds p conf ids m y)
    (hat : ar ∈ conf.attrsToIndex) (va : BlockIdxInfo → Option α) :
    (∃ l ∈ y.located p, ∃ a, va (l.entry p) = some a ∧
        m.disk.index.lookup conf.attrsToIndex ar va = .ok a) ∨
      (∀ l ∈ y.located p, va (l.entry p) = none) ∧
        m.disk.index.lookup conf.attrsToIndex ar va = .error .notFoundInIndex := by
  rw [BlockIndex.lookup,if_pos hat,hs.index.entries]
  cases hf : ((y.located p).map (Located.entry p)).reverse.findSome? va with
  | some a =>
    obtain ⟨i,hi,ha⟩ := exists_of_findSome?_eq_some hf
    obtain ⟨l,hl,rfl⟩ := List.mem_map.mp (mem_reverse.mp hi)
    exact .inl ⟨l,hl,a,ha,rfl⟩
  | none =>
    refine .inr ⟨fun l hl => ?_,rfl⟩
    exact List.findSome?_eq_none_iff.mp hf _ (mem_reverse.mpr (List.mem_map_of_mem hl))

theorem Holds.fetch (hs : Holds p conf ids m y) (hl : l ∈ y.located p) :
    fetchBlock p m.disk ⟨l.fileNum,l.offset,0⟩ = .ok l.block := by
  obtain ⟨mo,hfs,_⟩ := hs.files
  have hm := block_mem hl
  rw [fetchBlock,hfs,hs.valid.fetch hl]
  dsimp only [Bind.bind,Except.bind]
  rw [deserialize_serialized (hs.valid.sized _ hm)]
  rfl

theorem Holds.numbered (hs : Holds p conf ids m y) (hl : l ∈ y.located p) :
    (bootstrapped m.disk.snapshot).height ≤ l.block.header.number ∧
      y.blocks[l.block.header.number - (bootstrapped m.disk.snapshot).height]? = some l.block := by
  have hm := block_mem hl
  obtain ⟨i,hi⟩ := List.getElem?_of_mem hm
  have hn := hs.valid.chained.number hi
  rw [hn,Nat.add_sub_cancel_left]
  exact ⟨Nat.le_add_right _ _,hi⟩

theorem Holds.located_of (hs : Holds p conf ids m y) (hb : y.blocks[n]? = some b) :
    ∃ l ∈ y.located p, l.block = b ∧
      b.header.number = (bootstrapped m.disk.snapshot).height + n := by
  have hm := mem_of_getElem? hb
  rw [← y.located_blocks (p := p)] at hm
  obtain ⟨l,hl,hbl⟩ := List.mem_map.mp hm
  exact ⟨l,hl,hbl,hs.valid.chained.number hb⟩

theorem Holds.by_number (ha : .blockNum ∈ conf.attrsToIndex) (hs : Holds p conf ids m y) (n : Nat) :
    m.retrieveBlockByNumber p conf n =
      if n < (bootstrapped m.disk.snapshot).height then .error .beforeSnapshot
      else match y.blocks[n - (bootstrapped m.disk.snapshot).height]? with
        | none => .error .notFoundInIndex
        | some b => .ok b := by
  rw [retrieveBlockByNumber,Disk.locate,first_possible]
  by_cases hn : n < (bootstrapped m.disk.snapshot).height
  · rw [if_pos hn,if_pos hn]
  rw [if_neg hn,if_neg hn,getBlockLocByBlockNum]
  rcases hs.lookup ha fun i => if i.blockNum = n then some i.flp else none with
    ⟨l,hl,flp,hf,hlk⟩ | ⟨hno,hlk⟩
  · rw [hlk]
    split at hf
    · rename_i hnu
      obtain rfl : l.block.header.number = n := hnu
      cases hf
      rw [(hs.numbered hl).2]
      exact hs.fetch hl
    · cases hf
  · rw [hlk]
    cases hb : y.blocks[n - (bootstrapped m.disk.snapshot).height]? with
    | none => rfl
    | some b =>
      obtain ⟨l,hl,hbl,hnb⟩ := hs.located_of hb
      have hnu : (l.entry p).blockNum = n := by
        change l.block.header.number = n
        rw [hbl,hnb]
        omega
      have hlo := hno l hl
      rw [if_pos hnu] at hlo
      cases hlo

theorem Holds.by_hash (ha : .blockHash ∈ conf.attrsToIndex) (hs : Holds p conf ids m y) (blockHash : Bytes) :
    (∃ b ∈ y.blocks, p.blockHeaderHash b.header = blockHash ∧
        m.retrieveBlockByHash p conf blockHash = .ok b) ∨
      (∀ b ∈ y.blocks, p.blockHeaderHash b.header ≠ blockHash) ∧
        m.retrieveBlockByHash p conf blockHash = .error .notFoundInIndex := by
  rw [retrieveBlockByHash,getBlockLocByHash]
  have hbs := y.located_blocks (p := p)
  rcases hs.lookup ha fun i => if i.blockHash = blockHash then some i.flp else none with
    ⟨l,hl,flp,hf,hlk⟩ | ⟨hn,hlk⟩
  · rw [hlk]
    split at hf
    · rename_i hh
      cases hf
      exact .inl ⟨l.block,hbs ▸ List.mem_map_of_mem hl,hh,hs.fetch hl⟩
    · cases hf
  · rw [hlk]
    refine .inr ⟨fun b hb hh => ?_,rfl⟩
    rw [← hbs] at hb
    obtain ⟨l,hl,rfl⟩ := List.mem_map.mp hb
    have hlo := hn l hl
    have hh' : (l.entry p).blockHash = blockHash := hh
    rw [if_pos hh'] at hlo
    cases hlo

theorem tx_index_infos (o : Nat) (ts : List Bytes) (i : Nat) :
    (txIndexInfos p o ts)[i]? = ts[i]?.map fun tx =>
      ⟨p.getOrComputeTxIDFromEnvelope tx,o + ((ts.take i).flatMap encodeRawBytes).length,
        (encodeRawBytes tx).length⟩ := by
  induction ts generalizing o i with
  | nil => rfl
  | cons tx ts ih =>
    cases i with
    | zero => rfl
    | succ i =>
      rw [txIndexInfos,List.getElem?_cons_succ,ih,List.getElem?_cons_succ,take_succ_cons,
        flatMap_cons,length_append,Nat.add_assoc]

theorem split_at_index {α : Type} {l : List α} {a : α} (h : l[i]? = some a) :
    l = l.take i ++ a :: l.drop (i + 1) := by
  obtain ⟨hi,rfl⟩ := List.getElem?_eq_some_iff.mp h
  rw [← drop_eq_getElem_cons hi,take_append_drop]

theorem serialized_at {b : Block} {tx : Bytes} (h : b.data[i]? = some tx) : ∃ be af,
    (serializeBlock p b).1 = be ++ (encodeRawBytes tx ++ af) ∧
      be.length = (addHeaderBytes b.header).length + (varint b.data.length).length +
        ((b.data.take i).flatMap encodeRawBytes).length := by
  have hi : addItems b.data = varint b.data.length ++ ((b.data.take i).flatMap encodeRawBytes ++
      (encodeRawBytes tx ++ (b.data.drop (i + 1)).flatMap encodeRawBytes)) := by
    have hd := split_at_index h
    rw [addItems]
    congr 1
    conv => lhs; rw [hd]
    rw [flatMap_append,flatMap_cons]
  refine ⟨addHeaderBytes b.header ++ (varint b.data.length ++ (b.data.take i).flatMap encodeRawBytes),
    (b.data.drop (i + 1)).flatMap encodeRawBytes ++ addItems b.metadata,?_,?_⟩
  · have hb : (serializeBlock p b).1 =
        addHeaderBytes b.header ++ (addItems b.data ++ addItems b.metadata) := rfl
    rw [hb,hi]
    simp only [append_assoc]
  · simp only [length_append]
    omega

theorem tx_offsets (b : Block) (i : Nat) : (serializeBlock p b).2.txOffsets[i]? =
    b.data[i]?.map fun tx => ⟨p.getOrComputeTxIDFromEnvelope tx,(addHeaderBytes b.header).length +
      (varint b.data.length).length + ((b.data.take i).flatMap encodeRawBytes).length,
      (encodeRawBytes tx).length⟩ :=
  tx_index_infos _ _ _

theorem Block.Sized.envelope {b : Block} {i : Nat} (hs : b.Sized) (h : b.data[i]? = some tx) :
    tx.length < 2 ^ 64 := by
  have hb := hs.bytes
  have hle := mem_length_le (mem_of_getElem? h)
  simp only [length_append,addItems] at hb
  omega

theorem fetch_envelope {fs : List Bytes} {be af : Bytes}
    (hf : fs[fileNum]? = some (be ++ (encodeRawBytes tx ++ af)))
    (hl : tx.length < 2 ^ 64) (ho : offset = be.length) :
    fetchTransactionEnvelope fs ⟨fileNum,offset,(encodeRawBytes tx).length⟩ = .ok tx := by
  have hd := decode_varint hl tx
  rw [fetchTransactionEnvelope,fetchRawBytes]
  rw [hf]
  dsimp only
  rw [if_neg (by rw [ho]; simp only [length_append]; omega),ho,drop_left,take_left]
  dsimp only
  rw [encodeRawBytes,hd,elim_some,drop_left]

theorem Holds.fetch_tx (hs : Holds p conf ids m y) (hl : l ∈ y.located p) (i : Nat) :
    ((l.entry p).txOffsets[i]?.map fun tx => fetchTransactionEnvelope m.disk.files
      (newFileLocationPointer l.fileNum l.offset tx.loc)) = l.block.data[i]?.map Except.ok := by
  rw [Located.entry,blockIdxInfo]
  dsimp only
  rw [shift,List.getElem?_map,tx_offsets,Option.map_map,Option.map_map]
  cases htx : l.block.data[i]? with
  | none => rfl
  | some tx =>
    obtain ⟨mo,hfs,_⟩ := hs.files
    obtain ⟨j,be,af,hg,hn,ho⟩ := mem_located_in hl
    rw [Nat.zero_add] at hn
    obtain ⟨pr,po,hb,hle⟩ := serialized_at (p := p) htx
    have hf := get_file (p := p) hg mo
    rw [← hfs,file_append,file_cons,blockFrame,encodeRawBytes] at hf
    nth_rewrite 2 [hb] at hf
    rw [append_assoc,append_assoc,append_assoc,← append_assoc,← append_assoc] at hf
    rw [map_some,map_some,Function.comp_apply,Function.comp_apply,newFileLocationPointer,hn]
    refine congrArg some (fetch_envelope hf ((hs.valid.sized _ (block_mem hl)).envelope htx) ?_)
    dsimp only
    rw [length_append,length_append,hle,ho]
    omega

theorem Holds.by_tran_num (ha : .blockNumTranNum ∈ conf.attrsToIndex) (hs : Holds p conf ids m y)
    (n i : Nat) : m.retrieveTransactionByBlockNumTranNum conf n i =
      if n < (bootstrapped m.disk.snapshot).height then .error .beforeSnapshot
      else match y.blocks[n - (bootstrapped m.disk.snapshot).height]?.bind fun b => b.data[i]? with
        | none => .error .notFoundInIndex
        | some tx => .ok tx := by
  rw [retrieveTransactionByBlockNumTranNum,first_possible]
  by_cases hn : n < (bootstrapped m.disk.snapshot).height
  · rw [if_pos hn,if_pos hn]
  rw [if_neg hn,if_neg hn,getTXLocByBlockNumTranNum]
  rcases hs.lookup ha fun e => if e.blockNum = n then e.txOffsets[i]?.map fun tx =>
      newFileLocationPointer e.flp.fileSuffixNum e.flp.loc.offset tx.loc else none with
    ⟨l,hl,flp,hfl,hlk⟩ | ⟨hno,hlk⟩
  · rw [hlk]
    split at hfl
    · rename_i hnu
      obtain rfl : l.block.header.number = n := hnu
      obtain ⟨tx,htx,rfl⟩ := map_eq_some_iff.mp hfl
      have hf := hs.fetch_tx hl i
      rw [htx,map_some] at hf
      obtain ⟨en,hd,hok⟩ := map_eq_some_iff.mp hf.symm
      rw [(hs.numbered hl).2,bind_some,hd]
      exact hok.symm
    · cases hfl
  · rw [hlk]
    cases hb : y.blocks[n - (bootstrapped m.disk.snapshot).height]? with
    | none => rfl
    | some b =>
      obtain ⟨l,hl,rfl,hnb⟩ := hs.located_of hb
      have hnu : (l.entry p).blockNum = n := by
        change l.block.header.number = n
        omega
      have hlo := hno l hl
      rw [if_pos hnu,map_eq_none_iff] at hlo
      have hf := hs.fetch_tx hl i
      rw [hlo,map_none] at hf
      rw [bind_some,map_eq_none_iff.mp hf.symm]

theorem tx_ids_of_infos (o : Nat) (txs : List Bytes) : (txIndexInfos p o txs).map TxIndexInfo.txID =
    txs.map p.getOrComputeTxIDFromEnvelope := by
  induction txs generalizing o with
  | nil => rfl
  | cons tx txs ih => rw [txIndexInfos,map_cons,ih,map_cons]

theorem entry_tx_ids (l : Located) : (l.entry p).txOffsets.map TxIndexInfo.txID =
    l.block.data.map p.getOrComputeTxIDFromEnvelope := by
  rw [← tx_ids_of_infos (p := p) _ l.block.data,Located.entry,blockIdxInfo,shift,List.map_map]
  rfl

/-- The numbers and lengths of the snapshot are numbers and lengths of the code. -/
def Imports (ids : List Bytes) (snapshot : Option BootstrappingSnapshotInfo) : Prop :=
  ∀ s ∈ snapshot, s.lastBlockNum < 2 ^ 64 ∧ ids.length < 2 ^ 64 ∧ ∀ x ∈ ids, x.length < 2 ^ 64

theorem Chained.sorted (h : Chained p i bs) :
    bs.Pairwise fun b b' => b.header.number < b'.header.number := by
  rw [pairwise_iff_getElem]
  intro j k hj hk hlt
  rw [h.number (List.getElem?_eq_getElem hj),h.number (List.getElem?_eq_getElem hk)]
  omega

theorem Holds.occurrences_fit (hs : Holds p conf ids m y) (hl : l ∈ y.located p)
    (h : o ∈ (l.entry p).occurrences conf.attrsToIndex) : o.Fits := by
  have hb := block_mem hl
  have sized := hs.valid.sized _ hb
  rw [BlockIdxInfo.occurrences] at h
  split at h
  · obtain ⟨⟨tx,i⟩,ht,rfl⟩ := List.mem_map.mp h
    have hi : i < (l.entry p).txOffsets.length := (List.snd_lt_of_mem_zipIdx ht).trans_eq
      (Nat.add_zero _)
    have hd : (l.entry p).txOffsets.length = l.block.data.length := by
      rw [← length_map TxIndexInfo.txID,entry_tx_ids,length_map]
    have hid := mem_map_of_mem (f := TxIndexInfo.txID) (fst_mem_of_mem_zipIdx ht)
    rw [entry_tx_ids] at hid
    obtain ⟨env,he,hid⟩ := List.mem_map.mp hid
    have hc := items_length_le l.block.data
    have hp := sized.bytes
    simp only [length_append,addItems] at hp
    refine ⟨?_,sized.number,by dsimp only; omega⟩
    dsimp only
    rw [← hid]
    exact (hs.valid.indexable _ hb).ids env he
  · cases h

theorem Holds.in_order (hs : Holds p conf ids m y) (hm : Imports ids m.disk.snapshot) :
    InOrder (imported ids m.disk.snapshot ++ ((y.located p).map (Located.entry p)).flatMap
      (BlockIdxInfo.occurrences conf.attrsToIndex)) := by
  have hbs := y.located_blocks (p := p)
  refine occurrences_in_order ?_ ?_ ?_ ?_
  · cases hsn : m.disk.snapshot with
    | none => exact ⟨List.forall_mem_nil _,.nil⟩
    | some s =>
      obtain ⟨hn,hc,hx⟩ := hm s hsn
      exact imported_in_order hn hc hx
  · intro o ho info hi
    obtain ⟨l,hl,rfl⟩ := List.mem_map.mp hi
    have hle := (hs.numbered hl).1
    cases hsn : m.disk.snapshot with
    | none =>
      rw [hsn] at ho
      cases ho
    | some s =>
      rw [hsn] at ho hle
      obtain ⟨e,_,rfl⟩ := List.mem_map.mp ho
      exact hle
  · have hc := hs.valid.chained.sorted
    rw [← hbs,pairwise_map] at hc
    exact pairwise_map.mpr hc
  · intro o ho
    obtain ⟨info,hi,ho⟩ := mem_flatMap.mp ho
    obtain ⟨l,hl,rfl⟩ := List.mem_map.mp hi
    exact hs.occurrences_fit hl ho

/-- The transactions under their ids. Those before the snapshot are known by their ids only. -/
def transactionsOf (p : Protoutil) (ids : List Bytes) (snapshot : Option BootstrappingSnapshotInfo)
    (blocks : List Block) : List (Bytes × Option (Block × Nat)) :=
  (snapshot.elim [] fun _ => ids.map (·,none)) ++ blocks.flatMap fun b =>
    b.data.zipIdx.map fun e => (p.getOrComputeTxIDFromEnvelope e.1,some (b,e.2))

def found : Option (Bytes × Option (Block × Nat)) → Except Fault (Block × Bytes × UInt8)
  | none => .error .notFoundInIndex
  | some (_,none) => .error .nilValue
  | some (_,some (b,i)) => .ok (b,b.data.getD i [],(b.metadata.getD 2 []).getD i 0)

/-- The occurrences with the transactions they are of. -/
def Layout.tagged (p : Protoutil) (conf : Conf) (ids : List Bytes)
    (snapshot : Option BootstrappingSnapshotInfo) (y : Layout) :
    List (Occurrence × Option (Block × Nat)) :=
  (imported ids snapshot).map (·,none) ++ (y.located p).flatMap fun l =>
    ((l.entry p).occurrences conf.attrsToIndex).map fun o => (o,some (l.block,o.txNum))

theorem tagged_occurrences (sn : Option BootstrappingSnapshotInfo) :
    (y.tagged p conf ids sn).map Prod.fst = imported ids sn ++
      ((y.located p).map (Located.entry p)).flatMap
        (BlockIdxInfo.occurrences conf.attrsToIndex) := by
  rw [tagged,map_append,map_flatMap,flatMap_map,List.map_map]
  simp [Function.comp_def]

theorem tagged_transactions (ha : .txID ∈ conf.attrsToIndex)
    (sn : Option BootstrappingSnapshotInfo) :
    ((y.tagged p conf ids sn).map fun z => (z.1.txID,z.2)) = transactionsOf p ids sn y.blocks := by
  rw [tagged,transactionsOf,map_append,map_flatMap,← y.located_blocks (p := p),flatMap_map]
  congr 1
  · cases sn with
    | none => rfl
    | some s =>
      have hz := ids.zipIdx_map_fst 0
      rw [imported,elim_some,elim_some,importedFrom,List.map_map,List.map_map]
      nth_rewrite 2 [← hz]
      rw [List.map_map]
      rfl
  · refine congrArg (fun f => flatMap f (y.located p)) (funext fun l => ?_)
    have hz : ((l.entry p).txOffsets.map TxIndexInfo.txID).zipIdx =
        (l.block.data.map p.getOrComputeTxIDFromEnvelope).zipIdx := by rw [entry_tx_ids]
    rw [zipIdx_map,zipIdx_map] at hz
    have hm := congrArg (List.map fun e => (e.1,some (l.block,e.2))) hz
    rw [List.map_map,List.map_map] at hm
    rw [BlockIdxInfo.occurrences,if_pos ha,List.map_map,List.map_map]
    exact hm

theorem Holds.found_at (hs : Holds p conf ids m y) (hl : l ∈ y.located p)
    (ho : o ∈ (l.entry p).occurrences conf.attrsToIndex) : ∃ v tx, o.value = some v ∧
      l.block.data[o.txNum]? = some tx ∧ fetchBlock p m.disk v.blkLocation = .ok l.block ∧
      fetchTransactionEnvelope m.disk.files v.txLocation = .ok tx ∧
      v.txValidationCode = (l.block.metadata.getD 2 []).getD o.txNum 0 := by
  rw [BlockIdxInfo.occurrences] at ho
  split at ho
  · obtain ⟨⟨t,i⟩,ht,rfl⟩ := List.mem_map.mp ho
    have hf := hs.fetch_tx hl i
    rw [mem_zipIdx_iff_getElem?.mp ht,map_some] at hf
    obtain ⟨tx,hd,hok⟩ := map_eq_some_iff.mp hf.symm
    exact ⟨_,tx,rfl,hd,hs.fetch hl,hok.symm,rfl⟩
  · cases ho

theorem Holds.by_tx_id (hs : Holds p conf ids m y) (hm : Imports ids m.disk.snapshot)
    (ha : .txID ∈ conf.attrsToIndex) {id : Bytes} (hi : id.length < 2 ^ 64) :
    let first := found ((transactionsOf p ids m.disk.snapshot y.blocks).find? fun e => e.1 = id)
    m.retrieveBlockByTxID p conf id = first.map Prod.fst ∧
    m.retrieveTransactionByID conf id = first.map (fun e => e.2.1) ∧
    m.retrieveTxValidationCodeByTxID conf id = first.map fun e => e.2.2 := by
  have hg := (hs.in_order hm).get_val hs.index.tx_ids ha hi
  rw [← tagged_occurrences,List.find?_map] at hg
  have ht : (transactionsOf p ids m.disk.snapshot y.blocks).find? (fun e => e.1 = id) =
      ((y.tagged p conf ids m.disk.snapshot).find? fun z => z.1.txID = id).map
        fun z => (z.1.txID,z.2) := by
    rw [← tagged_transactions ha,List.find?_map]
    rfl
  rw [ht,retrieveBlockByTxID,retrieveTransactionByID,retrieveTxValidationCodeByTxID,hg,
    Function.comp_def]
  cases hz : (y.tagged p conf ids m.disk.snapshot).find? fun z => z.1.txID = id with
  | none => exact ⟨rfl,rfl,rfl⟩
  | some z =>
    rcases mem_append.mp (mem_of_find?_eq_some hz) with him | hb
    · obtain ⟨o,ho,rfl⟩ := List.mem_map.mp him
      have hv : o.value = none := by
        cases hsn : m.disk.snapshot with
        | none =>
          rw [hsn] at ho
          cases ho
        | some s =>
          rw [hsn] at ho
          obtain ⟨e,_,rfl⟩ := List.mem_map.mp ho
          rfl
      rw [map_some,map_some,answer,hv]
      exact ⟨rfl,rfl,rfl⟩
    · obtain ⟨l,hl,hb⟩ := mem_flatMap.mp hb
      obtain ⟨o,ho,rfl⟩ := List.mem_map.mp hb
      obtain ⟨v,tx,hv,hd,hbl,htx,hc⟩ := hs.found_at hl ho
      rw [map_some,map_some,answer,hv,elim_some,found]
      dsimp only
      rw [hbl,htx,getD_eq_getElem?_getD,hd]
      exact ⟨rfl,rfl,congrArg Except.ok hc⟩

section
variable (p : Protoutil) (conf : Conf) (ids : List Bytes)

/-- What a store says about itself while it has some blocks and no others. -/
structure Contains (m : BlockfileMgr) (blocks : List Block) : Prop where
  height : m.bcInfo.height = firstPossibleBlockNumberInBlockFiles m.disk.snapshot + blocks.length
  hashes : m.bcInfo.currentBlockHash = (blocks.getLast?.elim
      (bootstrapped m.disk.snapshot).currentBlockHash fun b => p.blockHeaderHash b.header) ∧
    m.bcInfo.previousBlockHash = (blocks.getLast?.elim
      (bootstrapped m.disk.snapshot).previousBlockHash fun b => b.header.previousHash)
  checkpoint : m.disk.blkfilesInfo = some m.blockfilesInfo ∧
    m.disk.files[m.blockfilesInfo.latestFileNumber]?.map List.length =
      some m.blockfilesInfo.latestFileSize ∧
    (m.blockfilesInfo.noBlockFiles = true ↔ blocks = []) ∧
    (blocks ≠ [] → m.blockfilesInfo.lastPersistedBlock + 1 = m.bcInfo.height)
  indexed : m.disk.index.lastBlockIndexed.elim 0 (· + 1) = m.bcInfo.height
  byNumber : ∀ n, m.retrieveBlockByNumber p conf n =
    if n < firstPossibleBlockNumberInBlockFiles m.disk.snapshot then .error .beforeSnapshot
    else match blocks[n - firstPossibleBlockNumberInBlockFiles m.disk.snapshot]? with
      | none => .error .notFoundInIndex
      | some b => .ok b
  byHash : .blockHash ∈ conf.attrsToIndex → ∀ blockHash,
    (∃ b ∈ blocks, p.blockHeaderHash b.header = blockHash ∧
        m.retrieveBlockByHash p conf blockHash = .ok b) ∨
      (∀ b ∈ blocks, p.blockHeaderHash b.header ≠ blockHash) ∧
        m.retrieveBlockByHash p conf blockHash = .error .notFoundInIndex
  byTranNum : .blockNumTranNum ∈ conf.attrsToIndex → ∀ n i,
    m.retrieveTransactionByBlockNumTranNum conf n i =
      if n < firstPossibleBlockNumberInBlockFiles m.disk.snapshot then .error .beforeSnapshot
      else match blocks[n - firstPossibleBlockNumberInBlockFiles m.disk.snapshot]?.bind
          fun b => b.data[i]? with
        | none => .error .notFoundInIndex
        | some tx => .ok tx
  byTxID : .txID ∈ conf.attrsToIndex → ∀ id : Bytes, id.length < 2 ^ 64 →
    let first := found ((transactionsOf p ids m.disk.snapshot blocks).find? fun e => e.1 = id)
    m.retrieveBlockByTxID p conf id = first.map Prod.fst ∧
    m.retrieveTransactionByID conf id = first.map (fun e => e.2.1) ∧
    m.retrieveTxValidationCodeByTxID conf id = first.map fun e => e.2.2

variable {p conf ids}

theorem Holds.contains (hr : .blockNum ∈ conf.attrsToIndex) (hs : Holds p conf ids m y)
    (hm : Imports ids m.disk.snapshot) : Contains p conf ids m y.blocks := by
  have hh : m.bcInfo.height = (bootstrapped m.disk.snapshot).height + y.blocks.length := by
    rw [hs.bcInfo,foldl_height]
  refine ⟨?_,?_,⟨hs.saved,?_,?_,?_⟩,?_,?_,fun ha => hs.by_hash ha,?_,
    fun ha id hi => hs.by_tx_id hm ha hi⟩
  · rw [first_possible]
    exact hh
  · rw [hs.bcInfo]
    rcases eq_nil_or_concat y.blocks with hbs | ⟨bs,b,hbs⟩
    · rw [hbs]
      exact ⟨rfl,rfl⟩
    · rw [hbs,concat_eq_append,foldl_append,List.getLast?_append]
      exact ⟨rfl,rfl⟩
  · obtain ⟨mo,hfs,_⟩ := hs.files
    rw [hs.info,hfs]
    exact congrArg (Option.map List.length) (get_file y.get_last mo)
  · rw [hs.info,Layout.info,decide_eq_true_iff,length_eq_zero_iff]
  · intro hne
    have hp := length_pos_of_ne_nil hne
    rw [hs.info,Layout.info,hh]
    dsimp only
    rw [if_neg (by omega)]
    omega
  · have hbs := y.located_blocks (p := p)
    rw [hs.index.next (hbs ▸ hs.valid.chained),hh,← hbs,length_map]
  · rw [first_possible]
    exact hs.by_number hr
  · rw [first_possible]
    exact fun ha => hs.by_tran_num ha

end

variable (p : Protoutil) (conf : Conf)

inductive StoreEvent where
  | add (b : Block)
  | crash (b : Block) (point : CrashPoint)

def StoreEvent.block : StoreEvent → Block
  | .add b => b
  | .crash b _ => b

def BlockfileMgr.next (m : BlockfileMgr) : StoreEvent → Option BlockfileMgr
  | .add b =>
    match m.addBlock p conf b with
    | .ok m' => some m'
    | .error .panics => none
    | .error _ => some m
  | .crash b point => (newBlockfileMgr p conf (m.crash p conf b point)).toOption

def Disk.initial (ids : List Bytes) (snapshot : Option BootstrappingSnapshotInfo) : Disk :=
  ⟨[],none,initialIndex ids snapshot,snapshot⟩

/-- The first block of all is known to the blkfilesInfo when it is complete. -/
def StoreEvent.Counts (m : BlockfileMgr) : StoreEvent → Prop
  | .add _ => True
  | .crash b point => m.blockfilesInfo.noBlockFiles = true → ¬ point.Unsaved p b

instance decidableCounts (m : BlockfileMgr) : (e : StoreEvent) → Decidable (e.Counts p m)
  | .add _ => inferInstanceAs (Decidable True)
  | .crash b point =>
    inferInstanceAs (Decidable (m.blockfilesInfo.noBlockFiles = true → ¬ point.Unsaved p b))

def Counted (e : Transition BlockfileMgr StoreEvent) : Prop := e.label.Counts p e.before
deriving Decidable

variable {p conf}

theorem opens (p : Protoutil) (conf : Conf) (ids : List Bytes)
    (sn : Option BootstrappingSnapshotInfo) : ∃ m,
    newBlockfileMgr p conf (Disk.initial ids sn) = .ok m ∧ m.disk.snapshot = sn ∧
      Holds p conf ids m ⟨[],[]⟩ := by
  have hv : Valid p conf sn ⟨[],[]⟩ :=
    ⟨List.forall_mem_nil _,List.forall_mem_nil _,List.forall_mem_nil _,trivial⟩
  refine ⟨⟨⟨[[]],some ⟨0,0,true,0⟩,initialIndex ids sn,sn⟩,
    ⟨0,0,true,0⟩,bootstrapped sn⟩,?_,rfl,hv,⟨[],rfl,.inl rfl⟩,rfl,rfl,rfl,rfl⟩
  cases sn <;> rfl

variable {b : Block}

section
variable (ar : .blockNum ∈ conf.attrsToIndex) (ho : Holds p conf ids m y)
include ar ho

theorem Holds.restart :
    ∃ m', newBlockfileMgr p conf m.disk = .ok m' ∧ m'.disk.snapshot = m.disk.snapshot ∧
      Holds p conf ids m' y := by
  obtain ⟨mo,hfs,hm⟩ := ho.files
  have hl : Left p y [] m.disk.files := hfs ▸ left_of_files hm
  obtain ⟨m',hm',hs,hh⟩ := hl.comes_up_same ar ho.valid ho.index
  rw [← ho.info,← ho.saved] at hm'
  exact ⟨m',hm',hs,hh⟩

theorem Holds.crashes (hf : Fits p conf b) (po : CrashPoint)
    (ha : (bootstrapped m.disk.snapshot).height = 0 ∨
      (m.blockfilesInfo.noBlockFiles = true → ¬ po.Unsaved p b)) :
    ∃ m' z, newBlockfileMgr p conf (m.crash p conf b po) = .ok m' ∧
      m'.disk.snapshot = m.disk.snapshot ∧ Holds p conf ids m' z ∧
      (z.blocks = y.blocks ∨ m.checkBlock b = .ok () ∧ z.blocks = y.blocks ++ [b]) := by
  cases hc : m.checkBlock b with
  | error f =>
    obtain ⟨m',hm',hs,hh⟩ := ho.restart ar
    refine ⟨m',y,?_,hs,hh,.inl rfl⟩
    rw [BlockfileMgr.crash,hc]
    exact hm'
  | ok u =>
    have hco : y.blocks = [] → po.Unsaved p b → (bootstrapped m.disk.snapshot).height = 0 := by
      intro he hu
      refine ha.resolve_right fun hne => hne ?_ hu
      rw [ho.info]
      exact decide_eq_true (length_eq_zero_iff.mpr he)
    obtain ⟨m',z,hm',hs,hh,hbs⟩ := ho.crash ar hf hc po hco
    refine ⟨m',z,?_,hs,hh,hbs.imp id fun h => ⟨rfl,h⟩⟩
    rw [BlockfileMgr.crash,hc]
    exact hm'

theorem Holds.next (hb : Fits p conf e.block) (h : m.next p conf e = some m')
    (hd : (bootstrapped m.disk.snapshot).height = 0 ∨ Counted p ⟨m,e,m'⟩) :
    (∃ z, Holds p conf ids m' z) ∧ m'.disk.snapshot = m.disk.snapshot := by
  cases e with
  | add b =>
    cases hc : m.checkBlock b with
    | error f =>
      have hsa : m = m' := by
        rw [BlockfileMgr.next,BlockfileMgr.addBlock,hc] at h
        unfold checkBlock at hc
        split at hc
        · cases hc
          exact Option.some.inj h
        split at hc
        · cases hc
          exact Option.some.inj h
        · cases hc
      exact ⟨⟨y,hsa ▸ ho⟩,congrArg (fun m => m.disk.snapshot) hsa.symm⟩
    | ok u =>
      have hf : Fits p conf b := hb
      obtain ⟨m'',z,ha,hs,hh,_⟩ := ho.add_block ar hf hc
      rw [BlockfileMgr.next,ha] at h
      obtain rfl : m'' = m' := Option.some.inj h
      exact ⟨⟨z,hh⟩,hs⟩
  | crash b po =>
    have hf : Fits p conf b := hb
    obtain ⟨m'',z,hm'',hs,hh,_⟩ := ho.crashes ar hf po hd
    rw [BlockfileMgr.next,hm''] at h
    obtain rfl : m'' = m' := Option.some.inj h
    exact ⟨⟨z,hh⟩,hs⟩

end

/-- A store that has some blocks and takes the next one. -/
structure Usable (p : Protoutil) (conf : Conf) (ids : List Bytes) (m : BlockfileMgr)
    (blocks : List Block) : Prop where
  contains : Contains p conf ids m blocks
  adds : ∀ b, Fits p conf b → m.checkBlock b = .ok () →
    ∃ m', m.addBlock p conf b = .ok m' ∧ Contains p conf ids m' (blocks ++ [b])

section
variable (ar : .blockNum ∈ conf.attrsToIndex)
include ar

theorem Holds.usable (hs : Holds p conf ids m y) (hi : Imports ids m.disk.snapshot) :
    Usable p conf ids m y.blocks where
  contains := hs.contains ar hi
  adds b fits check := by
    obtain ⟨m',z,ha,hsn,hh,hbs⟩ := hs.add_block ar fits check
    exact ⟨m',ha,hbs ▸ hh.contains ar (hsn ▸ hi)⟩

theorem run_holds (o : newBlockfileMgr p conf (Disk.initial ids snapshot) = .ok m₀)
    (hr : Run (fun m e m' => m.next p conf e = some m') m₀ es m)
    (ha : ∀ e ∈ es, Fits p conf e.label.block)
    (hb : snapshot = none ∨ ∀ e ∈ es, Counted p e) :
    (∃ y, Holds p conf ids m y) ∧ m.disk.snapshot = snapshot := by
  have hfs : snapshot = none → (bootstrapped snapshot).height = 0 := by
    rintro rfl
    rfl
  refine (hr.invariant_when (I := fun m => (∃ y, Holds p conf ids m y) ∧ m.disk.snapshot = snapshot)
    (C := fun e => Fits p conf e.label.block ∧ (snapshot = none ∨ Counted p e)) ?_ ?_ ?_).1
  · rintro e ⟨⟨y,ho⟩,rfl⟩ hst ⟨hf,hc⟩
    exact ho.next ar hf hst (hc.imp hfs id)
  · obtain ⟨m',hm',hs,hh⟩ := opens p conf ids snapshot
    obtain rfl := Except.ok.inj (o.symm.trans hm')
    exact ⟨⟨_,hh⟩,hs⟩
  · exact fun e he => ⟨ha e he,hb.imp id fun h => h e he⟩

theorem Holds.crashes_usable (ho : Holds p conf ids m y) (hi : Imports ids m.disk.snapshot)
    (hf : Fits p conf b) (po : CrashPoint)
    (ha : (bootstrapped m.disk.snapshot).height = 0 ∨
      (m.blockfilesInfo.noBlockFiles = true → ¬ po.Unsaved p b)) :
    ∃ m', newBlockfileMgr p conf (m.crash p conf b po) = .ok m' ∧
      m'.disk.snapshot = m.disk.snapshot ∧ (Usable p conf ids m' y.blocks ∨
        m.checkBlock b = .ok () ∧ Usable p conf ids m' (y.blocks ++ [b])) := by
  obtain ⟨m',z,hm',hsn,hh,hbs⟩ := ho.crashes ar hf po ha
  refine ⟨m',hm',hsn,?_⟩
  rcases hbs with hs | ⟨hc,hn⟩
  · exact .inl (hs ▸ hh.usable ar (hsn ▸ hi))
  · exact .inr ⟨hc,hn ▸ hh.usable ar (hsn ▸ hi)⟩

end

def sampleProtoutil : Protoutil where
  blockHeaderHash h := UInt8.ofNat h.number :: h.dataHash
  getOrComputeTxIDFromEnvelope tx := tx

def sampleConf : Conf := ⟨20,[.blockNum,.blockHash,.txID,.blockNumTranNum]⟩

def sampleIDs : List Bytes := [[9]]

def sampleStored (number : Nat) (previousHash : Bytes) :
    Block := ⟨⟨number,[1],previousHash⟩,[[7,7]],[[],[],[0]]⟩

def sampleStoreEvents : List StoreEvent :=
  [.add (sampleStored 0 []),.crash (sampleStored 1 [0,1]) (.appended false false)]

def sampleStore (snapshot : Option BootstrappingSnapshotInfo) : BlockfileMgr :=
  ⟨⟨[[]],some ⟨0,0,true,0⟩,initialIndex sampleIDs snapshot,snapshot⟩,
    ⟨0,0,true,0⟩,bootstrapped snapshot⟩

def sampleStoreTrace (snapshot : Option BootstrappingSnapshotInfo) (events : List StoreEvent) :
    Option (BlockfileMgr × List (Transition BlockfileMgr StoreEvent)) :=
  trace (fun m e => m.next sampleProtoutil sampleConf e) (sampleStore snapshot) events

def sampleSnapshot : BootstrappingSnapshotInfo := ⟨5,[5,1],[4,1]⟩

def snapshotEvents : List StoreEvent :=
  [.add (sampleStored 6 [5,1]),.crash (sampleStored 7 [6,1]) (.appended false false)]

end PluggableHcs.Blkstorage
