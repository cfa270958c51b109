import PluggableHcs.Blkstorage.Retrieval

namespace PluggableHcs.Blkstorage
open Digits Txmgmt Runs List Option BlockfileMgr BootstrappingSnapshotInfo Layout

variable {p : Protoutil} {conf : Conf} {ids : List Bytes} {m m₀ : BlockfileMgr} {y : Layout}
  {b : Block}

/-- The index without the batches of the newest blocks. -/
def Disk.earlierIndex (conf : Conf) (ids : List Bytes) (disk : Disk) (n : Nat) : BlockIndex :=
  (disk.index.entries.drop n).reverse.foldl (BlockIndex.put conf.attrsToIndex)
    (initialIndex ids disk.snapshot)

theorem Holds.earlier (hs : Holds p conf ids m y) (n : Nat) : Indexed p conf ids m.disk.snapshot
    (m.disk.earlierIndex conf ids n) ((y.located p).take ((y.located p).length - n)) := by
  rw [Indexed,Disk.earlierIndex,hs.index.entries,drop_reverse,length_map,reverse_reverse,map_take]

theorem Holds.rebuilds (ha : .blockNum ∈ conf.attrsToIndex) (ho : Holds p conf ids m y) (n : Nat) :
    syncIndex p conf { m.disk with index := m.disk.earlierIndex conf ids n } m.blockfilesInfo =
      .ok m.disk.index := by
  obtain ⟨mo,hfs,_⟩ := ho.files
  obtain ⟨index,hs,hi⟩ := sync_index ha { m.disk with index := m.disk.earlierIndex conf ids n }
    ho.valid hfs (take_append_drop _ _).symm (ho.earlier n)
  rw [ho.info,ho.index,← hi]
  exact hs

theorem fetch_serialized (hs : b.Sized) (i : Nat) : ((serializeBlock p b).2.txOffsets[i]?.map
      fun tx => fetchTransactionEnvelope [(serializeBlock p b).1] ⟨0,tx.loc⟩) =
    b.data[i]?.map Except.ok := by
  rw [tx_offsets,Option.map_map]
  cases htx : b.data[i]? with
  | none => rfl
  | some tx =>
    obtain ⟨be,af,hb,hl⟩ := serialized_at (p := p) htx
    rw [map_some,map_some,Function.comp_apply]
    exact congrArg some (fetch_envelope (congrArg some hb) (hs.envelope htx) hl.symm)

inductive AddFailure where
  | appending (n : Nat)
  | saving
  | indexing

/-- The manager after the error is returned. What was appended is cut off, but not when the index
fails. A new file stays. -/
def BlockfileMgr.failedAdd (p : Protoutil) (conf : Conf) (m : BlockfileMgr) (b : Block)
    (f : AddFailure) : BlockfileMgr :=
  match m.checkBlock b with
  | .error _ => m
  | .ok _ =>
    let cut (disk : Disk) : Disk := { disk with
      files := truncateFile disk.files (m.rolled p conf b).latestFileNumber
        (m.rolled p conf b).latestFileSize }
    { m with
      disk := match f with
        | .appending n => cut (m.written p conf b (.appending n))
        | .saving => cut (m.written p conf b (.appended false false))
        | .indexing => m.written p conf b (.appended true false)
      blockfilesInfo := m.rolled p conf b }

theorem Target.cut (ht : Target p conf m b y z) (bs : Bytes) :
    truncateFile (m.partly p conf b bs) (m.rolled p conf b).latestFileNumber
      (m.rolled p conf b).latestFileSize =
      newBlockfileWriter m.disk.files (m.rolled p conf b).latestFileNumber := by
  obtain ⟨mo,hfs,_⟩ := ht.files
  have hl : z.full.length = (z.full.map (fileOf p)).length := (length_map _).symm
  rw [BlockfileMgr.partly,ht.info]
  dsimp only [Layout.info]
  rw [append_files hfs,hfs,truncateFile,hl,modify_middle,take_left,Layout.files,
    map_append,append_assoc]
  rfl

abbrev BlockfileMgr.ready (p : Protoutil) (conf : Conf) (m : BlockfileMgr) (b : Block) : BlockfileMgr :=
  ⟨⟨newBlockfileWriter m.disk.files (m.rolled p conf b).latestFileNumber,some (m.rolled p conf b),
    m.disk.index,m.disk.snapshot⟩,m.rolled p conf b,m.bcInfo⟩

theorem Target.failed_add (ht : Target p conf m b y z) (hc : m.checkBlock b = .ok ())
    (hf : f ≠ .indexing) : m.failedAdd p conf b f = m.ready p conf b := by
  have hs : m.written p conf b (.appended false false) = ⟨m.partly p conf b (blockFrame p b),
      some (m.rolled p conf b),m.disk.index,m.disk.snapshot⟩ := rfl
  rw [failedAdd,hc]
  cases f with
  | appending n =>
    dsimp only
    rw [written_appending,ht.cut]
  | saving =>
    dsimp only
    rw [hs,ht.cut]
  | indexing => exact absurd rfl hf

theorem Target.holds (ht : Target p conf m b y z) (holds : Holds p conf ids m y) :
    Holds p conf ids (m.ready p conf b) z where
  valid := ht.valid
  files := by
    rw [ready,ht.info]
    exact ht.files
  info := ht.info
  saved := rfl
  index := ht.located ▸ holds.index
  bcInfo := ht.blocks ▸ holds.bcInfo

theorem ready_rolled (hs : Fits p conf b) :
    (m.ready p conf b).rolled p conf b = m.rolled p conf b := by
  have hle : ¬ conf.maxBlockfileSize <
      (m.rolled p conf b).latestFileSize + (blockFrame p b).length := by
    rw [rolled]
    split
    · have hf := hs.fits
      rw [BlockfilesInfo.nextFile]
      dsimp only
      omega
    · rename_i hn
      exact fun hlt => hn (decide_eq_true hlt)
  exact if_neg fun hn => hle (of_decide_eq_true hn)

theorem Target.retry (ht : Target p conf m b y z) (hf : Fits p conf b)
    (ha : .blockNum ∈ conf.attrsToIndex) :
    (m.ready p conf b).addBlock p conf b = m.addBlock p conf b := by
  have hw : newBlockfileWriter (m.ready p conf b).disk.files
      (m.rolled p conf b).latestFileNumber = (m.ready p conf b).disk.files := by
    obtain ⟨mo,hfs,_⟩ := ht.files
    rw [ready,ht.info]
    dsimp only [Layout.info]
    rw [hfs,newBlockfileWriter,if_pos (by rw [length_append,Layout.files_length]; omega)]
  have hc : (m.ready p conf b).checkBlock b = m.checkBlock b := rfl
  have hi := hf.index_block (m := m) ha
  have hi' := hf.index_block (m := m.ready p conf b) ha
  rw [addBlock,addBlock,hc,written_all hi,written_all hi',hi,hi',indexWith,BlockfileMgr.partly,
    ready_rolled hf,hw]
  rfl

/-- The store is as before: height, hashes and blkfilesInfo in memory and on disk, what is in the
files, and what is answered. Adding the block again is the same as adding it at once. -/
structure Undone (p : Protoutil) (conf : Conf) (ids : List Bytes) (m m' : BlockfileMgr) (b : Block)
    (blocks : List Block) : Prop where
  bcInfo : m'.bcInfo = m.bcInfo
  blockfilesInfo : m'.blockfilesInfo = m.blockfilesInfo
  saved : m'.disk.blkfilesInfo = m.disk.blkfilesInfo
  files : m.disk.files <+: m'.disk.files
  contains : Contains p conf ids m' blocks
  retry : m'.addBlock p conf b = m.addBlock p conf b

theorem Holds.failed_same (ho : Holds p conf ids m y) (hf : f ≠ .indexing)
    (hn : m.needsNextFile p conf b = false) : m.failedAdd p conf b f = m := by
  cases hc : m.checkBlock b with
  | error e => rw [failedAdd,hc]
  | ok u =>
    obtain ⟨mo,hfs,_⟩ := ho.files
    have hr : m.rolled p conf b = m.blockfilesInfo := by
      rw [rolled,hn]
      rfl
    have hw : newBlockfileWriter m.disk.files m.blockfilesInfo.latestFileNumber = m.disk.files := by
      rw [newBlockfileWriter,if_pos]
      rw [ho.info,hfs,length_append,Layout.files_length]
      dsimp only [Layout.info]
      omega
    rw [(ho.target_same hn).failed_add hc hf,ready,hr,hw,← ho.saved]

/-- The block is counted on disk when the index fails. -/
theorem Holds.indexing_counts (ho : Holds p conf ids m y) (hc : m.checkBlock b = .ok ()) :
    (m.failedAdd p conf b .indexing).disk.blkfilesInfo ≠ m.disk.blkfilesInfo := by
  have hs : (m.failedAdd p conf b .indexing).disk.blkfilesInfo =
      some ((m.rolled p conf b).withBlock p b) := by
    rw [failedAdd,hc]
    rfl
  have hnum : b.header.number = m.bcInfo.height := by
    unfold checkBlock at hc
    split at hc
    · cases hc
    · rename_i hn
      exact not_not.mp hn
  rw [hs,ho.saved,ho.info,Layout.info,BlockfilesInfo.withBlock,hnum,ho.bcInfo,foldl_height]
  intro h
  injection h with h
  injection h with _ _ he hl
  have hne := of_decide_eq_false he.symm
  rw [if_neg hne] at hl
  omega

end PluggableHcs.Blkstorage
