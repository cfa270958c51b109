import PluggableHcs.Blkstorage.BlockIndex

namespace PluggableHcs.Blkstorage
open Digits Txmgmt

/-- The next block of a file with the number of bytes that its length takes. The length is read from
eight bytes or fewer. -/
def nextBlockBytes (file : Bytes) (currentOffset : Nat) : Except Fault (Option (Bytes × Nat)) :=
  if currentOffset = file.length then .ok none
  else if file.length < currentOffset then .error .seekError
  else
    let rest := file.drop currentOffset
    match decodeVarint (rest.take 8) with
    | none => .error (if rest.length < 8 then .unexpectedEndOfBlockfile else .undecodableLength)
    | some (length,n) =>
      if rest.length < n + length then .error .unexpectedEndOfBlockfile
      else .ok (some ((rest.drop n).take length,n))

structure BlockPlacementInfo where
  fileNum : Nat
  blockStartOffset : Nat
  blockBytesOffset : Nat

def readBlocks (fileNum : Nat) (file : Bytes) :
    Nat → Nat → List (Bytes × BlockPlacementInfo) × Nat × Option Fault
  | 0,offset => ([],offset,none)
  | fuel + 1,offset =>
    match nextBlockBytes file offset with
    | .error f => ([],offset,some f)
    | .ok none => ([],offset,none)
    | .ok (some (b,n)) =>
      let out := readBlocks fileNum file fuel (offset + (n + b.length))
      ((b,⟨fileNum,offset,offset + n⟩) :: out.1,out.2)

/-- Each block takes a byte, so that the size of the file is enough. -/
def readFile (files : List Bytes) (fileNum offset : Nat) :
    Except Fault (List (Bytes × BlockPlacementInfo) × Nat × Option Fault) :=
  match files[fileNum]? with
  | none => .error .noSuchFile
  | some file => .ok (readBlocks fileNum file (file.length + 1) offset)

def scanForLastCompleteBlock (files : List Bytes) (fileNum startingOffset : Nat) :
    Except Fault (Option Bytes × Nat × Nat) := do
  let (blocks,currentOffset,f) ← readFile files fileNum startingOffset
  match f with
  | none | some .unexpectedEndOfBlockfile =>
    pure (blocks.getLast?.map Prod.fst,currentOffset,blocks.length)
  | some f => .error f

def fileBlocks (files : List Bytes) (fileNum offset : Nat) :
    Except Fault (List (Bytes × BlockPlacementInfo)) := do
  let (blocks,_,f) ← readFile files fileNum offset
  match f with
  | none => pure blocks
  | some f => .error f

def blockStream (files : List Bytes) (startFileNum startOffset : Nat) :
    Nat → Except Fault (List (Bytes × BlockPlacementInfo))
  | 0 => fileBlocks files startFileNum startOffset
  | n + 1 => do
    let blocks ← fileBlocks files startFileNum startOffset
    let rest ← blockStream files (startFileNum + 1) 0 n
    pure (blocks ++ rest)

structure BlockfilesInfo where
  latestFileNumber : Nat
  latestFileSize : Nat
  noBlockFiles : Bool
  lastPersistedBlock : Nat
deriving DecidableEq

structure BootstrappingSnapshotInfo where
  lastBlockNum : Nat
  lastBlockHash : Bytes
  previousBlockHash : Bytes
deriving DecidableEq

structure BlockchainInfo where
  height : Nat
  currentBlockHash : Bytes
  previousBlockHash : Bytes
deriving DecidableEq

structure Conf where
  maxBlockfileSize : Nat
  attrsToIndex : List IndexableAttr

/-- What a crash leaves: the block files in their order, the blkfilesInfo and the index in the
database, and the snapshot the store was bootstrapped from. -/
structure Disk where
  files : List Bytes
  blkfilesInfo : Option BlockfilesInfo
  index : BlockIndex
  snapshot : Option BootstrappingSnapshotInfo
deriving DecidableEq

structure BlockfileMgr where
  disk : Disk
  blockfilesInfo : BlockfilesInfo
  bcInfo : BlockchainInfo
deriving DecidableEq

section
variable (p : Protoutil) (conf : Conf)

section
variable (files : List Bytes)

def constructBlockfilesInfo : Except Fault BlockfilesInfo := do
  if files = [] then return ⟨0,0,true,0⟩
  let lastFileNum := files.length - 1
  let (lastBlockBytes,endOffsetLastBlock,numBlocksInFile) ← scanForLastCompleteBlock files lastFileNum 0
  let lastBlockBytes ←
    if numBlocksInFile = 0 ∧ 0 < lastFileNum then
      (fun out => out.1) <$> scanForLastCompleteBlock files (lastFileNum - 1) 0
    else pure lastBlockBytes
  let lastBlockNumber ← match lastBlockBytes with
    | none => pure 0
    | some bytes =>
      match deserializeBlock p bytes with
      | none => .error .malformedBlock
      | some b => pure b.header.number
  return ⟨lastFileNum,endOffsetLastBlock,lastFileNum = 0 ∧ numBlocksInFile = 0,lastBlockNumber⟩

/-- A file that was never written is taken to be in sync. -/
def syncBlockfilesInfoFromFS (info : BlockfilesInfo) : Except Fault BlockfilesInfo :=
  match files[info.latestFileNumber]? with
  | none => .ok info
  | some file =>
    if file.length = info.latestFileSize then .ok info
    else do
      let (_,endOffsetLastBlock,numBlocks) ←
        scanForLastCompleteBlock files info.latestFileNumber info.latestFileSize
      if numBlocks = 0 then pure ⟨info.latestFileNumber,endOffsetLastBlock,info.noBlockFiles,
        info.lastPersistedBlock⟩
      else pure ⟨info.latestFileNumber,endOffsetLastBlock,false,
        if info.noBlockFiles then numBlocks - 1 else info.lastPersistedBlock + numBlocks⟩

/-- Opening a file to write creates it. Files are numbered one after the other. -/
def newBlockfileWriter (fileNum : Nat) : List Bytes :=
  if fileNum < files.length then files else files ++ [[]]

def truncateFile (fileNum targetSize : Nat) : List Bytes :=
  files.modify fileNum fun file => file.take targetSize

def appendFile (fileNum : Nat) (b : Bytes) : List Bytes :=
  files.modify fileNum fun file => file ++ b

def firstPossibleBlockNumberInBlockFiles (snapshot : Option BootstrappingSnapshotInfo) : Nat :=
  snapshot.elim 0 fun s => s.lastBlockNum + 1

def shift (n : Nat) (txOffsets : List TxIndexInfo) : List TxIndexInfo :=
  txOffsets.map fun tx => { tx with loc := { tx.loc with offset := tx.loc.offset + n } }

def retrieveFirstBlockNumFromFile (fileNum : Nat) : Except Fault Nat :=
  match files[fileNum]? with
  | none => .error .noSuchFile
  | some file => do
    match ← nextBlockBytes file 0 with
    | none => .error .malformedBlock
    | some (bytes,_) =>
      match extractSerializedBlockInfo p bytes with
      | none => .error .malformedBlock
      | some info => pure info.blockHeader.number

def indexStreamed (index : BlockIndex) : List (Bytes × BlockPlacementInfo) → Except Fault BlockIndex
  | [] => .ok index
  | (bytes,placement) :: rest =>
    match extractSerializedBlockInfo p bytes with
    | none => .error .malformedBlock
    | some info => do
      let index ← index.indexBlock conf.attrsToIndex
        { blockNum := info.blockHeader.number
          blockHash := p.blockHeaderHash info.blockHeader
          flp := ⟨placement.fileNum,placement.blockStartOffset,0⟩
          txOffsets := shift (placement.blockBytesOffset - placement.blockStartOffset) info.txOffsets
          metadata := info.metadata }
      indexStreamed index rest

def syncIndex (disk : Disk) (info : BlockfilesInfo) : Except Fault BlockIndex := do
  let nextIndexableBlock := disk.index.lastBlockIndexed.elim 0 (· + 1)
  if nextIndexableBlock = 0 ∧ 0 < firstPossibleBlockNumberInBlockFiles disk.snapshot then
    .error .snapshotWithoutIndex
  else if info.noBlockFiles then pure disk.index
  else if nextIndexableBlock = info.lastPersistedBlock + 1 then pure disk.index
  else
    let firstAvailableBlkNum ← retrieveFirstBlockNumFromFile p disk.files 0
    if firstAvailableBlkNum < nextIndexableBlock then
      let flp ← disk.index.getBlockLocByBlockNum conf.attrsToIndex (nextIndexableBlock - 1)
      let blocks ← blockStream disk.files flp.fileSuffixNum flp.loc.offset
        (info.latestFileNumber - flp.fileSuffixNum)
      match blocks with
      | [] => .error .notFoundInIndex
      | _ :: rest => indexStreamed p conf disk.index rest
    else
      let blocks ← blockStream disk.files 0 0 info.latestFileNumber
      indexStreamed p conf disk.index blocks

def fetchBlockBytes (flp : FileLocPointer) : Except Fault Bytes :=
  match files[flp.fileSuffixNum]? with
  | none => .error .noSuchFile
  | some file => do
    match ← nextBlockBytes file flp.loc.offset with
    | none => .error .malformedBlock
    | some (bytes,_) => pure bytes

def Disk.locate (disk : Disk) (blockNum : Nat) : Except Fault FileLocPointer :=
  if blockNum < firstPossibleBlockNumberInBlockFiles disk.snapshot then .error .beforeSnapshot
  else disk.index.getBlockLocByBlockNum conf.attrsToIndex blockNum

def retrieveBlockHeaderByNumber (disk : Disk) (blockNum : Nat) : Except Fault BlockHeader := do
  let flp ← disk.locate conf blockNum
  let bytes ← fetchBlockBytes disk.files flp
  match extractSerializedBlockInfo p bytes with
  | none => .error .malformedBlock
  | some info => pure info.blockHeader

def fetchBlock (disk : Disk) (flp : FileLocPointer) : Except Fault Block := do
  let bytes ← fetchBlockBytes disk.files flp
  match deserializeBlock p bytes with
  | none => .error .malformedBlock
  | some b => pure b

def BlockfileMgr.retrieveBlockByNumber (m : BlockfileMgr) (blockNum : Nat) : Except Fault Block :=
  match m.disk.locate conf blockNum with
  | .error f => .error f
  | .ok flp => fetchBlock p m.disk flp

def BlockfileMgr.retrieveBlockByHash (m : BlockfileMgr) (blockHash : Bytes) : Except Fault Block :=
  match m.disk.index.getBlockLocByHash conf.attrsToIndex blockHash with
  | .error f => .error f
  | .ok flp => fetchBlock p m.disk flp

def fetchRawBytes (flp : FileLocPointer) : Except Fault Bytes :=
  match files[flp.fileSuffixNum]? with
  | none => .error .noSuchFile
  | some file =>
    if file.length < flp.loc.offset + flp.loc.bytesLength then .error .unexpectedEndOfBlockfile
    else .ok ((file.drop flp.loc.offset).take flp.loc.bytesLength)

/-- The envelope after its length. An undecodable length takes no bytes. -/
def fetchTransactionEnvelope (flp : FileLocPointer) : Except Fault Bytes :=
  match fetchRawBytes files flp with
  | .error f => .error f
  | .ok bytes => .ok (bytes.drop ((decodeVarint bytes).elim 0 Prod.snd))

end

def BlockfileMgr.retrieveTransactionByBlockNumTranNum (m : BlockfileMgr) (blockNum tranNum : Nat) :
    Except Fault Bytes :=
  if blockNum < firstPossibleBlockNumberInBlockFiles m.disk.snapshot then .error .beforeSnapshot
  else
    match m.disk.index.getTXLocByBlockNumTranNum conf.attrsToIndex blockNum tranNum with
    | .error f => .error f
    | .ok flp => fetchTransactionEnvelope m.disk.files flp

def BlockfileMgr.retrieveBlockByTxID (m : BlockfileMgr) (txID : Bytes) : Except Fault Block :=
  match m.disk.index.getTxIDVal conf.attrsToIndex txID with
  | .error f => .error f
  | .ok v => fetchBlock p m.disk v.blkLocation

def BlockfileMgr.retrieveTransactionByID (m : BlockfileMgr) (txID : Bytes) : Except Fault Bytes :=
  match m.disk.index.getTxIDVal conf.attrsToIndex txID with
  | .error f => .error f
  | .ok v => fetchTransactionEnvelope m.disk.files v.txLocation

def BlockfileMgr.retrieveTxValidationCodeByTxID (m : BlockfileMgr) (txID : Bytes) :
    Except Fault UInt8 :=
  (m.disk.index.getTxIDVal conf.attrsToIndex txID).map TxIDIndexValue.txValidationCode

def bootstrapped (snapshot : Option BootstrappingSnapshotInfo) : BlockchainInfo :=
  snapshot.elim ⟨0,[],[]⟩ fun s => ⟨s.lastBlockNum + 1,s.lastBlockHash,s.previousBlockHash⟩

def newBlockfileMgr (disk : Disk) : Except Fault BlockfileMgr := do
  let info ← match disk.blkfilesInfo with
    | none => constructBlockfilesInfo p disk.files
    | some info => syncBlockfilesInfoFromFS disk.files info
  let files := truncateFile (newBlockfileWriter disk.files info.latestFileNumber)
    info.latestFileNumber info.latestFileSize
  let disk := { disk with files := files, blkfilesInfo := some info }
  let index ← syncIndex p conf disk info
  let disk := { disk with index := index }
  if info.noBlockFiles then pure ⟨disk,info,bootstrapped disk.snapshot⟩
  else
    let lastBlockHeader ← retrieveBlockHeaderByNumber p conf disk info.lastPersistedBlock
    pure ⟨disk,info,info.lastPersistedBlock + 1,p.blockHeaderHash lastBlockHeader,
      lastBlockHeader.previousHash⟩

end

variable (p : Protoutil) (conf : Conf)

def blockFrame (b : Block) : Bytes := encodeRawBytes (serializeBlock p b).1

def BlockfilesInfo.nextFile (info : BlockfilesInfo) : BlockfilesInfo :=
  ⟨info.latestFileNumber + 1,0,false,info.lastPersistedBlock⟩

def BlockfilesInfo.withBlock (info : BlockfilesInfo) (b : Block) : BlockfilesInfo :=
  ⟨info.latestFileNumber,info.latestFileSize + (blockFrame p b).length,false,b.header.number⟩

def blockIdxInfo (fileNum offset : Nat) (b : Block) : BlockIdxInfo :=
  { blockNum := b.header.number
    blockHash := p.blockHeaderHash b.header
    flp := ⟨fileNum,offset,0⟩
    txOffsets := shift (varint (serializeBlock p b).1.length).length (serializeBlock p b).2.txOffsets
    metadata := b.metadata }

variable (m : BlockfileMgr)

def BlockfileMgr.needsNextFile (b : Block) : Bool :=
  conf.maxBlockfileSize < m.blockfilesInfo.latestFileSize + (blockFrame p b).length

def BlockfileMgr.rolled (b : Block) : BlockfilesInfo :=
  if m.needsNextFile p conf b then m.blockfilesInfo.nextFile else m.blockfilesInfo

def BlockfileMgr.checkBlock (b : Block) : Except Fault Unit :=
  if b.header.number ≠ m.bcInfo.height then .error .unexpectedBlockNumber
  else if b.header.previousHash ≠ m.bcInfo.currentBlockHash then .error .unexpectedPreviousHash
  else .ok ()

def BlockchainInfo.update (i : BlockchainInfo) (b : Block) : BlockchainInfo :=
  ⟨i.height + 1,p.blockHeaderHash b.header,b.header.previousHash⟩

def BlockfileMgr.indexBlock (b : Block) : Except Fault BlockIndex :=
  m.disk.index.indexBlock conf.attrsToIndex
    (blockIdxInfo p (m.rolled p conf b).latestFileNumber (m.rolled p conf b).latestFileSize b)

inductive CrashPoint where
  | rolling (created saved : Bool)
  | appending (n : Nat)
  | appended (saved indexed : Bool)

def BlockfileMgr.written (b : Block) : CrashPoint → Disk
  | .rolling created saved =>
    if m.needsNextFile p conf b then
      { m.disk with
        files := if created then newBlockfileWriter m.disk.files (m.rolled p conf b).latestFileNumber
          else m.disk.files
        blkfilesInfo := some (if saved then m.rolled p conf b else m.blockfilesInfo) }
    else m.disk
  | .appending n =>
    { m.disk with
      files := appendFile (newBlockfileWriter m.disk.files (m.rolled p conf b).latestFileNumber)
        (m.rolled p conf b).latestFileNumber ((blockFrame p b).take n)
      blkfilesInfo := some (m.rolled p conf b) }
  | .appended saved indexed =>
    { m.disk with
      files := appendFile (newBlockfileWriter m.disk.files (m.rolled p conf b).latestFileNumber)
        (m.rolled p conf b).latestFileNumber (blockFrame p b)
      blkfilesInfo := some (if saved then (m.rolled p conf b).withBlock p b else m.rolled p conf b)
      index := if indexed then (m.indexBlock p conf b).toOption.getD m.disk.index
        else m.disk.index }

def BlockfileMgr.addBlock (b : Block) : Except Fault BlockfileMgr :=
  match m.checkBlock b with
  | .error f => .error f
  | .ok _ =>
    (m.indexBlock p conf b).map fun _ => ⟨m.written p conf b (.appended true true),
      (m.rolled p conf b).withBlock p b,m.bcInfo.update p b⟩

/-- A crash leaves nothing of a block that is refused. -/
def BlockfileMgr.crash (b : Block) (point : CrashPoint) : Disk :=
  match m.checkBlock b with
  | .error _ => m.disk
  | .ok _ => m.written p conf b point

end PluggableHcs.Blkstorage
