import PluggableHcs.Privdata.PvtdataProvider

namespace PluggableHcs.Privdata
open Crashes Outcomes Protoutil Txmgmt List

structure CollectionCriteria where
  channel : Bytes
  ns : Bytes
  collection : Bytes
deriving DecidableEq

inductive StoreError where
  | text (msg : String)
  | noSuchCollection (cc : CollectionCriteria)
deriving DecidableEq

structure Block where
  data : List Bytes
  metadata : Option (List Bytes)

structure TxInfo where
  channelID : Bytes
  txID : Bytes
  endorsements : List Endorsement
  txRWSet : TxRwSet

inductive Commit where
  | fetchPvtDataFromLedger
  | retrieved (pvtdata : BlockPvtdata)
deriving DecidableEq

structure Coordinator where
  decode : Decoders
  /-- The config of a collection, if it is defined. -/
  collectionInfo : CollectionCriteria → Option StaticCollectionConfig
  provider : PvtdataProvider

def transactionsFilter : Nat := 2

def validFlag : UInt8 := 0

def containsWrites (c : CollHashedRwSet) : Bool :=
  !(c.hashedRwSet.hashedWrites.isEmpty && c.hashedRwSet.metadataWrites.isEmpty)

def TxInfo.written (info : TxInfo) : List (Bytes × CollHashedRwSet) :=
  info.txRWSet.nsRwSets.flatMap fun ns =>
    (ns.collHashedRwSets.filter containsWrites).map (ns.nameSpace,·)

def TxInfo.criteria (info : TxInfo) (c : Bytes × CollHashedRwSet) : CollectionCriteria :=
  ⟨info.channelID,c.1,c.2.collectionName⟩

namespace Coordinator
variable (C : Coordinator)

def retrieveCollectionConfig (cc : CollectionCriteria) :
    Except (Stop StoreError) StaticCollectionConfig :=
  match C.collectionInfo cc with
  | none => fail (.noSuchCollection cc)
  | some config => .ok config

/-- The answer is nil, without an error, when the action payload has no action. -/
def getTxInfoFromTransactionBytes (envBytes : Bytes) : Except (Stop String) (Option TxInfo) := do
  let env ← C.decode.getEnvelopeFromBlock envBytes
  let payload ← unmarshal C.decode.payload "Payload" env.payload
  require payload.header.isSome "payload header is nil"
  let hdr ← deref payload.header
  let chdr ← unmarshal C.decode.channelHeader "ChannelHeader" hdr.channelHeader
  require (chdr.type = endorserTransaction) "header type is not an endorser transaction"
  let respPayload ← C.decode.getActionFromEnvelope envBytes
  let tx ← unmarshal C.decode.transaction "Transaction" payload.data
  let first ← index tx.actions 0
  let ccActionPayload ← unmarshal C.decode.actionPayload "ChaincodeActionPayload" first.payload
  match ccActionPayload.action with
  | none => pure none
  | some action =>
    let txRWSet ← unmarshal C.decode.rwset "TxRwSet" (some respPayload.results)
    pure (some ⟨chdr.channelId,chdr.txId,action.endorsements,txRWSet⟩)

def collectionInfos (info : TxInfo) :
    List (Bytes × CollHashedRwSet) → Except (Stop StoreError) (List CollectionPvtdataInfo)
  | [] => .ok []
  | c :: rest => do
    let colConfig ← C.retrieveCollectionConfig (info.criteria c)
    let more ← collectionInfos info rest
    pure (⟨c.1,c.2.collectionName,c.2.pvtRwSetHash,colConfig,info.endorsements⟩ :: more)

def txInfos (txsFilter : Bytes) : List (Bytes × Nat) → Except (Stop StoreError) (List TxPvtdataInfo)
  | [] => .ok []
  | (txEnvBytes,seqInBlock) :: rest => do
    let flag ← index txsFilter seqInBlock
    let parsed ← attempt (C.getTxInfoFromTransactionBytes txEnvBytes)
    match parsed with
    | none => txInfos txsFilter rest
    | some answer =>
      let info ← deref answer
      let cols ← C.collectionInfos info info.written
      let more ← txInfos txsFilter rest
      pure (⟨info.txID,flag ≠ validFlag,seqInBlock,cols⟩ :: more)

def getTxPvtdataInfoFromBlock (block : Block) : Except (Stop StoreError) (List TxPvtdataInfo) :=
  let lacking := .text "Block.Metadata is nil or Block.Metadata lacks a Tx filter bitmap"
  match block.metadata with
  | none => fail lacking
  | some metadata => do
    require (transactionsFilter < metadata.length) lacking
    let txsFilter ← index metadata transactionsFilter
    require (txsFilter.length = block.data.length)
      (.text "block data size is different from Tx filter size")
    C.txInfos txsFilter block.data.zipIdx

def retrieve (infos : List TxPvtdataInfo) : Except (Stop StoreError) BlockPvtdata :=
  match C.provider.retrievePvtdata infos with
  | .ok pvtdata => .ok pvtdata
  | .error msg => fail (.text msg)

/-- StoreBlock after the validation, up to the call of CommitLegacy; exist says whether the ledger
has the private data of the block. -/
def storeBlock (exist : Bool) (block : Block) : Except (Stop StoreError) Commit :=
  if exist then .ok .fetchPvtDataFromLedger
  else do
    let pvtdataToRetrieve ← C.getTxPvtdataInfoFromBlock block
    let retrievedPvtdata ← C.retrieve pvtdataToRetrieve
    pure (.retrieved retrievedPvtdata)

def Flagged (block : Block) : Prop :=
  ∃ metadata txsFilter, block.metadata = some metadata ∧
    metadata[transactionsFilter]? = some txsFilter ∧ txsFilter.length = block.data.length

def Defined (d : Bytes) : Prop :=
  ∀ info, C.getTxInfoFromTransactionBytes d = .ok (some info) →
    ∀ c ∈ info.written, (C.collectionInfo (info.criteria c)).isSome

variable {C}

theorem safe_get_tx_info (eb : Bytes) : Safe (C.getTxInfoFromTransactionBytes eb) := by
  refine unmarshal_then fun en he => ?_
  refine unmarshal_then fun pa hp => ?_
  refine require_then fun hh => ?_
  refine safe_bind (safe_deref hh) fun hdr _ => ?_
  refine unmarshal_then fun ch _ => ?_
  refine require_then fun _ => ?_
  refine safe_bind (Decoders.safe_get_action eb) fun re hr => ?_
  refine unmarshal_then fun tx htx => ?_
  -- the list of actions is the one that was found to be non-empty in getActionFromEnvelope
  obtain ⟨e,p,t,first,ca,hw⟩ := Decoders.get_action_walked hr
  cases he.symm.trans hw.envelope
  cases hp.symm.trans hw.payload
  cases htx.symm.trans hw.transaction
  refine safe_bind (safe_index (List.getElem?_eq_some_iff.mp hw.actions).1) fun a1 _ => ?_
  refine unmarshal_then fun f _ => ?_
  cases f.action with
  | none => exact safe_pure _
  | some an => exact unmarshal_then fun _ _ => safe_pure _

theorem get_tx_info_some (h : C.getTxInfoFromTransactionBytes eb = .ok answer) : answer.isSome := by
  obtain ⟨en,he,h⟩ := bind_ok.mp h
  obtain ⟨pa,hp,h⟩ := bind_ok.mp h
  obtain ⟨_,_,h⟩ := bind_ok.mp h
  obtain ⟨hdr,_,h⟩ := bind_ok.mp h
  obtain ⟨ch,_,h⟩ := bind_ok.mp h
  obtain ⟨_,_,h⟩ := bind_ok.mp h
  obtain ⟨re,hr,h⟩ := bind_ok.mp h
  obtain ⟨tx,htx,h⟩ := bind_ok.mp h
  obtain ⟨first,hf,h⟩ := bind_ok.mp h
  obtain ⟨ca,hc,h⟩ := bind_ok.mp h
  obtain ⟨e,p,t,a1,f,hw⟩ := Decoders.get_action_walked hr
  cases (unmarshal_ok.mp he).symm.trans hw.envelope
  cases (unmarshal_ok.mp hp).symm.trans hw.payload
  cases (unmarshal_ok.mp htx).symm.trans hw.transaction
  cases (index_ok.mp hf).symm.trans hw.actions
  cases (unmarshal_ok.mp hc).symm.trans hw.actionPayload
  obtain ⟨an,ha⟩ := Option.isSome_iff_exists.mp hw.action
  rw [ha] at h
  obtain ⟨rt,_,h⟩ := bind_ok.mp h
  cases h
  rfl

theorem attempt_get_tx_info (eb : Bytes) : (attempt (C.getTxInfoFromTransactionBytes eb) :
      Except (Stop StoreError) (Option (Option TxInfo))) = .ok none ∨
    ∃ io, C.getTxInfoFromTransactionBytes eb = .ok (some io) := by
  cases h : C.getTxInfoFromTransactionBytes eb with
  | ok an =>
    obtain ⟨io,rfl⟩ := Option.isSome_iff_exists.mp (get_tx_info_some h)
    exact .inr ⟨io,rfl⟩
  | error s =>
    cases s with
    | failed e => exact .inl rfl
    | crashed c => exact absurd h (safe_get_tx_info eb c)

section
variable (he : ∀ cc config, C.collectionInfo cc = some config → C.provider.WellFormed config)
include he

theorem collection_infos_ok {io : TxInfo}
    (h : ∀ c ∈ cs, (C.collectionInfo (io.criteria c)).isSome) :
    ∃ co, C.collectionInfos io cs = .ok co ∧
      ∀ cl ∈ co, C.provider.WellFormed cl.collectionConfig := by
  induction cs with
  | nil => exact ⟨[],rfl,forall_mem_nil _⟩
  | cons c cs ih =>
    rw [forall_mem_cons] at h
    obtain ⟨config,hc⟩ := Option.isSome_iff_exists.mp h.1
    obtain ⟨co,hco,hg⟩ := ih h.2
    have hr : C.retrieveCollectionConfig (io.criteria c) = .ok config := by
      unfold retrieveCollectionConfig
      rw [hc]
    refine ⟨_,bind_ok.mpr ⟨config,hr,bind_ok.mpr ⟨co,hco,rfl⟩⟩,?_⟩
    exact forall_mem_cons.mpr ⟨he _ config hc,hg⟩

theorem tx_infos_ok (hf : ∀ tx ∈ txs, tx.2 < tf.length) (hd : ∀ tx ∈ txs, C.Defined tx.1) :
    ∃ io, C.txInfos tf txs = .ok io ∧ ∀ i ∈ io, ∀ col ∈ i.collectionPvtdataInfo,
        C.provider.WellFormed col.collectionConfig := by
  induction txs with
  | nil => exact ⟨[],rfl,forall_mem_nil _⟩
  | cons tx txs ih =>
    obtain ⟨d,seq⟩ := tx
    rw [forall_mem_cons] at hf hd
    obtain ⟨io,hi,hg⟩ := ih hf.2 hd.2
    have hfl : (index tf seq : Except (Stop StoreError) UInt8) = .ok (tf.get ⟨seq,hf.1⟩) :=
      index_ok.mpr (List.getElem?_eq_getElem hf.1)
    rcases attempt_get_tx_info (C := C) d with hn | ⟨info,hin⟩
    · exact ⟨io,bind_ok.mpr ⟨_,hfl,bind_ok.mpr ⟨none,hn,hi⟩⟩,hg⟩
    obtain ⟨cs,hc,hw⟩ := collection_infos_ok he (hd.1 info hin)
    refine ⟨_,bind_ok.mpr ⟨_,hfl,bind_ok.mpr ⟨some (some info),attempt_ok.mpr hin,
      bind_ok.mpr ⟨info,rfl,bind_ok.mpr ⟨cs,hc,bind_ok.mpr ⟨io,hi,rfl⟩⟩⟩⟩⟩,?_⟩
    exact forall_mem_cons.mpr ⟨hw,hg⟩

theorem get_tx_pvtdata_info_ok {bl : Block} (hfl : Flagged bl) (hde : ∀ d ∈ bl.data, C.Defined d) :
    ∃ io, C.getTxPvtdataInfoFromBlock bl = .ok io ∧
      ∀ i ∈ io, ∀ co ∈ i.collectionPvtdataInfo, C.provider.WellFormed co.collectionConfig := by
  obtain ⟨me,tf,hm,hat,hl⟩ := hfl
  have hf : ∀ tx ∈ bl.data.zipIdx, tx.2 < tf.length := by
    intro tx htx
    rw [hl]
    exact (mem_zipIdx' htx).1
  have hd : ∀ tx ∈ bl.data.zipIdx, C.Defined tx.1 := by
    intro tx htx
    exact hde tx.1 (fst_mem_of_mem_zipIdx htx)
  obtain ⟨io,hi,hg⟩ := tx_infos_ok he hf hd
  refine ⟨io,?_,hg⟩
  unfold getTxPvtdataInfoFromBlock
  rw [hm]
  exact bind_ok.mpr ⟨(),require_ok.mpr (List.getElem?_eq_some_iff.mp hat).1,
    bind_ok.mpr ⟨tf,index_ok.mpr hat,bind_ok.mpr ⟨(),require_ok.mpr hl,hi⟩⟩⟩

end

theorem collection_infos_defined {io : TxInfo} (h : C.collectionInfos io cs = .ok infos) :
    ∀ c ∈ cs, (C.collectionInfo (io.criteria c)).isSome := by
  induction cs generalizing infos with
  | nil => exact forall_mem_nil _
  | cons c cs ih =>
    obtain ⟨config,hr,h⟩ := bind_ok.mp h
    obtain ⟨more,hm,_⟩ := bind_ok.mp h
    refine forall_mem_cons.mpr ⟨?_,ih hm⟩
    unfold retrieveCollectionConfig at hr
    split at hr
    · cases hr
    · next hc => simp [hc]

theorem tx_infos_defined (h : C.txInfos tf txs = .ok infos) : ∀ tx ∈ txs, C.Defined tx.1 := by
  induction txs generalizing infos with
  | nil => exact forall_mem_nil _
  | cons tx txs ih =>
    obtain ⟨d,seq⟩ := tx
    obtain ⟨flag,_,h⟩ := bind_ok.mp h
    obtain ⟨parsed,hp,h⟩ := bind_ok.mp h
    cases parsed with
    | none =>
      refine forall_mem_cons.mpr ⟨fun info hin => ?_,ih h⟩
      cases (attempt_ok.mpr hin).symm.trans hp
    | some answer =>
      obtain ⟨info,ha,h⟩ := bind_ok.mp h
      obtain ⟨cols,hc,h⟩ := bind_ok.mp h
      obtain ⟨more,hm,_⟩ := bind_ok.mp h
      refine forall_mem_cons.mpr ⟨fun other hin => ?_,ih hm⟩
      cases (attempt_ok.mpr hin).symm.trans hp
      cases ha
      exact collection_infos_defined hc

theorem get_tx_pvtdata_info_defined {bl : Block} (h : C.getTxPvtdataInfoFromBlock bl = .ok infos) :
    ∀ d ∈ bl.data, C.Defined d := by
  unfold getTxPvtdataInfoFromBlock at h
  dsimp only at h
  split at h
  · cases h
  obtain ⟨_,_,h⟩ := bind_ok.mp h
  obtain ⟨tf,_,h⟩ := bind_ok.mp h
  obtain ⟨_,_,h⟩ := bind_ok.mp h
  intro d hd
  obtain ⟨i,hi⟩ := getElem?_of_mem hd
  exact tx_infos_defined h (d,i) (mk_mem_zipIdx_iff_getElem?.mpr hi)

/-- A flagged block whose private data the ledger does not have yet is stored exactly if every
collection that an entry writes hashes to is defined. -/
theorem block_reaches_commit (C : Coordinator) (exist : Bool) (block : Block)
    (hwell : ∀ cc config, C.collectionInfo cc = some config → C.provider.WellFormed config)
    (hflagged : Flagged block) :
    (∃ commit : Commit, C.storeBlock exist block = .ok commit) ↔
      (exist = true ∨ ∀ d ∈ block.data, C.Defined d) := by
  cases exist with
  | true => exact iff_of_true ⟨_,rfl⟩ (.inl rfl)
  | false =>
    constructor
    · rintro ⟨commit,h⟩
      obtain ⟨infos,hi,_⟩ := bind_ok.mp h
      exact .inr (get_tx_pvtdata_info_defined hi)
    rintro (he | hdefined)
    · cases he
    obtain ⟨io,hi,hg⟩ := get_tx_pvtdata_info_ok hwell hflagged hdefined
    obtain ⟨pvtdata,hp⟩ := PvtdataProvider.retrieve_ok hg
    have hr : C.retrieve io = .ok pvtdata := by
      unfold retrieve
      rw [hp]
    exact ⟨_,bind_ok.mpr ⟨io,hi,bind_ok.mpr ⟨pvtdata,hr,rfl⟩⟩⟩

def sampleProvider : PvtdataProvider where
  mspID := [1]
  newPolicy _ := some false
  getMemberOrgs _ := [[1]]
  endorserOrg e := some e
  sha256 b := b
  storePvtdataOfInvalidTx := false
  skipPullingInvalidTransactions := false
  blockNum := 1
  prefetchedPvtdata := []
  getTxPvtRWSetByTxid _ _ _ := some []
  fetch _ _ := none
  pulls := 2

def sampleCoordinator : Coordinator where
  decode :=
    { envelope := fun b => some ⟨some b,none⟩
      payload := fun b => some ⟨some ⟨some b,none⟩,some b⟩
      channelHeader := fun _ => some ⟨endorserTransaction,[1],[2],0,none⟩
      signatureHeader := fun _ => none
      headerExtension := fun _ => none
      transaction := fun b => some ⟨[⟨none,some b⟩]⟩
      actionPayload := fun b => some ⟨none,some ⟨some b,[]⟩⟩
      responsePayload := fun b => some ⟨[],some b⟩
      action := fun b => some ⟨b,none,none⟩
      event := fun _ => none
      rwset := fun b => some ⟨[⟨[3],⟨[],[],[],[]⟩,[⟨b,⟨[],[⟨[4],false,[5]⟩],[]⟩,[6]⟩]⟩]⟩ }
  collectionInfo cc := if cc.collection = [7] then some ⟨[7],some (some [])⟩ else none
  provider := sampleProvider

theorem sample_defined : ∀ d ∈ [[7]], sampleCoordinator.Defined d := by
  intro d hd io hi c hc
  cases mem_singleton.mp hd
  cases hi
  cases mem_singleton.mp hc
  rfl

theorem sample_reaches_commit : sampleCoordinator.storeBlock false ⟨[[7]],some [[],[],[0]]⟩ =
      .ok (.retrieved ⟨[],[⟨0,[3],[7],true⟩]⟩) ∧
    ∃ commit : Commit,
      sampleCoordinator.storeBlock false ⟨[[7]],some [[],[],[0]]⟩ = .ok commit := by
  refine ⟨rfl,?_⟩
  refine (block_reaches_commit sampleCoordinator false ⟨[[7]],some [[],[],[0]]⟩ ?_
    ⟨_,[0],rfl,rfl,rfl⟩).mpr (.inr sample_defined)
  intro cc co h
  unfold sampleCoordinator at h
  dsimp only at h
  split at h
  · cases h
    exact ⟨_,rfl⟩
  · cases h

/-- A transaction found invalid (flag 10, the endorsement policy) names a collection that is not
defined. -/
theorem undefined_collection_stops : Flagged ⟨[[8]],some [[],[],[10]]⟩ ∧
    sampleCoordinator.storeBlock false ⟨[[8]],some [[],[],[10]]⟩ =
      .error (.failed (.noSuchCollection ⟨[1],[3],[8]⟩)) :=
  ⟨⟨_,[10],rfl,rfl,rfl⟩,rfl⟩

end Coordinator
end PluggableHcs.Privdata
