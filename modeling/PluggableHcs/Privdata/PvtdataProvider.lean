import Mathlib.Data.List.Dedup
import PluggableHcs.Protoutil.Messages

namespace PluggableHcs.Privdata
open Outcomes Protoutil Txmgmt

/-- The config message may lack the policy config, and that may lack the signature policy. -/
structure StaticCollectionConfig where
  name : Bytes
  memberOrgsPolicy : Option (Option Bytes)
deriving DecidableEq

structure CollectionPvtdataInfo where
  ns : Bytes
  collection : Bytes
  expectedHash : Bytes
  collectionConfig : StaticCollectionConfig
  endorsers : List Endorsement
deriving DecidableEq

structure TxPvtdataInfo where
  txID : Bytes
  invalid : Bool
  seqInBlock : Nat
  collectionPvtdataInfo : List CollectionPvtdataInfo
deriving DecidableEq

/-- The source writes the hash in hex. -/
structure RwSetKey where
  txID : Bytes
  seqInBlock : Nat
  ns : Bytes
  collection : Bytes
  hash : Bytes
deriving DecidableEq

structure NsPvtRwset where
  ns : Bytes
  collectionPvtRwset : List (Bytes × Bytes)
deriving DecidableEq

structure TxPvtData where
  seqInBlock : Nat
  writeSet : List NsPvtRwset
deriving DecidableEq

structure DigKey where
  txID : Bytes
  seqInBlock : Nat
  collection : Bytes
  ns : Bytes
  blockSeq : Nat
deriving DecidableEq

structure FetchedPvtdata where
  availableElements : List (DigKey × List Bytes)
  purgedElements : List DigKey

structure SimpleCollection where
  memberOrgs : List Bytes
  /-- The access filter applied to the peer's own signed data. -/
  admits : Bool

structure PvtdataProvider where
  mspID : Bytes
  /-- The policy built from a signature policy envelope, applied to the peer's own signed data. -/
  newPolicy : Bytes → Option Bool
  getMemberOrgs : Bytes → List Bytes
  /-- The MSP id of an endorser that unmarshals. -/
  endorserOrg : Bytes → Option Bytes
  sha256 : Bytes → Bytes
  storePvtdataOfInvalidTx : Bool
  skipPullingInvalidTransactions : Bool
  blockNum : Nat
  prefetchedPvtdata : List TxPvtData
  /-- The results of an iterator of the transient store: no iterator, then an error or an entry
  for each step; an entry may lack its simulation results, and those their private write sets. -/
  getTxPvtRWSetByTxid : (txID ns collection : Bytes) →
    Option (List (Option (Option (Option (List NsPvtRwset)))))
  /-- The answer of the remote peers, by how many pulls are left. -/
  fetch : Nat → List (DigKey × List Endorsement) → Option FetchedPvtdata
  /-- How many pulls there is time for. -/
  pulls : Nat

def put {κ β : Type} [DecidableEq κ] (l : List (κ × β)) (k : κ) (v : β) : List (κ × β) :=
  (k,v) :: l.filter fun e => e.1 ≠ k

structure PvtdataRetrievalInfo where
  sources : List (RwSetKey × List Endorsement)
  txns : List Bytes
  /-- The keys, and whether the transaction is invalid. -/
  remainingEligibleMissingKeys : List (RwSetKey × Bool)
  ineligibleMissingKeys : List (RwSetKey × Unit)

structure Retrieval where
  pvtdata : List (RwSetKey × Bytes)
  info : PvtdataRetrievalInfo

structure MissingPvtData where
  seqInBlock : Nat
  ns : Bytes
  collection : Bytes
  isEligible : Bool
deriving DecidableEq

structure BlockPvtdata where
  pvtData : List TxPvtData
  missingPvtData : List MissingPvtData
deriving DecidableEq

namespace PvtdataProvider
variable (P : PvtdataProvider)

def newSimpleCollection (config : StaticCollectionConfig) : Except String SimpleCollection :=
  match config.memberOrgsPolicy with
  | none => .error "Collection config policy is nil"
  | some none => .error "Collection config access policy is nil"
  | some (some accessPolicyEnvelope) =>
    match P.newPolicy accessPolicyEnvelope with
    | none => .error "failed constructing policy object out of collection policy config"
    | some admits => .ok ⟨P.getMemberOrgs accessPolicyEnvelope,admits⟩

def endorsersFromEligibleOrgs (endorsers : List Endorsement) (orgs : List Bytes) :
    List Endorsement :=
  endorsers.filter fun e =>
    match P.endorserOrg e.endorser with
    | none => false
    | some mspid => mspid ∈ orgs

def computeCollection (tx : TxPvtdataInfo) (info : PvtdataRetrievalInfo)
    (col : CollectionPvtdataInfo) : Except String PvtdataRetrievalInfo := do
  let policy ← P.newSimpleCollection col.collectionConfig
  let key : RwSetKey := ⟨tx.txID,tx.seqInBlock,col.ns,col.collection,col.expectedHash⟩
  if P.mspID ∉ policy.memberOrgs ∧ policy.admits = false then
    pure { info with ineligibleMissingKeys := put info.ineligibleMissingKeys key () }
  else
    pure { info with
      remainingEligibleMissingKeys := put info.remainingEligibleMissingKeys key tx.invalid
      sources := put info.sources key
        (P.endorsersFromEligibleOrgs col.endorsers policy.memberOrgs) }

def computeTx (info : PvtdataRetrievalInfo) (tx : TxPvtdataInfo) :
    Except String PvtdataRetrievalInfo :=
  let listed := { info with txns := info.txns ++ [tx.txID] }
  if tx.invalid = true ∧ P.storePvtdataOfInvalidTx = false then .ok listed
  else tx.collectionPvtdataInfo.foldlM (P.computeCollection tx) listed

section
variable (pvtdataToRetrieve : List TxPvtdataInfo)

def computeEligibility : Except String PvtdataRetrievalInfo :=
  pvtdataToRetrieve.foldlM P.computeTx ⟨[],[],[],[]⟩

def found (r : Retrieval) (key : RwSetKey) (rws : Bytes) : Retrieval :=
  let missing := r.info.remainingEligibleMissingKeys
  if key ∈ missing.map Prod.fst then
    ⟨put r.pvtdata key rws,
      { r.info with remainingEligibleMissingKeys := missing.filter fun e => e.1 ≠ key }⟩
  else r

def foundAll (txID : Bytes) (seqInBlock : Nat) (r : Retrieval) (sets : List NsPvtRwset) :
    Retrieval :=
  sets.foldl (fun r ns => ns.collectionPvtRwset.foldl
    (fun r col => found r ⟨txID,seqInBlock,ns.ns,col.1,P.sha256 col.2⟩ col.2) r) r

def getTxIDBySeqInBlock (seqInBlock : Nat) (pvtdataToRetrieve : List TxPvtdataInfo) : Bytes :=
  match pvtdataToRetrieve.find? fun tx => tx.seqInBlock = seqInBlock with
  | some tx => tx.txID
  | none => []

def populateFromCache (r : Retrieval) : Retrieval :=
  P.prefetchedPvtdata.foldl (fun r tx =>
    let txID := getTxIDBySeqInBlock tx.seqInBlock pvtdataToRetrieve
    if txID = [] then r else P.foundAll txID tx.seqInBlock r tx.writeSet) r

/-- The results of one iterator; the error is the retrieval at the early return. -/
def populateFromIterator (k : RwSetKey) :
    Retrieval → List (Option (Option (Option (List NsPvtRwset)))) → Except Retrieval Retrieval
  | r,[] => .ok r
  | r,none :: _ => .error r
  | r,some (some (some sets)) :: rest =>
    populateFromIterator k (P.foundAll k.txID k.seqInBlock r sets) rest
  | r,some _ :: rest => populateFromIterator k r rest

def populateKey (r : Retrieval) (k : RwSetKey) : Except Retrieval Retrieval :=
  -- a key that is deleted before range comes to it is not visited
  if k ∈ r.info.remainingEligibleMissingKeys.map Prod.fst then
    match P.getTxPvtRWSetByTxid k.txID k.ns k.collection with
    | none => .error r
    | some results => P.populateFromIterator k r results
  else .ok r

def populateFromTransientStore (r : Retrieval) : Retrieval :=
  match (r.info.remainingEligibleMissingKeys.map Prod.fst).foldlM P.populateKey r with
  | .ok r => r
  | .error r => r

def digestOf (k : RwSetKey) : DigKey := ⟨k.txID,k.seqInBlock,k.collection,k.ns,P.blockNum⟩

def dropPurged (r : Retrieval) (purged : List DigKey) : Retrieval :=
  { r with info := { r.info with
      remainingEligibleMissingKeys := r.info.remainingEligibleMissingKeys.filter fun e =>
        purged.all fun dig => ¬ (e.1.ns = dig.ns ∧ e.1.collection = dig.collection ∧
          e.1.seqInBlock = dig.seqInBlock ∧ e.1.txID = dig.txID) } }

/-- The retrieval, and whether to try again. -/
def populateFromRemotePeers (left : Nat) (r : Retrieval) : Retrieval × Bool :=
  let missing := r.info.remainingEligibleMissingKeys
  let skipped := missing.filter fun e => e.2 ∧ P.skipPullingInvalidTransactions
  let pulled := missing.filter fun e => ¬ (e.2 ∧ P.skipPullingInvalidTransactions)
  let dig2src := pulled.foldl
    (fun m e => put m (P.digestOf e.1) ((r.info.sources.lookup e.1).getD [])) []
  if dig2src = [] then (r,false)
  else
    match P.fetch left dig2src with
    | none => (r,true)
    | some fetchedData =>
      let filled := fetchedData.availableElements.foldl (fun r el => el.2.foldl
        (fun r rws => found r
          ⟨el.1.txID,el.1.seqInBlock,el.1.ns,el.1.collection,P.sha256 rws⟩ rws) r) r
      let left := dropPurged filled fetchedData.purgedElements
      (left,skipped.length < left.info.remainingEligibleMissingKeys.length)

def pull : Nat → Retrieval → Retrieval
  | 0,r => r
  | n + 1,r =>
    if r.info.remainingEligibleMissingKeys = [] then r
    else
      match P.populateFromRemotePeers n r with
      | (r,true) => pull n r
      | (r,false) => r

def toRWSet (sets : List (RwSetKey × Bytes)) : List NsPvtRwset :=
  (sets.map fun e => e.1.ns).dedup.map fun ns =>
    ⟨ns,(sets.filter fun e => e.1.ns = ns).map fun e => (e.1.collection,e.2)⟩

def prepareBlockPvtdata (r : Retrieval) : BlockPvtdata where
  pvtData := (r.pvtdata.map fun e => e.1.seqInBlock).dedup.map fun seq =>
    ⟨seq,toRWSet (r.pvtdata.filter fun e => e.1.seqInBlock = seq)⟩
  missingPvtData :=
    (r.info.remainingEligibleMissingKeys.map fun e =>
      ⟨e.1.seqInBlock,e.1.ns,e.1.collection,true⟩) ++
    r.info.ineligibleMissingKeys.map fun e => ⟨e.1.seqInBlock,e.1.ns,e.1.collection,false⟩

def retrievePvtdata : Except String BlockPvtdata := do
  let info ← P.computeEligibility pvtdataToRetrieve
  if info.remainingEligibleMissingKeys = [] then pure (prepareBlockPvtdata ⟨[],info⟩)
  else
    let cached := P.populateFromCache pvtdataToRetrieve ⟨[],info⟩
    if cached.info.remainingEligibleMissingKeys = [] then pure (prepareBlockPvtdata cached)
    else
      let stored := P.populateFromTransientStore cached
      if stored.info.remainingEligibleMissingKeys = [] then pure (prepareBlockPvtdata stored)
      else pure (prepareBlockPvtdata (P.pull P.pulls stored))

end

def WellFormed (config : StaticCollectionConfig) : Prop :=
  ∃ policy, P.newSimpleCollection config = .ok policy

variable {P}

theorem fold_ok {α σ ε : Type} {f : σ → α → Except ε σ} {l : List α}
    (h : ∀ a ∈ l, ∀ s, ∃ t, f s a = .ok t) : ∀ s, ∃ t, l.foldlM f s = .ok t := by
  induction l with
  | nil => exact fun s => ⟨s,rfl⟩
  | cons a l ih =>
    rw [List.forall_mem_cons] at h
    intro s
    obtain ⟨t,ht⟩ := h.1 s
    obtain ⟨u,hu⟩ := ih h.2 t
    exact ⟨u,bind_ok.mpr ⟨t,ht,hu⟩⟩

theorem compute_collection_ok (h : P.WellFormed col.collectionConfig)
    (tx : TxPvtdataInfo) (io : PvtdataRetrievalInfo) :
    ∃ out, P.computeCollection tx io col = .ok out := by
  obtain ⟨po,hp⟩ := h
  unfold computeCollection
  rw [hp]
  by_cases hm : P.mspID ∉ po.memberOrgs ∧ po.admits = false
  · exact ⟨_,if_pos hm⟩
  · exact ⟨_,if_neg hm⟩

theorem compute_tx_ok {tx : TxPvtdataInfo}
    (h : ∀ co ∈ tx.collectionPvtdataInfo, P.WellFormed co.collectionConfig)
    (io : PvtdataRetrievalInfo) : ∃ out, P.computeTx io tx = .ok out := by
  unfold computeTx
  split
  · exact ⟨_,rfl⟩
  · exact fold_ok (fun co hc s => compute_collection_ok (h co hc) tx s) _

theorem retrieve_ok {ts : List TxPvtdataInfo}
    (h : ∀ tx ∈ ts, ∀ co ∈ tx.collectionPvtdataInfo, P.WellFormed co.collectionConfig) :
    ∃ out, P.retrievePvtdata ts = .ok out := by
  obtain ⟨io,hi⟩ := fold_ok (fun tx htx s => compute_tx_ok (h tx htx) s) ⟨[],[],[],[]⟩
  unfold retrievePvtdata computeEligibility
  rw [hi]
  simp only [bind,Except.bind]
  split
  · exact ⟨_,rfl⟩
  split
  · exact ⟨_,rfl⟩
  split
  · exact ⟨_,rfl⟩
  · exact ⟨_,rfl⟩

end PvtdataProvider
end PluggableHcs.Privdata
