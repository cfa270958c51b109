import PluggableHcs.Protoutil.Messages
import PluggableHcs.Txvalidator.ParallelValidation

namespace PluggableHcs.Txvalidator
open Crashes Outcomes Protoutil Txmgmt List

/-- The validation codes that the checks of this file give. -/
inductive ValidationCode where
  | valid
  | nilEnvelope
  | badPayload
  | badCommonHeader
  | badCreatorSignature
  | invalidEndorserTransaction
  | invalidConfigTransaction
  | unsupportedTxPayload
  | badProposalTxid
  | duplicateTxid
  | endorsementPolicyFailure
  | unknownTxType
  | targetChainNotFound
  | marshalTxError
  | badChannelHeader
  | badHeaderExtension
  | badResponsePayload
  | badRwset
  | illegalWriteset
  | invalidChaincode
  | invalidOtherReason
deriving DecidableEq

structure SignedData where
  data : Bytes
  identity : Bytes
  signature : Bytes

/-- The errors of a validation plugin: the two types convertErrorTypeOrPanic accepts. -/
inductive PluginError where
  | executionFailure
  | endorsementPolicy
deriving DecidableEq

/-- What GetTransactionByID says about a transaction id. -/
inductive Lookup where
  | found
  | notFoundInIndex
  | failure
deriving DecidableEq

/-- The two errors of ValidationInfo. -/
inductive InfoError where
  | unexpected
  | validation
deriving DecidableEq

/-- What the validation asks of the rest of the peer; any answers. -/
structure Services where
  decode : Decoders
  sha256 : Bytes → Bytes
  computeTxID : (nonce creator : Bytes) → Bytes
  /-- The identity is of the channel, valid, and signed the message. -/
  creatorSigned : (creator sig msg channelID : Bytes) → Bool
  chainExists : Bytes → Bool
  getTransactionByID : Bytes → Lookup
  validationInfo : (channelID ccid : Bytes) → Except InfoError (Bytes × Bytes)
  pluginUsable : (pluginName channel : Bytes) → Bool
  /-- The policy evaluator over a read/write set that decodes. -/
  evaluate : (ccEP : Bytes) → (blockNum txNum : Nat) → List NsRwSet → (ns : Bytes) →
    List SignedData → Except PluginError Unit
  configEnvelope : Bytes → Bool
  applyConfig : Bytes → Bool
  marshals : Envelope → Bool
  /-- The order in which range goes through a map. -/
  order : List Bytes → List Bytes

structure DataBlock where
  number : Nat
  data : List Bytes

/-- The block number the table of sync.Once values is for, and its length. -/
structure BlockDependency where
  blockNum : Nat
  txDepOnce : Nat
deriving DecidableEq

inductive DispatchError where
  | executionFailure
  | infoLookupFailure
  | endorsementPolicy
  | other
deriving DecidableEq

structure BlockValidationResult where
  tIdx : Nat
  validationCode : ValidationCode
  txid : Bytes
  err : Bool
deriving DecidableEq

section
variable (S : Services)

def checkSignatureFromCreator (creatorBytes : Bytes) (sig msg : Option Bytes)
    (channelID : Bytes) : Except (Stop String) Unit :=
  match sig,msg with
  | some sig,some msg =>
    require (S.creatorSigned creatorBytes sig msg channelID)
      "creator's signature over the proposal is not valid"
  | _,_ => fail "nil arguments"

def validateSignatureHeader (sHdr : SignatureHeader) : Except (Stop String) Unit := do
  require (sHdr.nonce ≠ []) "invalid nonce specified in the header"
  require (sHdr.creator ≠ []) "invalid creator specified in the header"

def validateChannelHeader (cHdr : ChannelHeader) : Except (Stop String) Unit := do
  require (cHdr.type = endorserTransaction ∨ cHdr.type = configUpdate ∨ cHdr.type = config)
    "invalid header type"
  require (cHdr.epoch = 0) "invalid Epoch in ChannelHeader"

def validateCommonHeader (hdr : Option Header) :
    Except (Stop String) (ChannelHeader × SignatureHeader) :=
  match hdr with
  | none => fail "nil header"
  | some hdr => do
    let chdr ← unmarshal S.decode.channelHeader "ChannelHeader" hdr.channelHeader
    let shdr ← unmarshal S.decode.signatureHeader "SignatureHeader" hdr.signatureHeader
    validateChannelHeader chdr
    validateSignatureHeader shdr
    pure (chdr,shdr)

def validateConfigTransaction (data : Option Bytes) (hdr : Option Header) :
    Except (Stop String) Unit :=
  require (data.isSome ∧ hdr.isSome) "nil arguments"

def getProposalHash2 (header : Header) (ccPropPayl : Option Bytes) : Except (Stop String) Bytes :=
  match header.channelHeader,header.signatureHeader,ccPropPayl with
  | some channelHeader,some signatureHeader,some ccPropPayl =>
    .ok (S.sha256 (channelHeader ++ signatureHeader ++ ccPropPayl))
  | _,_,_ => fail "nil arguments"

def validateAction (hdr : Header) (act : TransactionAction) : Except (Stop String) Unit := do
  let sHdr ← unmarshal S.decode.signatureHeader "SignatureHeader" act.header
  validateSignatureHeader sHdr
  let ccActionPayload ← unmarshal S.decode.actionPayload "ChaincodeActionPayload" act.payload
  -- ccActionPayload.Action is not compared with nil here
  let action ← deref ccActionPayload.action
  let prp ← unmarshal S.decode.responsePayload "ProposalResponsePayload"
    action.proposalResponsePayload
  let pHash ← getProposalHash2 S ⟨hdr.channelHeader,act.header⟩
    ccActionPayload.chaincodeProposalPayload
  require (pHash = prp.proposalHash) "proposal hash does not match"

def validateEndorserTransaction (data : Option Bytes) (hdr : Option Header) :
    Except (Stop String) Unit :=
  match data,hdr with
  | some data,some hdr => do
    let tx ← unmarshal S.decode.transaction "Transaction" (some data)
    require (tx.actions.length = 1) "only one action per transaction is supported"
    tx.actions.forM (validateAction S hdr)
  | _,_ => fail "nil arguments"

def validateTransaction (e : Envelope) : Except (Stop ValidationCode) Payload := do
  let payload ← onError (fun _ => .badPayload) (unmarshal S.decode.payload "Payload" e.payload)
  let hdrs ← onError (fun _ => .badCommonHeader) (validateCommonHeader S payload.header)
  onError (fun _ => .badCreatorSignature)
    (checkSignatureFromCreator S hdrs.2.creator e.signature e.payload hdrs.1.channelId)
  if hdrs.1.type = endorserTransaction then do
    require (hdrs.1.txId = S.computeTxID hdrs.2.nonce hdrs.2.creator) .badProposalTxid
    onError (fun _ => .invalidEndorserTransaction)
      (validateEndorserTransaction S payload.data payload.header)
    pure payload
  else if hdrs.1.type = config then do
    onError (fun _ => .invalidConfigTransaction)
      (validateConfigTransaction payload.data payload.header)
    pure payload
  else fail .unsupportedTxPayload

end

section
variable (S : Services)

/-- It logs its errors and returns; the dependencies it hands on are not looked at here. -/
def extractDependenciesForTx (envelopeBytes : Bytes) : Except (Stop String) Unit := do
  let env ← S.decode.getEnvelopeFromBlock envelopeBytes
  let payl ← unmarshal S.decode.payload "Payload" env.payload
  let tx ← unmarshal S.decode.transaction "Transaction" payl.data
  let first ← index tx.actions 0
  let cap ← unmarshal S.decode.actionPayload "ChaincodeActionPayload" first.payload
  let action ← deref cap.action
  let pRespPayload ← unmarshal S.decode.responsePayload "ProposalResponsePayload"
    action.proposalResponsePayload
  let _ ← unmarshal S.decode.action "ChaincodeAction" pRespPayload.extension
  pure ()

variable (dep : BlockDependency)

def BlockDependency.enter (block : DataBlock) : BlockDependency :=
  if dep.blockNum ≠ block.number then ⟨block.number,block.data.length⟩ else dep

/-- The visit of PreValidate to one position: done says whether its Once has run. -/
def preValidateAt (block : DataBlock) (slots : Nat) (done : Nat → Bool) (i : Nat) :
    Except (Stop PluginError) Unit :=
  if i < slots then
    if done i then .ok ()
    else do
      let envelopeBytes ← index block.data i
      let _ ← attempt (extractDependenciesForTx S envelopeBytes)
      pure ()
  else .error (.crashed .indexOutOfRange)

def preValidate (done : Nat → Bool) (block : DataBlock) (txNum : Nat) :
    Except (Stop PluginError) Unit :=
  (List.range (txNum + 1)).reverse.forM
    (preValidateAt S block (dep.enter block).txDepOnce done)

structure ValidationArtifacts where
  rwset : Bytes
  prp : Option Bytes
  endorsements : List Endorsement

def extractValidationArtifacts (block : DataBlock) (txPosition : Nat) (actionPosition : Nat) :
    Except (Stop String) ValidationArtifacts := do
  let envBytes ← index block.data txPosition
  let env ← S.decode.getEnvelopeFromBlock envBytes
  let payl ← unmarshal S.decode.payload "Payload" env.payload
  let hdr ← deref payl.header
  let chdr ← unmarshal S.decode.channelHeader "ChannelHeader" hdr.channelHeader
  require (chdr.type = endorserTransaction) "Only Endorser Transactions are supported"
  let tx ← unmarshal S.decode.transaction "Transaction" payl.data
  let act ← index tx.actions actionPosition
  let cap ← unmarshal S.decode.actionPayload "ChaincodeActionPayload" act.payload
  let action ← deref cap.action
  let pRespPayload ← unmarshal S.decode.responsePayload "ProposalResponsePayload"
    action.proposalResponsePayload
  require pRespPayload.extension.isSome "nil pRespPayload.Extension"
  let respPayload ← unmarshal S.decode.action "ChaincodeAction" pRespPayload.extension
  pure ⟨respPayload.results,action.proposalResponsePayload,action.endorsements⟩

def validateKeyLevel (cc : Bytes) (blockNum txNum : Nat) (va : ValidationArtifacts)
    (ccEP : Bytes) : Except (Stop PluginError) Unit :=
  let signatureSet := va.endorsements.map fun e =>
    ⟨va.prp.getD [] ++ e.endorser,e.endorser,e.signature⟩
  match S.decode.rwset va.rwset with
  | none => fail .endorsementPolicy
  | some rwset =>
    match S.evaluate ccEP blockNum txNum rwset.nsRwSets cc signatureSet with
    | .ok () => .ok ()
    | .error e => fail e

/-- The Validate of the plugin, with the checks of DefaultValidation before it. -/
def validatePlugin (done : Nat → Bool) (block : DataBlock)
    (ns : Bytes) (txPosition actionPosition : Nat) (policyBytes : Bytes) :
    Except (Stop PluginError) Unit :=
  -- an error of another type than executionFailure is treated as one of the policy
  if block.data.length ≤ txPosition then fail .endorsementPolicy
  else do
    preValidate S dep done block txPosition
    let va ← onError (fun _ => .endorsementPolicy)
      (extractValidationArtifacts S block txPosition actionPosition)
    validateKeyLevel S ns block.number txPosition va policyBytes

def getInfoForValidate (chdr : ChannelHeader) (ccID : Bytes) :
    Except (Stop DispatchError) (Bytes × Bytes) :=
  match S.validationInfo chdr.channelId ccID with
  | .error .unexpected => fail .infoLookupFailure
  | .error .validation => fail .other
  | .ok (plugin,args) => do
    require (plugin ≠ []) .other
    require (args.length ≠ 0) .other
    pure (plugin,args)

def invokeValidationPlugin (done : Nat → Bool) (block : DataBlock)
    (seq : Nat) (chdr : ChannelHeader) (ns plugin args : Bytes) :
    Except (Stop DispatchError) Unit := do
  require (S.pluginUsable plugin chdr.channelId) .executionFailure
  let toDispatch : PluginError → DispatchError := fun e =>
    if e = .executionFailure then .executionFailure else .endorsementPolicy
  onError toDispatch (validatePlugin S dep done block ns seq 0 args)

def dispatchNamespace (done : Nat → Bool) (block : DataBlock)
    (seq : Nat) (chdr : ChannelHeader) (ns : Bytes) :
    Except (Stop (DispatchError × ValidationCode)) Unit := do
  let info ← onError (·,ValidationCode.invalidChaincode) (getInfoForValidate S chdr ns)
  let codeOf : DispatchError → DispatchError × ValidationCode := fun e =>
    (e,if e = .endorsementPolicy then .endorsementPolicyFailure else .invalidOtherReason)
  onError codeOf (invokeValidationPlugin S dep done block seq chdr ns info.1 info.2)

def checkEvent (ccID : Bytes) (events : Option Bytes) :
    Except (Stop (DispatchError × ValidationCode)) Unit :=
  match events with
  | none => .ok ()
  | some events => do
    let ccEvent ← onError (fun _ => (DispatchError.other,ValidationCode.invalidOtherReason))
      (unmarshal S.decode.event "ChaincodeEvent" (some events))
    require (ccEvent.chaincodeId = ccID) (.other,.invalidOtherReason)

/-- The checks of Dispatch before its loop, with the namespaces in the order of the loop. -/
def checkAction (chdr : ChannelHeader) (envBytes : Bytes) :
    Except (Stop (DispatchError × ValidationCode)) (List Bytes) := do
  let hdrExt ← onError (fun _ => (DispatchError.other,ValidationCode.badHeaderExtension))
    (unmarshal S.decode.headerExtension "ChaincodeHeaderExtension" chdr.extension)
  let respPayload ← onError (fun _ => (DispatchError.other,ValidationCode.badResponsePayload))
    (S.decode.getActionFromEnvelope envBytes)
  let txRWSet ← onError (fun _ => (DispatchError.other,ValidationCode.badRwset))
    (unmarshal S.decode.rwset "TxRwSet" (some respPayload.results))
  require hdrExt.chaincodeId.isSome (.other,.invalidOtherReason)
  require respPayload.chaincodeId.isSome (.other,.invalidOtherReason)
  let invoked ← deref hdrExt.chaincodeId
  let acted ← deref respPayload.chaincodeId
  require (invoked.name ≠ []) (.other,.invalidChaincode)
  require (invoked.name = acted.name) (.other,.invalidChaincode)
  require (acted.version ≠ []) (.other,.invalidChaincode)
  checkEvent S invoked.name respPayload.events
  require (txRWSet.nsRwSets.map NsRwSet.nameSpace).Nodup (.other,.illegalWriteset)
  pure (S.order (wrNamespace invoked.name txRWSet))

def dispatch (done : Nat → Bool) (seq : Nat) (payload : Payload)
    (envBytes : Bytes) (block : DataBlock) :
    Except (Stop (DispatchError × ValidationCode)) Unit := do
  let hdr ← deref payload.header
  let chdr ← onError (fun _ => (DispatchError.other,ValidationCode.badChannelHeader))
    (unmarshal S.decode.channelHeader "ChannelHeader" hdr.channelHeader)
  let names ← checkAction S chdr envBytes
  names.forM (dispatchNamespace S dep done block seq chdr)

end

section
variable (S : Services)

def failedWith (tIdx : Nat) : BlockValidationResult := ⟨tIdx,.valid,[],true⟩

def codedWith (tIdx : Nat) (code : ValidationCode) : BlockValidationResult := ⟨tIdx,code,[],false⟩

def checkTxIdDupsLedger (tIdx : Nat) (chdr : ChannelHeader) :
    Except (Stop BlockValidationResult) Unit :=
  match S.getTransactionByID chdr.txId with
  | .found => fail (codedWith tIdx .duplicateTxid)
  | .notFoundInIndex => .ok ()
  | .failure => fail (failedWith tIdx)

def dispatchResult (tIdx : Nat) (e : DispatchError × ValidationCode) : BlockValidationResult :=
  if e.1 = .executionFailure ∨ e.1 = .infoLookupFailure then failedWith tIdx
  else codedWith tIdx e.2

def validateConfig (tIdx : Nat) (data : Option Bytes) : Except (Stop BlockValidationResult) Unit :=
  do
    require (S.configEnvelope (data.getD [])) (failedWith tIdx)
    require (S.applyConfig (data.getD [])) (failedWith tIdx)

/-- The steps of validateTx; an early return is the error of the computation. -/
def validateSteps (dep : BlockDependency) (done : Nat → Bool) (block : DataBlock)
    (tIdx : Nat) (d : Bytes) : Except (Stop BlockValidationResult) BlockValidationResult := do
  let env ← onError (fun _ => codedWith tIdx .invalidOtherReason) (S.decode.getEnvelopeFromBlock d)
  let payload ← onError (codedWith tIdx) (validateTransaction S env)
  let hdr ← deref payload.header
  let chdr ← onError (fun _ => codedWith tIdx .invalidOtherReason)
    (unmarshal S.decode.channelHeader "ChannelHeader" hdr.channelHeader)
  require (S.chainExists chdr.channelId) (codedWith tIdx .targetChainNotFound)
  if chdr.type = endorserTransaction then do
    checkTxIdDupsLedger S tIdx chdr
    onError (dispatchResult tIdx) (dispatch S dep done tIdx payload d block)
    require (S.marshals env) (codedWith tIdx .marshalTxError)
    pure ⟨tIdx,.valid,chdr.txId,false⟩
  else if chdr.type = config then do
    validateConfig S tIdx payload.data
    require (S.marshals env) (codedWith tIdx .marshalTxError)
    pure (codedWith tIdx .valid)
  else fail (codedWith tIdx .unknownTxType)

def validateTx (dep : BlockDependency) (done : Nat → Bool) (block : DataBlock) (tIdx : Nat)
    (d : Bytes) : Except Crash BlockValidationResult :=
  settle (validateSteps S dep done block tIdx d)

end

variable {S : Services}

/-- A transaction of the entry, if there is one to decode, has an action, and the payload of its
first action, if it decodes, has the endorsed action. -/
def Services.Formed (S : Services) (d : Bytes) : Prop :=
  ∀ env payl tx, S.decode.envelope d = some env →
    S.decode.payload (env.payload.getD []) = some payl →
    S.decode.transaction (payl.data.getD []) = some tx →
    ∃ first, tx.actions[0]? = some first ∧
      ∀ cap, S.decode.actionPayload (first.payload.getD []) = some cap → cap.action.isSome

/-- An entry that passes the checks before the endorsed action of its one action (headers, signature
of the creator, transaction id, length of the list, header of the action) has this endorsed action,
if its payload decodes. -/
def Services.Endorsed (S : Services) (d : Bytes) : Prop :=
  ∀ env payl hdrs hdr data tx act sHdr cap, S.decode.envelope d = some env →
    S.decode.payload (env.payload.getD []) = some payl →
    validateCommonHeader S payl.header = .ok hdrs →
    checkSignatureFromCreator S hdrs.2.creator env.signature env.payload hdrs.1.channelId = .ok () →
    hdrs.1.type = endorserTransaction → hdrs.1.txId = S.computeTxID hdrs.2.nonce hdrs.2.creator →
    payl.data = some data → payl.header = some hdr → S.decode.transaction data = some tx →
    tx.actions = [act] → S.decode.signatureHeader (act.header.getD []) = some sHdr →
    validateSignatureHeader sHdr = .ok () →
    S.decode.actionPayload (act.payload.getD []) = some cap → cap.action.isSome

/-- The entry passes all checks up to the call of a validation plugin. -/
def Services.Invokes (S : Services) (d : Bytes) : Prop :=
  ∃ env payl hdr chdr ns rest info, S.decode.envelope d = some env ∧
    validateTransaction S env = .ok payl ∧ payl.header = some hdr ∧
    S.decode.channelHeader (hdr.channelHeader.getD []) = some chdr ∧
    S.chainExists chdr.channelId = true ∧ chdr.type = endorserTransaction ∧
    S.getTransactionByID chdr.txId = .notFoundInIndex ∧
    checkAction S chdr d = .ok (ns :: rest) ∧ getInfoForValidate S chdr ns = .ok info ∧
    S.pluginUsable info.1 chdr.channelId = true

/-- The table of Once values reaches up to the transaction, and the entries up to it that are still
to be extracted are formed. -/
def Services.Extractable (S : Services) (dep : BlockDependency) (done : Nat → Bool)
    (block : DataBlock) (tIdx : Nat) : Prop :=
  ∀ i ≤ tIdx, i < (dep.enter block).txDepOnce ∧
    (done i = false → ∀ b, block.data[i]? = some b → S.Formed b)

theorem safe_signature_header (sh : SignatureHeader) : Safe (validateSignatureHeader sh) :=
  require_then fun _ => safe_require _

theorem safe_channel_header (ch : ChannelHeader) : Safe (validateChannelHeader ch) :=
  require_then fun _ => safe_require _

theorem safe_common_header (hdr : Option Header) : Safe (validateCommonHeader S hdr) := by
  cases hdr with
  | none => exact safe_fail _
  | some hdr =>
    refine unmarshal_then fun ch _ => ?_
    refine unmarshal_then fun sh _ => ?_
    refine safe_bind (safe_channel_header ch) fun _ _ => ?_
    exact safe_bind (safe_signature_header sh) fun _ _ => safe_pure _

theorem safe_check_signature (cr : Bytes) (si ms : Option Bytes) (ci : Bytes) :
    Safe (checkSignatureFromCreator S cr si ms ci) := by
  unfold checkSignatureFromCreator
  split
  · exact safe_require _
  · exact safe_fail _

theorem safe_proposal_hash (he : Header) (cp : Option Bytes) : Safe (getProposalHash2 S he cp) := by
  unfold getProposalHash2
  split
  · exact safe_ok _
  · exact safe_fail _

theorem safe_validate_action {hdr : Header} {act : TransactionAction} :
    Safe (validateAction S hdr act) ↔ ∀ sHdr cap,
      S.decode.signatureHeader (act.header.getD []) = some sHdr →
      validateSignatureHeader sHdr = .ok () →
      S.decode.actionPayload (act.payload.getD []) = some cap → cap.action.isSome := by
  constructor
  · intro h sHdr cap hs hv hc
    exact (((h.then (unmarshal_ok.mpr hs)).then hv).then (unmarshal_ok.mpr hc)).of_bind.of_deref
  intro h
  refine unmarshal_then fun sh hs => ?_
  refine safe_bind (safe_signature_header sh) fun _ hv => ?_
  refine unmarshal_then fun ca hc => ?_
  refine safe_bind (safe_deref (h sh ca hs hv hc)) fun an _ => ?_
  refine unmarshal_then fun pr _ => ?_
  exact safe_bind (safe_proposal_hash _ _) fun _ _ => safe_require _

variable {d : Bytes} {en : Envelope} {payl : Payload}

theorem safe_validate_transaction (he : S.decode.envelope d = some en) :
    Safe (validateTransaction S en) ↔ S.Endorsed d := by
  constructor
  · intro h env payl hdrs hdr data tx act sHdr cap he' hp hh hs ht hid hdata hhdr htx hact hsh hv hc
    cases he'.symm.trans he
    have h := ((h.then (on_error_ok.mpr (unmarshal_ok.mpr hp))).then (on_error_ok.mpr hh)).then
      (on_error_ok.mpr hs)
    rw [if_pos ht] at h
    have h := (h.then (a := ()) (require_ok.mpr hid)).of_bind.of_on_error
    rw [hdata,hhdr] at h
    have h := (h.then (unmarshal_ok.mpr htx)).then (a := ()) (require_ok.mpr (by rw [hact]; rfl))
    rw [hact] at h
    exact safe_validate_action.mp h.of_bind sHdr cap hsh hv hc
  intro hd
  refine safe_bind (safe_on_error _ (safe_unmarshal _ _ _)) fun payl hp => ?_
  refine safe_bind (safe_on_error _ (safe_common_header _)) fun hdrs hh => ?_
  refine safe_bind (safe_on_error _ (safe_check_signature _ _ _ _)) fun _ hs => ?_
  split
  · next ht =>
    refine require_then fun hid => safe_bind (safe_on_error _ ?_) fun _ _ => safe_pure _
    unfold validateEndorserTransaction
    split
    · next data hdr hdata hhdr =>
      refine unmarshal_then fun tx htx => require_then fun hone => safe_for fun a ha => ?_
      obtain ⟨act,hact⟩ := length_eq_one_iff.mp hone
      rw [hact] at ha
      cases mem_singleton.mp ha
      exact safe_validate_action.mpr fun sHdr cap => hd en payl hdrs hdr data tx _ sHdr cap he
        (unmarshal_ok.mp (on_error_ok.mp hp)) (on_error_ok.mp hh) (on_error_ok.mp hs) ht hid hdata
        hhdr htx hact
    · exact safe_fail _
  split
  · exact safe_bind (safe_on_error _ (safe_require _)) fun _ _ => safe_pure _
  · exact safe_fail _

theorem validate_transaction_ok (h : validateTransaction S en = .ok payl) :
    S.decode.payload (en.payload.getD []) = some payl ∧ payl.header.isSome := by
  obtain ⟨p,hp,h⟩ := bind_ok.mp h
  obtain ⟨hd,hh,h⟩ := bind_ok.mp h
  obtain ⟨_,_,h⟩ := bind_ok.mp h
  have hs : p = payl := by
    split at h
    · obtain ⟨_,_,h⟩ := bind_ok.mp h
      obtain ⟨_,_,h⟩ := bind_ok.mp h
      exact Except.ok.inj h
    split at h
    · obtain ⟨_,_,h⟩ := bind_ok.mp h
      exact Except.ok.inj h
    · cases h
  subst hs
  refine ⟨unmarshal_ok.mp (on_error_ok.mp hp),?_⟩
  cases hhd : p.header with
  | none =>
    rw [hhd] at hh
    cases hh
  | some hdr => rfl

theorem safe_extract_dependencies : Safe (extractDependenciesForTx S d) ↔ S.Formed d := by
  constructor
  · intro h env payl tx he hp htx
    have h := ((h.then (unmarshal_ok.mpr he)).then (unmarshal_ok.mpr hp)).then
      (unmarshal_ok.mpr htx)
    have hf := List.getElem?_eq_getElem h.of_bind.of_index
    refine ⟨_,hf,fun cap hc => ?_⟩
    exact ((h.then (index_ok.mpr hf)).then (unmarshal_ok.mpr hc)).of_bind.of_deref
  intro hd
  refine unmarshal_then fun en he => ?_
  refine unmarshal_then fun payl hp => ?_
  refine unmarshal_then fun tx htx => ?_
  obtain ⟨first,hf,hc⟩ := hd en payl tx he hp htx
  refine safe_bind (safe_index (List.getElem?_eq_some_iff.mp hf).1) fun a1 ha => ?_
  refine unmarshal_then fun ca hde => ?_
  cases (index_ok.mp ha).symm.trans hf
  refine safe_bind (safe_deref (hc ca hde)) fun an _ => ?_
  refine unmarshal_then fun pr _ => ?_
  exact unmarshal_then fun _ _ => safe_pure _

variable {dep : BlockDependency} {block : DataBlock} {tIdx : Nat}

theorem safe_pre_validate_at {slots : Nat} {done : Nat → Bool} (hi : i < block.data.length) :
    Safe (preValidateAt S block slots done i) ↔ i < slots ∧
      (done i = false → ∀ b, block.data[i]? = some b → S.Formed b) := by
  unfold preValidateAt
  split
  · next hs =>
    rw [and_iff_right hs]
    split
    · next hd => exact iff_of_true (safe_ok ()) fun h => absurd hd (by simp [h])
    next hd =>
    rw [Bool.not_eq_true] at hd
    constructor
    · intro h _ b hb
      exact safe_extract_dependencies.mp (h.then (index_ok.mpr hb)).of_bind.of_attempt
    · intro h
      refine safe_bind (safe_index hi) fun b hb => ?_
      exact safe_bind (safe_attempt (safe_extract_dependencies.mpr (h hd b (index_ok.mp hb))))
        fun _ _ => safe_pure ()
  · next hs => exact iff_of_false (fun h => h _ rfl) fun h => hs h.1

theorem pre_validate_answers {slots : Nat} {done : Nat → Bool} (i : Nat) (e : PluginError) :
    preValidateAt S block slots done i ≠ fail e := by
  unfold preValidateAt
  split
  · split
    · nofun
    intro h
    cases hb : (index block.data i : Except (Stop PluginError) Bytes) with
    | error st =>
      rw [hb] at h
      cases h
      unfold index at hb
      split at hb <;> cases hb
    | ok b =>
      rw [hb] at h
      cases hx : extractDependenciesForTx S b with
      | ok u =>
        change (attempt (extractDependenciesForTx S b) >>= fun _ => pure ()) = _ at h
        rw [hx] at h
        cases h
      | error st =>
        change (attempt (extractDependenciesForTx S b) >>= fun _ => pure ()) = _ at h
        rw [hx] at h
        cases st <;> cases h
  · nofun

theorem safe_pre_validate {done : Nat → Bool} (ht : tIdx < block.data.length) :
    Safe (preValidate S dep done block tIdx) ↔ S.Extractable dep done block tIdx := by
  have hm (i : Nat) : i ∈ (List.range (tIdx + 1)).reverse ↔ i ≤ tIdx := by
    rw [mem_reverse,mem_range,Nat.lt_succ_iff]
  constructor
  · intro h i hi
    have hs := Safe.of_for h (fun i _ => pre_validate_answers i) i ((hm i).mpr hi)
    exact (safe_pre_validate_at (Nat.lt_of_le_of_lt hi ht)).mp hs
  · intro h
    refine safe_for fun i hi => ?_
    have hi := (hm i).mp hi
    exact (safe_pre_validate_at (Nat.lt_of_le_of_lt hi ht)).mpr (h i hi)

theorem safe_artifacts (hb : block.data[tIdx]? = some d) (hd : S.Formed d)
    (hen : S.decode.envelope d = some en)
    (hpa : S.decode.payload (en.payload.getD []) = some payl) (hh : payl.header.isSome) :
    Safe (extractValidationArtifacts S block tIdx 0) := by
  refine safe_bind (safe_index (List.getElem?_eq_some_iff.mp hb).1) fun b hb' => ?_
  cases (index_ok.mp hb').symm.trans hb
  refine unmarshal_then fun e he => ?_
  cases he.symm.trans hen
  refine unmarshal_then fun p hp => ?_
  cases hp.symm.trans hpa
  refine safe_bind (safe_deref hh) fun hdr _ => ?_
  refine unmarshal_then fun ch _ => ?_
  refine require_then fun _ => ?_
  refine unmarshal_then fun tx htx => ?_
  obtain ⟨first,hf,hc⟩ := hd en payl tx hen hpa htx
  refine safe_bind (safe_index (List.getElem?_eq_some_iff.mp hf).1) fun a1 ha => ?_
  refine unmarshal_then fun ca hde => ?_
  cases (index_ok.mp ha).symm.trans hf
  refine safe_bind (safe_deref (hc ca hde)) fun an _ => ?_
  refine unmarshal_then fun pr _ => ?_
  refine require_then fun _ => ?_
  exact unmarshal_then fun _ _ => safe_pure _

theorem safe_key_level (cc : Bytes) (bn tn : Nat) (va : ValidationArtifacts)
    (ce : Bytes) : Safe (validateKeyLevel S cc bn tn va ce) := by
  unfold validateKeyLevel
  split
  · exact safe_fail _
  dsimp only
  split
  · exact safe_ok ()
  · exact safe_fail _

theorem safe_info (ch : ChannelHeader) (ns : Bytes) : Safe (getInfoForValidate S ch ns) := by
  unfold getInfoForValidate
  split
  · exact safe_fail _
  · exact safe_fail _
  · refine require_then fun _ => ?_
    exact require_then fun _ => safe_pure _

theorem safe_check_event (ci : Bytes) (ev : Option Bytes) : Safe (checkEvent S ci ev) := by
  cases ev with
  | none => exact safe_ok ()
  | some ev =>
    exact safe_bind (safe_on_error _ (safe_unmarshal _ _ _)) fun _ _ => safe_require _

theorem safe_check_action (chdr : ChannelHeader) : Safe (checkAction S chdr d) := by
  refine safe_bind (safe_on_error _ (safe_unmarshal _ _ _)) fun hd _ => ?_
  refine safe_bind (safe_on_error _ (Decoders.safe_get_action d)) fun re _ => ?_
  refine safe_bind (safe_on_error _ (safe_unmarshal _ _ _)) fun rt _ => ?_
  refine require_then fun he => ?_
  refine require_then fun hr => ?_
  refine safe_bind (safe_deref he) fun iv _ => ?_
  refine safe_bind (safe_deref hr) fun ad _ => ?_
  refine require_then fun _ => ?_
  refine require_then fun _ => ?_
  refine require_then fun _ => ?_
  refine safe_bind (safe_check_event _ _) fun _ _ => ?_
  exact require_then fun _ => safe_pure _

/-- GetActionFromEnvelope has looked at the list of actions and at the endorsed action. -/
theorem check_action_formed (h : checkAction S chdr d = .ok names) : S.Formed d := by
  obtain ⟨_,_,h⟩ := bind_ok.mp h
  obtain ⟨_,hg,_⟩ := bind_ok.mp h
  obtain ⟨env,payl,tx,first,cap,walked⟩ := Decoders.get_action_walked (on_error_ok.mp hg)
  intro env' payl' tx' he hp htx
  cases he.symm.trans walked.envelope
  cases hp.symm.trans walked.payload
  cases htx.symm.trans walked.transaction
  refine ⟨first,walked.actions,fun cap' hc => ?_⟩
  cases hc.symm.trans walked.actionPayload
  exact walked.action

section
variable {done : Nat → Bool} (hb : block.data[tIdx]? = some d)
  (hen : S.decode.envelope d = some en) (hpa : S.decode.payload (en.payload.getD []) = some payl)
  (hh : payl.header.isSome)
include hb hen hpa hh

theorem safe_plugin (hd : S.Formed d) (ns args : Bytes) :
    Safe (validatePlugin S dep done block ns tIdx 0 args) ↔ S.Extractable dep done block tIdx := by
  have hlt : tIdx < block.data.length := (List.getElem?_eq_some_iff.mp hb).1
  unfold validatePlugin
  rw [if_neg (Nat.not_le_of_lt hlt)]
  constructor
  · exact fun h => (safe_pre_validate hlt).mp h.of_bind
  · intro h
    refine safe_bind ((safe_pre_validate hlt).mpr h) fun _ _ => ?_
    refine safe_bind (safe_on_error _ (safe_artifacts hb hd hen hpa hh)) fun va _ => ?_
    exact safe_key_level _ _ _ _ _

theorem safe_dispatch_namespace (hd : S.Formed d) (chdr : ChannelHeader) (ns : Bytes) :
    Safe (dispatchNamespace S dep done block tIdx chdr ns) ↔
      ∀ info, getInfoForValidate S chdr ns = .ok info →
        S.pluginUsable info.1 chdr.channelId = true → S.Extractable dep done block tIdx := by
  constructor
  · intro h info hi hu
    have h := (h.then (on_error_ok.mpr hi)).of_on_error
    exact (safe_plugin hb hen hpa hh hd ns info.2).mp
      (h.then (a := ()) (require_ok.mpr hu)).of_on_error
  · intro h
    refine safe_bind (safe_on_error _ (safe_info chdr ns)) fun info hi => ?_
    refine safe_on_error _ (require_then fun hu => safe_on_error _ ?_)
    exact (safe_plugin hb hen hpa hh hd ns info.2).mpr (h info (on_error_ok.mp hi) hu)

/-- Of the namespaces only the first one counts: the plugin of a later one looks at the same
entries. -/
theorem safe_dispatch_loop (hd : S.Formed d) (chdr : ChannelHeader) (names : List Bytes) :
    Safe (names.forM (dispatchNamespace S dep done block tIdx chdr)) ↔
      ∀ ns rest info, names = ns :: rest → getInfoForValidate S chdr ns = .ok info →
        S.pluginUsable info.1 chdr.channelId = true → S.Extractable dep done block tIdx := by
  cases names with
  | nil => exact iff_of_true (safe_pure _) nofun
  | cons ns rest =>
    have loop (ns : Bytes) : Safe (dispatchNamespace S dep done block tIdx chdr ns) ↔ _ :=
      safe_dispatch_namespace hb hen hpa hh hd chdr ns
    constructor
    · intro h ns' rest' info hn
      cases hn
      exact (loop ns).mp (Safe.of_bind (f := fun _ => rest.forM _) h) info
    · intro h
      refine safe_bind ((loop ns).mpr fun info => h ns rest info rfl) fun _ hok => ?_
      obtain ⟨info,hi,hok⟩ := bind_ok.mp hok
      obtain ⟨_,hu,_⟩ := bind_ok.mp (on_error_ok.mp hok)
      have extractable := h ns rest info rfl (on_error_ok.mp hi) (require_ok.mp hu)
      exact safe_for fun ns' _ => (loop ns').mpr fun _ _ _ => extractable

theorem safe_dispatch (hhdr : payl.header = some hdr)
    (hc : S.decode.channelHeader (hdr.channelHeader.getD []) = some chdr) :
    Safe (dispatch S dep done tIdx payl d block) ↔
      ∀ ns rest info, checkAction S chdr d = .ok (ns :: rest) →
        getInfoForValidate S chdr ns = .ok info →
        S.pluginUsable info.1 chdr.channelId = true → S.Extractable dep done block tIdx := by
  have loop {names : List Bytes} (ha : checkAction S chdr d = .ok names) :
      Safe (names.forM (dispatchNamespace S dep done block tIdx chdr)) ↔ _ :=
    safe_dispatch_loop hb hen hpa hh (check_action_formed ha) chdr names
  unfold dispatch
  rw [hhdr]
  constructor
  · intro h ns rest info ha
    have h := (h.then rfl).then (on_error_ok.mpr (unmarshal_ok.mpr hc))
    exact (loop ha).mp (h.then ha) ns rest info rfl
  · intro h
    refine safe_bind (safe_ok hdr) fun _ hd => ?_
    cases hd
    refine safe_bind (safe_on_error _ (safe_unmarshal _ _ _)) fun chdr' hc' => ?_
    cases (unmarshal_ok.mp (on_error_ok.mp hc')).symm.trans hc
    refine safe_bind (safe_check_action chdr) fun names ha => (loop ha).mpr ?_
    rintro ns rest info rfl
    exact h ns rest info ha

end

theorem safe_check_dups (tIdx : Nat) (ch : ChannelHeader) :
    Safe (checkTxIdDupsLedger S tIdx ch) := by
  unfold checkTxIdDupsLedger
  cases S.getTransactionByID ch.txId with
  | found => exact safe_fail _
  | notFoundInIndex => exact safe_ok ()
  | failure => exact safe_fail _

theorem check_dups_ok {chdr : ChannelHeader} (h : checkTxIdDupsLedger S tIdx chdr = .ok u) :
    S.getTransactionByID chdr.txId = .notFoundInIndex := by
  unfold checkTxIdDupsLedger at h
  split at h
  · cases h
  · assumption
  · cases h

theorem safe_steps {done : Nat → Bool} (hb : block.data[tIdx]? = some d) :
    Safe (validateSteps S dep done block tIdx d) ↔
      S.Endorsed d ∧ (S.Invokes d → S.Extractable dep done block tIdx) := by
  constructor
  · intro h
    constructor
    · intro env payl hdrs hdr data tx act sHdr cap he
      have h := (h.then (on_error_ok.mpr (unmarshal_ok.mpr he))).of_bind.of_on_error
      exact (safe_validate_transaction he).mp h env payl hdrs hdr data tx act sHdr cap he
    · rintro ⟨env,payl,hdr,chdr,ns,rest,info,he,hv,hh,hc,hx,ht,hq,ha,hi,hu⟩
      have h := (h.then (on_error_ok.mpr (unmarshal_ok.mpr he))).then (on_error_ok.mpr hv)
      rw [hh] at h
      have h := (h.then rfl).then (on_error_ok.mpr (unmarshal_ok.mpr hc))
      have h := h.then (a := ()) (require_ok.mpr hx)
      rw [if_pos ht] at h
      have hd : checkTxIdDupsLedger S tIdx chdr = .ok () := by
        unfold checkTxIdDupsLedger
        rw [hq]
      exact (safe_dispatch hb he (validate_transaction_ok hv).1 (by rw [hh]; rfl) hh hc).mp
        (h.then hd).of_bind.of_on_error ns rest info ha hi hu
  rintro ⟨endorsed,extractable⟩
  refine safe_bind (safe_on_error _ (safe_unmarshal _ _ _)) fun env he => ?_
  have he := unmarshal_ok.mp (on_error_ok.mp he)
  refine safe_bind (safe_on_error _ ((safe_validate_transaction he).mpr endorsed))
    fun payl hv => ?_
  have hv := on_error_ok.mp hv
  obtain ⟨hp,hh⟩ := validate_transaction_ok hv
  obtain ⟨hdr,hhdr⟩ := Option.isSome_iff_exists.mp hh
  rw [hhdr]
  refine safe_bind (safe_ok hdr) fun hdr' hhdr' => ?_
  cases hhdr'
  refine safe_bind (safe_on_error _ (safe_unmarshal _ _ _)) fun chdr hc => ?_
  have hc := unmarshal_ok.mp (on_error_ok.mp hc)
  refine require_then fun hx => ?_
  split
  · next ht =>
    refine safe_bind (safe_check_dups tIdx chdr) fun _ hq => ?_
    refine safe_bind (safe_on_error _ ((safe_dispatch hb he hp hh hhdr hc).mpr ?_)) fun _ _ =>
      require_then fun _ => safe_pure _
    intro ns rest info ha hi hu
    exact extractable ⟨env,payl,hdr,chdr,ns,rest,info,he,hv,hhdr,hc,hx,ht,check_dups_ok hq,ha,hi,hu⟩
  split
  · have hconf : Safe (validateConfig S tIdx payl.data) := require_then fun _ => safe_require _
    exact safe_bind hconf fun _ _ => require_then fun _ => safe_pure _
  · exact safe_fail _

def sampleDecoders : Decoders where
  envelope b := some (if b = [] then ⟨none,none⟩ else ⟨some b,some [1]⟩)
  payload b := some (if b = [] then ⟨none,none⟩ else ⟨some ⟨some b,some b⟩,some b⟩)
  channelHeader _ := some ⟨endorserTransaction,[1],[1],0,some [1]⟩
  signatureHeader _ := some ⟨[1],[1]⟩
  headerExtension _ := some ⟨some ⟨[1],[1]⟩⟩
  transaction b := some (if b = [] then ⟨[]⟩ else ⟨[⟨some b,some b⟩]⟩)
  actionPayload b := some ⟨some b,if b = [0] then none else some ⟨some b,[]⟩⟩
  responsePayload _ := some ⟨[1],some [1]⟩
  action _ := some ⟨[1],none,some ⟨[1],[1]⟩⟩
  event _ := none
  rwset _ := some ⟨[]⟩

def sampleServices : Services where
  decode := sampleDecoders
  sha256 _ := [1]
  computeTxID _ _ := [1]
  creatorSigned _ _ _ _ := true
  chainExists _ := true
  getTransactionByID _ := .notFoundInIndex
  validationInfo _ _ := .ok ([1],[1])
  pluginUsable _ _ := true
  evaluate _ _ _ _ _ _ := .ok ()
  configEnvelope _ := true
  applyConfig _ := true
  marshals _ := true
  order names := names

theorem sample_endorsed : sampleServices.Endorsed [2] := by
  intro env payl hdrs hdr data tx act sHdr cap he hp _ _ _ _ hdata _ htx hact _ _ hc
  cases he
  cases hp
  cases hdata
  cases htx
  cases hact
  cases hc
  rfl

theorem sample_formed (b : Bytes) (hb : b = [1] ∨ b = [2]) : sampleServices.Formed b := by
  intro en payl tx he hp htx
  rcases hb with rfl | rfl
  all_goals
    cases he
    cases hp
    cases htx
    refine ⟨_,rfl,fun ca hc => ?_⟩
    cases hc
    rfl

theorem sample_extractable :
    sampleServices.Extractable ⟨0,0⟩ (fun _ => false) ⟨1,[[1],[2]]⟩ 1 := by
  intro i hi
  refine ⟨Nat.lt_succ_of_le hi,fun _ b hb => sample_formed b ?_⟩
  rcases Nat.le_one_iff_eq_zero_or_eq_one.mp hi with rfl | rfl
  · exact .inl (Option.some.inj hb).symm
  · exact .inr (Option.some.inj hb).symm

end PluggableHcs.Txvalidator
