import PluggableHcs.Configtx.Rebuild

namespace PluggableHcs.Configtx

structure Config where
  sequence : UInt64
  channelGroup : Option ConfigGroup

structure ConfigUpdate where
  channelId : Chars
  readSet : Option ConfigGroup
  writeSet : Option ConfigGroup

def Config.Formed (c : Config) : Prop := ∀ g ∈ c.channelGroup, g.Formed

structure ConfigUpdate.Formed (u : ConfigUpdate) : Prop where
  readSet : ∀ g ∈ u.readSet, g.Formed
  writeSet : ∀ g ∈ u.writeSet, g.Formed

structure ConfigSignature where
  signatureHeader : Bytes
  signature : Bytes
deriving DecidableEq

structure ConfigUpdateEnvelope where
  configUpdate : Bytes
  signatures : List ConfigSignature
deriving DecidableEq

structure ConfigEnvelope where
  config : Config
  lastUpdate : Bytes

structure SignedData where
  data : Bytes
  identity : Bytes
  signature : Bytes
deriving DecidableEq

/-- Reading protobuf messages. What is read has Go maps, with no key twice. -/
structure Decoders where
  envelopeToConfigUpdate : Bytes → Option ConfigUpdateEnvelope
  unmarshalConfigUpdate : Bytes → Option ConfigUpdate
  /-- The creator that a signature header names. -/
  unmarshalSignatureHeader : Bytes → Option Bytes
  formed : ∀ {data u}, unmarshalConfigUpdate data = some u → u.Formed

/-- The managers below a policy manager, and its policies by their names. A policy accepts signed
data or does not. -/
structure PolicyManagers (μ : Type) where
  manager : μ → List Chars → Option μ
  getPolicy : μ → Chars → Option (List SignedData → Bool)

/-- The source calls the root's name its namespace. -/
structure Validator (μ : Type) where
  channelID : Chars
  sequence : UInt64
  configMap : ConfigMap
  configProto : Config
  rootGroupKey : Chars
  pm : μ

inductive ReadSetError
  | notContained (key : Chars)
  | version (key : Chars) (required current : UInt64)

def verifyReadSet (configMap readSet : ConfigMap) : Except ReadSetError Unit :=
  readSet.entries.forM fun e =>
    match configMap.lookup e.1 with
    | none => .error (.notContained e.1)
    | some existing =>
      if existing.version ≠ e.2.version then .error (.version e.1 e.2.version existing.version)
      else .ok ()

/-- Skips what is in the read set at the same version. -/
def computeDeltaSet (readSet writeSet : ConfigMap) : ConfigMap :=
  Maps.without (fun key value =>
    match readSet.lookup key with
    | none => false
    | some readVal => readVal.version == value.version) writeSet

inductive ModPolicyError
  | notSet
  | pathElement (i : Nat) (err : ConfigIDError)
deriving DecidableEq

def validatePath : Nat → List Chars → Except ModPolicyError Unit
  | _,[] => .ok ()
  | i,pathElement :: rest =>
    match validateConfigID pathElement with
    | .error err => .error (.pathElement i err)
    | .ok _ => validatePath (i + 1) rest

def validateModPolicy : Chars → Except ModPolicyError Unit
  | [] => .error .notSet
  | '/' :: trimmed => validatePath 0 (trimmed.splitOn '/')
  | modPolicy => validatePath 0 (modPolicy.splitOn '/')

inductive DeltaSetError
  | empty
  | modPolicy (key : Chars) (err : ModPolicyError)
  | noSuchKey (key : Chars) (version : UInt64)
  | version (key : Chars) (version current : UInt64)
  | missingPolicy (modPolicy key : Chars)
  | notSatisfied (key : Chars)

inductive UpdateError
  | nilEnvelope
  | unmarshal
  | channel (update envelope : Chars)
  | mapReadSet (err : MapError)
  | readSet (err : ReadSetError)
  | mapWriteSet (err : MapError)
  | signedData
  | deltaSet (err : DeltaSetError)
  | fullConfig (key : Chars)

def configUpdateEnvelopeAsSignedData (d : Decoders) (ce : ConfigUpdateEnvelope) :
    Option (List SignedData) :=
  ce.signatures.mapM fun configSig =>
    (d.unmarshalSignatureHeader configSig.signatureHeader).map fun creator =>
      ⟨configSig.signatureHeader ++ ce.configUpdate,creator,configSig.signature⟩

def verifyFullProposedConfig (writeSet fullProposedConfig : ConfigMap) : Except Chars Unit :=
  writeSet.entries.forM fun e =>
    if (fullProposedConfig.lookup e.1).isSome then .ok () else .error e.1

variable {μ : Type} (d : Decoders) (p : PolicyManagers μ)

variable (vi : Validator μ)

/-- A relative mod_policy is looked up from the manager of the group that the item is in; a
group is itself that group. -/
def Validator.policyForItem (item : Comparable) : Option (List SignedData → Bool) :=
  if item.modPolicy.head? ≠ none ∧ item.modPolicy.head? ≠ some '/' ∧ item.path ≠ [] then
    match p.manager vi.pm (item.path.drop 1) with
    | none => none
    | some manager =>
      match item.content with
      | .group _ =>
        match p.manager manager [item.key] with
        | none => none
        | some manager => p.getPolicy manager item.modPolicy
      | _ => p.getPolicy manager item.modPolicy
  else p.getPolicy vi.pm item.modPolicy

def Validator.verifyDelta (signedData : List SignedData) (key : Chars)
    (value : Comparable) : Except DeltaSetError Unit :=
  match validateModPolicy value.modPolicy with
  | .error err => .error (.modPolicy key err)
  | .ok _ =>
    match vi.configMap.lookup key with
    | none => if value.version ≠ 0 then .error (.noSuchKey key value.version) else .ok ()
    | some existing =>
      if value.version ≠ existing.version + 1 then
        .error (.version key value.version existing.version)
      else
        match vi.policyForItem p existing with
        | none => .error (.missingPolicy existing.modPolicy key)
        | some policy => if policy signedData then .ok () else .error (.notSatisfied key)

def Validator.verifyDeltaSet (deltaSet : ConfigMap)
    (signedData : List SignedData) : Except DeltaSetError Unit :=
  if deltaSet.entries = [] then .error .empty
  else deltaSet.entries.forM fun e => vi.verifyDelta p signedData e.1 e.2

def Validator.computeUpdateResult (updatedConfig : ConfigMap) : ConfigMap :=
  updatedConfig ∪ vi.configMap

def Validator.authorizeUpdate (configUpdateEnv : Option ConfigUpdateEnvelope) :
    Except UpdateError ConfigMap :=
  match configUpdateEnv with
  | none => .error .nilEnvelope
  | some configUpdateEnv =>
    match d.unmarshalConfigUpdate configUpdateEnv.configUpdate with
    | none => .error .unmarshal
    | some configUpdate =>
      if configUpdate.channelId ≠ vi.channelID then
        .error (.channel configUpdate.channelId vi.channelID)
      else do
        let readSet ← (mapConfig configUpdate.readSet vi.rootGroupKey).mapError .mapReadSet
        (verifyReadSet vi.configMap readSet).mapError .readSet
        let writeSet ← (mapConfig configUpdate.writeSet vi.rootGroupKey).mapError .mapWriteSet
        let deltaSet := computeDeltaSet readSet writeSet
        match configUpdateEnvelopeAsSignedData d configUpdateEnv with
        | none => .error .signedData
        | some signedData =>
          (vi.verifyDeltaSet p deltaSet signedData).mapError .deltaSet
          let fullProposedConfig := vi.computeUpdateResult deltaSet
          (verifyFullProposedConfig writeSet fullProposedConfig).mapError .fullConfig
          .ok fullProposedConfig

def channelAllowedStart (c : Char) : Bool := c.isLower

def channelAllowedChar (c : Char) : Bool := c.isLower || c.isDigit || c == '.' || c == '-'

inductive ChannelIDError
  | empty
  | tooLong
  | illegalCharacters (channelID : Chars)

/-- What the expression finds is the first lower-case letter and the run of allowed characters
after it. -/
def findChannel (s : Chars) : Chars :=
  match s.dropWhile fun c => !channelAllowedStart c with
  | [] => []
  | c :: cs => c :: cs.takeWhile channelAllowedChar

def validateChannelID (channelID : Chars) : Except ChannelIDError Unit :=
  if byteLength channelID = 0 then .error .empty
  else if maxLength < byteLength channelID then .error .tooLong
  else if byteLength (findChannel channelID) ≠ byteLength channelID then
    .error (.illegalCharacters channelID)
  else .ok ()

inductive NewValidatorError
  | nilConfig
  | nilChannelGroup
  | channelID (err : ChannelIDError)
  | mapConfig (err : MapError)

def newValidatorImpl (channelID : Chars) (config : Option Config) (rootGroupKey : Chars) (pm : μ) :
    Except NewValidatorError (Validator μ) :=
  match config with
  | none => .error .nilConfig
  | some config =>
    if config.channelGroup.isNone then .error .nilChannelGroup
    else do
      (validateChannelID channelID).mapError .channelID
      let configMap ← (mapConfig config.channelGroup rootGroupKey).mapError .mapConfig
      .ok ⟨channelID,config.sequence,configMap,config,rootGroupKey,pm⟩

inductive ProposeError
  | envelope
  | authorize (err : UpdateError)
  | rebuild (err : RebuildError)

def Validator.proposeConfigUpdate (configtx : Bytes) : Except ProposeError ConfigEnvelope :=
  match d.envelopeToConfigUpdate configtx with
  | none => .error .envelope
  | some configUpdateEnv => do
    let configMap ← (vi.authorizeUpdate d p (some configUpdateEnv)).mapError .authorize
    let channelGroup ← (configMapToConfig configMap vi.rootGroupKey).mapError .rebuild
    .ok ⟨⟨vi.sequence + 1,some channelGroup⟩,configtx⟩

end PluggableHcs.Configtx
