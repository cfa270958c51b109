import PluggableHcs.Hcs.AppMsgProcessor
import PluggableHcs.Hcs.BlockCutter

namespace PluggableHcs.Hcs

structure Block where
  envelopes : List Envelope
  isConfig : Bool
  metadata : HcsMetadata
deriving DecidableEq

/-- The channel's ledger: some blocks without HCS metadata, then the blocks of this consenter. -/
structure Ledger where
  base : Nat
  blocks : List Block
deriving DecidableEq

def Ledger.height (l : Ledger) : Nat := l.base + l.blocks.length

inductive TimeToCutRequest
  | start (nextBlockNumber : Nat)
  | stop
  | sent (messageHash : Bytes)
deriving DecidableEq

/-- The state of chainImpl that message processing uses, with the configuration, the block cutter
and the ledger. Counters are uint64 in the source. The gate doneReprocessingMsgInFlight is the
number of its current channel. -/
structure Chain where
  operatorPublicKeyBytes : Bytes
  publicKeys : List Bytes
  lastConsensusTimestampPersisted : Time
  lastConsensusTimestamp : Time
  lastOrdereredConsensusTimestamp : Time
  lastOriginalSequenceProcessed : Nat
  lastResubmittedConfigSequence : Nat
  lastChunkFreeConsensusTimestamp : Time
  lastChunkFreeSequenceProcessed : Nat
  lastSequenceProcessed : Nat
  lastCutBlockNumber : Nat
  doneReprocessingMsgInFlight : Nat
  closedChannels : List Nat
  messageHashes : List Bytes
  appMsgProcessor : Reassembler
  recollectPendingChunks : Bool
  blockCutter : Receiver
  config : ChannelConfig
  ledger : Ledger
  timeToCutRequests : List TimeToCutRequest
deriving DecidableEq

/-- The defaults are for a ledger without HCS metadata. -/
def getStateFromMetadata : Option HcsMetadata → HcsMetadata
  | some metadata => metadata
  | none => ⟨unixEpoch,0,0,unixEpoch,0⟩

/-- The loop of getPublicKeys. None is returned for a key type other than ed25519 or a key that does
not parse. -/
def addPublicKeys (x : Externals) : List HcsConfigPublicKey → List Bytes → Option (List Bytes)
  | [],publicKeys => some publicKeys
  | publicKeyIn :: rest,publicKeys =>
    if publicKeyIn.type ≠ "ed25519".toList then none
    else
      match x.publicKeyFromString publicKeyIn.key with
      | none => none
      | some publicKey => addPublicKeys x rest (publicKeys.insert publicKey)

def getPublicKeys (x : Externals) (publicKeysIn : List HcsConfigPublicKey) (extra : Bytes) :
    Option (List Bytes) :=
  addPublicKeys x publicKeysIn [extra]

inductive ParseConfigError
  | consensusMetadata
  | topicID
  | publicKeys
  | reassembleTimeout
deriving DecidableEq

def parseConfig (x : Externals) (configMetadata : Bytes) (operatorPublicKey : Bytes) :
    Except ParseConfigError (TopicID × List Bytes × Int) :=
  match x.unmarshalHcsConfigMetadata configMetadata with
  | none => .error .consensusMetadata
  | some metadata =>
    match x.topicIDFromString metadata.topicId with
    | none => .error .topicID
    | some topicID =>
      match getPublicKeys x metadata.publicKeys operatorPublicKey with
      | none => .error .publicKeys
      | some publicKeys =>
        match x.parseDuration metadata.reassembleTimeout with
        | none => .error .reassembleTimeout
        | some timeout =>
          if timeout = 0 then .error .reassembleTimeout else .ok (topicID,publicKeys,timeout)

/-- The state that newChain builds from a ledger, up to the start of the message loop. -/
def initialChain (operatorPublicKey : Bytes) (publicKeys : List Bytes) (reassembleTimeout : Int)
    (config : ChannelConfig) (ledger : Ledger) : Chain :=
  let state := getStateFromMetadata (ledger.blocks.getLast?.map Block.metadata)
  { operatorPublicKeyBytes := operatorPublicKey
    publicKeys := publicKeys
    lastConsensusTimestampPersisted := state.lastConsensusTimestampPersisted
    lastConsensusTimestamp := state.lastChunkFreeConsensusTimestampPersisted
    lastOrdereredConsensusTimestamp := zeroTime
    lastOriginalSequenceProcessed := state.lastOriginalSequenceProcessed
    lastResubmittedConfigSequence := state.lastResubmittedConfigSequence
    lastChunkFreeConsensusTimestamp := state.lastChunkFreeConsensusTimestampPersisted
    lastChunkFreeSequenceProcessed := state.lastChunkFreeSequenceProcessed
    lastSequenceProcessed := state.lastChunkFreeSequenceProcessed
    lastCutBlockNumber := ledger.height - 1
    doneReprocessingMsgInFlight := 0
    closedChannels :=
      if state.lastConsensusTimestampPersisted = state.lastChunkFreeConsensusTimestampPersisted ∧
        (state.lastResubmittedConfigSequence = 0 ∨
          state.lastResubmittedConfigSequence ≤ state.lastOriginalSequenceProcessed)
      then [0] else []
    messageHashes := []
    appMsgProcessor := newReassembler reassembleTimeout
    recollectPendingChunks := decide (state.lastConsensusTimestampPersisted ≠
      state.lastChunkFreeConsensusTimestampPersisted)
    blockCutter := newReceiverImpl
    config := config
    ledger := ledger
    timeToCutRequests := [] }

def newChain (x : Externals) (operatorPublicKey : Bytes) (config : ChannelConfig)
    (ledger : Ledger) : Except ParseConfigError Chain :=
  match parseConfig x config.consensusMetadata operatorPublicKey with
  | .error e => .error e
  | .ok (_,publicKeys,reassembleTimeout) =>
    .ok (initialChain operatorPublicKey publicKeys reassembleTimeout config ledger)

section
variable (c : Chain)

def Chain.startable : Bool :=
  !c.lastChunkFreeConsensusTimestamp.after c.lastConsensusTimestampPersisted

section
variable (x : Externals)

def verify (publicKeys : List Bytes) (message signerPublicKey signature : Bytes) : Bool :=
  if message = [] ∨ signerPublicKey = [] ∨ signature = [] then false
  else if signerPublicKey ∉ publicKeys then false
  else x.ed25519Verify signerPublicKey message signature

/-- The ways in which message processing ends for good. The last one is an error that
processMessages returns, the others are panics. -/
inductive Abort
  | sequenceNumber
  | consensusTimestamp
  | reassemble (p : GoPanic)
  | closeOfClosedChannel
  | configBlock
  | consensusMetadata
  | publicKeys
  | recollectedPast
  | timeToCut (text : String)
deriving DecidableEq

def Chain.reprocessComplete : Except Abort Chain :=
  if c.doneReprocessingMsgInFlight ∈ c.closedChannels then .error .closeOfClosedChannel
  else .ok { c with closedChannels := c.doneReprocessingMsgInFlight :: c.closedChannels }

def Chain.reprocessPending : Chain :=
  { c with doneReprocessingMsgInFlight := c.doneReprocessingMsgInFlight + 1 }

def Chain.newHcsMetadata (consensusTimestamp : Time) : HcsMetadata :=
  ⟨consensusTimestamp,c.lastOriginalSequenceProcessed,c.lastResubmittedConfigSequence,
    c.lastChunkFreeConsensusTimestamp,c.lastChunkFreeSequenceProcessed⟩

/-- The configuration that a config block brings is applied by commitConfigMessage. -/
def Chain.writeBlock (envelopes : List Envelope) (isConfig : Bool)
    (consensusTimestamp : Time) : Chain :=
  { c with
    messageHashes := if isConfig then c.messageHashes else []
    timeToCutRequests := c.timeToCutRequests ++ [.stop]
    lastCutBlockNumber := c.lastCutBlockNumber + 1
    ledger := { c.ledger with
      blocks := c.ledger.blocks ++ [⟨envelopes,isConfig,c.newHcsMetadata consensusTimestamp⟩] } }

def Chain.requestTimeToCut (messageHash : Bytes) : Chain :=
  { c with
    timeToCutRequests := c.timeToCutRequests ++ [.start (c.lastCutBlockNumber + 1)]
    messageHashes := c.messageHashes.insert messageHash }

def Chain.ordered (consensusTimestamp : Time) (originalSequence : Nat) : Chain :=
  { c with
    lastOriginalSequenceProcessed := originalSequence
    lastOrdereredConsensusTimestamp := consensusTimestamp }

def Chain.commitNormalMessage (message : Envelope) (curConsensusTimestamp : Time)
    (newOriginalSequenceProcessed : Nat) (messageHash : Bytes) : Chain :=
  let result := c.blockCutter.ordered c.config.batchSize message
  let c := { c with blockCutter := result.receiver }
  let c :=
    match result.messageBatches with
    | [] => c.ordered curConsensusTimestamp newOriginalSequenceProcessed
    | first :: more =>
      let c := if result.pending ∨ more.length = 1 then c
        else c.ordered curConsensusTimestamp newOriginalSequenceProcessed
      let c := c.writeBlock first false c.lastOrdereredConsensusTimestamp
      match more with
      | [second] =>
        let c := c.ordered curConsensusTimestamp newOriginalSequenceProcessed
        c.writeBlock second false c.lastOrdereredConsensusTimestamp
      | _ => c
  if result.pending then c.requestTimeToCut messageHash else c

def Chain.writeConfigBlocks (message : Envelope) (curConsensusTimestamp : Time)
    (newOriginalSequenceProcessed : Nat) : Chain :=
  let (batch,receiver) := c.blockCutter.cut
  let c := { c with blockCutter := receiver }
  let c := if batch = [] then c
    else c.writeBlock batch false c.lastOrdereredConsensusTimestamp
  let c := { c with lastOriginalSequenceProcessed := newOriginalSequenceProcessed }
  c.writeBlock [message] true curConsensusTimestamp

/-- Writing the config block applies the configuration in its envelope. -/
def Chain.commitConfigMessage (c : Chain) (message : Envelope)
    (curConsensusTimestamp : Time) (newOriginalSequenceProcessed : Nat) : Except Abort Chain :=
  match x.applyConfig c.config message with
  | none => .error .configBlock
  | some config => .ok
    { c.writeConfigBlocks message curConsensusTimestamp newOriginalSequenceProcessed with
      config := config }

/-- What this orderer's own calls gave for a message: the config sequence if it is still valid, the
rewritten envelope of a config update, and the hash of a message whose chunks are all submitted. -/
structure LocalOutcome where
  processNormalMsg : Option Nat
  processConfigMsg : Option (Envelope × Nat)
  enqueue : Option Bytes
deriving DecidableEq

inductive RegularOutcome
  | badPayload
  | discarded
  | rejected
  | notEnqueued
  | resubmitted (msg : HcsMessageRegular)
  | committed (env : Envelope)
  | unsupported
deriving DecidableEq

section
variable (msg : HcsMessageRegular)

def Chain.newSeq : Nat :=
  if msg.originalSeq = 0 then c.lastOriginalSequenceProcessed else msg.originalSeq

def Chain.Consumed : Prop :=
  msg.originalSeq ≠ 0 ∧ msg.originalSeq ≤ c.lastOriginalSequenceProcessed
deriving Decidable

def Chain.Stale : Prop := msg.configSeq < c.config.sequence
deriving Decidable

def Chain.processNormal (own : LocalOutcome) (c : Chain)
    (msg : HcsMessageRegular) (env : Envelope) (timestamp : Time) (receivedSequence : Nat)
    (messageHash : Bytes) : Chain × RegularOutcome :=
  if c.Consumed msg then (c,.discarded)
  else if c.Stale msg then
    match own.processNormalMsg with
    | none => (c,.rejected)
    | some configSeq =>
      match own.enqueue with
      | none => (c,.notEnqueued)
      | some hash =>
        ({ c with timeToCutRequests := c.timeToCutRequests ++ [.sent hash] },
          .resubmitted ⟨x.marshalEnvelope env,configSeq,.normal,receivedSequence⟩)
  else (c.commitNormalMessage env timestamp (c.newSeq msg) messageHash,.committed env)

def Chain.noteResubmission : Except Abort Chain :=
  if msg.originalSeq = 0 then .ok c
  else
    let opened :=
      if msg.originalSeq = c.lastResubmittedConfigSequence ∧ msg.configSeq = c.config.sequence
      then c.reprocessComplete else .ok c
    match opened with
    | .error e => .error e
    | .ok c => .ok { c with
        lastResubmittedConfigSequence := max c.lastResubmittedConfigSequence msg.originalSeq }

end

def Chain.updatePublicKeys (c : Chain) : Except Abort Chain :=
  match x.unmarshalHcsConfigMetadata c.config.consensusMetadata with
  | none => .error .consensusMetadata
  | some metadata =>
    match getPublicKeys x metadata.publicKeys c.operatorPublicKeyBytes with
    | none => .error .publicKeys
    | some publicKeys => .ok { c with publicKeys := publicKeys }

def Chain.processConfig (own : LocalOutcome) (c : Chain)
    (msg : HcsMessageRegular) (env : Envelope) (timestamp : Time) (receivedSequence : Nat) :
    Except Abort (Chain × RegularOutcome) :=
  if c.Consumed msg then .ok (c,.discarded)
  else
    match c.noteResubmission msg with
    | .error e => .error e
    | .ok c =>
      if c.Stale msg then
        match own.processConfigMsg with
        | none => .ok (c,.rejected)
        | some (configEnv,configSeq) =>
          match own.enqueue with
          | none => .ok (c,.notEnqueued)
          | some _ =>
            .ok ({ c with lastResubmittedConfigSequence := receivedSequence }.reprocessPending,
              .resubmitted ⟨x.marshalEnvelope configEnv,configSeq,.config,receivedSequence⟩)
      else
        match c.commitConfigMessage x env timestamp (c.newSeq msg) with
        | .error e => .error e
        | .ok c =>
          match c.updatePublicKeys x with
          | .error e => .error e
          | .ok c => .ok (c,.committed env)

def Chain.processRegularMessage (own : LocalOutcome) (c : Chain)
    (msg : HcsMessageRegular) (timestamp : Time) (receivedSequence : Nat) (messageHash : Bytes) :
    Except Abort (Chain × RegularOutcome) :=
  match x.unmarshalEnvelope msg.payload with
  | none => .ok (c,.badPayload)
  | some env =>
    match msg.cls with
    | .normal => .ok (c.processNormal x own msg env timestamp receivedSequence messageHash)
    | .config => c.processConfig x own msg env timestamp receivedSequence
    | .other _ => .ok (c,.unsupported)

def Chain.createBlock : HcsMessageTimeToCut → Except Abort Bool
  | .blockNumber n =>
    if n = c.lastCutBlockNumber + 1 then .ok true
    else if n > c.lastCutBlockNumber + 1 then
      .error (.timeToCut (s!"discard larger time-to-cut message ({n}) than expected " ++
        s!"({c.lastCutBlockNumber + 1})"))
    else .ok false
  | .messageHash hash => .ok (decide (hash ∈ c.messageHashes))
  | .unset => .ok false

def Chain.processTimeToCutMessage (msg : HcsMessageTimeToCut) (timestamp : Time)
    (sequence : Nat) : Except Abort (Chain × Bool) :=
  match c.createBlock msg with
  | .error e => .error e
  | .ok false => .ok (c,false)
  | .ok true =>
    let (batch,receiver) := c.blockCutter.cut
    if batch.length = 0 then
      .error (.timeToCut "bug, got correct time-to-cut message, but no pending transactions")
    else
      let c := { c with blockCutter := receiver, lastOriginalSequenceProcessed := sequence }
      .ok (c.writeBlock batch false timestamp,true)

/-- An error of ExpireByAppID is only logged. -/
def Chain.processOrdererStartedMessage (ordererIdentity : Bytes) : Chain :=
  match c.appMsgProcessor.expireByAppID ordererIdentity with
  | none => c
  | some (r,_) => { c with appMsgProcessor := r }

inductive Received
  | undecodable
  | refused (err : ReassembleError)
  | incomplete
  | unreadable
  | message (msg : HcsMessage) (hash : Bytes)
deriving DecidableEq

def Reassembled.received (res : Reassembled) : Received :=
  match res.err with
  | some err => .refused err
  | none =>
    if res.message = [] then .incomplete
    else
      match x.unmarshalHcsMessage res.message with
      | none => .unreadable
      | some msg => .message msg res.hash

def Chain.arrived (resp : Response) : Chain :=
  { c with
    lastSequenceProcessed := c.lastSequenceProcessed + 1
    lastConsensusTimestamp := resp.consensusTimestamp }

def Chain.reassembled (r : Reassembler) : Chain :=
  let c := { c with appMsgProcessor := r }
  if r.isPending then c
  else { c with
    lastChunkFreeConsensusTimestamp := c.lastConsensusTimestamp
    lastChunkFreeSequenceProcessed := c.lastSequenceProcessed }

/-- The first half of the loop body: the order of the responses is checked and the chunk goes
to the reassembler. -/
def Chain.receive (c : Chain) (resp : Response) : Except Abort (Chain × Received) :=
  if resp.sequenceNumber ≠ c.lastSequenceProcessed + 1 then .error .sequenceNumber
  else if ¬ resp.consensusTimestamp.after c.lastConsensusTimestamp then
    .error .consensusTimestamp
  else
    let c := c.arrived resp
    match x.unmarshalChunk resp.contents with
    | none => .ok (c,.undecodable)
    | some chunk =>
      match c.appMsgProcessor.reassemble x (verify x c.publicKeys) chunk
          resp.consensusTimestamp with
      | .error p => .error (.reassemble p)
      | .ok (r,res) => .ok (c.reassembled r,res.received x)

end

inductive Outcome
  | received (r : Received)
  | recollected (finished : Bool)
  | regular (msg : HcsMessageRegular) (outcome : RegularOutcome)
  | timeToCut (msg : HcsMessageTimeToCut) (cut : Bool)
  | ordererStarted (ordererIdentity : Bytes)
  | unset
deriving DecidableEq

/-- While chunks are recollected a message only tells whether the end has been reached. -/
def Chain.recollect (timestamp : Time) : Except Abort (Chain × Outcome) :=
  if timestamp = c.lastConsensusTimestampPersisted then
    let c := { c with recollectPendingChunks := false }
    let opened :=
      if c.lastResubmittedConfigSequence = 0 ∨
          c.lastResubmittedConfigSequence ≤ c.lastOriginalSequenceProcessed
      then c.reprocessComplete else .ok c
    match opened with
    | .error e => .error e
    | .ok c => .ok (c,.recollected true)
  else if timestamp.after c.lastConsensusTimestampPersisted then .error .recollectedPast
  else .ok (c,.recollected false)

end

def Chain.handle (x : Externals) (own : LocalOutcome) (c : Chain) (timestamp : Time)
    (sequence : Nat) (msg : HcsMessage) (hash : Bytes) : Except Abort (Chain × Outcome) :=
  if c.recollectPendingChunks then c.recollect timestamp
  else
    match msg with
    | .regular msg =>
      match c.processRegularMessage x own msg timestamp sequence hash with
      | .error e => .error e
      | .ok (c,outcome) => .ok (c,.regular msg outcome)
    | .timeToCut msg =>
      match c.processTimeToCutMessage msg timestamp sequence with
      | .error e => .error e
      | .ok (c,cut) => .ok (c,.timeToCut msg cut)
    | .ordererStarted identity =>
      .ok (c.processOrdererStartedMessage identity,.ordererStarted identity)
    | .unset => .ok (c,.unset)

def Chain.processResponse (x : Externals) (own : LocalOutcome) (c : Chain) (resp : Response) :
    Except Abort (Chain × Outcome) :=
  match c.receive x resp with
  | .error e => .error e
  | .ok (c,.message msg hash) =>
    c.handle x own resp.consensusTimestamp resp.sequenceNumber msg hash
  | .ok (c,r) => .ok (c,.received r)

end PluggableHcs.Hcs
