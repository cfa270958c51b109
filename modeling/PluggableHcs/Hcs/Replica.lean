import PluggableHcs.Hcs.Chain

namespace PluggableHcs.Hcs

/-- A block as every orderer writes it: without the marker of resubmitted config messages,
which is each orderer's own. -/
structure SharedBlock where
  envelopes : List Envelope
  isConfig : Bool
  persisted : Time
  originalSequence : Nat
  chunkFree : Time
  chunkFreeSequence : Nat
deriving DecidableEq

/-- The state that the topic alone determines: a replica of the ordering service. -/
structure Replica where
  config : ChannelConfig
  blocks : List SharedBlock
  lastCutBlockNumber : Nat
  batch : Receiver
  messageHashes : List Bytes
  reassembler : Reassembler
  lastOriginalSequence : Nat
  lastOrdered : Time
  chunkFree : Time
  chunkFreeSequence : Nat
  lastTimestamp : Time
  lastSequence : Nat
  /-- where recollection ends, while chunks are recollected -/
  recollectUntil : Option Time
deriving DecidableEq

inductive Effect
  | received (r : Received)
  | recollected (finished : Bool)
  | ignored (msg : HcsMessageRegular)
  | discarded (msg : HcsMessageRegular)
  | stale (msg : HcsMessageRegular)
  | committed (msg : HcsMessageRegular) (env : Envelope)
  | timeToCut (msg : HcsMessageTimeToCut) (cut : Bool)
  | ordererStarted (ordererIdentity : Bytes)
  | unset
deriving DecidableEq

namespace Replica

section
variable (r : Replica)

def cutBlock (envelopes : List Envelope) (isConfig : Bool) (persisted : Time) : Replica :=
  { r with
    blocks := r.blocks ++ [⟨envelopes,isConfig,persisted,r.lastOriginalSequence,r.chunkFree,
      r.chunkFreeSequence⟩]
    lastCutBlockNumber := r.lastCutBlockNumber + 1
    messageHashes := if isConfig then r.messageHashes else [] }

def record (timestamp : Time) (originalSequence : Nat) : Replica :=
  { r with lastOriginalSequence := originalSequence, lastOrdered := timestamp }

def cutPending : Replica :=
  { r.cutBlock r.batch.pendingBatch false r.lastOrdered with batch := newReceiverImpl }

def commitNormal (env : Envelope) (timestamp : Time) (originalSequence : Nat)
    (hash : Bytes) : Replica :=
  if r.batch.Joins r.config.batchSize env then
    { r.record timestamp originalSequence with
      batch := r.batch.push env
      messageHashes := r.messageHashes.insert hash }
  else if r.batch.LeavesPending r.config.batchSize env then
    { r.cutPending with batch := newReceiverImpl.push env, messageHashes := [hash] }
  else if r.batch.CutsTwo r.config.batchSize env then
    (r.cutPending.record timestamp originalSequence).cutBlock [env] false timestamp
  else
    { (r.record timestamp originalSequence).cutBlock (r.batch.pendingBatch ++ [env]) false
        timestamp with batch := newReceiverImpl }

def listedKeys (x : Externals) (keys : List HcsConfigPublicKey) : Option (List Bytes) :=
  keys.mapM fun key => if key.type ≠ "ed25519".toList then none else x.publicKeyFromString key.key

def configKeys (x : Externals) (config : ChannelConfig) : Except Abort (List Bytes) :=
  match x.unmarshalHcsConfigMetadata config.consensusMetadata with
  | none => .error .consensusMetadata
  | some metadata =>
    match listedKeys x metadata.publicKeys with
    | none => .error .publicKeys
    | some keys => .ok keys

def commitConfig (x : Externals) (r : Replica) (env : Envelope) (timestamp : Time)
    (originalSequence : Nat) : Except Abort Replica :=
  match x.applyConfig r.config env with
  | none => .error .configBlock
  | some config =>
    match configKeys x config with
    | .error e => .error e
    | .ok _ =>
      let r := if r.batch.pendingBatch = [] then r else r.cutPending
      .ok { { r with lastOriginalSequence := originalSequence }.cutBlock [env] true timestamp with
        config := config }

def Consumed (msg : HcsMessageRegular) : Prop :=
  msg.originalSeq ≠ 0 ∧ msg.originalSeq ≤ r.lastOriginalSequence
deriving Decidable

def Stale (msg : HcsMessageRegular) : Prop := msg.configSeq < r.config.sequence
deriving Decidable

def originalOf (msg : HcsMessageRegular) : Nat :=
  if msg.originalSeq = 0 then r.lastOriginalSequence else msg.originalSeq

def regular (x : Externals) (r : Replica) (msg : HcsMessageRegular) (timestamp : Time)
    (hash : Bytes) : Except Abort (Replica × Effect) :=
  match x.unmarshalEnvelope msg.payload,msg.cls with
  | none,_ => .ok (r,.ignored msg)
  | some _,.other _ => .ok (r,.ignored msg)
  | some env,.normal =>
    if r.Consumed msg then .ok (r,.discarded msg)
    else if r.Stale msg then .ok (r,.stale msg)
    else .ok (r.commitNormal env timestamp (r.originalOf msg) hash,.committed msg env)
  | some env,.config =>
    if r.Consumed msg then .ok (r,.discarded msg)
    else if r.Stale msg then .ok (r,.stale msg)
    else
      match r.commitConfig x env timestamp (r.originalOf msg) with
      | .error e => .error e
      | .ok r => .ok (r,.committed msg env)

def createBlock : HcsMessageTimeToCut → Except Abort Bool
  | .blockNumber n =>
    if n = r.lastCutBlockNumber + 1 then .ok true
    else if n > r.lastCutBlockNumber + 1 then
      .error (.timeToCut (s!"discard larger time-to-cut message ({n}) than expected " ++
        s!"({r.lastCutBlockNumber + 1})"))
    else .ok false
  | .messageHash hash => .ok (decide (hash ∈ r.messageHashes))
  | .unset => .ok false

def timeToCut (msg : HcsMessageTimeToCut) (timestamp : Time) (sequence : Nat) :
    Except Abort (Replica × Effect) :=
  match r.createBlock msg with
  | .error e => .error e
  | .ok false => .ok (r,.timeToCut msg false)
  | .ok true =>
    if r.batch.pendingBatch = [] then
      .error (.timeToCut "bug, got correct time-to-cut message, but no pending transactions")
    else
      .ok ({ { r with lastOriginalSequence := sequence }.cutBlock r.batch.pendingBatch false
          timestamp with batch := newReceiverImpl },.timeToCut msg true)

def ordererStarted (identity : Bytes) : Replica :=
  match r.reassembler.expireByAppID identity with
  | none => r
  | some (reassembler,_) => { r with reassembler := reassembler }

def recollect (timestamp stop : Time) : Except Abort (Replica × Effect) :=
  if timestamp = stop then .ok ({ r with recollectUntil := none },.recollected true)
  else if timestamp.after stop then .error .recollectedPast
  else .ok (r,.recollected false)

def handle (x : Externals) (r : Replica) (timestamp : Time) (sequence : Nat) (msg : HcsMessage)
    (hash : Bytes) : Except Abort (Replica × Effect) :=
  match r.recollectUntil,msg with
  | some stop,_ => r.recollect timestamp stop
  | none,.regular msg => r.regular x msg timestamp hash
  | none,.timeToCut msg => r.timeToCut msg timestamp sequence
  | none,.ordererStarted identity => .ok (r.ordererStarted identity,.ordererStarted identity)
  | none,.unset => .ok (r,.unset)

def arrived (resp : Response) : Replica :=
  { r with lastSequence := r.lastSequence + 1, lastTimestamp := resp.consensusTimestamp }

def reassembled (reassembler : Reassembler) : Replica :=
  let r := { r with reassembler := reassembler }
  if reassembler.isPending then r
  else { r with chunkFree := r.lastTimestamp, chunkFreeSequence := r.lastSequence }

end

def receive (x : Externals) (accepts : ChannelConfig → Bytes → Bytes → Bytes → Bool)
    (r : Replica) (resp : Response) : Except Abort (Replica × Received) :=
  if resp.sequenceNumber ≠ r.lastSequence + 1 then .error .sequenceNumber
  else if ¬ resp.consensusTimestamp.after r.lastTimestamp then .error .consensusTimestamp
  else
    match x.unmarshalChunk resp.contents with
    | none => .ok (r.arrived resp,.undecodable)
    | some chunk =>
      match r.reassembler.reassemble x (accepts r.config) chunk resp.consensusTimestamp with
      | .error p => .error (.reassemble p)
      | .ok (reassembler,res) => .ok ((r.arrived resp).reassembled reassembler,res.received x)

def step (x : Externals) (accepts : ChannelConfig → Bytes → Bytes → Bytes → Bool)
    (r : Replica) (resp : Response) : Except Abort (Replica × Effect) :=
  match r.receive x accepts resp with
  | .error e => .error e
  | .ok (r,.message msg hash) =>
    r.handle x resp.consensusTimestamp resp.sequenceNumber msg hash
  | .ok (r,received) => .ok (r,.received received)

end Replica
end PluggableHcs.Hcs
