import Mathlib.Data.List.AList
import PluggableHcs.Lib.Text
import PluggableHcs.Hcs.Messages

namespace PluggableHcs.Hcs

/-- Run-time panics of the Go code that the model can meet. -/
inductive GoPanic
  | nilDereference
  | indexOutOfRange
  | makeSliceLenOutOfRange
deriving DecidableEq

abbrev HolderKey := List Char

/-- The text is hex(appID):<seconds>s<nanos>. Reading a field of an absent sub-message is a
nil dereference. -/
def makeHolderKey : Option ApplicationMessageID → Except GoPanic HolderKey
  | some ⟨some validStart,_,some metadata⟩ =>
    .ok (Text.hex metadata.value ++ ':' ::
      (Text.decimal validStart.seconds ++ 's' :: Text.decimal validStart.nanos))
  | _ => .error .nilDereference

theorem make_holder_key_injective (ha : makeHolderKey (some ⟨some s,acc,some a⟩) = .ok k)
    (hb : makeHolderKey (some ⟨some t,acc',some b⟩) = .ok k) : a.value = b.value ∧ s = t := by
  have hs (n : Int) : 's' ∉ Text.decimal n := by
    intro h
    rcases Text.decimal_digits h with h | h <;> revert h <;> decide
  have hc (n : Int) : ':' ∉ Text.decimal n := by
    intro h
    rcases Text.decimal_digits h with h | h <;> revert h <;> decide
  have hh (l : Bytes) : ':' ∉ Text.hex l := by
    intro h
    obtain ⟨n,hn,he⟩ := Text.hex_digits h
    interval_cases n <;> revert he <;> decide
  have he := (Except.ok.inj ha).trans (Except.ok.inj hb).symm
  obtain ⟨hv,_,ht⟩ := (List.append_cons_inj_of_notMem (hh _)
    (by simp [List.mem_append,hc])).mp he
  obtain ⟨hse,_,hna⟩ := (List.append_cons_inj_of_notMem (hs _) (hs _)).mp ht
  refine ⟨Text.hex_injective hv,?_⟩
  cases s; cases t
  simp only [Timestamp.mk.injEq]
  exact ⟨Text.decimal_injective hse,Text.decimal_injective hna⟩

structure ChunkHolder where
  chunks : List (Option ApplicationMessageChunk)
  appID : Bytes
  key : HolderKey
  received : Nat
  size : Nat
  timestamp : Time
  /-- whether the holder has an element in the list by age -/
  el : Bool
deriving DecidableEq

def newChunkHolder (total : Int) (key : HolderKey) (appID : Bytes) : ChunkHolder :=
  ⟨List.replicate total.toNat none,appID,key,0,0,zeroTime,false⟩

/-- The library's instance does not evaluate. -/
instance : DecidableEq (AList (fun _ : HolderKey => ChunkHolder)) := fun a b =>
  decidable_of_iff (a.entries = b.entries) AList.ext_iff.symm

/-- The receiving half of the processor. A holder leaves the map and the list together, so its key
stands for the pointer. The map from application ids to key sets is the list of its pairs. -/
structure Reassembler where
  reassembleTimeout : Int
  holders : AList (fun _ : HolderKey => ChunkHolder)
  holdersByAppID : List (List Char × HolderKey)
  holderListByAge : List HolderKey
deriving DecidableEq

structure Splitter where
  accountID : AccountID
  appID : Bytes
  chunkSize : Int
deriving DecidableEq

def newReassembler (reassembleTimeout : Int) : Reassembler := ⟨reassembleTimeout,∅,[],[]⟩

inductive SplitError
  | emptyMessage
  | sign
  | panic (p : GoPanic)
deriving DecidableEq

def toInt32 (n : Int) : Int := n.bmod (2 ^ 32)
def toInt64 (n : Int) : Int := n.bmod (2 ^ 64)

def chunkCount (dataLen : Nat) (chunkSize : Int) : Int :=
  (toInt64 (dataLen + chunkSize - 1)).tdiv chunkSize

def Splitter.messageID (p : Splitter) (validStart : Time) : ApplicationMessageID :=
  ⟨some validStart.timestampProto,some p.accountID,some ⟨p.appID⟩⟩

def Splitter.wrap (x : Externals) (p : Splitter) (publicKey signature message : Bytes)
    (validStart : Time) : ApplicationMessage :=
  { applicationMessageId := some (p.messageID validStart)
    businessProcessMessage := message
    unencryptedBusinessProcessMessageHash := x.sha256 message
    businessProcessSignatureOnHash := x.marshalApplicationSignature ⟨publicKey,signature⟩
    encryptionRandom := [] }

def Splitter.split (x : Externals) (p : Splitter) (sign : Bytes → Option (Bytes × Bytes))
    (message : Bytes) (validStart : Time) :
    Except SplitError (List ApplicationMessageChunk × Bytes) :=
  if message = [] then .error .emptyMessage
  else
    let msgHash := x.sha256 message
    match sign msgHash with
    | none => .error .sign
    | some (publicKey,signature) =>
      let data := x.marshalApplicationMessage (p.wrap x publicKey signature message validStart)
      let count := chunkCount data.length p.chunkSize
      if count < 0 then .error (.panic .makeSliceLenOutOfRange)
      else
        let size := p.chunkSize.toNat
        .ok ((List.range count.toNat).map (fun (i : Nat) =>
          { applicationMessageId := some (p.messageID validStart)
            chunksCount := toInt32 count
            chunkIndex := toInt32 i
            messageChunk := (data.drop (i * size)).take size }),msgHash)

inductive ReassembleError
  | invalidChunksCount (chunksCount : Int)
  | invalidChunkIndex (chunkIndex chunksCount : Int)
  | duplicateChunk (index : Int)
  | incorrectChunksCount (chunksCount : Int)
  | unmarshal
  | encrypted
  | hashMismatch
  | unmarshalSignature
  | verify
deriving DecidableEq

structure Reassembled where
  message : Bytes
  hash : Bytes
  expiredMessages : Nat
  expiredChunks : Nat
  err : Option ReassembleError
deriving DecidableEq

def Reassembler.isPending (r : Reassembler) : Bool := decide (r.holders.entries.length ≠ 0)

def Reassembler.removeHolder (r : Reassembler) (holder : ChunkHolder)
    (removeFromAppHolders : Bool) : Reassembler :=
  { r with
    holders := r.holders.erase holder.key
    holderListByAge :=
      if holder.el then r.holderListByAge.erase holder.key else r.holderListByAge
    holdersByAppID :=
      if removeFromAppHolders then r.holdersByAppID.erase (Text.hex holder.appID,holder.key)
      else r.holdersByAppID }

/-- The loop of expireByTimestamp, oldest first, with the counts of expired messages and chunks, up
to the first holder that is young enough. -/
def expireLoop (now : Time) : List HolderKey → Reassembler → Reassembler × Nat × Nat
  | [],r => (r,0,0)
  | key :: rest,r =>
    match r.holders.lookup key with
    | none => (r,0,0)
    | some holder =>
      if now.sub holder.timestamp ≥ r.reassembleTimeout then
        let (r,messages,chunks) := expireLoop now rest (r.removeHolder holder true)
        (r,messages + 1,chunks + holder.received)
      else (r,0,0)

def Reassembler.expireByTimestamp (r : Reassembler) (now : Time) : Reassembler × Nat × Nat :=
  expireLoop now r.holderListByAge r

/-- The range loop of ExpireByAppID; the order in which Go visits the keys does not matter. -/
def expireKeys : List HolderKey → Reassembler → Reassembler × Nat × Nat
  | [],r => (r,0,0)
  | key :: rest,r =>
    match r.holders.lookup key with
    | none => expireKeys rest r
    | some holder =>
      let (r,messages,chunks) := expireKeys rest (r.removeHolder holder false)
      (r,messages + 1,chunks + holder.received)

section
variable (r : Reassembler)

def Reassembler.appHolders (appID : Bytes) : List HolderKey :=
  (r.holdersByAppID.filter (fun pair => pair.1 = Text.hex appID)).map Prod.snd

/-- An empty application id is an error and leaves everything as it is. -/
def Reassembler.expireByAppID (appID : Bytes) : Option (Reassembler × Nat × Nat) :=
  if appID = [] then none
  else some (expireKeys (r.appHolders appID) { r with
    holdersByAppID := r.holdersByAppID.filter (fun pair => pair.1 ≠ Text.hex appID) })

def assemble : List (Option ApplicationMessageChunk) → Except GoPanic Bytes
  | [] => .ok []
  | none :: _ => .error .nilDereference
  | some chunk :: rest =>
    match assemble rest with
    | .ok bytes => .ok (chunk.messageChunk ++ bytes)
    | .error p => .error p

def openMessage (x : Externals) (verify : Bytes → Bytes → Bytes → Bool) (protoMsg : Bytes) :
    Except ReassembleError (Bytes × Bytes) :=
  match x.unmarshalApplicationMessage protoMsg with
  | none => .error .unmarshal
  | some appMsg =>
    if appMsg.encryptionRandom ≠ [] then .error .encrypted
    else if x.sha256 appMsg.businessProcessMessage ≠
        appMsg.unencryptedBusinessProcessMessageHash then .error .hashMismatch
    else
      match x.unmarshalApplicationSignature appMsg.businessProcessSignatureOnHash with
      | none => .error .unmarshalSignature
      | some appSig =>
        if verify appMsg.unencryptedBusinessProcessMessageHash appSig.publicKey
            appSig.signature then
          .ok (appMsg.businessProcessMessage,appMsg.unencryptedBusinessProcessMessageHash)
        else .error .verify

def Reassembler.finish (now : Time)
    (opened : Except ReassembleError (Bytes × Bytes)) : Reassembler × Reassembled :=
  let (r,messages,chunks) := r.expireByTimestamp now
  match opened with
  | .ok (message,hash) => (r,⟨message,hash,messages,chunks,none⟩)
  | .error e => (r,⟨[],[],messages,chunks,some e⟩)

def failed (e : ReassembleError) : Reassembled := ⟨[],[],0,0,some e⟩

def Reassembler.holderFor (key : HolderKey) (chunksCount : Int)
    (appID : Bytes) : Reassembler × ChunkHolder :=
  match r.holders.lookup key with
  | some holder => (r,holder)
  | none =>
    let holder := newChunkHolder chunksCount key appID
    ({ r with
        holders := r.holders.insert key holder
        holdersByAppID := r.holdersByAppID.insert (Text.hex appID,key) },holder)

def ApplicationMessageChunk.appID (chunk : ApplicationMessageChunk) : Bytes :=
  match chunk.applicationMessageId with
  | some ⟨_,_,some metadata⟩ => metadata.value
  | _ => []

def ChunkHolder.add (holder : ChunkHolder) (chunk : ApplicationMessageChunk)
    (timestamp : Time) : ChunkHolder :=
  { holder with
    chunks := holder.chunks.set chunk.chunkIndex.toNat (some chunk)
    received := holder.received + 1
    size := (holder.size + chunk.messageChunk.length) % 2 ^ 32
    timestamp := timestamp }

/-- An incomplete holder becomes the youngest of the list by age. -/
def Reassembler.keep (holder : ChunkHolder) : Reassembler :=
  { r with
    holders := r.holders.insert holder.key { holder with el := true }
    holderListByAge :=
      (if holder.el then r.holderListByAge.erase holder.key else r.holderListByAge) ++
        [holder.key] }

end

def Reassembler.reassemble (x : Externals) (verify : Bytes → Bytes → Bytes → Bool)
    (r : Reassembler) (chunk : ApplicationMessageChunk) (timestamp : Time) :
    Except GoPanic (Reassembler × Reassembled) :=
  if chunk.chunksCount < 1 then .ok (r,failed (.invalidChunksCount chunk.chunksCount))
  else if chunk.chunkIndex < 0 ∨ chunk.chunkIndex ≥ chunk.chunksCount then
    .ok (r,failed (.invalidChunkIndex chunk.chunkIndex chunk.chunksCount))
  else if chunk.chunksCount = 1 then
    .ok (r.finish timestamp (openMessage x verify chunk.messageChunk))
  else
    match makeHolderKey chunk.applicationMessageId with
    | .error p => .error p
    | .ok key =>
      let (r,holder) := r.holderFor key chunk.chunksCount chunk.appID
      match holder.chunks[chunk.chunkIndex.toNat]? with
      | none => .error .indexOutOfRange
      | some (some _) => .ok (r,failed (.duplicateChunk chunk.chunkIndex))
      | some none =>
        if chunk.chunksCount ≠ holder.chunks.length then
          .ok (r,failed (.incorrectChunksCount chunk.chunksCount))
        else
          let holder := holder.add chunk timestamp
          if holder.received ≠ holder.chunks.length then
            .ok ((r.keep holder).finish timestamp (.ok ([],[])))
          else
            match assemble holder.chunks with
            | .error p => .error p
            | .ok reassembled =>
              .ok ((r.removeHolder holder true).finish timestamp
                (openMessage x verify reassembled))

end PluggableHcs.Hcs
