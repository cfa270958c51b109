import Mathlib.Data.List.Basic
import Mathlib.Tactic.NormNum

namespace PluggableHcs.Hcs

/-- A byte slice. A decoded proto3 bytes field is nil exactly when it is empty, so the two
are not told apart. -/
abbrev Bytes := List UInt8

instance : LawfulBEq Bytes := inferInstanceAs (LawfulBEq (List UInt8))

abbrev Chars := List Char

def minValidNanos : Int := -62135596800 * 1000000000
def maxValidNanos : Int := 253402300800 * 1000000000

/-- An instant within the range of a protobuf timestamp, the years 1 to 9999, in nanoseconds since
the unix epoch. -/
structure Time where
  nanos : Int
  lower : minValidNanos ≤ nanos
  upper : nanos < maxValidNanos
deriving DecidableEq

@[ext] theorem Time.ext {t u : Time} (h : t.nanos = u.nanos) : t = u := by
  cases t; cases u; simp_all

def unixEpoch : Time := ⟨0,by decide,by decide⟩

/-- The zero value of a Go time, the first instant of year 1. -/
def zeroTime : Time := ⟨minValidNanos,by decide,by decide⟩

def Time.after (t u : Time) : Bool := decide (u.nanos < t.nanos)

def maxDuration : Int := 2 ^ 63 - 1
def minDuration : Int := -2 ^ 63

/-- Go's Sub: the difference saturates at the bounds of a 64-bit duration. -/
def Time.sub (t u : Time) : Int := max minDuration (min maxDuration (t.nanos - u.nanos))

structure Timestamp where
  seconds : Int
  nanos : Int
deriving DecidableEq

def Time.timestampProto (t : Time) : Timestamp :=
  ⟨t.nanos / 1000000000,t.nanos % 1000000000⟩

theorem Time.timestamp_proto_injective {t u : Time} (h : t.timestampProto = u.timestampProto) :
    t = u := by
  simp only [timestampProto,Timestamp.mk.injEq] at h
  apply Time.ext
  omega

structure AccountID where
  shardNum : Int
  realmNum : Int
  accountNum : Int
deriving DecidableEq

structure Any where
  value : Bytes
deriving DecidableEq

structure ApplicationMessageID where
  validStart : Option Timestamp
  accountID : Option AccountID
  metadata : Option Any
deriving DecidableEq

structure ApplicationMessageChunk where
  applicationMessageId : Option ApplicationMessageID
  chunksCount : Int
  chunkIndex : Int
  messageChunk : Bytes
deriving DecidableEq

structure ApplicationMessage where
  applicationMessageId : Option ApplicationMessageID
  businessProcessMessage : Bytes
  unencryptedBusinessProcessMessageHash : Bytes
  businessProcessSignatureOnHash : Bytes
  encryptionRandom : Bytes
deriving DecidableEq

structure ApplicationSignature where
  publicKey : Bytes
  signature : Bytes
deriving DecidableEq

inductive Class
  | normal
  | config
  | other (n : Int)
deriving DecidableEq

structure HcsMessageRegular where
  payload : Bytes
  configSeq : Nat
  cls : Class
  originalSeq : Nat
deriving DecidableEq

/-- The request of a time-to-cut message; the oneof may be unset. -/
inductive HcsMessageTimeToCut
  | blockNumber (n : Nat)
  | messageHash (hash : Bytes)
  | unset
deriving DecidableEq

inductive HcsMessage
  | regular (msg : HcsMessageRegular)
  | timeToCut (msg : HcsMessageTimeToCut)
  | ordererStarted (ordererIdentity : Bytes)
  | unset
deriving DecidableEq

structure Envelope where
  payload : Bytes
  signature : Bytes
deriving DecidableEq

structure HcsConfigPublicKey where
  type : Chars
  key : Chars
deriving DecidableEq

structure HcsConfigMetadata where
  topicId : Chars
  publicKeys : List HcsConfigPublicKey
  reassembleTimeout : Chars
deriving DecidableEq

/-- The timestamps are held as the instants their protobuf forms denote. -/
structure HcsMetadata where
  lastConsensusTimestampPersisted : Time
  lastOriginalSequenceProcessed : Nat
  lastResubmittedConfigSequence : Nat
  lastChunkFreeConsensusTimestampPersisted : Time
  lastChunkFreeSequenceProcessed : Nat
deriving DecidableEq

structure BatchSize where
  maxMessageCount : Nat
  preferredMaxBytes : Nat
deriving DecidableEq

structure ChannelConfig where
  sequence : Nat
  batchSize : BatchSize
  consensusMetadata : Bytes
deriving DecidableEq

structure Response where
  consensusTimestamp : Time
  sequenceNumber : Nat
  contents : Bytes
deriving DecidableEq

structure TopicID where
  shard : Int
  realm : Int
  topic : Int
deriving DecidableEq

/-- What the consenter calls: protobuf, hash and signature functions, the parsers of topics, keys
and durations, and the application of a config envelope, which the block writer refuses with a
panic. -/
structure Externals where
  unmarshalChunk : Bytes → Option ApplicationMessageChunk
  unmarshalApplicationMessage : Bytes → Option ApplicationMessage
  marshalApplicationMessage : ApplicationMessage → Bytes
  unmarshalApplicationSignature : Bytes → Option ApplicationSignature
  marshalApplicationSignature : ApplicationSignature → Bytes
  unmarshalHcsMessage : Bytes → Option HcsMessage
  unmarshalEnvelope : Bytes → Option Envelope
  marshalEnvelope : Envelope → Bytes
  unmarshalHcsConfigMetadata : Bytes → Option HcsConfigMetadata
  sha256 : Bytes → Bytes
  ed25519Verify : Bytes → Bytes → Bytes → Bool
  topicIDFromString : Chars → Option TopicID
  publicKeyFromString : Chars → Option Bytes
  parseDuration : Chars → Option Int
  applyConfig : ChannelConfig → Envelope → Option ChannelConfig

end PluggableHcs.Hcs
