import PluggableHcs.Lib.Outcomes
import PluggableHcs.Hcs.AppMsgProcessor

namespace PluggableHcs.Hcs.Codec

/-- A field of the proto3 wire format, in the two wire types that the messages use. -/
inductive Field
  | varint (number value : Nat)
  | bytes (number : Nat) (value : Bytes)
deriving DecidableEq

/-- Groups of seven bits, lowest first; the fuel is the number of groups after this one. -/
def writeVarint : Nat → Nat → Bytes
  | 0,n => [UInt8.ofNat n]
  | fuel + 1,n =>
    if n < 128 then [UInt8.ofNat n]
    else UInt8.ofNat (n % 128 + 128) :: writeVarint fuel (n / 128)

def readVarint : Nat → Bytes → Option (Nat × Bytes)
  | _,[] => none
  | 0,b :: rest => if b.toNat < 2 then some (b.toNat,rest) else none
  | fuel + 1,b :: rest =>
    if b.toNat < 128 then some (b.toNat,rest)
    else (readVarint fuel rest).map fun (n,rest) => (b.toNat - 128 + 128 * n,rest)

def varint64 (n : Nat) : Bytes := writeVarint 9 (n % 2 ^ 64)

def Field.write : Field → Bytes
  | .varint number value => varint64 (8 * number) ++ varint64 value
  | .bytes number value => varint64 (8 * number + 2) ++ varint64 value.length ++ value

def readField (b : Bytes) : Option (Field × Bytes) := do
  let (tag,b) ← readVarint 9 b
  let (n,b) ← readVarint 9 b
  if tag < 8 then none
  else if tag % 8 = 0 then some (.varint (tag / 8) n,b)
  else if tag % 8 = 2 ∧ n ≤ b.length then some (.bytes (tag / 8) (b.take n),b.drop n)
  else none

def readFieldsFuel : Nat → Bytes → Option (List Field)
  | _,[] => some []
  | 0,_ => none
  | fuel + 1,b => do
    let (field,rest) ← readField b
    let fields ← readFieldsFuel fuel rest
    some (field :: fields)

def readFields (b : Bytes) : Option (List Field) := readFieldsFuel b.length b

def writeFields (fields : List Field) : Bytes := fields.flatMap Field.write

/-- Scalars with the default value are not written; an absent one reads as the default and
the last of several wins. -/
def uint (number n : Nat) : List Field := if n = 0 then [] else [.varint number n]
section
variable (number : Nat)

def int (n : Int) : List Field := uint number (n % 2 ^ 64).toNat
def bytes (b : Bytes) : List Field := if b = [] then [] else [.bytes number b]
def text (s : Chars) : List Field :=
  bytes number (s.map fun c => UInt8.ofNat c.toNat)
def message (b : Option Bytes) : List Field :=
  match b with
  | none => []
  | some b => [.bytes number b]

section
variable (fields : List Field)

def getUint : Nat :=
  fields.foldl (fun acc f => match f with
    | .varint k n => if k = number then n else acc
    | .bytes _ _ => acc) 0
def getInt64 : Int := toInt64 (getUint number fields)
def getInt32 : Int := toInt32 (getUint number fields)

def occurrences : List Bytes :=
  fields.filterMap fun f => match f with
    | .bytes k b => if k = number then some b else none
    | .varint _ _ => none
def getBytes : Bytes :=
  (occurrences number fields).getLastD []
end

def ofText (b : Bytes) : Chars := b.map fun u => Char.ofNat u.toNat

/-- Several occurrences of a sub-message are merged, which is to read them as one. -/
def getMessage (read : List Field → Option α) (fields : List Field) : Option (Option α) :=
  match occurrences number fields with
  | [] => some none
  | parts => do
    let inner ← readFields parts.flatten
    let m ← read inner
    some (some m)

end

def timestamp (t : Timestamp) : Bytes := writeFields (int 1 t.seconds ++ int 2 t.nanos)
def readTimestamp (f : List Field) : Option Timestamp := some ⟨getInt64 1 f,getInt32 2 f⟩

def accountID (a : AccountID) : Bytes :=
  writeFields (int 1 a.shardNum ++ int 2 a.realmNum ++ int 3 a.accountNum)
def readAccountID (f : List Field) : Option AccountID :=
  some ⟨getInt64 1 f,getInt64 2 f,getInt64 3 f⟩

def any (a : Any) : Bytes := writeFields (bytes 2 a.value)
def readAny (f : List Field) : Option Any := some ⟨getBytes 2 f⟩

def messageID (m : ApplicationMessageID) : Bytes :=
  writeFields (message 1 (m.validStart.map timestamp) ++ message 2 (m.accountID.map accountID) ++
    message 3 (m.metadata.map any))
def readMessageID (f : List Field) : Option ApplicationMessageID := do
  let validStart ← getMessage 1 readTimestamp f
  let account ← getMessage 2 readAccountID f
  let metadata ← getMessage 3 readAny f
  some ⟨validStart,account,metadata⟩

def chunk (c : ApplicationMessageChunk) : Bytes :=
  writeFields (message 1 (c.applicationMessageId.map messageID) ++ int 2 c.chunksCount ++
    int 3 c.chunkIndex ++ bytes 4 c.messageChunk)
def readChunk (b : Bytes) : Option ApplicationMessageChunk := do
  let f ← readFields b
  let id ← getMessage 1 readMessageID f
  some ⟨id,getInt32 2 f,getInt32 3 f,getBytes 4 f⟩

def applicationMessage (m : ApplicationMessage) : Bytes :=
  writeFields (message 1 (m.applicationMessageId.map messageID) ++
    bytes 2 m.businessProcessMessage ++ bytes 3 m.unencryptedBusinessProcessMessageHash ++
    bytes 4 m.businessProcessSignatureOnHash ++ bytes 5 m.encryptionRandom)
def readApplicationMessage (b : Bytes) : Option ApplicationMessage := do
  let f ← readFields b
  let id ← getMessage 1 readMessageID f
  some ⟨id,getBytes 2 f,getBytes 3 f,getBytes 4 f,getBytes 5 f⟩

def applicationSignature (s : ApplicationSignature) : Bytes :=
  writeFields (bytes 1 s.publicKey ++ bytes 2 s.signature)
def readApplicationSignature (b : Bytes) : Option ApplicationSignature := do
  let f ← readFields b
  some ⟨getBytes 1 f,getBytes 2 f⟩

def envelope (e : Envelope) : Bytes := writeFields (bytes 1 e.payload ++ bytes 2 e.signature)
def readEnvelope (b : Bytes) : Option Envelope := do
  let f ← readFields b
  some ⟨getBytes 1 f,getBytes 2 f⟩

def Class.toInt : Class → Int
  | .normal => 0
  | .config => 1
  | .other n => n
def Class.ofInt (n : Int) : Class := if n = 0 then .normal else if n = 1 then .config else .other n

def regular (m : HcsMessageRegular) : Bytes :=
  writeFields (bytes 1 m.payload ++ uint 2 m.configSeq ++ int 3 (Class.toInt m.cls) ++
    uint 4 m.originalSeq)
def readRegular (f : List Field) : HcsMessageRegular :=
  ⟨getBytes 1 f,getUint 2 f,Class.ofInt (getInt32 3 f),getUint 4 f⟩

/-- The members of a oneof are written also when they have their default value. -/
def timeToCut : HcsMessageTimeToCut → Bytes
  | .blockNumber n => writeFields [.varint 1 n]
  | .messageHash hash => writeFields [.bytes 2 hash]
  | .unset => []
def readTimeToCut (f : List Field) : HcsMessageTimeToCut :=
  f.foldl (fun acc f => match f with
    | .varint 1 n => .blockNumber n
    | .bytes 2 hash => .messageHash hash
    | _ => acc) .unset

def hcsMessage : HcsMessage → Bytes
  | .regular m => writeFields [.bytes 1 (regular m)]
  | .timeToCut m => writeFields [.bytes 2 (timeToCut m)]
  | .ordererStarted identity => writeFields [.bytes 3 (writeFields (bytes 1 identity))]
  | .unset => []
def readHcsMessage (b : Bytes) : Option HcsMessage := do
  let f ← readFields b
  match f.getLast? with
  | some (.bytes 1 m) => (readFields m).map fun f => .regular (readRegular f)
  | some (.bytes 2 m) => (readFields m).map fun f => .timeToCut (readTimeToCut f)
  | some (.bytes 3 m) => (readFields m).map fun f => .ordererStarted (getBytes 1 f)
  | _ => some .unset

def configPublicKey (k : HcsConfigPublicKey) : Bytes := writeFields (text 1 k.type ++ text 2 k.key)
def configMetadata (m : HcsConfigMetadata) : Bytes :=
  writeFields (text 1 m.topicId ++
    m.publicKeys.map (fun k => .bytes 2 (configPublicKey k)) ++ text 3 m.reassembleTimeout)
def readConfigMetadata (b : Bytes) : Option HcsConfigMetadata := do
  let f ← readFields b
  let keys ← (occurrences 2 f).mapM fun k =>
    (readFields k).map fun f =>
      (⟨ofText (getBytes 1 f),ofText (getBytes 2 f)⟩ : HcsConfigPublicKey)
  some ⟨ofText (getBytes 1 f),keys,ofText (getBytes 3 f)⟩

def bytesOfNat : Nat → Nat → Bytes
  | 0,_ => []
  | len + 1,n => bytesOfNat len (n / 256) ++ [UInt8.ofNat n]

def hexValue (c : Char) : Option Nat :=
  if '0' ≤ c ∧ c ≤ '9' then some (c.toNat - '0'.toNat)
  else if 'a' ≤ c ∧ c ≤ 'f' then some (c.toNat - 'a'.toNat + 10)
  else none

def readHex : List Char → Option Bytes
  | [] => some []
  | [_] => none
  | a :: b :: rest => do
    let a ← hexValue a
    let b ← hexValue b
    let rest ← readHex rest
    some (UInt8.ofNat (16 * a + b) :: rest)

def topicIDFromString (s : Chars) : Option TopicID :=
  match s with
  | [a,'.',b,'.',c] =>
    if [a,b,c].all Char.isDigit then
      some ⟨a.toNat - '0'.toNat,b.toNat - '0'.toNat,c.toNat - '0'.toNat⟩
    else none
  | _ => none

def publicKeyFromString (s : Chars) : Option Bytes :=
  if s.length = 64 then readHex s else none

def parseSeconds (s : Chars) : Option Int := do
  if s.getLast? ≠ some 's' ∨ s.length < 2 then none
  let digits ← s.dropLast.mapM fun c =>
    if '0' ≤ c ∧ c ≤ '9' then some (c.toNat - '0'.toNat) else none
  some (1000000000 * (digits.foldl (fun n d => 10 * n + d) 0 : Nat))

structure Known where
  digests : List (Bytes × Bytes)
  signatures : List (Bytes × Bytes × Bytes)
  configs : List (Envelope × ChannelConfig)

def externals (known : Known) : Externals where
  unmarshalChunk := readChunk
  unmarshalApplicationMessage := readApplicationMessage
  marshalApplicationMessage := applicationMessage
  unmarshalApplicationSignature := readApplicationSignature
  marshalApplicationSignature := applicationSignature
  unmarshalHcsMessage := readHcsMessage
  unmarshalEnvelope := readEnvelope
  marshalEnvelope := envelope
  unmarshalHcsConfigMetadata := readConfigMetadata
  sha256 b := (known.digests.lookup b).getD []
  ed25519Verify key message signature := decide ((key,message,signature) ∈ known.signatures)
  topicIDFromString := topicIDFromString
  publicKeyFromString := publicKeyFromString
  parseDuration := parseSeconds
  applyConfig _ env := known.configs.lookup env

def operatorA : Bytes :=
  bytesOfNat 32 0x8a88e3dd7409f195fd52db2d3cba5d72ca6709bf1d94121bf3748801b40f6f5c
def operatorB : Bytes :=
  bytesOfNat 32 0x8139770ea87d175f56a35466c34c7ecccb8d8a91b4ee37a25df60f5b8fc9b394
def listing (publicKey : Bytes) : HcsConfigPublicKey :=
  ⟨['e','d','2','5','5','1','9'],Text.hex publicKey⟩

def channelConfig (sequence : Nat) (batchSize : BatchSize) (keys : List Bytes)
    (timeout : Chars) : ChannelConfig :=
  ⟨sequence,batchSize,configMetadata ⟨['0','.','0','.','7'],keys.map listing,timeout⟩⟩

structure SignedMessage where
  signer : Bytes
  msg : HcsMessage
  digest : Nat
  signatureR : Nat
  signatureS : Nat

section
variable (m : SignedMessage)

def SignedMessage.payload : Bytes := hcsMessage m.msg
def SignedMessage.hash : Bytes := bytesOfNat 32 m.digest
def SignedMessage.signed : Bytes :=
  bytesOfNat 32 m.signatureR ++ bytesOfNat 32 m.signatureS

def SignedMessage.contents (second : Nat) : Bytes :=
  let id : ApplicationMessageID := ⟨some ⟨second,0⟩,some ⟨0,0,2⟩,some ⟨[7]⟩⟩
  chunk ⟨some id,1,0,applicationMessage
    ⟨some id,m.payload,m.hash,applicationSignature ⟨m.signer,m.signed⟩,[]⟩⟩

def second (n : Nat) : Time :=
  ⟨((n % 1000000 : Nat) : Int) * 1000000000,by unfold minValidNanos; omega,
    by unfold maxValidNanos; omega⟩

def SignedMessage.respond (sequence : Nat) : Response :=
  ⟨second sequence,sequence,m.contents sequence⟩

end

def knownOf (msgs : List SignedMessage) (configs : List (Envelope × ChannelConfig)) : Known :=
  ⟨msgs.map fun m => (m.payload,m.hash),msgs.map fun m => (m.signer,m.hash,m.signed),configs⟩

end PluggableHcs.Hcs.Codec
