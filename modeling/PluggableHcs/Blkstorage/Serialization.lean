import PluggableHcs.Lib.Digits
import PluggableHcs.Txmgmt.State

namespace PluggableHcs.Blkstorage
open Digits Txmgmt List Option

structure BlockHeader where
  number : Nat
  dataHash : Bytes
  previousHash : Bytes
deriving DecidableEq

structure Block where
  header : BlockHeader
  data : List Bytes
  metadata : List Bytes
deriving DecidableEq

structure LocPointer where
  offset : Nat
  bytesLength : Nat
deriving DecidableEq

structure TxIndexInfo where
  txID : Bytes
  loc : LocPointer
deriving DecidableEq

structure SerializedBlockInfo where
  blockHeader : BlockHeader
  txOffsets : List TxIndexInfo
  metadata : List Bytes
deriving DecidableEq

structure Protoutil where
  blockHeaderHash : BlockHeader → Bytes
  getOrComputeTxIDFromEnvelope : Bytes → Bytes

section
variable (p : Protoutil)

def encodeRawBytes (b : Bytes) : Bytes := varint b.length ++ b

def addHeaderBytes (h : BlockHeader) : Bytes :=
  varint h.number ++ (encodeRawBytes h.dataHash ++ encodeRawBytes h.previousHash)

def txIndexInfos (offset : Nat) : List Bytes → List TxIndexInfo
  | [] => []
  | tx :: txs =>
    ⟨p.getOrComputeTxIDFromEnvelope tx,offset,(encodeRawBytes tx).length⟩ ::
      txIndexInfos (offset + (encodeRawBytes tx).length) txs

def addItems (items : List Bytes) : Bytes := varint items.length ++ items.flatMap encodeRawBytes

def serializeBlock (b : Block) : Bytes × SerializedBlockInfo :=
  let header := addHeaderBytes b.header
  (header ++ (addItems b.data ++ addItems b.metadata),
    ⟨b.header,txIndexInfos p (header.length + (varint b.data.length).length) b.data,b.metadata⟩)

end

section
variable (p : Protoutil)

/-- What is left of the bytes, and how many were consumed. -/
structure Buffer where
  buf : Bytes
  position : Nat

open Buffer

def Buffer.decodeVarint (b : Buffer) : Option (Nat × Buffer) :=
  (Digits.decodeVarint b.buf).map fun e =>
    (e.1,⟨b.buf.drop e.2,b.position + (varint e.1).length⟩)

def Buffer.decodeRawBytes (b : Buffer) : Option (Bytes × Buffer) :=
  (Digits.decodeVarint b.buf).bind fun e =>
    let rest := b.buf.drop e.2
    if rest.length < e.1 then none
    else some (rest.take e.1,⟨rest.drop e.1,b.position + (encodeRawBytes (rest.take e.1)).length⟩)

def extractHeader (b : Buffer) : Option (BlockHeader × Buffer) := do
  let (number,b) ← b.decodeVarint
  let (dataHash,b) ← b.decodeRawBytes
  let (previousHash,b) ← b.decodeRawBytes
  pure (⟨number,dataHash,previousHash⟩,b)

def extractDataItems : Nat → Buffer → Option ((List Bytes × List TxIndexInfo) × Buffer)
  | 0,b => some (([],[]),b)
  | n + 1,b => do
    let (tx,b') ← b.decodeRawBytes
    let (rest,b'') ← extractDataItems n b'
    pure ((tx :: rest.1,⟨p.getOrComputeTxIDFromEnvelope tx,b.position,b'.position - b.position⟩ :: rest.2),
      b'')

def extractData (b : Buffer) : Option ((List Bytes × List TxIndexInfo) × Buffer) := do
  let (numItems,b) ← b.decodeVarint
  extractDataItems p numItems b

def extractMetadataItems : Nat → Buffer → Option (List Bytes × Buffer)
  | 0,b => some ([],b)
  | n + 1,b => do
    let (item,b) ← b.decodeRawBytes
    let (rest,b) ← extractMetadataItems n b
    pure (item :: rest,b)

def extractMetadata (b : Buffer) : Option (List Bytes × Buffer) := do
  let (numItems,b) ← b.decodeVarint
  extractMetadataItems numItems b

def deserializeBlock (bytes : Bytes) : Option Block := do
  let (header,b) ← extractHeader ⟨bytes,0⟩
  let (data,b) ← extractData p b
  let (metadata,_) ← extractMetadata b
  pure ⟨header,data.1,metadata⟩

def extractSerializedBlockInfo (bytes : Bytes) : Option SerializedBlockInfo := do
  let (header,b) ← extractHeader ⟨bytes,0⟩
  let (data,b) ← extractData p b
  let (metadata,_) ← extractMetadata b
  pure ⟨header,data.2,metadata⟩

end

variable {p : Protoutil}

theorem encode_raw_length (b : Bytes) : (encodeRawBytes b).length =
    (varint b.length).length + b.length :=
  length_append

theorem Buffer.decode_varint (h : n < 2 ^ 64) (r : Bytes) (po : Nat) :
    (mk (varint n ++ r) po).decodeVarint = some (n,⟨r,po + (varint n).length⟩) := by
  rw [decodeVarint,Digits.decode_varint h,map_some,drop_left]

theorem Buffer.decode_raw_bytes (h : b.length < 2 ^ 64) (r : Bytes) (po : Nat) :
    (mk (encodeRawBytes b ++ r) po).decodeRawBytes =
      some (b,⟨r,po + (encodeRawBytes b).length⟩) := by
  rw [decodeRawBytes,encodeRawBytes,append_assoc,Digits.decode_varint h,bind_some]
  rw [drop_left,if_neg (by simp),take_left,drop_left,encodeRawBytes]

theorem extract_header (hn : h.number < 2 ^ 64)
    (hd : h.dataHash.length < 2 ^ 64) (hp : h.previousHash.length < 2 ^ 64) (r : Bytes) :
    extractHeader ⟨addHeaderBytes h ++ r,0⟩ = some (h,⟨r,(addHeaderBytes h).length⟩) := by
  have hl : 0 + (varint h.number).length + (encodeRawBytes h.dataHash).length +
      (encodeRawBytes h.previousHash).length = (addHeaderBytes h).length := by
    rw [addHeaderBytes,length_append,length_append]
    omega
  rw [extractHeader,addHeaderBytes,append_assoc,append_assoc,Buffer.decode_varint hn]
  dsimp only [bind_eq_bind,bind_some]
  rw [Buffer.decode_raw_bytes hd]
  dsimp only [bind_some]
  rw [Buffer.decode_raw_bytes hp,hl]
  rfl

variable {it : List Bytes}

theorem extract_data_items (h : ∀ b ∈ it, b.length < 2 ^ 64) (r : Bytes) (po : Nat) : ∃ p',
      extractDataItems p it.length ⟨it.flatMap encodeRawBytes ++ r,po⟩ =
        some ((it,txIndexInfos p po it),⟨r,p'⟩) := by
  induction it generalizing po with
  | nil => exact ⟨po,rfl⟩
  | cons b it ih =>
    obtain ⟨hb,hi⟩ := forall_mem_cons.mp h
    obtain ⟨p',hr⟩ := ih hi (po + (encodeRawBytes b).length)
    refine ⟨p',?_⟩
    rw [length_cons,extractDataItems,flatMap_cons,append_assoc,Buffer.decode_raw_bytes hb]
    dsimp only [bind_eq_bind,bind_some]
    rw [hr,Nat.add_sub_cancel_left]
    rfl

theorem extract_metadata_items (p : Protoutil) (n : Nat) (b : Buffer) :
    extractMetadataItems n b = (extractDataItems p n b).map fun o => (o.1.1,o.2) := by
  induction n generalizing b with
  | zero => rfl
  | succ n ih =>
    rw [extractMetadataItems,extractDataItems]
    cases b.decodeRawBytes with
    | none => rfl
    | some o =>
      dsimp only [bind_eq_bind,bind_some]
      rw [ih]
      cases extractDataItems p n o.2 <;> rfl

@[mk_iff]
structure Block.Sized (b : Block) : Prop where
  number : b.header.number < 2 ^ 64
  bytes : (addHeaderBytes b.header ++ (addItems b.data ++ addItems b.metadata)).length < 2 ^ 56

instance (b : Block) : Decidable b.Sized := decidable_of_iff' _ b.sized_iff

theorem mem_length_le (h : b ∈ it) : b.length ≤ (it.flatMap encodeRawBytes).length := by
  induction it with
  | nil => cases h
  | cons c it ih =>
    rw [flatMap_cons,length_append,encode_raw_length]
    rcases mem_cons.mp h with rfl | hm
    · omega
    · exact (ih hm).trans (Nat.le_add_left _ _)

theorem items_length_le (it : List Bytes) : it.length ≤ (it.flatMap encodeRawBytes).length := by
  induction it with
  | nil => exact Nat.le_refl 0
  | cons b it ih =>
    have hp := varint_pos b.length
    rw [flatMap_cons,length_append,length_cons,encode_raw_length]
    omega

theorem extract_data (h : (addItems it).length < 2 ^ 64) (r : Bytes)
    (po : Nat) : ∃ p', extractData p ⟨addItems it ++ r,po⟩ =
      some ((it,txIndexInfos p (po + (varint it.length).length) it),⟨r,p'⟩) := by
  rw [addItems,length_append] at h
  have hc := items_length_le it
  have hs : ∀ b ∈ it, b.length < 2 ^ 64 := by
    intro b hb
    have hle := mem_length_le hb
    omega
  obtain ⟨p',hi⟩ := extract_data_items (p := p) hs r
    (po + (varint it.length).length)
  refine ⟨p',?_⟩
  rw [extractData,addItems,append_assoc,Buffer.decode_varint (by omega)]
  exact hi

theorem extract_metadata (p : Protoutil) (b : Buffer) :
    extractMetadata b = (extractData p b).map fun o => (o.1.1,o.2) := by
  rw [extractMetadata,extractData]
  cases b.decodeVarint with
  | none => rfl
  | some o => exact extract_metadata_items p o.1 o.2

variable {b : Block}

theorem Block.Sized.parts (hs : b.Sized) : b.header.dataHash.length < 2 ^ 64 ∧
    b.header.previousHash.length < 2 ^ 64 ∧ (addItems b.data).length < 2 ^ 64 ∧
    (addItems b.metadata).length < 2 ^ 64 := by
  have hb := hs.bytes
  rw [addHeaderBytes] at hb
  simp only [length_append,encode_raw_length] at hb ⊢
  omega

theorem extract_parts (hs : b.Sized) : ∃ b₁ b₂ b₃,
    extractHeader ⟨(serializeBlock p b).1,0⟩ = some (b.header,b₁) ∧
    extractData p b₁ = some ((b.data,(serializeBlock p b).2.txOffsets),b₂) ∧
    extractMetadata b₂ = some (b.metadata,b₃) := by
  obtain ⟨hd,hp,hda,hm⟩ := hs.parts
  obtain ⟨po,he⟩ := extract_data (p := p) hda (addItems b.metadata)
    (addHeaderBytes b.header).length
  obtain ⟨p',he'⟩ := extract_data (p := p) hm [] po
  rw [append_nil] at he'
  refine ⟨_,_,⟨[],p'⟩,extract_header hs.number hd hp _,he,?_⟩
  rw [extract_metadata p,he']
  rfl

theorem extract_serialized (hs : b.Sized) :
    extractSerializedBlockInfo p (serializeBlock p b).1 = some (serializeBlock p b).2 := by
  obtain ⟨_,_,_,hh,hd,hm⟩ := extract_parts (p := p) hs
  simp only [extractSerializedBlockInfo,hh,hd,hm,bind_eq_bind,bind_some]
  rfl

theorem deserialize_serialized (hs : b.Sized) :
    deserializeBlock p (serializeBlock p b).1 = some b := by
  obtain ⟨_,_,_,hh,hd,hm⟩ := extract_parts (p := p) hs
  simp only [deserializeBlock,hh,hd,hm,bind_eq_bind,bind_some]
  rfl

end PluggableHcs.Blkstorage
