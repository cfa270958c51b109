import PluggableHcs.Lib.Digits
import PluggableHcs.Txmgmt.State

namespace PluggableHcs.Snapshot
open Digits List
open Txmgmt (Bytes)

/-- A message that was marshalled is read back. -/
structure ProtoCodec (α : Type) where
  marshal : α → Bytes
  unmarshal : Bytes → Option α
  unmarshal_marshal : ∀ m, unmarshal (marshal m) = some m

inductive Value (α : Type) where
  | string (b : Bytes)
  | bytes (b : Bytes)
  | protoMessage (m : α)
  | uvarint (u : Nat)

inductive Kind where
  | string
  | bytes
  | protoMessage
  | uvarint

def Value.kind : Value α → Kind
  | .string _ => .string
  | .bytes _ => .bytes
  | .protoMessage _ => .protoMessage
  | .uvarint _ => .uvarint

def encodeBytes (b : Bytes) : Bytes := varint b.length ++ b

def ProtoCodec.encode (c : ProtoCodec α) : Value α → Bytes
  | .string b | .bytes b => encodeBytes b
  | .protoMessage m => encodeBytes (c.marshal m)
  | .uvarint u => varint u

def ProtoCodec.fileOf (c : ProtoCodec α) (dataformat : UInt8) (vs : List (Value α)) : Bytes :=
  dataformat :: vs.flatMap c.encode

/-- The bytes that were not read yet, and the most that the next calls of Read deliver. -/
structure FileReader where
  rest : Bytes
  reusableByteSlice : Bytes
  limits : List Nat

def openFile (file : Bytes) (expectDataformat : UInt8) (limits : List Nat) : Option FileReader :=
  match file with
  | [] => none
  | b :: rest => if b = expectDataformat then some ⟨rest,[],limits⟩ else none

theorem open_file (b : UInt8) (rest : Bytes) (limits : List Nat) :
    openFile (b :: rest) b limits = some ⟨rest,[],limits⟩ :=
  if_pos rfl

namespace FileReader
variable (r : FileReader)

/-- Read of a bufio.Reader. It delivers a byte at least, and may deliver fewer than asked for. -/
def read (n : Nat) : Option (Bytes × FileReader) :=
  if r.rest = [] then none
  else
    let k := r.limits.head?.elim n fun limit => min n (max 1 limit)
    some (r.rest.take k,{ r with rest := r.rest.drop k, limits := r.limits.tail })

/-- Byte by byte. More than 64 bits are an error. -/
def decodeUVarInt : Option (Nat × FileReader) :=
  (decodeVarint r.rest).map fun e => (e.1,{ r with rest := r.rest.drop e.2 })

/-- What Read delivers goes to the start of the slice, whatever is behind it. A size that is negative as
an int is out of range. -/
def decodeBytes : Option (Bytes × FileReader) := do
  let (size,r) ← r.decodeUVarInt
  if size = 0 then pure ([],r)
  else if 2 ^ 63 ≤ size then none
  else
    let slice := if r.reusableByteSlice.length < size then replicate size 0 else r.reusableByteSlice
    let (delivered,r) ← r.read size
    let slice := delivered ++ slice.drop delivered.length
    pure (slice.take size,{ r with reusableByteSlice := slice })

def decode (c : ProtoCodec α) : Kind → Option (Value α × FileReader)
  | .string => r.decodeBytes.map fun out => (.string out.1,out.2)
  | .bytes => r.decodeBytes.map fun out => (.bytes out.1,out.2)
  | .protoMessage => do
    let (b,r) ← r.decodeBytes
    let m ← c.unmarshal b
    pure (.protoMessage m,r)
  | .uvarint => r.decodeUVarInt.map fun out => (.uvarint out.1,out.2)

def decodeAll (c : ProtoCodec α) : FileReader → List Kind → Option (List (Value α) × FileReader)
  | r,[] => some ([],r)
  | r,k :: ks => do
    let (v,r) ← r.decode c k
    let (vs,r) ← decodeAll c r ks
    pure (v :: vs,r)

/-- Each call returns its value and leaves the reader where the next value starts. -/
def ReadsBack (c : ProtoCodec α) : FileReader → List (Value α) → Prop
  | r,[] => r.rest = []
  | r,v :: vs => ∃ r', r.decode c v.kind = some (v,r') ∧ r'.rest = vs.flatMap c.encode ∧
      r'.ReadsBack c vs

end FileReader

/-- Each call of Read delivers what it is asked for. For a value without bytes there is none. -/
def Delivers (limits sizes : List Nat) : Prop :=
  ∀ p ∈ (sizes.filter (0 < ·)).zip limits, p.1 ≤ max 1 p.2
deriving Decidable

/-- For files that have byte strings only. -/
def noMessages : ProtoCodec Empty := ⟨nofun,fun _ => none,nofun⟩

section
variable (c : ProtoCodec α)

def ProtoCodec.size : Value α → Nat
  | .string b | .bytes b => b.length
  | .protoMessage m => (c.marshal m).length
  | .uvarint _ => 0

/-- Numbers have 64 bits, and lengths are ints. -/
def ProtoCodec.Sized : Value α → Prop
  | .uvarint u => u < 2 ^ 64
  | v => c.size v < 2 ^ 63

end

variable {c : ProtoCodec α} {r : FileReader} {after : Bytes}

/-- The limits of the calls behind a value of this size. -/
def limitsBehind (limits : List Nat) (size : Nat) : List Nat :=
  if size = 0 then limits else limits.tail

theorem delivers_cons : Delivers limits (n :: sizes) ↔
    Delivers limits [n] ∧ Delivers (limitsBehind limits n) sizes := by
  rcases n with _ | n
  · exact (and_iff_right fun p hp => nomatch hp).symm
  cases limits with
  | nil => simp [Delivers,limitsBehind]
  | cons k limits => simp [Delivers,limitsBehind]

theorem decode_uvarint (hr : r.rest = varint u ++ after) (hu : u < 2 ^ 64) :
    r.decodeUVarInt = some (u,{ r with rest := after }) := by
  rw [FileReader.decodeUVarInt,hr,decode_varint hu,Option.map_some,drop_left]

theorem delivers_one (hn : n ≠ 0) : Delivers limits [n] ↔
    (limits.head?.elim n fun limit => min n (max 1 limit)) = n := by
  have hp : 0 < n := Nat.pos_of_ne_zero hn
  cases limits with
  | nil => simp [Delivers]
  | cons k limits => simp [Delivers,hp]

/-- The reader is behind the bytes if they were delivered, and in between if not. -/
theorem decode_bytes {b : Bytes} (hr : r.rest = encodeBytes b ++ after) (hb : b.length < 2 ^ 63) :
    ∃ out r', r.decodeBytes = some (out,r') ∧ r'.limits = limitsBehind r.limits b.length ∧
      (r'.rest = after ↔ Delivers r.limits [b.length]) ∧
      (Delivers r.limits [b.length] → out = b) := by
  rw [encodeBytes,append_assoc] at hr
  rw [FileReader.decodeBytes,decode_uvarint hr (by omega)]
  dsimp only [bind,Option.bind]
  by_cases hz : b.length = 0
  · obtain rfl := length_eq_zero_iff.mp hz
    exact ⟨[],_,rfl,rfl,iff_of_true rfl nofun,fun _ => rfl⟩
  have hne : b ++ after ≠ [] := by
    intro h
    obtain rfl := (append_eq_nil_iff.mp h).1
    exact hz rfl
  rw [if_neg hz,if_neg (by omega),FileReader.read,if_neg hne]
  dsimp only
  rw [delivers_one hz]
  generalize hk : (r.limits.head?.elim b.length fun limit => min b.length (max 1 limit)) = k
  have hle : k ≤ b.length := by
    rw [← hk]
    cases r.limits.head? with
    | none => exact Nat.le_refl _
    | some limit => exact Nat.min_le_left _ _
  refine ⟨_,_,rfl,(if_neg hz).symm,?_,?_⟩
  · rw [drop_append_of_le_length hle,append_left_eq_self,drop_eq_nil_iff]
    exact ⟨fun h => Nat.le_antisymm hle h,fun h => h.ge⟩
  · rintro rfl
    rw [take_left,take_left]

theorem decode_value {v : Value α} (hr : r.rest = c.encode v ++ after) (sized : c.Sized v) :
    (∃ r', r.decode c v.kind = some (v,r') ∧ r'.rest = after) ↔ Delivers r.limits [c.size v] := by
  cases v with
  | string b | bytes b =>
    obtain ⟨out,r',hd,_,hre,ho⟩ := decode_bytes hr sized
    rw [Value.kind,FileReader.decode,hd]
    constructor
    · rintro ⟨_,he,ha⟩
      cases he
      exact hre.mp ha
    · intro h
      obtain rfl := ho h
      exact ⟨r',rfl,hre.mpr h⟩
  | protoMessage m =>
    obtain ⟨out,r',hd,_,hre,ho⟩ := decode_bytes hr sized
    rw [Value.kind,FileReader.decode,hd]
    dsimp only [bind,Option.bind]
    constructor
    · rintro ⟨_,he,ha⟩
      split at he
      · cases he
      cases he
      exact hre.mp ha
    · intro h
      obtain rfl := ho h
      rw [c.unmarshal_marshal]
      exact ⟨r',rfl,hre.mpr h⟩
  | uvarint u =>
    rw [Value.kind,FileReader.decode,decode_uvarint hr sized]
    exact iff_of_true ⟨_,rfl,rfl⟩ nofun

theorem decode_limits {v : Value α} (hr : r.rest = c.encode v ++ after) (sized : c.Sized v)
    (hd : r.decode c v.kind = some (w,r')) : r'.limits = limitsBehind r.limits (c.size v) := by
  cases v with
  | string b | bytes b =>
    obtain ⟨out,r₁,hb,hl,_⟩ := decode_bytes hr sized
    rw [Value.kind,FileReader.decode,hb] at hd
    cases hd
    exact hl
  | protoMessage m =>
    obtain ⟨out,r₁,hb,hl,_⟩ := decode_bytes hr sized
    rw [Value.kind,FileReader.decode,hb] at hd
    dsimp only [bind,Option.bind] at hd
    split at hd
    · cases hd
    cases hd
    exact hl
  | uvarint u =>
    rw [Value.kind,FileReader.decode,decode_uvarint hr sized] at hd
    cases hd
    rfl

theorem reads_back_iff {vs : List (Value α)} (hr : r.rest = vs.flatMap c.encode)
    (sized : ∀ v ∈ vs, c.Sized v) : r.ReadsBack c vs ↔ Delivers r.limits (vs.map c.size) := by
  induction vs generalizing r with
  | nil => exact iff_of_true hr nofun
  | cons v vs ih =>
    obtain ⟨hv,hvs⟩ := forall_mem_cons.mp sized
    rw [map_cons,delivers_cons,← decode_value hr hv]
    constructor
    · rintro ⟨r',hd,hre,hb⟩
      rw [← decode_limits hr hv hd]
      exact ⟨⟨r',hd,hre⟩,(ih hre hvs).mp hb⟩
    · rintro ⟨⟨r',hd,hre⟩,h⟩
      rw [← decode_limits hr hv hd] at h
      exact ⟨r',hd,hre,(ih hre hvs).mpr h⟩

theorem decode_all {vs : List (Value α)} (h : r.ReadsBack c vs) :
    ∃ r', r.decodeAll c (vs.map Value.kind) = some (vs,r') ∧ r'.rest = [] := by
  induction vs generalizing r with
  | nil => exact ⟨r,rfl,h⟩
  | cons v vs ih =>
    obtain ⟨r₁,hd,_,hb⟩ := h
    obtain ⟨r₂,hds,hre⟩ := ih hb
    refine ⟨r₂,?_,hre⟩
    rw [map_cons,FileReader.decodeAll,hd]
    dsimp only [bind,Option.bind]
    rw [hds]
    rfl

/-- The values of a file are read back one by one just when each call of Read delivers what it is
asked for. -/
theorem file_round_trip (limits : List Nat) (dataformat : UInt8) {vs : List (Value α)} (sized : ∀ v ∈ vs, c.Sized v) :
    ∃ r, openFile (c.fileOf dataformat vs) dataformat limits = some r ∧
      (r.ReadsBack c vs ↔ Delivers limits (vs.map c.size)) ∧
      (r.ReadsBack c vs → ∃ r', r.decodeAll c (vs.map Value.kind) = some (vs,r') ∧ r'.rest = []) :=
  ⟨_,open_file _ _ _,reads_back_iff rfl sized,decode_all⟩

def sampleCodec : ProtoCodec Bytes := ⟨id,some,fun _ => rfl⟩

def sampleValues : List (Value Bytes) := [.bytes [7,8],.uvarint 5]

theorem sample_round_trip : ∃ r r', openFile [1,2,7,8,1,9,5] 1 [2,1] = some r ∧
    r.decodeAll sampleCodec [.bytes,.protoMessage,.uvarint] =
      some ([.bytes [7,8],.protoMessage [9],.uvarint 5],r') ∧ r'.rest = [] := by
  have sized : ∀ v ∈ [Value.bytes [7,8],.protoMessage [9],.uvarint 5], sampleCodec.Sized v := by
    simp [ProtoCodec.Sized,ProtoCodec.size,sampleCodec]
  obtain ⟨r,ho,hb,hd⟩ := file_round_trip [2,1] 1 sized
  obtain ⟨r',hd⟩ := hd (hb.mpr (by decide))
  exact ⟨r,r',ho,hd⟩

-- A zero that is not delivered is not missed, but it is still to be read.
example : ∃ r r', openFile [1,2,7,0] 1 [1] = some r ∧
    r.decodeAll sampleCodec [.bytes] = some ([.bytes [7,0]],r') ∧ r'.rest = [0] :=
  ⟨_,_,rfl,rfl,rfl⟩

/-- The first call of Read delivers one of two bytes. The other one is taken for the number. -/
theorem short_read : ∃ r r', openFile (sampleCodec.fileOf 1 sampleValues) 1 [1] = some r ∧
    r.decodeAll sampleCodec (sampleValues.map Value.kind) = some ([.bytes [7,0],.uvarint 8],r') :=
  ⟨_,_,rfl,rfl⟩

end PluggableHcs.Snapshot
