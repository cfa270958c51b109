import PluggableHcs.Hcs.Holders

namespace PluggableHcs.Hcs
open List

/-- A message that a processor has split, with what its Split call used and returned. -/
structure Sent (x : Externals) where
  splitter : Splitter
  sign : Bytes → Option (Bytes × Bytes)
  message : Bytes
  validStart : Time
  publicKey : Bytes
  signature : Bytes
  chunks : List ApplicationMessageChunk
  hash : Bytes
  chunkSize_pos : 0 < splitter.chunkSize
  signed : sign (x.sha256 message) = some (publicKey,signature)
  split : splitter.split x sign message validStart = .ok (chunks,hash)

namespace Sent
variable {x : Externals} (s : Sent x)

def wrapped : ApplicationMessage :=
  s.splitter.wrap x s.publicKey s.signature s.message s.validStart

def data : Bytes := x.marshalApplicationMessage s.wrapped

def size : Nat := s.splitter.chunkSize.toNat

def id : ApplicationMessageID := s.splitter.messageID s.validStart

/-- The chunk count is computed in 64 bits and sent in 32 bits; both hold it. -/
structure InRange : Prop where
  sum : (s.data.length : Int) + s.splitter.chunkSize ≤ 2 ^ 63
  count : s.chunks.length < 2 ^ 31

/-- Protobuf gives back what it wrote, and writes something for a message that is not empty;
the receivers accept what the sender signed. -/
structure Sound (verify : Bytes → Bytes → Bytes → Bool) : Prop where
  written : s.data ≠ []
  message_round_trip : x.unmarshalApplicationMessage s.data = some s.wrapped
  signature_round_trip : x.unmarshalApplicationSignature
    (x.marshalApplicationSignature ⟨s.publicKey,s.signature⟩) = some ⟨s.publicKey,s.signature⟩
  verified : verify (x.sha256 s.message) s.publicKey s.signature = true

end Sent

theorem to_int32_of_range (hl : 0 ≤ n) (hu : n < 2 ^ 31) : toInt32 n = n :=
  Int.bmod_eq_of_le (by omega) (by omega)

theorem slices_flatten (da : Bytes) (si n : Nat) :
    ((List.range n).map fun i => (da.drop (i * si)).take si).flatten = da.take (n * si) := by
  induction n with
  | zero => simp
  | succ n ih =>
    rw [range_succ,map_append,flatten_append,ih,Nat.succ_mul,take_add]
    simp

namespace Sent
variable {x : Externals} {s : Sent x} {ve : Bytes → Bytes → Bytes → Bool}

theorem message_ne_nil : s.message ≠ [] := by
  intro h
  have hs := s.split
  simp [Splitter.split,h] at hs

theorem split_eq : s.hash = x.sha256 s.message ∧
    s.chunks = (List.range (chunkCount s.data.length s.splitter.chunkSize).toNat).map
      fun (i : Nat) =>
        { applicationMessageId := some s.id
          chunksCount := toInt32 (chunkCount s.data.length s.splitter.chunkSize)
          chunkIndex := toInt32 i
          messageChunk := (s.data.drop (i * s.size)).take s.size } := by
  have hs := s.split
  rw [Splitter.split,if_neg message_ne_nil] at hs
  simp only [s.signed] at hs
  split at hs
  · cases hs
  · simp only [Except.ok.injEq,Prod.mk.injEq] at hs
    exact ⟨hs.2.symm,hs.1.symm⟩

theorem chunk_count_eq (hr : s.InRange) : chunkCount s.data.length s.splitter.chunkSize =
      ((s.data.length + s.size - 1) / s.size : Nat) := by
  have hp := s.chunkSize_pos
  have hsu := hr.sum
  have hs : (s.size : Int) = s.splitter.chunkSize := Int.toNat_of_nonneg (by omega)
  rw [chunkCount,toInt64,Int.bmod_eq_of_le (by omega) (by omega),
    Int.tdiv_eq_ediv_of_nonneg (by omega),← hs]
  have : (s.data.length : Int) + s.size - 1 = ((s.data.length + s.size - 1 : Nat) : Int) := by
    omega
  rw [this]
  norm_cast

theorem length_eq (hr : s.InRange) : s.chunks.length = (s.data.length + s.size - 1) / s.size := by
  conv_lhs => rw [split_eq.2]
  rw [length_map,length_range,chunk_count_eq hr]
  rfl

theorem chunks_eq (hr : s.InRange) : s.chunks = (List.range s.chunks.length).map fun (i : Nat) =>
      { applicationMessageId := some s.id
        chunksCount := s.chunks.length
        chunkIndex := i
        messageChunk := (s.data.drop (i * s.size)).take s.size } := by
  have hc := hr.count
  have hl := length_eq hr
  conv_lhs => rw [split_eq.2]
  rw [chunk_count_eq hr,← hl,Int.toNat_natCast]
  apply map_congr_left
  intro i hi
  have hi := mem_range.mp hi
  rw [to_int32_of_range (by omega) (by omega),to_int32_of_range (by omega) (by omega)]

theorem size_pos : 0 < s.size := by
  have := s.chunkSize_pos
  unfold size
  omega

theorem bodies_flatten (hr : s.InRange) :
    (s.chunks.map ApplicationMessageChunk.messageChunk).flatten = s.data := by
  rw [chunks_eq hr,map_map]
  refine (slices_flatten s.data s.size s.chunks.length).trans ?_
  apply take_of_length_le
  rw [length_eq hr]
  have hp := s.size_pos
  have hd := Nat.div_add_mod (s.data.length + s.size - 1) s.size
  have hm := Nat.mod_lt (s.data.length + s.size - 1) hp
  rw [Nat.mul_comm] at hd
  omega

theorem chunks_pos (hr : s.InRange) (hs : s.Sound ve) : 0 < s.chunks.length := by
  rw [length_eq hr]
  have hp := s.size_pos
  have hd := length_pos_iff.mpr hs.written
  exact Nat.div_pos (by omega) hp

theorem opens (hr : s.InRange) (hs : s.Sound ve) :
    openMessage x ve (s.chunks.map ApplicationMessageChunk.messageChunk).flatten =
      .ok (s.message,x.sha256 s.message) := by
  rw [bodies_flatten hr]
  simp [openMessage,hs.message_round_trip,wrapped,Splitter.wrap,hs.signature_round_trip,hs.verified]

end Sent
end PluggableHcs.Hcs
