import PluggableHcs.Blkstorage.BlockfileMgr

namespace PluggableHcs.Blkstorage
open Digits Txmgmt
open List hiding after

section
variable {m : Bytes}

theorem raw_pos (m : Bytes) : 0 < (encodeRawBytes m).length := by
  rw [encode_raw_length]
  exact Nat.add_pos_left (varint_pos _) _

variable (sm : m.length < 2 ^ 56)
include sm

theorem length_size_le : (varint m.length).length ≤ 8 := by
  have hp : (2 : Nat) ^ 56 = 128 ^ (7 + 1) := by decide
  exact varint_of_length_le (hp ▸ sm)

theorem decode_length (r : Bytes) : decodeVarint (varint m.length ++ r) =
    some (m.length,(varint m.length).length) :=
  decode_varint (sm.trans (by decide)) r

theorem next_complete (be after : Bytes) :
    nextBlockBytes (be ++ (encodeRawBytes m ++ after)) be.length =
      .ok (some (m,(varint m.length).length)) := by
  have hp := raw_pos m
  have hs := length_size_le sm
  have ht : (encodeRawBytes m ++ after).take 8 =
      varint m.length ++ (m ++ after).take (8 - (varint m.length).length) := by
    rw [encodeRawBytes,append_assoc,take_append,take_of_length_le hs]
  rw [nextBlockBytes,if_neg (by rw [length_append,length_append]; omega),
    if_neg (by rw [length_append]; omega)]
  dsimp only
  rw [drop_left,ht,decode_length sm]
  dsimp only
  rw [if_neg (by rw [length_append,encode_raw_length]; omega)]
  have hd : (encodeRawBytes m ++ after).drop (varint m.length).length = m ++ after := by
    rw [encodeRawBytes,append_assoc]
    exact drop_left
  rw [hd,take_left]

theorem next_torn (be : Bytes) (hp : 0 < j) (hj : j < (encodeRawBytes m).length) :
    nextBlockBytes (be ++ (encodeRawBytes m).take j) be.length =
      .error .unexpectedEndOfBlockfile := by
  have hl : ((encodeRawBytes m).take j).length = j := length_take_of_le hj.le
  have hsi := length_size_le sm
  rw [nextBlockBytes,if_neg (by rw [length_append]; omega),if_neg (by rw [length_append]; omega)]
  dsimp only
  rw [drop_left]
  by_cases hs : j < (varint m.length).length
  · have ht : ((encodeRawBytes m).take j).take 8 = (varint m.length).take j := by
      rw [take_take,Nat.min_eq_right (by omega),encodeRawBytes]
      exact take_append_of_le_length hs.le
    rw [ht,decode_varint_take hs]
    rw [if_pos (by omega)]
  · have ht : ((encodeRawBytes m).take j).take 8 = varint m.length ++
        (m.take (j - (varint m.length).length)).take (8 - (varint m.length).length) := by
      rw [encodeRawBytes,take_append,take_of_length_le (Nat.le_of_not_lt hs),take_append,
        take_of_length_le hsi]
    rw [ht,decode_length sm]
    dsimp only
    rw [if_pos (by rw [hl,← encode_raw_length]; exact hj)]

end

def framed (fileNum : Nat) : Nat → List Bytes → List (Bytes × BlockPlacementInfo)
  | _,[] => []
  | offset,m :: ms => (m,⟨fileNum,offset,offset + (varint m.length).length⟩) ::
      framed fileNum (offset + (encodeRawBytes m).length) ms

def endOf (after : Bytes) : Option Fault := if after =
    [] then none else some .unexpectedEndOfBlockfile

def Rest (after : Bytes) : Prop :=
  after = [] ∨ ∃ m j, m.length < 2 ^ 56 ∧ 0 < j ∧ j < (encodeRawBytes m).length ∧
    after = (encodeRawBytes m).take j

theorem Rest.ends (hr : Rest after) (f : Bytes) :
    nextBlockBytes (f ++ after) f.length = (endOf after).elim (.ok none) .error := by
  obtain rfl | ⟨m,j,sm,hp,hj,rfl⟩ := hr
  · rw [append_nil]
    exact if_pos rfl
  have hne : (encodeRawBytes m).take j ≠ [] := by
    intro hn
    have hl := congrArg List.length hn
    rw [length_take_of_le hj.le,length_nil] at hl
    omega
  rw [endOf,if_neg hne]
  exact next_torn sm f hp hj

section
variable {ms : List Bytes} (sm : ∀ m ∈ ms, m.length < 2 ^ 56) (re : Rest after)
include sm re

theorem read_framed (fn : Nat) (be : Bytes) (hf : ms.length < f) :
    readBlocks fn (be ++ (ms.flatMap encodeRawBytes ++ after)) f be.length =
      (framed fn be.length ms,be.length + (ms.flatMap encodeRawBytes).length, endOf after) := by
  induction ms generalizing be f with
  | nil =>
    obtain ⟨f,rfl⟩ := Nat.exists_eq_add_one_of_ne_zero (Nat.ne_of_gt hf)
    rw [flatMap_nil,nil_append,readBlocks,re.ends]
    cases endOf after <;> rfl
  | cons m ms ih =>
    obtain ⟨f,rfl⟩ := Nat.exists_eq_add_one_of_ne_zero (Nat.ne_of_gt (Nat.zero_lt_of_lt hf))
    obtain ⟨hm,hms⟩ := forall_mem_cons.mp sm
    have hr := ih hms (be ++ encodeRawBytes m) (Nat.lt_of_succ_lt_succ hf)
    rw [length_append,append_assoc] at hr
    rw [flatMap_cons,append_assoc,readBlocks,next_complete hm]
    dsimp only
    rw [← encode_raw_length,hr,framed,length_append,Nat.add_assoc]

theorem read_file (hf : files[fileNum]? = some (be ++ (ms.flatMap encodeRawBytes ++ after))) :
    readFile files fileNum be.length = .ok (framed fileNum be.length ms,
      be.length + (ms.flatMap encodeRawBytes).length,endOf after) := by
  have hc := items_length_le ms
  rw [readFile,hf]
  dsimp only
  rw [read_framed sm re fileNum be]
  simp only [length_append]
  omega

theorem scan_framed (hf : files[fileNum]? = some (be ++ (ms.flatMap encodeRawBytes ++ after))) :
    scanForLastCompleteBlock files fileNum be.length =
      .ok ((framed fileNum be.length ms).getLast?.map Prod.fst,
        be.length + (ms.flatMap encodeRawBytes).length,(framed fileNum be.length ms).length) := by
  rw [scanForLastCompleteBlock,read_file sm re hf,endOf]
  split <;> rfl

end

theorem framed_fst (fn o : Nat) (ms : List Bytes) : (framed fn o ms).map Prod.fst = ms := by
  induction ms generalizing o with
  | nil => rfl
  | cons m ms ih => rw [framed,map_cons,ih]

def completeIn : List Bytes → Nat → Nat
  | [],_ => 0
  | m :: ms,n =>
    if (encodeRawBytes m).length ≤ n then completeIn ms (n - (encodeRawBytes m).length) + 1 else 0

theorem take_framed {ms : List Bytes} (hs : ∀ m ∈ ms, m.length < 2 ^ 56) (n : Nat) : ∃ after,
    Rest after ∧ (ms.flatMap encodeRawBytes).take n =
      (ms.take (completeIn ms n)).flatMap encodeRawBytes ++ after := by
  induction ms generalizing n with
  | nil => exact ⟨[],.inl rfl,by simp⟩
  | cons m ms ih =>
    obtain ⟨hm,hms⟩ := forall_mem_cons.mp hs
    rw [completeIn,flatMap_cons,take_append]
    split
    · rename_i hle
      obtain ⟨after,hr,heq⟩ := ih hms (n - (encodeRawBytes m).length)
      refine ⟨after,hr,?_⟩
      rw [take_of_length_le hle,heq,take_succ_cons,flatMap_cons,append_assoc]
    · rename_i hlt
      refine ⟨(encodeRawBytes m).take n,?_,?_⟩
      · by_cases hn : n = 0
        · exact .inl (by rw [hn,take_zero])
        · exact .inr ⟨m,n,hm,by omega,by omega,rfl⟩
      · rw [Nat.sub_eq_zero_of_le (by omega),take_zero,take_zero,append_nil]
        rfl

/-- A scan from the end of a byte string finds those after it that are complete, as long as eight
bytes are enough for each length. -/
theorem scan_finds_complete {ms : List Bytes} (small : ∀ m ∈ ms, m.length < 2 ^ 56)
    (hfile : files[fileNum]? = some ((ms.flatMap encodeRawBytes).take n))
    (hn : ((ms.take k).flatMap encodeRawBytes).length ≤ n) :
    scanForLastCompleteBlock files fileNum ((ms.take k).flatMap encodeRawBytes).length =
      let found := (ms.drop k).take (completeIn (ms.drop k)
        (n - ((ms.take k).flatMap encodeRawBytes).length))
      .ok (found.getLast?,((ms.take k ++ found).flatMap encodeRawBytes).length,found.length) := by
  obtain ⟨af,hr,heq⟩ := take_framed (fun m hm => small m (mem_of_mem_drop hm))
    (n - ((ms.take k).flatMap encodeRawBytes).length)
  have hs : (ms.flatMap encodeRawBytes).take n = (ms.take k).flatMap encodeRawBytes ++
      ((ms.drop k).flatMap encodeRawBytes).take
        (n - ((ms.take k).flatMap encodeRawBytes).length) := by
    nth_rewrite 1 [← take_append_drop k ms]
    rw [flatMap_append,take_append,take_of_length_le hn]
  rw [hs,heq] at hfile
  rw [scan_framed (fun m hm => small m (mem_of_mem_drop (mem_of_mem_take hm))) hr hfile]
  dsimp only
  rw [flatMap_append,length_append,← getLast?_map,framed_fst,← length_map Prod.fst,framed_fst]

theorem scan_finds_first : scanForLastCompleteBlock [[2,7,7,3,8]] 0 0 = .ok (some [7,7],3,1) :=
  have sm : ∀ m ∈ ([[7,7],[8,8,8]] : List Bytes), m.length < 2 ^ 56 := by decide
  scan_finds_complete (n := 5) (k := 0) sm rfl (by decide)

/-- A length of nine bytes is cut off after eight, which are no number. Behind the end of the file
nothing can be read. -/
theorem long_length_panics : (∃ m : Bytes, m ≠ [] ∧
      scanForLastCompleteBlock [([m].flatMap encodeRawBytes).take 9] 0 0 =
        .error .undecodableLength) ∧
    scanForLastCompleteBlock [([[7,7]].flatMap encodeRawBytes).take 2] 0
      ([[7,7]].flatMap encodeRawBytes).length = .error .seekError := by
  refine ⟨?_,rfl⟩
  obtain ⟨m,hm⟩ : ∃ m : Bytes, m.length = 2 ^ 56 := ⟨_,length_replicate (a := 0)⟩
  have ht : ([m].flatMap encodeRawBytes).take 9 = varint (2 ^ 56) := by
    have hni : 9 = (varint (2 ^ 56)).length := rfl
    rw [flatMap_cons,encodeRawBytes,hm,append_assoc,hni,take_left]
  refine ⟨m,fun hn => ?_,?_⟩
  · rw [hn] at hm
    cases hm
  · rw [ht]
    rfl

section
variable {p : Protoutil} {b : Block}

def lengthSize (p : Protoutil) (b : Block) : Nat := (varint (serializeBlock p b).1.length).length

theorem next_block (hs : b.Sized) (be af : Bytes) :
    nextBlockBytes (be ++ (blockFrame p b ++ af)) be.length =
      .ok (some ((serializeBlock p b).1,lengthSize p b)) :=
  next_complete hs.bytes be af

end

structure Located where
  fileNum : Nat
  offset : Nat
  block : Block

variable (p : Protoutil)

def fileOf (bs : List Block) : Bytes := bs.flatMap (blockFrame p)

def located (fileNum : Nat) : Nat → List Block → List Located
  | _,[] => []
  | offset,b :: bs => ⟨fileNum,offset,b⟩ :: located fileNum (offset + (blockFrame p b).length) bs

def locatedIn : Nat → List (List Block) → List Located
  | _,[] => []
  | fileNum,bs :: rest => located p fileNum 0 bs ++ locatedIn (fileNum + 1) rest

def Located.placed (l : Located) : Bytes × BlockPlacementInfo :=
  ((serializeBlock p l.block).1,⟨l.fileNum,l.offset,l.offset + lengthSize p l.block⟩)

def Located.entry (l : Located) : BlockIdxInfo := blockIdxInfo p l.fileNum l.offset l.block

/-- What a crash may leave behind the last complete block. -/
inductive Torn : Bytes → Prop
  | nothing : Torn []
  | part (sized : b.Sized) (pos : 0 < j) (lt : j < (blockFrame p b).length) :
      Torn ((blockFrame p b).take j)

variable {p}

theorem file_append (bs bs' : List Block) : fileOf p (bs ++ bs') = fileOf p bs ++ fileOf p bs' :=
  flatMap_append

theorem file_cons (b : Block) (bs : List Block) :
    fileOf p (b :: bs) = blockFrame p b ++ fileOf p bs :=
  flatMap_cons

theorem located_append (fn o : Nat) (bs bs' : List Block) : located p fn o (bs ++ bs') =
      located p fn o bs ++ located p fn (o + (fileOf p bs).length) bs' := by
  induction bs generalizing o with
  | nil => rfl
  | cons b bs ih =>
    rw [cons_append,located,located,ih,cons_append,file_cons,length_append,Nat.add_assoc]

theorem located_in_append (fn : Nat) (fs fs' : List (List Block)) :
    locatedIn p fn (fs ++ fs') = locatedIn p fn fs ++ locatedIn p (fn + fs.length) fs' := by
  induction fs generalizing fn with
  | nil => rfl
  | cons bs fs ih =>
    rw [cons_append,locatedIn,locatedIn,ih,append_assoc,length_cons,
      Nat.add_right_comm,Nat.add_assoc]

theorem located_blocks (fn o : Nat) (bs : List Block) :
    (located p fn o bs).map Located.block = bs := by
  induction bs generalizing o with
  | nil => rfl
  | cons b bs ih => rw [located,map_cons,ih]

theorem located_in_blocks (fn : Nat) (fs : List (List Block)) :
    (locatedIn p fn fs).map Located.block = fs.flatten := by
  induction fs generalizing fn with
  | nil => rfl
  | cons bs fs ih => rw [locatedIn,map_append,located_blocks,ih,flatten_cons]

theorem file_frames (bs : List Block) :
    fileOf p bs = (bs.map fun b => (serializeBlock p b).1).flatMap encodeRawBytes :=
  by rw [flatMap_map]; rfl

theorem placed_frames (fn o : Nat) (bs : List Block) : (located p fn o bs).map (Located.placed p) =
      framed fn o (bs.map fun b => (serializeBlock p b).1) := by
  induction bs generalizing o with
  | nil => rfl
  | cons b bs ih =>
    rw [located,map_cons,ih]
    rfl

theorem Torn.rest (ht : Torn p after) : Rest after := by
  cases ht with
  | nothing => exact .inl rfl
  | part si ps lt => exact .inr ⟨_,_,si.bytes,ps,lt,rfl⟩

theorem file_count (bs : List Block) : bs.length ≤ (fileOf p bs).length := by
  have hc := items_length_le (bs.map fun b => (serializeBlock p b).1)
  rw [length_map,← file_frames] at hc
  exact hc

section
variable {fs : List Bytes} {bs : List Block} {be af : Bytes}

theorem small_frames (hs : ∀ b ∈ bs, b.Sized) :
    ∀ m ∈ bs.map fun b => (serializeBlock p b).1, m.length < 2 ^ 56 :=
  forall_mem_map.mpr fun b hb => (hs b hb).bytes

theorem scan_complete (hs : ∀ b ∈ bs, b.Sized)
    (hf : fs[fileNum]? = some (be ++ (fileOf p bs ++ af))) (ht : Torn p af) :
    scanForLastCompleteBlock fs fileNum be.length =
      .ok (((located p fileNum be.length bs).map (Located.placed p)).getLast?.map Prod.fst,
        be.length + (fileOf p bs).length,bs.length) := by
  rw [file_frames] at hf ⊢
  rw [scan_framed (small_frames hs) ht.rest hf,placed_frames,
    ← length_map Prod.fst,framed_fst,length_map]

theorem file_blocks (hs : ∀ b ∈ bs, b.Sized) (hf : fs[fileNum]? = some (be ++ fileOf p bs)) :
    fileBlocks fs fileNum be.length =
      .ok ((located p fileNum be.length bs).map (Located.placed p)) := by
  rw [← append_nil (fileOf p bs),file_frames] at hf
  rw [fileBlocks,read_file (small_frames hs) (.inl rfl) hf,placed_frames]
  rfl

end

theorem fetch_located {fs : List Bytes} (hs : b.Sized)
    (hf : fs[fileNum]? = some (fileOf p (bs ++ b :: bs'))) (l : Nat) :
    fetchBlockBytes fs ⟨fileNum,(fileOf p bs).length,l⟩ = .ok (serializeBlock p b).1 := by
  rw [file_append,file_cons] at hf
  rw [fetchBlockBytes]
  rw [hf]
  dsimp only
  rw [next_block hs]
  rfl

end PluggableHcs.Blkstorage
