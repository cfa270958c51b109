import PluggableHcs.Blkstorage.Recovery

namespace PluggableHcs.Blkstorage
open Digits Txmgmt Runs BlockfileMgr
open List hiding tail

variable {p : Protoutil} {conf : Conf} {ids : List Bytes} {m : BlockfileMgr} {y : Layout} {b : Block}

/-- A block that the code can hold and index, and that a file can hold with its length. -/
@[mk_iff]
structure Fits (p : Protoutil) (conf : Conf) (b : Block) : Prop where
  sized : b.Sized
  indexable : b.Indexable p conf
  fits : (blockFrame p b).length ≤ conf.maxBlockfileSize

instance : Decidable (Fits p conf b) := decidable_of_iff' _ (fits_iff p conf b)

abbrev BlockfileMgr.indexWith (p : Protoutil) (conf : Conf) (m : BlockfileMgr) (b : Block) :
    BlockIndex :=
  m.disk.index.put conf.attrsToIndex
    (blockIdxInfo p (m.rolled p conf b).latestFileNumber (m.rolled p conf b).latestFileSize b)

def Layout.roll (y : Layout) : Layout := ⟨y.full ++ [y.last],[]⟩

theorem Layout.roll_blocks (y : Layout) : y.roll.blocks = y.blocks := by
  rw [Layout.blocks,roll,append_nil,flatten_append,flatten_singleton]
  rfl

open Layout (blocks_extend extend roll roll_blocks)

theorem Layout.roll_located (y : Layout) : y.roll.located p = y.located p := by
  rw [Layout.located,roll,located_in_append,Layout.located]
  simp [locatedIn,Blkstorage.located]

theorem Layout.roll_files (y : Layout) : y.roll.files p = y.files p ++ [[]] := by
  rw [Layout.files,roll,map_append,Layout.files]
  rfl

theorem Layout.files_length (y : Layout) : (y.files p).length = y.full.length + 1 := by
  rw [Layout.files,length_map,length_append]
  rfl

structure Target (p : Protoutil) (conf : Conf) (m : BlockfileMgr) (b : Block) (y z : Layout) :
    Prop where
  valid : z.Valid p conf m.disk.snapshot
  blocks : z.blocks = y.blocks
  located : z.located p = y.located p
  info : m.rolled p conf b = z.info p (bootstrapped m.disk.snapshot).height
  files : ∃ more, newBlockfileWriter m.disk.files z.full.length = z.files p ++ more ∧
    (more = [] ∨ more = [[]])

theorem Holds.rolled_files (hs : Holds p conf ids m y) :
    newBlockfileWriter m.disk.files y.roll.full.length = y.files p ++ [[]] := by
  obtain ⟨mo,hfs,hm⟩ := hs.files
  rw [newBlockfileWriter,roll,length_append,hfs,length_append,Layout.files_length]
  rcases hm with rfl | rfl
  · rw [if_neg (by simp),append_nil]
  · rw [if_pos (by simp)]

theorem Holds.target_same (ho : Holds p conf ids m y) (hn : m.needsNextFile p conf b = false) :
    Target p conf m b y y := by
  obtain ⟨mo,hfs,hm⟩ := ho.files
  refine ⟨ho.valid,rfl,rfl,?_,mo,?_,hm⟩
  · rw [rolled,hn]
    exact ho.info
  rw [hfs,newBlockfileWriter,if_pos]
  rw [length_append,Layout.files_length]
  omega

theorem Holds.target (ho : Holds p conf ids m y) (ha : Fits p conf b) :
    (m.needsNextFile p conf b = false ∧ Target p conf m b y y) ∨
      (m.needsNextFile p conf b = true ∧ Target p conf m b y y.roll) := by
  cases hn : m.needsNextFile p conf b with
  | false => exact .inl ⟨rfl,ho.target_same hn⟩
  | true =>
    -- A block that fits makes the file too large only if there is something in it.
    have hl : y.last ≠ [] := by
      intro hni
      have hs : m.blockfilesInfo.latestFileSize = 0 := by
        rw [ho.info,Layout.info,hni]
        rfl
      have hlt := of_decide_eq_true hn
      have hle := ha.fits
      omega
    have hb : y.blocks.length ≠ 0 := by
      rw [Layout.blocks,length_append]
      have hp := length_pos_of_ne_nil hl
      omega
    refine .inr ⟨rfl,⟨?_,?_,?_,?_⟩,y.roll_blocks,y.roll_located,?_,[],?_,.inl rfl⟩
    · rw [roll_blocks]
      exact ho.valid.sized
    · rw [roll_blocks]
      exact ho.valid.indexable
    · intro bs hbs
      rcases mem_append.mp hbs with hf | hne
      · exact ho.valid.full bs hf
      · rw [mem_singleton.mp hne]
        exact hl
    · rw [roll_blocks]
      exact ho.valid.chained
    · rw [rolled,hn,if_pos rfl,ho.info,BlockfilesInfo.nextFile,Layout.info,
        Layout.info,roll_blocks,if_neg hb,decide_eq_false hb]
      simp [roll,fileOf]
    · rw [ho.rolled_files,Layout.roll_files,append_nil]

theorem append_files {z : Layout} (h : newBlockfileWriter files z.full.length = z.files p ++ mo)
    (bs : Bytes) : appendFile (newBlockfileWriter files z.full.length) z.full.length bs =
      z.full.map (fileOf p) ++ ((fileOf p z.last ++ bs) :: mo) := by
  have hl : z.full.length = (z.full.map (fileOf p)).length := (length_map _).symm
  rw [h,Layout.files,map_append,append_assoc,appendFile,hl]
  exact modify_middle _ _ _ _

theorem Target.extended (ht : Target p conf m b y z) (hs : Holds p conf ids m y)
    (hf : Fits p conf b) (hc : m.checkBlock b = .ok ()) :
    (z.extend [b]).Valid p conf m.disk.snapshot := by
  obtain ⟨hn,hp⟩ : b.header.number = m.bcInfo.height ∧
      b.header.previousHash = m.bcInfo.currentBlockHash := by
    unfold checkBlock at hc
    split at hc
    · cases hc
    split at hc
    · cases hc
    · rename_i hn hp
      exact ⟨not_not.mp hn,not_not.mp hp⟩
  refine ⟨?_,?_,ht.valid.full,?_⟩
  · rw [blocks_extend]
    exact forall_mem_append.mpr ⟨ht.valid.sized,forall_mem_singleton.mpr hf.sized⟩
  · rw [blocks_extend]
    exact forall_mem_append.mpr ⟨ht.valid.indexable,forall_mem_singleton.mpr hf.indexable⟩
  · rw [blocks_extend,chained_append]
    refine ⟨ht.valid.chained,?_,?_,trivial⟩
    · rw [hn,hs.bcInfo,ht.blocks]
    · rw [hp,hs.bcInfo,ht.blocks]

theorem Target.added (ht : Target p conf m b y z) (hn : b.header.number =
      (bootstrapped m.disk.snapshot).height + z.blocks.length) : (m.rolled p conf b).withBlock p b =
      (z.extend [b]).info p (bootstrapped m.disk.snapshot).height := by
  have hc : (z.extend [b]).blocks.length = z.blocks.length + 1 := by
    rw [blocks_extend,length_append]
    rfl
  have hs : (fileOf p [b]).length = (blockFrame p b).length := by simp [fileOf]
  rw [ht.info,BlockfilesInfo.withBlock,Layout.info,Layout.info,Layout.extend_size,hc,hn,hs]
  simp [extend]

theorem Target.indexed (ht : Target p conf m b y z) (hs : Holds p conf ids m y) :
    Indexed p conf ids m.disk.snapshot (m.indexWith p conf b) ((z.extend [b]).located p) := by
  have ho := hs.index
  rw [← ht.located] at ho
  rw [indexWith,Layout.located_extend,ht.info]
  exact ho.put ⟨z.full.length,(fileOf p z.last).length,b⟩

theorem Fits.index_block (hf : Fits p conf b) (ha : .blockNum ∈ conf.attrsToIndex) :
    m.indexBlock p conf b = .ok (m.indexWith p conf b) :=
  hf.indexable.put (ne_nil_of_mem ha) _ _ _

def CrashPoint.Unsaved (p : Protoutil) (b : Block) : CrashPoint → Prop
  | .rolling _ _ => False
  | .appending n => (blockFrame p b).length ≤ n
  | .appended saved _ => saved = false

instance decidableUnsaved (p : Protoutil) (b : Block) :
    (point : CrashPoint) → Decidable (point.Unsaved p b)
  | .rolling _ _ => inferInstanceAs (Decidable False)
  | .appending n => inferInstanceAs (Decidable ((blockFrame p b).length ≤ n))
  | .appended saved _ => inferInstanceAs (Decidable (saved = false))

theorem left_of_files (hm : mo = [] ∨ mo = [[]]) : Left p z [] (z.files p ++ mo) where
  found := by
    refine ⟨mo,?_,hm⟩
    rw [Layout.files,map_append,append_assoc,append_nil]
    rfl
  torn := .nothing

theorem Left.same_info (left : Left p z tail files) (first : Nat) :
    syncBlockfilesInfoFromFS files (z.info p first) = .ok (z.info p first) := by
  have he : z.extend [] = z := by rw [extend,append_nil]
  have hl : Left p (z.extend []) tail files := by rwa [he]
  have hs : syncBlockfilesInfoFromFS files (z.info p first) = .ok ((z.extend []).info p first) :=
    sync_info hl (forall_mem_nil _) (fun _ => .inl rfl)
  rwa [he] at hs

section
variable {fs : List Bytes} {ix : BlockIndex} {sn : Option BootstrappingSnapshotInfo}
  (ar : .blockNum ∈ conf.attrsToIndex)
include ar

theorem Left.comes_up {z : Layout} (hv : (z.extend new).Valid p conf sn)
    (left : Left p (z.extend new) tail fs)
    (ha : info = z.info p (bootstrapped sn).height ∧
        (z.blocks = [] → new = [] ∨ (bootstrapped sn).height = 0) ∨
      info = (z.extend new).info p (bootstrapped sn).height)
    (hi : Indexed p conf ids sn ix (z.located p) ∨ Indexed p conf ids sn ix ((z.extend new).located p)) :
    ∃ m, newBlockfileMgr p conf ⟨fs,some info,ix,sn⟩ = .ok m ∧
      m.disk.snapshot = sn ∧ Holds p conf ids m (z.extend new) := by
  have hsi : ∀ b ∈ new, b.Sized := fun b hb =>
    hv.sized b (mem_append_right _ (mem_append_right _ hb))
  have hs : syncBlockfilesInfoFromFS fs info =
      .ok ((z.extend new).info p (bootstrapped sn).height) := by
    rcases ha with ⟨rfl,co⟩ | rfl
    · exact sync_info left hsi co
    · exact left.same_info _
  rcases hi with ho | hn
  · exact Blkstorage.comes_up ar hv rfl hs left.truncate (z.located_extend new) ho
  · exact Blkstorage.comes_up ar hv rfl hs left.truncate (append_nil _).symm hn

theorem Left.comes_up_same (hv : z.Valid p conf sn) (left : Left p z tail fs)
    (hi : Indexed p conf ids sn ix (z.located p)) : ∃ m, newBlockfileMgr p conf
        ⟨fs,some (z.info p (bootstrapped sn).height),ix,sn⟩ = .ok m ∧
      m.disk.snapshot = sn ∧ Holds p conf ids m z :=
  Blkstorage.comes_up ar hv rfl (left.same_info _) left.truncate (append_nil _).symm hi

theorem missing_file_comes_up (hv : y.roll.Valid p conf sn) (hi : Indexed p conf ids sn ix (y.roll.located p)) :
    ∃ m, newBlockfileMgr p conf
        ⟨y.files p,some (y.roll.info p (bootstrapped sn).height),ix,sn⟩ = .ok m ∧
      m.disk.snapshot = sn ∧ Holds p conf ids m y.roll := by
  have hl : y.roll.full.length = (y.files p).length := by
    rw [Layout.files_length,roll,length_append]
    rfl
  have hs : syncBlockfilesInfoFromFS (y.files p) (y.roll.info p (bootstrapped sn).height) =
      .ok (y.roll.info p (bootstrapped sn).height) := by
    have hn : (y.files p)[(y.roll.info p (bootstrapped sn).height).latestFileNumber]? = none := by
      change (y.files p)[y.roll.full.length]? = none
      rw [hl]
      exact List.getElem?_length _
    rw [syncBlockfilesInfoFromFS,hn]
  refine Blkstorage.comes_up ar hv rfl hs ⟨[],?_,.inl rfl⟩ (append_nil _).symm hi
  dsimp only
  rw [newBlockfileWriter,if_neg (by omega),hl,truncateFile,modify_middle,Layout.roll_files,
    append_nil]
  rfl

end

section

def BlockfileMgr.partly (p : Protoutil) (conf : Conf) (m : BlockfileMgr) (b : Block)
    (bytes : Bytes) :
    List Bytes :=
  appendFile (newBlockfileWriter m.disk.files (m.rolled p conf b).latestFileNumber)
    (m.rolled p conf b).latestFileNumber bytes

theorem written_appending (n : Nat) : m.written p conf b (.appending n) =
    ⟨m.partly p conf b ((blockFrame p b).take n),some (m.rolled p conf b),m.disk.index,
      m.disk.snapshot⟩ := rfl

theorem written_all (h : m.indexBlock p conf b = .ok ix) : m.written p conf b (.appended true true) =
    ⟨m.partly p conf b (blockFrame p b),some ((m.rolled p conf b).withBlock p b),ix,
      m.disk.snapshot⟩ := by
  rw [written,h]
  rfl

variable {z : Layout}

theorem Target.partly (ht : Target p conf m b y z) (bs : Bytes) : ∃ mo,
    m.partly p conf b bs = z.full.map (fileOf p) ++ ((fileOf p z.last ++ bs) :: mo) ∧
      (mo = [] ∨ mo = [[]]) := by
  obtain ⟨mo,hfs,hm⟩ := ht.files
  refine ⟨mo,?_,hm⟩
  rw [BlockfileMgr.partly,ht.info]
  exact append_files hfs bs

theorem Target.left_complete (ht : Target p conf m b y z) :
    Left p (z.extend [b]) [] (m.partly p conf b (blockFrame p b)) where
  found := by
    obtain ⟨mo,hfs,hm⟩ := ht.partly (blockFrame p b)
    refine ⟨mo,hfs.trans ?_,hm⟩
    rw [extend,file_append,append_nil,file_cons]
    simp [fileOf]
  torn := .nothing

theorem Target.left_torn (ht : Target p conf m b y z) (hf : Fits p conf b)
    (hn : n < (blockFrame p b).length) :
    Left p z ((blockFrame p b).take n) (m.partly p conf b ((blockFrame p b).take n)) where
  found := ht.partly _
  torn := by
    cases n with
    | zero => exact .nothing
    | succ n => exact .part hf.sized (Nat.succ_pos n) hn

end

theorem Holds.some_target (hs : Holds p conf ids m y) (hf : Fits p conf b) : ∃ z, Target p conf m b y z :=
  (hs.target hf).elim (fun h => ⟨_,h.2⟩) fun h => ⟨_,h.2⟩

variable (ar : .blockNum ∈ conf.attrsToIndex) (ho : Holds p conf ids m y) (fs : Fits p conf b)
include ar ho fs

theorem Holds.add_block (hh : m.checkBlock b = .ok ()) : ∃ m' z,
      m.addBlock p conf b = .ok m' ∧ m'.disk.snapshot = m.disk.snapshot ∧ Holds p conf ids m' z ∧
      z.blocks = y.blocks ++ [b] := by
  obtain ⟨z,ta⟩ := ho.some_target fs
  obtain ⟨mo,hfs,hm⟩ := ta.left_complete.found
  have hv := ta.extended ho fs hh
  have hc := hv.chained
  rw [blocks_extend] at hc
  have hbs : (z.extend [b]).blocks = y.blocks ++ [b] := by
    rw [blocks_extend,ta.blocks]
  have hin := ta.added hc.last_number
  have hi := ta.indexed ho
  refine ⟨⟨⟨m.partly p conf b (blockFrame p b),some ((m.rolled p conf b).withBlock p b),
      m.indexWith p conf b,m.disk.snapshot⟩,(m.rolled p conf b).withBlock p b,m.bcInfo.update p b⟩,
    z.extend [b],?_,rfl,?_,hbs⟩
  · rw [addBlock,hh,written_all (fs.index_block ar),fs.index_block ar]
    rfl
  constructor
  · exact hv
  · refine ⟨mo,?_,hm⟩
    rw [hfs,Layout.files,map_append,append_assoc,append_nil]
    rfl
  · exact hin
  · rfl
  · exact hi
  · rw [hbs,foldl_append]
    exact congrArg (fun i => BlockchainInfo.update p i b) ho.bcInfo

theorem Holds.roll_crash (cr sa : Bool) : ∃ m' z,
      newBlockfileMgr p conf (m.written p conf b (.rolling cr sa)) = .ok m' ∧
      m'.disk.snapshot = m.disk.snapshot ∧ Holds p conf ids m' z ∧ z.blocks = y.blocks := by
  obtain ⟨mo,hfs,hm⟩ := ho.files
  have h1 : Left p y [] m.disk.files := hfs ▸ left_of_files hm
  rcases ho.target fs with ⟨hn,_⟩ | ⟨hn,ta⟩
  · obtain ⟨m',hm',hs,hh⟩ := h1.comes_up_same ar ho.valid ho.index
    refine ⟨m',y,?_,hs,hh,rfl⟩
    have hd : m.written p conf b (.rolling cr sa) = m.disk := by
      rw [written,hn]
      rfl
    rw [← ho.info,← ho.saved] at hm'
    rw [hd]
    exact hm'
  · have hi := ho.index
    rw [← ta.located] at hi
    have hnu : (m.rolled p conf b).latestFileNumber = y.roll.full.length := by
      rw [ta.info]
      rfl
    have hl : Left p y.roll [] (y.files p ++ [[]]) := by
      have hl' := left_of_files (p := p) (z := y.roll) (.inl rfl)
      rwa [Layout.roll_files,append_nil] at hl'
    rw [written,if_pos hn,hnu,ho.rolled_files,ta.info,ho.info]
    cases sa with
    | true =>
      have hr : ∃ m', newBlockfileMgr p conf ⟨if cr then y.files p ++ [[]] else m.disk.files,
          some (y.roll.info p (bootstrapped m.disk.snapshot).height),m.disk.index,m.disk.snapshot⟩ =
          .ok m' ∧ m'.disk.snapshot = m.disk.snapshot ∧ Holds p conf ids m' y.roll := by
        cases cr with
        | true => exact hl.comes_up_same ar ta.valid hi
        | false =>
          rw [hfs]
          rcases hm with rfl | rfl
          · rw [append_nil]
            exact missing_file_comes_up ar ta.valid hi
          · exact hl.comes_up_same ar ta.valid hi
      obtain ⟨m',hm',hs,hh⟩ := hr
      exact ⟨m',y.roll,hm',hs,hh,y.roll_blocks⟩
    | false =>
      have hsa : Left p y [] (if cr then y.files p ++ [[]] else m.disk.files) := by
        cases cr with
        | true => exact left_of_files (.inr rfl)
        | false => exact h1
      obtain ⟨m',hm',hs,hh⟩ := hsa.comes_up_same ar ho.valid ho.index
      exact ⟨m',y,hm',hs,hh,rfl⟩

theorem Holds.crash (ha : m.checkBlock b = .ok ()) (po : CrashPoint)
    (hb : y.blocks = [] → po.Unsaved p b → (bootstrapped m.disk.snapshot).height = 0) :
    ∃ m' z, newBlockfileMgr p conf (m.written p conf b po) = .ok m' ∧
      m'.disk.snapshot = m.disk.snapshot ∧ Holds p conf ids m' z ∧
      (z.blocks = y.blocks ∨ z.blocks = y.blocks ++ [b]) := by
  obtain ⟨z,ta⟩ := ho.some_target fs
  have hi := ho.index
  rw [← ta.located] at hi
  have hbs : (z.extend [b]).blocks = y.blocks ++ [b] := by
    rw [blocks_extend,ta.blocks]
  have hv := ta.extended ho fs ha
  cases po with
  | rolling cr sa =>
    obtain ⟨m',w,hm',hs,hh,hsa⟩ := ho.roll_crash ar fs cr sa
    exact ⟨m',w,hm',hs,hh,.inl hsa⟩
  | appending n =>
    rw [written_appending]
    by_cases hn : n < (blockFrame p b).length
    · obtain ⟨m',hm',hs,hh⟩ := (ta.left_torn fs hn).comes_up_same ar ta.valid hi
      rw [← ta.info] at hm'
      exact ⟨m',z,hm',hs,hh,.inl ta.blocks⟩
    rw [take_of_length_le (Nat.le_of_not_lt hn)]
    obtain ⟨m',hm',hs,hh⟩ := ta.left_complete.comes_up ar hv
      (.inl ⟨ta.info,fun he =>
        .inr (hb (ta.blocks ▸ he) (Nat.le_of_not_lt hn))⟩) (.inl hi)
    exact ⟨m',_,hm',hs,hh,.inr hbs⟩
  | appended sa ie =>
    have hc := hv.chained
    rw [blocks_extend] at hc
    have hio := ta.added hc.last_number
    have hin := ta.indexed ho
    have hib := fs.index_block (m := m) ar
    have hsv : (if sa then (m.rolled p conf b).withBlock p b else m.rolled p conf b) =
          z.info p (bootstrapped m.disk.snapshot).height ∧
          (z.blocks = [] → [b] = [] ∨ (bootstrapped m.disk.snapshot).height = 0) ∨
        (if sa then (m.rolled p conf b).withBlock p b else m.rolled p conf b) =
          (z.extend [b]).info p (bootstrapped m.disk.snapshot).height := by
      cases sa with
      | false => exact .inl ⟨ta.info,fun he => .inr (hb (ta.blocks ▸ he) rfl)⟩
      | true => exact .inr hio
    have his : Indexed p conf ids m.disk.snapshot
          (if ie then (m.indexBlock p conf b).toOption.getD m.disk.index else m.disk.index)
          (z.located p) ∨
        Indexed p conf ids m.disk.snapshot
          (if ie then (m.indexBlock p conf b).toOption.getD m.disk.index else m.disk.index)
          ((z.extend [b]).located p) := by
      cases ie with
      | false => exact .inl hi
      | true =>
        rw [hib]
        exact .inr hin
    obtain ⟨m',hm',hs,hh⟩ := ta.left_complete.comes_up ar hv hsv his
    exact ⟨m',_,hm',hs,hh,.inr hbs⟩

end PluggableHcs.Blkstorage
