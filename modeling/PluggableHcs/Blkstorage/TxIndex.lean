import PluggableHcs.Blkstorage.BlockIndex
import PluggableHcs.Snapshot.File

namespace PluggableHcs.Blkstorage
open Digits List Tables Snapshot
open Txmgmt (Bytes)

section
variable (attrsToIndex : List IndexableAttr)

def isDuplicate (index : BlockIndex) (txID : Bytes) : Bool :=
  match index.getTxIDVal attrsToIndex txID with
  | .error .notFoundInIndex => false
  | _ => true

def retrieveTxID : Bytes → Option Bytes
  | [] => none
  | b :: remainingBytes =>
    if b ≠ txIDIdxKeyPrefix then none
    else
      match decodeOrdered remainingBytes with
      | none => none
      | some (txIDLen,n) =>
        if (remainingBytes.drop n).length ≤ txIDLen then none
        else some ((remainingBytes.drop n).take txIDLen)

/-- An id that is the same as the previous one is skipped. -/
def uniqueFrom : Bytes → List Bytes → List Bytes
  | _,[] => []
  | previousTxID,txID :: txIDs =>
    if previousTxID = txID then uniqueFrom previousTxID txIDs else txID :: uniqueFrom txID txIDs

/-- The data file and the metadata file. Without ids there are none. -/
def idFiles : List Bytes → Option (Bytes × Bytes)
  | [] => none
  | ids => some (1 :: ids.flatMap encodeBytes,1 :: varint ids.length)

def exportUniqueTxIDs (index : BlockIndex) : Except Fault (Option (Bytes × Bytes)) :=
  if .txID ∈ attrsToIndex then
    match (index.txIDs.entries.filter (inRange [txIDIdxKeyPrefix] [txIDIdxKeyPrefix + 1])).mapM
        fun e => retrieveTxID e.1 with
    | none => .error .malformedBlock
    | some txIDs => .ok (idFiles (uniqueFrom [] txIDs))
  else .error .attrNotIndexed

end

def importFrom (lastBlockNum : Nat) : Nat → Nat → FileReader → TxIDIndex → Option TxIDIndex
  | 0,_,_,db => some db
  | n + 1,i,r,db => do
    let (txID,r) ← r.decodeBytes
    importFrom lastBlockNum n (i + 1) r (db.insert (constructTxIDKey txID lastBlockNum i) none)

/-- The ids and the savepoint. A file that is not there is not opened. -/
def importTxIDsFromSnapshot (limits : List Nat) (lastBlockNum : Nat)
    (files : Option (Bytes × Bytes)) : Option BlockIndex := do
  let (data,metadata) ← files
  let txIDsMetadata ← openFile metadata 1 []
  let (numTxIDs,_) ← txIDsMetadata.decodeUVarInt
  let txIDsData ← openFile data 1 limits
  let txIDs ← importFrom lastBlockNum numTxIDs 0 txIDsData Table.empty
  pure ⟨some lastBlockNum,[],txIDs⟩

variable {attrs : List IndexableAttr} {o o' : Occurrence} {os : List Occurrence} {id : Bytes}
  {index : BlockIndex}

theorem InOrder.is_duplicate (h : InOrder os) (hx : index.txIDs = putAll Table.empty os)
    (ha : .txID ∈ attrs) (hi : id.length < 2 ^ 64) :
    isDuplicate attrs index id = true ↔ ∃ o ∈ os, o.txID = id := by
  rw [isDuplicate,h.get_val hx ha hi]
  cases hf : os.find? fun o => o.txID = id with
  | none =>
    have hn := find?_eq_none.mp hf
    refine iff_of_false Bool.false_ne_true ?_
    rintro ⟨o,ho,hid⟩
    exact hn o ho (decide_eq_true hid)
  | some o =>
    have hid : o.txID = id := by simpa using find?_some hf
    refine iff_of_true ?_ ⟨o,mem_of_find?_eq_some hf,hid⟩
    rw [answer]
    cases o.value <;> rfl

theorem index_blocks {infos : List BlockIdxInfo} (ha : .txID ∈ attrs)
    (h : infos.foldlM (BlockIndex.indexBlock attrs) index = .ok index') :
    index' = infos.foldl (BlockIndex.put attrs) index := by
  induction infos generalizing index with
  | nil => exact (Except.ok.inj h).symm
  | cons info infos ih =>
    rw [foldlM_cons,BlockIndex.indexBlock,if_neg (ne_nil_of_mem ha)] at h
    split at h
    · exact ih h
    · cases h

theorem Occurrence.Fits.retrieve (hf : o.Fits) : retrieveTxID o.key = some o.txID := by
  rw [Occurrence.key,constructTxIDKey,txIDStartKey,cons_append,append_assoc,retrieveTxID,
    if_neg (fun h => h rfl),decode_ordered hf.1]
  dsimp only
  rw [drop_left,if_neg,take_left]
  rw [length_append,length_append,ordered,length_cons]
  omega

theorem in_prefix_range (o : Occurrence) :
    inRange [txIDIdxKeyPrefix] [txIDIdxKeyPrefix + 1] o.entry = true := by
  rw [inRange,decide_eq_true_eq,Occurrence.entry,Occurrence.key,constructTxIDKey,txIDStartKey,
    cons_append,cons_lt_cons_iff,cons_lt_cons_iff]
  refine ⟨?_,.inl (by decide)⟩
  rintro (h | ⟨_,h⟩)
  · exact lt_irrefl _ h
  · exact not_lt_nil _ h

theorem map_m_some {f : α → Option β} {g : α → β} {l : List α} (h : ∀ a ∈ l, f a = some (g a)) :
    l.mapM f = some (l.map g) := by
  induction l with
  | nil => rfl
  | cons a l ih =>
    obtain ⟨ha,hl⟩ := forall_mem_cons.mp h
    rw [mapM_cons,ha,ih hl]
    rfl

theorem append_lt_of_length {x y : Bytes} (hl : x.length = y.length) (h : x ++ r < y ++ s) :
    x < y ∨ x = y := by
  induction x generalizing y with
  | nil => exact .inr (length_eq_zero_iff.mp hl.symm).symm
  | cons a x ih =>
    cases y with
    | nil => cases hl
    | cons b y =>
      rw [cons_append,cons_append,cons_lt_cons_iff] at h
      rw [cons_lt_cons_iff]
      rcases h with h | ⟨rfl,h⟩
      · exact .inl (.inl h)
      · exact (ih (Nat.succ.inj hl) h).imp (fun h => .inr ⟨rfl,h⟩) (congrArg _)

/-- Keys in order have their ids in the order of the range scans, and those of one id together. -/
theorem Occurrence.Fits.start_le (hf : o.Fits) (hf' : o'.Fits) (h : o.key < o'.key) :
    txIDStartKey o.txID ≤ txIDStartKey o'.txID := by
  rw [key,key,constructTxIDKey,constructTxIDKey,txIDStartKey,txIDStartKey,cons_append,cons_append,
    append_assoc,append_assoc,cons_lt_cons_iff] at h
  have h := (h.resolve_left (lt_irrefl _)).2
  rw [ordered_lt hf.1 hf'.1] at h
  rw [le_iff_lt_or_eq,txIDStartKey,txIDStartKey,cons_lt_cons_iff,ordered_lt hf.1 hf'.1]
  rcases h with h | ⟨hl,h⟩
  · exact .inl (.inr ⟨rfl,.inl h⟩)
  · exact (append_lt_of_length hl h).imp (fun h => .inr ⟨rfl,.inr ⟨hl,h⟩⟩) fun h => by rw [h]

theorem start_key_inj {x y : Bytes} (hx : x.length < 2 ^ 64) (hy : y.length < 2 ^ 64)
    (h : txIDStartKey x = txIDStartKey y) : x = y :=
  (ordered_append_inj hx hy (List.cons.inj h).2).2

/-- What the export writes of ids in order: each one once, but not the one it starts with. -/
theorem unique_from_sorted {ids : List Bytes} {previous : Bytes}
    (sized : ∀ x ∈ previous :: ids, x.length < 2 ^ 64)
    (sorted : (previous :: ids).Pairwise fun x y => txIDStartKey x ≤ txIDStartKey y) :
    (previous :: uniqueFrom previous ids).Pairwise (fun x y => txIDStartKey x < txIDStartKey y) ∧
      ∀ x, x ∈ uniqueFrom previous ids ↔ x ∈ ids ∧ x ≠ previous := by
  induction ids generalizing previous with
  | nil => exact ⟨pairwise_singleton _ _,fun x => iff_of_false not_mem_nil fun h => not_mem_nil h.1⟩
  | cons x ids ih =>
    obtain ⟨hp,hs⟩ := pairwise_cons.mp sorted
    obtain ⟨hp',hids⟩ := forall_mem_cons.mp sized
    rw [uniqueFrom]
    split
    · next heq =>
      subst heq
      obtain ⟨hsort,hm⟩ := ih hids hs
      refine ⟨hsort,fun y => ?_⟩
      rw [hm,mem_cons]
      exact ⟨fun h => ⟨.inr h.1,h.2⟩,fun h => ⟨h.1.resolve_left h.2,h.2⟩⟩
    · next hne =>
      obtain ⟨hsort,hm⟩ := ih hids hs
      have hlt : txIDStartKey previous < txIDStartKey x := lt_of_le_of_ne (hp x mem_cons_self)
        fun h => hne (start_key_inj hp' (hids x mem_cons_self) h)
      have hall := (pairwise_cons.mp hsort).1
      refine ⟨pairwise_cons.mpr ⟨?_,hsort⟩,fun y => ?_⟩
      · exact forall_mem_cons.mpr ⟨hlt,fun y hy => hlt.trans (hall y hy)⟩
      · rw [mem_cons,hm,mem_cons]
        constructor
        · rintro (rfl | ⟨hy,hyx⟩)
          · exact ⟨.inl rfl,fun h => hne h.symm⟩
          · refine ⟨.inr hy,?_⟩
            rintro rfl
            exact absurd ((hall y ((hm y).mpr ⟨hy,hyx⟩)).trans hlt) (lt_irrefl _)
        · rintro ⟨hy,_⟩
          by_cases hyx : y = x
          · exact .inl hyx
          · exact .inr ⟨hy.resolve_left hyx,hyx⟩

theorem InOrder.retrieved (h : InOrder os) : ∃ ids,
    (putAll Table.empty os).entries.mapM (fun e => retrieveTxID e.1) = some ids ∧
    ids.Pairwise (fun x y => txIDStartKey x ≤ txIDStartKey y) ∧
    ∀ id, id ∈ ids ↔ ∃ o ∈ os, o.txID = id := by
  have hr : ∀ e ∈ (putAll Table.empty os).entries, ∃ o ∈ os, o.entry = e ∧
      (retrieveTxID e.1).getD [] = o.txID ∧ retrieveTxID e.1 = some ((retrieveTxID e.1).getD []) := by
    intro e he
    obtain ⟨o,ho,rfl⟩ := (mem_put_all h).mp he
    have hk : retrieveTxID o.entry.1 = some o.txID := (h.fits o ho).retrieve
    exact ⟨o,ho,rfl,by rw [hk]; rfl,by rw [hk]; rfl⟩
  refine ⟨_,map_m_some fun e he => (hr e he).choose_spec.2.2.2,pairwise_map.mpr ?_,fun id => ?_⟩
  · refine (putAll Table.empty os).ordered.imp_of_mem fun ha hb hlt => ?_
    obtain ⟨o,ho,rfl,hid,_⟩ := hr _ ha
    obtain ⟨o',ho',rfl,hid',_⟩ := hr _ hb
    rw [hid,hid']
    exact (h.fits o ho).start_le (h.fits o' ho') hlt
  · rw [mem_map]
    constructor
    · rintro ⟨e,he,rfl⟩
      obtain ⟨o,ho,_,hid,_⟩ := hr e he
      exact ⟨o,ho,hid.symm⟩
    · rintro ⟨o,ho,rfl⟩
      have he := (mem_put_all h).mpr ⟨o,ho,rfl⟩
      refine ⟨o.entry,he,?_⟩
      rw [Occurrence.entry,(h.fits o ho).retrieve]
      rfl

/-- The indexed ids in the order of the range scans. -/
structure IndexedIDs (os : List Occurrence) (ids : List Bytes) : Prop where
  sorted : ids.Pairwise fun x y => txIDStartKey x < txIDStartKey y
  mem : ∀ id, id ∈ ids ↔ ∃ o ∈ os, o.txID = id

theorem sorted_unique {l l' : List Bytes} (h : l.Pairwise fun x y => txIDStartKey x < txIDStartKey y)
    (h' : l'.Pairwise fun x y => txIDStartKey x < txIDStartKey y) (hm : ∀ x, x ∈ l ↔ x ∈ l') :
    l = l' := by
  have hp : l.Perm l' :=
    (perm_ext_iff_of_nodup (h.imp fun hlt heq => hlt.ne (congrArg txIDStartKey heq))
      (h'.imp fun hlt heq => hlt.ne (congrArg txIDStartKey heq))).mpr hm
  exact hp.eq_of_pairwise (fun x y _ _ hxy hyx => absurd hxy hyx.asymm) h h'

theorem InOrder.exported (h : InOrder os) (hi : IndexedIDs os ids) (ha : .txID ∈ attrs)
    (hx : index.txIDs = putAll Table.empty os) :
    exportUniqueTxIDs attrs index = .ok (idFiles (ids.filter (· ≠ []))) := by
  obtain ⟨found,hf,hsorted,hm⟩ := h.retrieved
  have hall : (putAll Table.empty os).entries.filter
      (inRange [txIDIdxKeyPrefix] [txIDIdxKeyPrefix + 1]) = (putAll Table.empty os).entries := by
    refine filter_eq_self.mpr fun e he => ?_
    obtain ⟨o,_,rfl⟩ := (mem_put_all h).mp he
    exact in_prefix_range o
  have hsized : ∀ x ∈ [] :: found, x.length < 2 ^ 64 := by
    refine forall_mem_cons.mpr ⟨by decide,fun x hx => ?_⟩
    obtain ⟨o,ho,rfl⟩ := (hm x).mp hx
    exact (h.fits o ho).1
  -- the empty id, with which the export starts, has the least key
  have hleast : ([] :: found).Pairwise fun x y => txIDStartKey x ≤ txIDStartKey y := by
    refine pairwise_cons.mpr ⟨fun y hy => ?_,hsorted⟩
    have hl := hsized y (mem_cons_of_mem _ hy)
    have ho := ordered_lt hl (Nat.two_pow_pos 64) y []
    refine not_lt.mp fun hlt => ?_
    rw [txIDStartKey,txIDStartKey,cons_lt_cons_iff] at hlt
    rcases ho.mp (hlt.resolve_left (lt_irrefl _)).2 with hn | ⟨_,hn⟩
    · exact Nat.not_lt_zero _ hn
    · exact not_lt_nil _ hn
  obtain ⟨hs,hmem⟩ := unique_from_sorted hsized hleast
  have hu : uniqueFrom [] found = ids.filter (· ≠ []) := by
    refine sorted_unique (pairwise_cons.mp hs).2 (hi.sorted.filter _) fun x => ?_
    rw [hmem,hm,mem_filter,hi.mem,decide_eq_true_eq]
  rw [exportUniqueTxIDs,if_pos ha,hx,hall,hf]
  dsimp only
  rw [hu]

theorem import_from {ids : List Bytes} {r : FileReader} (hr : r.rest = ids.flatMap encodeBytes)
    (sized : ∀ x ∈ ids, x.length < 2 ^ 63) (delivers : Delivers r.limits (ids.map List.length))
    (last i : Nat) (db : TxIDIndex) :
    importFrom last ids.length i r db = some (putAll db (importedFrom last i ids)) := by
  induction ids generalizing r i db with
  | nil => rfl
  | cons x ids ih =>
    obtain ⟨hx,hi⟩ := forall_mem_cons.mp sized
    rw [map_cons] at delivers
    obtain ⟨hd,hds⟩ := delivers_cons.mp delivers
    obtain ⟨out,r',ho,hl,hre,hout⟩ := decode_bytes hr hx
    obtain rfl := hout hd
    rw [length_cons,importFrom,ho]
    exact ih (hre.mpr hd) hi (hl ▸ hds) _ _

theorem mem_imported {ids : List Bytes} :
    (∃ o ∈ importedFrom last 0 ids, o.txID = id) ↔ id ∈ ids := by
  constructor
  · rintro ⟨o,ho,rfl⟩
    obtain ⟨e,he,rfl⟩ := mem_map.mp ho
    exact fst_mem_of_mem_zipIdx he
  intro hid
  obtain ⟨i,hi⟩ := mem_iff_getElem?.mp hid
  exact ⟨_,mem_map.mpr ⟨(id,i),mk_mem_zipIdx_iff_getElem?.mpr hi,rfl⟩,rfl⟩

theorem import_files {ids : List Bytes} (hn : ids.length < 2 ^ 64)
    (sized : ∀ x ∈ ids, x.length < 2 ^ 63) (delivers : Delivers limits (ids.map List.length)) :
    importTxIDsFromSnapshot limits last
      (some (1 :: ids.flatMap encodeBytes,1 :: varint ids.length)) =
        some (importedIndex last ids) := by
  have hm := open_file 1 (varint ids.length) []
  have ho := open_file 1 (ids.flatMap encodeBytes) limits
  have hc := decode_uvarint (r := ⟨varint ids.length,[],[]⟩) (append_nil _).symm hn
  have him := import_from (r := ⟨ids.flatMap encodeBytes,[],limits⟩) rfl sized delivers last 0
    Table.empty
  simp only [importTxIDsFromSnapshot,bind,Option.bind,hm,hc,ho,him]
  rfl

theorem ids_read_back {ids : List Bytes} (sized : ∀ x ∈ ids, x.length < 2 ^ 63) :
    FileReader.ReadsBack noMessages ⟨ids.flatMap encodeBytes,[],limits⟩ (ids.map .string) ↔
      Delivers limits (ids.map List.length) := by
  have hr : ids.flatMap encodeBytes = (ids.map .string).flatMap noMessages.encode := by
    rw [flatMap_map]
    rfl
  have hb := reads_back_iff (r := ⟨ids.flatMap encodeBytes,[],limits⟩) hr
    (forall_mem_map.mpr sized)
  rwa [map_map] at hb

/-- The ids that are known after the export to a snapshot and the import of it. -/
def Transfers (attrs : List IndexableAttr) (limits : List Nat) (last : Nat) (index : BlockIndex)
    (ids : List Bytes) : Prop :=
  ∃ files imported, exportUniqueTxIDs attrs index = .ok files ∧
    importTxIDsFromSnapshot limits last files = some imported ∧
    ∀ id : Bytes, id.length < 2 ^ 64 → (isDuplicate attrs imported id = true ↔ id ∈ ids)

/-- The data file of the export is read back id by id. -/
def FileReadsBack (attrs : List IndexableAttr) (limits : List Nat) (index : BlockIndex)
    (ids : List Bytes) : Prop :=
  ∃ files r, exportUniqueTxIDs attrs index = .ok (some files) ∧
    openFile files.1 1 limits = some r ∧ r.ReadsBack noMessages (ids.map .string)

/-- An id is found where it occurs first. After export and import the indexed ids are known, and the
data file is read back, just when there is an id, none is empty and each call of Read delivers what
it is asked for. -/
theorem tx_ids_found (limits : List Nat) {last : Nat} {infos : List BlockIdxInfo}
    (hattr : .txID ∈ attrs) (sorted : infos.Pairwise fun i j => i.blockNum < j.blockNum)
    (fits : ∀ o ∈ infos.flatMap (BlockIdxInfo.occurrences attrs), o.Fits)
    (indexed : infos.foldlM (BlockIndex.indexBlock attrs) ⟨none,[],Table.empty⟩ = .ok index)
    (hids : IndexedIDs (infos.flatMap (BlockIdxInfo.occurrences attrs)) ids)
    (hlast : last < 2 ^ 64) (count : ids.length < 2 ^ 64) (sized : ∀ x ∈ ids, x.length < 2 ^ 63) :
    (∀ id : Bytes, id.length < 2 ^ 64 → index.getTxIDVal attrs id =
      answer ((infos.flatMap (BlockIdxInfo.occurrences attrs)).find? fun o => o.txID = id)) ∧
    (Transfers attrs limits last index ids ∧
        FileReadsBack attrs limits index (ids.filter (· ≠ [])) ↔
      ids ≠ [] ∧ [] ∉ ids ∧ Delivers limits (ids.map List.length)) := by
  have hor := occurrences_in_order ⟨forall_mem_nil _,.nil⟩ (forall_mem_nil _) sorted fits
  rw [nil_append] at hor
  have hx : index.txIDs = putAll Table.empty (infos.flatMap (BlockIdxInfo.occurrences attrs)) := by
    rw [index_blocks hattr indexed,foldl_put]
  have he := hor.exported hids hattr hx
  refine ⟨fun id hi => hor.get_val hx hattr hi,?_⟩
  have hsub : ∀ x ∈ ids.filter (· ≠ []), x.length < 2 ^ 63 := fun x hx =>
    sized x (mem_filter.mp hx).1
  have hcount : (ids.filter (· ≠ [])).length < 2 ^ 64 :=
    Nat.lt_of_le_of_lt (length_filter_le _ _) count
  have known (delivers : Delivers limits ((ids.filter (· ≠ [])).map List.length)) (id : Bytes)
      (hi : id.length < 2 ^ 64) : isDuplicate attrs (importedIndex last (ids.filter (· ≠ []))) id =
        true ↔ id ∈ ids.filter (· ≠ []) := by
    have hsized : ∀ x ∈ ids.filter (· ≠ []), x.length < 2 ^ 64 := fun x hx =>
      (hsub x hx).trans (by decide)
    rw [(imported_in_order hlast hcount hsized).is_duplicate rfl hattr hi,mem_imported]
  constructor
  · rintro ⟨⟨files,imported,hf,him,hk⟩,files',r,hf',hopen,hb⟩
    cases Except.ok.inj (hf.symm.trans hf')
    cases hex : ids.filter (· ≠ []) with
    | nil =>
      rw [hex] at he
      cases he.symm.trans hf
    | cons x xs =>
      rw [hex] at he
      cases he.symm.trans hf
      cases hopen.symm.trans (open_file _ _ _)
      rw [hex] at hb hsub hcount known
      have hd := (ids_read_back hsub).mp hb
      cases him.symm.trans (import_files hcount hsub hd)
      have hempty : [] ∉ ids := by
        intro h
        have hn := (known hd [] (by decide)).mp ((hk [] (by decide)).mpr h)
        rw [← hex] at hn
        exact of_decide_eq_true (mem_filter.mp hn).2 rfl
      have hall : ids.filter (· ≠ []) = ids := filter_eq_self.mpr fun y hy =>
        decide_eq_true fun h => hempty (h ▸ hy)
      rw [← hall,hex]
      exact ⟨cons_ne_nil _ _,fun h => hempty (hall ▸ hex ▸ h),hd⟩
  · rintro ⟨hne,hempty,hd⟩
    have hall : ids.filter (· ≠ []) = ids := filter_eq_self.mpr fun y hy =>
      decide_eq_true fun h => hempty (h ▸ hy)
    rw [hall] at he known ⊢
    obtain ⟨x,xs,rfl⟩ := exists_cons_of_ne_nil hne
    exact ⟨⟨_,_,he,import_files count sized hd,known hd⟩,_,_,he,open_file _ _ _,
      (ids_read_back sized).mpr hd⟩

def sampleIdx (blockNum : Nat) (txIDs : List Bytes) : BlockIdxInfo :=
  ⟨blockNum,[],⟨0,⟨blockNum,0⟩⟩,txIDs.map fun txID => ⟨txID,⟨2,3⟩⟩,[[],[],replicate txIDs.length 0]⟩

def sampleInfos : List BlockIdxInfo := [sampleIdx 0 [[7],[7,8]],sampleIdx 1 [[7]]]

def sampleAttrs : List IndexableAttr := [.txID]

theorem sample_indexed_ids :
    IndexedIDs (sampleInfos.flatMap (BlockIdxInfo.occurrences sampleAttrs)) [[7],[7,8]] where
  sorted := by decide
  mem id := by
    have ho : (sampleInfos.flatMap (BlockIdxInfo.occurrences sampleAttrs)).map Occurrence.txID =
        [[7],[7,8],[7]] := rfl
    rw [← mem_map (f := Occurrence.txID),ho]
    simp only [mem_cons,not_mem_nil]
    tauto

theorem sample_tx_ids : ∃ index files imported,
    sampleInfos.foldlM (BlockIndex.indexBlock sampleAttrs) ⟨none,[],Table.empty⟩ = .ok index ∧
    index.getTxIDVal sampleAttrs [7] = .ok ⟨⟨0,⟨0,0⟩⟩,⟨0,⟨2,3⟩⟩,0⟩ ∧
    exportUniqueTxIDs sampleAttrs index = .ok files ∧
    importTxIDsFromSnapshot [1,5] 1 files = some imported ∧
    isDuplicate sampleAttrs imported [7,8] = true := by
  have hs : sampleInfos.Pairwise fun i j => i.blockNum < j.blockNum := by decide
  obtain ⟨hfirst,ht⟩ := tx_ids_found [1,5] (by decide) hs (by decide) rfl sample_indexed_ids
    (show 1 < 2 ^ 64 by decide) (by decide) (by decide)
  obtain ⟨⟨files,imported,hf,hi,hk⟩,_⟩ := ht.mpr (by decide)
  exact ⟨_,files,imported,rfl,(hfirst [7] (by decide)).trans rfl,hf,hi,
    (hk [7,8] (by decide)).mpr (by decide)⟩

/-- The empty id is taken for a repeated one. -/
theorem empty_id_forgotten : ∃ index files imported,
    [sampleIdx 0 [[],[7]]].foldlM (BlockIndex.indexBlock sampleAttrs) ⟨none,[],Table.empty⟩ =
      .ok index ∧
    index.getTxIDVal sampleAttrs [] = .ok ⟨⟨0,⟨0,0⟩⟩,⟨0,⟨2,3⟩⟩,0⟩ ∧
    exportUniqueTxIDs sampleAttrs index = .ok files ∧
    importTxIDsFromSnapshot [] 0 files = some imported ∧
    isDuplicate sampleAttrs imported [] = false :=
  ⟨_,_,_,rfl,by decide,rfl,rfl,by decide⟩

end PluggableHcs.Blkstorage
