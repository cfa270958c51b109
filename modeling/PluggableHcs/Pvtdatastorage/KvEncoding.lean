import PluggableHcs.Kvledger.History
import PluggableHcs.Kvledger.NumberKeys
import PluggableHcs.Pvtdatastorage.Store

namespace PluggableHcs.Pvtdatastorage
open List Kvledger.NumberKeys Txmgmt

def blkNumBytes (blkNum : Nat) : List UInt8 := encodeReverseOrderVarUint64 (UInt64.ofNat blkNum)

def encodeMissingDataKey (key : MissingDataKey) : List UInt8 :=
  let ⟨⟨ns,coll,blkNum⟩,isEligible⟩ := key
  if isEligible then 4 :: (blkNumBytes blkNum ++ ns ++ 0 :: coll)
  else 5 :: (ns ++ 0 :: coll ++ 0 :: blkNumBytes blkNum)

/-- None is a panic. The bytes of a number may hold separators. -/
def decodeMissingDataKey : List UInt8 → Option MissingDataKey
  | [] => none
  | kind :: bytes =>
    if kind = 4 then
      match decodeReverseOrderVarUint64 bytes with
      | .number blkNum numBytesConsumed =>
        match (bytes.drop numBytesConsumed).splitOn 0 with
        | ns :: coll :: _ => some ⟨⟨ns,coll,blkNum.toNat⟩,true⟩
        | _ => none
      | _ => none
    else
      match bytes.splitOn 0 with
      | ns :: coll :: rest =>
        match decodeReverseOrderVarUint64 ([0].intercalate rest) with
        | .number blkNum _ => some ⟨⟨ns,coll,blkNum.toNat⟩,false⟩
        | _ => none
      | _ => none

abbrev KeyRange := List UInt8 × List UInt8

def createRangeScanKeysForEligibleMissingDataEntries (blkNum : Nat) : KeyRange :=
  (4 :: blkNumBytes blkNum,4 :: blkNumBytes 0)

def createRangeScanKeysForIneligibleMissingData (maxBlkNum : Nat) (ns coll : Bytes) : KeyRange :=
  (encodeMissingDataKey ⟨⟨ns,coll,maxBlkNum⟩,false⟩,encodeMissingDataKey ⟨⟨ns,coll,0⟩,false⟩)

/-- The end is not part of a scan. -/
def KeyRange.Has (r : KeyRange) (key : List UInt8) : Prop := ¬ key < r.1 ∧ key < r.2

structure MissingDataKey.Fits (key : MissingDataKey) : Prop where
  ns : 0 ∉ key.nsCollBlk.ns
  coll : 0 ∉ key.nsCollBlk.coll
  blkNum : key.nsCollBlk.blkNum < 2 ^ 64

theorem append_lt_append {p u v : List UInt8} : p ++ u < p ++ v ↔ u < v := by
  induction p with
  | nil => rfl
  | cons a p ih => simp [ih]

theorem code_append_lt {x y t : List UInt8} (h : x <+: y → x = y) : x ++ t < y ↔ x < y := by
  induction x generalizing y with
  | nil =>
    cases h nil_prefix
    simp
  | cons a x ih =>
    cases y with
    | nil => simp
    | cons b y =>
      rw [cons_append,cons_lt_cons_iff,cons_lt_cons_iff]
      refine or_congr_right (and_congr_right fun he => ih fun hp => ?_)
      exact (cons.inj (h (he ▸ (prefix_cons_inj a).mpr hp))).2

/-- What lies between two strings with the same start has this start. -/
theorem starts_of_range {p a b k : List UInt8} (hle : ¬ k < p ++ a) (hlt : k < p ++ b) :
    ∃ r, k = p ++ r := by
  induction p generalizing k with
  | nil => exact ⟨k,rfl⟩
  | cons c p ih =>
    cases k with
    | nil => exact absurd (nil_lt_cons _ _) hle
    | cons d k =>
      rw [cons_append,cons_lt_cons_iff] at hle hlt
      obtain hd | ⟨rfl,hk⟩ := hlt
      · exact absurd (.inl hd) hle
      · obtain ⟨r,rfl⟩ := ih (fun h => hle (.inr ⟨rfl,h⟩)) hk
        exact ⟨r,rfl⟩

theorem code_lt (hm : m < 2 ^ 64) (hn : n < 2 ^ 64) (t : List UInt8) :
    blkNumBytes m ++ t < blkNumBytes n ↔ n < m := by
  rw [code_append_lt,blkNumBytes,blkNumBytes,reverse_lt,UInt64.lt_iff_toNat_lt,
    UInt64.toNat_ofNat_of_lt' hm,UInt64.toNat_ofNat_of_lt' hn]
  intro h
  exact congrArg encodeReverseOrderVarUint64 ((exact_of_decodes decode_reverse _ _ []).1.mp h)

theorem range_has (hm : m < 2 ^ 64) (hn : n < 2 ^ 64) (p t : List UInt8) :
    KeyRange.Has (p ++ blkNumBytes m,p ++ blkNumBytes 0) (p ++ (blkNumBytes n ++ t)) ↔
      0 < n ∧ n ≤ m := by
  rw [KeyRange.Has,append_lt_append,append_lt_append,code_lt hn hm,code_lt hn (by decide),
    Nat.not_lt]
  exact and_comm

/-- The scans find exactly the missing data of the blocks after the first one up to the given one:
all that are eligible, or the others of a collection. -/
theorem missing_data_scans_exact {key : MissingDataKey} (fits : key.Fits) {maxBlkNum : Nat}
    {ns coll : Bytes} (bound : MissingDataKey.Fits ⟨⟨ns,coll,maxBlkNum⟩,false⟩) :
    ((createRangeScanKeysForEligibleMissingDataEntries maxBlkNum).Has (encodeMissingDataKey key) ↔
      key.isEligible = true ∧ 0 < key.nsCollBlk.blkNum ∧ key.nsCollBlk.blkNum ≤ maxBlkNum) ∧
    ((createRangeScanKeysForIneligibleMissingData maxBlkNum ns coll).Has
        (encodeMissingDataKey key) ↔ key.isEligible = false ∧ key.nsCollBlk.ns = ns ∧
      key.nsCollBlk.coll = coll ∧ 0 < key.nsCollBlk.blkNum ∧
        key.nsCollBlk.blkNum ≤ maxBlkNum) := by
  obtain ⟨⟨n,c,b⟩,el⟩ := key
  obtain ⟨hn,hc,hb⟩ := fits
  obtain ⟨hn',hc',hm⟩ := bound
  have hi : ∀ (n c : Bytes) (b : Nat), encodeMissingDataKey ⟨⟨n,c,b⟩,false⟩ =
      (5 :: (n ++ 0 :: c ++ [0])) ++ (blkNumBytes b ++ []) := by
    simp [encodeMissingDataKey]
  have he : encodeMissingDataKey ⟨⟨n,c,b⟩,true⟩ = [4] ++ (blkNumBytes b ++ (n ++ 0 :: c)) := by
    simp [encodeMissingDataKey]
  rw [createRangeScanKeysForIneligibleMissingData,hi,hi,append_nil,append_nil]
  cases el with
  | true =>
    rw [he]
    refine ⟨(range_has hm hb [4] _).trans (by simp),iff_of_false (fun h => ?_) (by simp)⟩
    obtain ⟨r,hr⟩ := starts_of_range h.1 h.2
    simp at hr
  | false =>
    rw [hi]
    refine ⟨iff_of_false (fun h => ?_) (by simp),⟨fun h => ?_,?_⟩⟩
    · obtain ⟨r,hr⟩ := starts_of_range (p := [4]) h.1 h.2
      simp at hr
    · obtain ⟨r,hr⟩ := starts_of_range h.1 h.2
      simp only [cons_append,append_assoc,cons.injEq,true_and,nil_append] at hr
      obtain ⟨rfl,hs⟩ := Kvledger.split_at_sep hn hn' hr
      obtain ⟨rfl,_⟩ := Kvledger.split_at_sep hc hc' hs
      exact ⟨rfl,rfl,rfl,(range_has hm hb _ []).mp h⟩
    · rintro ⟨_,rfl,rfl,h⟩
      exact (range_has hm hb _ []).mpr h

theorem first_block_scanned : (createRangeScanKeysForEligibleMissingDataEntries 3).Has
    (encodeMissingDataKey ⟨⟨[1],[2],1⟩,true⟩) := by
  have hb : MissingDataKey.Fits ⟨⟨[1],[2],3⟩,false⟩ := ⟨by decide,by decide,by decide⟩
  exact (missing_data_scans_exact ⟨by decide,by decide,by decide⟩ hb).1.mpr (by decide)

theorem not_sep {a : Bytes} (h : 0 ∉ a) : ∀ b ∈ a, (b == 0) = false := by
  intro b hb
  simpa using ne_of_mem_of_not_mem hb h

theorem split_on_sep {a : Bytes} (h : 0 ∉ a) (r : Bytes) :
    (a ++ 0 :: r).splitOn 0 = a :: r.splitOn 0 :=
  splitOnP_append_cons_of_forall_mem (not_sep h) 0 rfl r

/-- A scanned key is read back, also where the bytes of its number look like separators. -/
theorem missing_data_key_read_back {key : MissingDataKey} (fits : key.Fits) :
    decodeMissingDataKey (encodeMissingDataKey key) = some key := by
  obtain ⟨⟨n,c,b⟩,el⟩ := key
  obtain ⟨hn,hc,hb⟩ := fits
  have hd : ∀ r, decodeReverseOrderVarUint64 (blkNumBytes b ++ r) = _ :=
    decode_reverse (UInt64.ofNat b)
  have ht : (UInt64.ofNat b).toNat = b := UInt64.toNat_ofNat_of_lt' hb
  cases el with
  | true =>
    have hs : c.splitOn 0 = [c] := splitOnP_eq_singleton (not_sep hc)
    simp [encodeMissingDataKey,decodeMissingDataKey,hd,← blkNumBytes.eq_1,split_on_sep hn,hs,ht]
  | false =>
    have hr := hd []
    rw [append_nil] at hr
    simp [encodeMissingDataKey,decodeMissingDataKey,split_on_sep hn,split_on_sep hc,
      intercalate_splitOn,hr,ht]

theorem large_number_read_back :
    let key : MissingDataKey := ⟨⟨[1],[2],2 ^ 64 - 1⟩,false⟩
    decodeMissingDataKey (encodeMissingDataKey key) = some key :=
  missing_data_key_read_back ⟨by decide,by decide,by decide⟩

end PluggableHcs.Pvtdatastorage
