import PluggableHcs.Lib.Digits

namespace PluggableHcs.Kvledger.NumberKeys
open List Digits

/-- What a call can end in. -/
inductive Decoded where
  | number (number : UInt64) (numBytesConsumed : Nat)
  | error (message : String)
  | panics
  deriving DecidableEq

def encodeOrderPreservingVarUint64 (number : UInt64) : List UInt8 := ordered number.toNat

/-- A slice that reaches behind the bytes panics. -/
def decodeOrderPreservingVarUint64 (bytes : List UInt8) : Decoded :=
  let (s,numBytes) := (decodeVarint bytes).getD (0,0)
  let available := bytes.length - 1
  if numBytes ≠ 1 then
    .error s!"number of consumed bytes from DecodeVarint is invalid, expected 1, but got {numBytes}"
  else if 8 < s then
    .error s!"decoded size from DecodeVarint is invalid, expected <=8, but got {s}"
  else if available < s then
    .error s!"decoded size ({s}) from DecodeVarint is more than available bytes ({available})"
  else if bytes.length < s + 1 then .panics
  else .number (UInt64.ofNat (value ((bytes.drop 1).take s))) (s + 1)

/-- The complement of the number, with the number of leading bytes 0xff in place of them. -/
def encodeReverseOrderVarUint64 (number : UInt64) : List UInt8 :=
  let bytes := bigEndian 8 (2 ^ 64 - 1 - number.toNat)
  let kept := bytes.dropWhile (· = 0xff)
  UInt8.ofNat (8 - kept.length) :: kept

def decodeReverseOrderVarUint64 (bytes : List UInt8) : Decoded :=
  let (numFFBytes,_) := (decodeVarint bytes).getD (0,0)
  let realBytesNum := 8 - numFFBytes
  if 8 < numFFBytes ∨ bytes.length < realBytesNum + 1 then .panics
  else
    let decodedBytes := replicate numFFBytes 0xff ++ (bytes.drop 1).take realBytesNum
    .number (UInt64.ofNat (2 ^ 64 - 1 - value decodedBytes)) (realBytesNum + 1)

theorem byte_varint {b : UInt8} (h : b.toNat < 128) (bs : List UInt8) :
    decodeVarint (b :: bs) = some (b.toNat,1) := by
  rw [decodeVarint,decodeVarintOf,if_pos h,Option.filter_some,
    if_pos (decide_eq_true (by dsimp only; omega))]

theorem marked_varint {b : UInt8} (h : ¬ b.toNat < 128) (bs : List UInt8) :
    ((decodeVarint (b :: bs)).getD (0,0)).2 ≠ 1 := by
  cases hd : decodeVarint (b :: bs) with
  | none => exact Nat.zero_ne_one
  | some e =>
    rw [decodeVarint,decodeVarintOf,if_neg h] at hd
    obtain ⟨d,hr,rfl⟩ := Option.map_eq_some_iff.mp (Option.filter_eq_some_iff.mp hd).1
    simpa using decode_varint_of_pos hr

theorem decode_sized {b : UInt8} {ds : List UInt8} (hb : b.toNat = ds.length) (h8 : ds.length ≤ 8)
    (r : List UInt8) :
    decodeOrderPreservingVarUint64 (b :: ds ++ r) =
      .number (UInt64.ofNat (value ds)) (ds.length + 1) := by
  rw [decodeOrderPreservingVarUint64,cons_append,byte_varint (by omega)]
  have hl : ((b :: (ds ++ r)).length - 1) = ds.length + r.length := by simp
  simp only [Option.getD_some,hl,hb]
  rw [if_neg (by simp),if_neg (by omega),if_neg (by omega),if_neg (by simp)]
  simp

/-- A length of at most eight and as many bytes, with anything behind them. -/
def Sized (bytes ds : List UInt8) : Prop :=
  ∃ b r, bytes = b :: ds ++ r ∧ b.toNat = ds.length ∧ ds.length ≤ 8

theorem decode_not_sized {bs : List UInt8} (h : ¬ ∃ ds, Sized bs ds) :
    ∃ e, decodeOrderPreservingVarUint64 bs = .error e := by
  cases bs with
  | nil => exact ⟨_,rfl⟩
  | cons b bs =>
    rw [decodeOrderPreservingVarUint64]
    by_cases hb : b.toNat < 128
    · rw [byte_varint hb]
      simp only [Option.getD_some,length_cons]
      rw [if_neg (by simp)]
      split
      · exact ⟨_,rfl⟩
      rename_i h8
      rw [if_pos]
      · exact ⟨_,rfl⟩
      by_contra hl
      refine h ⟨bs.take b.toNat,b,bs.drop b.toNat,by simp,?_,?_⟩
      · rw [length_take]
        omega
      · rw [length_take]
        omega
    · have hm := marked_varint hb bs
      generalize (decodeVarint (b :: bs)).getD (0,0) = e at hm
      simp only [if_pos hm]
      exact ⟨_,rfl⟩

/-- The numbers in the keys of the indexes are decoded by the same function. -/
theorem decode_ordered_number (bytes : List UInt8) : decodeOrdered bytes =
    match decodeOrderPreservingVarUint64 bytes with
    | .number n k => some (n.toNat,k)
    | _ => none := by
  by_cases hs : ∃ ds, Sized bytes ds
  · obtain ⟨ds,b,r,rfl,hb,h8⟩ := hs
    have hv : value ds < 2 ^ 64 := Nat.lt_of_lt_of_le (value_lt ds)
      (Nat.pow_le_pow_right (n := 256) (by decide) h8)
    rw [decode_sized hb h8,cons_append,decodeOrdered,hb,if_neg (by omega),if_neg (by simp),
      take_left]
    dsimp only
    rw [UInt64.toNat_ofNat_of_lt' hv]
  · obtain ⟨e,he⟩ := decode_not_sized hs
    rw [he]
    cases bytes with
    | nil => rfl
    | cons b bs =>
      rw [decodeOrdered]
      split
      · rfl
      split
      · rfl
      · next h8 hl =>
        refine absurd ⟨bs.take b.toNat,b,bs.drop b.toNat,by simp,?_,?_⟩ hs <;>
        · rw [length_take]
          omega

theorem decode_encode (n : UInt64) (r : List UInt8) :
    decodeOrderPreservingVarUint64 (encodeOrderPreservingVarUint64 n ++ r) =
      .number n (encodeOrderPreservingVarUint64 n).length := by
  obtain ⟨j,hj,he,hn,_⟩ := ordered_eq n.toNat_lt
  have hl := big_endian_length j n.toNat
  have hb : (UInt8.ofNat j).toNat = j := to_nat_of_nat (by omega)
  rw [encodeOrderPreservingVarUint64,he,decode_sized (hb.trans hl.symm) (by omega),
    value_big_endian hn,UInt64.ofNat_toNat,length_cons]

theorem trim_complement (h : n < 256 ^ k) :
    ∃ j ≤ k, (bigEndian k (256 ^ k - 1 - n)).dropWhile (· = 0xff) = bigEndian j (256 ^ j - 1 - n) ∧
      n < 256 ^ j ∧ (j ≠ 0 → 256 ^ (j - 1) ≤ n) := by
  induction k with
  | zero => exact ⟨0,Nat.le_refl _,rfl,h,fun hne => absurd rfl hne⟩
  | succ k ih =>
    have hp : 256 ^ (k + 1) = 256 * 256 ^ k := Nat.pow_succ'
    have hk : 0 < 256 ^ k := Nat.pow_pos (by decide)
    by_cases hl : n < 256 ^ k
    · obtain ⟨j,hj,he,hr⟩ := ih hl
      refine ⟨j,Nat.le_succ_of_le hj,?_,hr⟩
      have hc : 256 ^ (k + 1) - 1 - n = 256 ^ k * 255 + (256 ^ k - 1 - n) := by omega
      have hm : 256 ^ k - 1 - n < 256 ^ k := by omega
      rw [bigEndian,hc,Nat.mul_add_div hk,Nat.mul_add_mod,Nat.div_eq_of_lt hm,
        Nat.mod_eq_of_lt hm,dropWhile_cons_of_pos (by decide)]
      exact he
    · have hle := Nat.le_of_not_lt hl
      refine ⟨k + 1,Nat.le_refl _,?_,h,fun _ => hle⟩
      have hd : (256 ^ (k + 1) - 1 - n) / 256 ^ k < 255 := by
        rw [Nat.div_lt_iff_lt_mul hk]
        omega
      rw [bigEndian,dropWhile_cons_of_neg]
      simpa using fun hz => hd.ne ((byte_eq (by omega) (by decide)).mp hz)

theorem reverse_eq (n : UInt64) : ∃ j ≤ 8, encodeReverseOrderVarUint64 n =
        UInt8.ofNat (8 - j) :: bigEndian j (256 ^ j - 1 - n.toNat) ∧
      n.toNat < 256 ^ j ∧ (j ≠ 0 → 256 ^ (j - 1) ≤ n.toNat) := by
  have hn : n.toNat < 256 ^ 8 := n.toNat_lt
  obtain ⟨j,hj,he,hr⟩ := trim_complement hn
  refine ⟨j,hj,?_,hr⟩
  unfold encodeReverseOrderVarUint64
  change UInt8.ofNat (8 - (dropWhile _ (bigEndian 8 (256 ^ 8 - 1 - n.toNat))).length) ::
    dropWhile _ (bigEndian 8 (256 ^ 8 - 1 - n.toNat)) = _
  rw [he,big_endian_length]

theorem value_complement (h : n < 256 ^ j) (hj : j ≤ 8) :
    2 ^ 64 - 1 - value (replicate (8 - j) 0xff ++ bigEndian j (256 ^ j - 1 - n)) = n := by
  have hf : ∀ k, value (replicate k 0xff) + 1 = 256 ^ k := by
    intro k
    induction k with
    | zero => rfl
    | succ k ih =>
      rw [replicate_succ,value,foldl_cons,value_from,length_replicate,Nat.add_assoc,ih,
        Nat.pow_succ']
      change 255 * 256 ^ k + 256 ^ k = 256 * 256 ^ k
      omega
  have hp : (value (replicate (8 - j) 0xff) + 1) * 256 ^ j = 2 ^ 64 := by
    rw [hf,← Nat.pow_add,Nat.sub_add_cancel hj]
    rfl
  rw [value,foldl_append,value_from,big_endian_length,value_big_endian (by omega)]
  change 2 ^ 64 - 1 - (value (replicate (8 - j) 0xff) * 256 ^ j + _) = n
  rw [Nat.add_mul,Nat.one_mul] at hp
  omega

theorem decode_reverse (n : UInt64) (r : List UInt8) :
    decodeReverseOrderVarUint64 (encodeReverseOrderVarUint64 n ++ r) =
      .number n (encodeReverseOrderVarUint64 n).length := by
  obtain ⟨j,hj,he,hn,_⟩ := reverse_eq n
  have hb : (UInt8.ofNat (8 - j)).toNat = 8 - j := to_nat_of_nat (by omega)
  have hs : 8 - (8 - j) = j := by omega
  rw [he,decodeReverseOrderVarUint64,cons_append,byte_varint (by omega)]
  simp only [Option.getD_some,hb,hs]
  rw [if_neg]
  · rw [drop_one,tail_cons,take_left' (big_endian_length _ _),value_complement hn hj,
      UInt64.ofNat_toNat,length_cons,big_endian_length]
  · simp

theorem reverse_lt (a b : UInt64) :
    encodeReverseOrderVarUint64 a < encodeReverseOrderVarUint64 b ↔ b < a := by
  obtain ⟨i,hi,ha,hai,hal⟩ := reverse_eq a
  obtain ⟨j,hj,hb,hbj,hbl⟩ := reverse_eq b
  rw [ha,hb,cons_lt_cons_iff,byte_lt (by omega) (by omega),byte_eq (by omega) (by omega),
    UInt64.lt_iff_toNat_lt]
  rcases Nat.lt_trichotomy i j with hij | rfl | hij
  · have hlt := lt_of_digits hij hai hbl
    exact iff_of_false (by omega) (by omega)
  · have hd := big_endian_lt (k := i) (m := 256 ^ i - 1 - a.toNat) (n := 256 ^ i - 1 - b.toNat)
      (by omega) (by omega) [] []
    rw [append_nil,append_nil] at hd
    rw [hd]
    simp
    omega
  · have hlt := lt_of_digits hij hbj hal
    exact iff_of_true (.inl (by omega)) hlt

/-- No code starts another, and each decodes in front of any bytes. -/
def Exact (enc : UInt64 → List UInt8) (dec : List UInt8 → Decoded) : Prop :=
  ∀ a b r, (enc a <+: enc b ↔ a = b) ∧ dec (enc a ++ r) = .number a (enc a).length

theorem exact_of_decodes {enc : UInt64 → List UInt8} {dec : List UInt8 → Decoded}
    (h : ∀ n r, dec (enc n ++ r) = .number n (enc n).length) : Exact enc dec := by
  intro a b r
  refine ⟨⟨?_,?_⟩,h a r⟩
  · rintro ⟨t,ht⟩
    have ha := h a t
    rw [ht,← append_nil (enc b),h] at ha
    cases ha
    rfl
  · rintro rfl
    exact prefix_refl _

/-- The codes are exact and in the order of the numbers or in the reverse. What is not a length with
as many bytes behind it is refused, and else these bytes are the number. -/
theorem number_codes_exact (a b n : UInt64) (k : Nat) (bytes : List UInt8) :
    Exact encodeOrderPreservingVarUint64 decodeOrderPreservingVarUint64 ∧
    Exact encodeReverseOrderVarUint64 decodeReverseOrderVarUint64 ∧
    (encodeOrderPreservingVarUint64 a < encodeOrderPreservingVarUint64 b ↔ a < b) ∧
    (encodeReverseOrderVarUint64 a < encodeReverseOrderVarUint64 b ↔ b < a) ∧
    decodeOrderPreservingVarUint64 bytes ≠ .panics ∧
    ((∃ e, decodeOrderPreservingVarUint64 bytes = .error e) ↔ ¬ ∃ ds, Sized bytes ds) ∧
    (decodeOrderPreservingVarUint64 bytes = .number n k ↔
      ∃ ds, Sized bytes ds ∧ n = UInt64.ofNat (value ds) ∧ k = ds.length + 1) := by
  refine ⟨exact_of_decodes decode_encode,exact_of_decodes decode_reverse,?_,
    reverse_lt a b,?_⟩
  · have hl := ordered_lt a.toNat_lt b.toNat_lt [] []
    rw [append_nil,append_nil] at hl
    rw [encodeOrderPreservingVarUint64,encodeOrderPreservingVarUint64,hl,UInt64.lt_iff_toNat_lt]
    simp
  by_cases hs : ∃ ds, Sized bytes ds
  · obtain ⟨ds,c,t,rfl,hc,h8⟩ := id hs
    refine ⟨?_,?_,?_⟩
    · rw [decode_sized hc h8]
      exact Decoded.noConfusion
    · rw [decode_sized hc h8]
      exact iff_of_false (fun ⟨_,he⟩ => Decoded.noConfusion he) fun h => h hs
    · constructor
      · intro hd
        rw [decode_sized hc h8] at hd
        cases hd
        exact ⟨ds,⟨c,t,rfl,hc,h8⟩,rfl,rfl⟩
      · rintro ⟨ds',⟨c',t',he,hc',h8'⟩,rfl,rfl⟩
        rw [he,decode_sized hc' h8']
  · obtain ⟨e,he⟩ := decode_not_sized hs
    refine ⟨by simp [he],by simp [he,hs],?_⟩
    rw [he]
    exact iff_of_false Decoded.noConfusion fun ⟨ds,hd,_⟩ => hs ⟨ds,hd⟩

/-- A leading zero is accepted although the number is encoded without it. -/
theorem padded_number_accepted : decodeOrderPreservingVarUint64 [1,0] = .number 0 2 ∧
      ¬ ∃ n r, [1,0] = encodeOrderPreservingVarUint64 n ++ r := by
  have hv : decodeOrderPreservingVarUint64 [1,0] = .number 0 2 := by decide
  refine ⟨hv,?_⟩
  rintro ⟨n,r,h⟩
  have hd := decode_encode n r
  rw [← h,hv] at hd
  injection hd with hz _
  have he : encodeOrderPreservingVarUint64 0 = [0] := by decide
  rw [← hz,he] at h
  simp at h

end PluggableHcs.Kvledger.NumberKeys
