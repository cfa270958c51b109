import Mathlib.Data.List.Lex
import Mathlib.Tactic.Ring

namespace Digits
open List Nat

theorem to_nat_of_nat (h : n < 256) : (UInt8.ofNat n).toNat = n :=
  UInt8.toNat_ofNat_of_lt' h

def bigEndian : Nat → Nat → List UInt8
  | 0,_ => []
  | k + 1,n => UInt8.ofNat (n / 256 ^ k) :: bigEndian k (n % 256 ^ k)

def value (bs : List UInt8) : Nat := bs.foldl (fun n b => n * 256 + b.toNat) 0

@[simp] theorem big_endian_length (k n : Nat) : (bigEndian k n).length = k := by
  induction k generalizing n with
  | zero => rfl
  | succ k ih => rw [bigEndian,length_cons,ih]

theorem digit_lt (h : n < 256 ^ (k + 1)) : n / 256 ^ k < 256 := by
  rw [Nat.div_lt_iff_lt_mul (Nat.pow_pos (by decide)),Nat.mul_comm,← Nat.pow_succ]
  exact h

theorem value_from (bs : List UInt8) (n : Nat) :
    bs.foldl (fun n b => n * 256 + b.toNat) n = n * 256 ^ bs.length + value bs := by
  induction bs generalizing n with
  | nil => simp [value]
  | cons b bs ih =>
    rw [value,foldl_cons,foldl_cons,ih,ih (0 * 256 + b.toNat),length_cons,Nat.pow_succ]
    ring

theorem value_lt (bs : List UInt8) : value bs < 256 ^ bs.length := by
  induction bs with
  | nil => exact Nat.one_pos
  | cons b bs ih =>
    have hb := b.toNat_lt
    rw [value,foldl_cons,value_from,length_cons,Nat.pow_succ',Nat.zero_mul,Nat.zero_add]
    calc b.toNat * 256 ^ bs.length + value bs < (b.toNat + 1) * 256 ^ bs.length := by
          rw [Nat.succ_mul]
          exact Nat.add_lt_add_left ih _
      _ ≤ 256 * 256 ^ bs.length := Nat.mul_le_mul_right _ hb

theorem value_big_endian (h : n < 256 ^ k) : value (bigEndian k n) = n := by
  induction k generalizing n with
  | zero =>
    have hn : n = 0 := lt_one_iff.mp h
    rw [hn]
    rfl
  | succ k ih =>
    rw [bigEndian,value,foldl_cons,value_from,ih (mod_lt _ (Nat.pow_pos (by decide))),
      big_endian_length,to_nat_of_nat (digit_lt h),Nat.zero_mul,Nat.zero_add,Nat.mul_comm]
    exact div_add_mod n (256 ^ k)

theorem byte_lt (ha : a < 256) (hb : b < 256) : UInt8.ofNat a < UInt8.ofNat b ↔ a < b := by
  rw [UInt8.lt_iff_toNat_lt,to_nat_of_nat ha,to_nat_of_nat hb]

theorem byte_eq (ha : a < 256) (hb : b < 256) : UInt8.ofNat a = UInt8.ofNat b ↔ a = b := by
  rw [← UInt8.toNat_inj,to_nat_of_nat ha,to_nat_of_nat hb]

theorem starts_of_between {p k : List UInt8} (hle : ¬ k < p) (hlt : k < p ++ [0xff]) :
    ∃ r, k = p ++ r := by
  induction p generalizing k with
  | nil => exact ⟨k,rfl⟩
  | cons a p ih =>
    cases k with
    | nil => exact absurd (nil_lt_cons a p) hle
    | cons b k =>
      rw [cons_lt_cons_iff,not_or,not_and] at hle
      rw [cons_append,cons_lt_cons_iff] at hlt
      rcases hlt with hba | ⟨rfl,hlt⟩
      · exact absurd hba hle.1
      · obtain ⟨r,rfl⟩ := ih (hle.2 rfl) hlt
        exact ⟨r,rfl⟩

theorem between_of_starts (p : List UInt8) (hb : b < 0xff) (r : List UInt8) :
    ¬ p ++ b :: r < p ∧ p ++ b :: r < p ++ [0xff] := by
  induction p with
  | nil => exact ⟨not_lt_nil _,cons_lt_cons_iff.mpr (.inl hb)⟩
  | cons a p ih =>
    rw [cons_append,cons_append,cons_lt_cons_iff,cons_lt_cons_iff]
    exact ⟨fun h => h.elim (UInt8.lt_irrefl a) fun h => ih.1 h.2,.inr ⟨rfl,ih.2⟩⟩

theorem big_endian_lt (hm : m < 256 ^ k) (hn : n < 256 ^ k) (r s : List UInt8) :
    bigEndian k m ++ r < bigEndian k n ++ s ↔ m < n ∨ m = n ∧ r < s := by
  induction k generalizing m n with
  | zero =>
    obtain rfl : m = 0 := lt_one_iff.mp hm
    obtain rfl : n = 0 := lt_one_iff.mp hn
    simp [bigEndian]
  | succ k ih =>
    have hp : 0 < 256 ^ k := Nat.pow_pos (by decide)
    rw [bigEndian,bigEndian,cons_append,cons_append,cons_lt_cons_iff,
      byte_lt (digit_lt hm) (digit_lt hn),byte_eq (digit_lt hm) (digit_lt hn),
      ih (mod_lt _ hp) (mod_lt _ hp)]
    have hdm := div_add_mod m (256 ^ k)
    have hdn := div_add_mod n (256 ^ k)
    constructor
    · rintro (hlt | ⟨heq,hlt | ⟨hmo,hrs⟩⟩)
      · exact .inl (lt_of_div_lt_div hlt)
      · left
        rw [← hdm,← hdn,heq]
        exact Nat.add_lt_add_left hlt _
      · right
        rw [← hdm,← hdn,heq,hmo]
        exact ⟨rfl,hrs⟩
    · rintro (hlt | ⟨rfl,hrs⟩)
      · rcases Nat.lt_or_eq_of_le (Nat.div_le_div_right (c := 256 ^ k) hlt.le) with hd | hd
        · exact .inl hd
        refine .inr ⟨hd,.inl ?_⟩
        rw [← hdm,← hdn,hd] at hlt
        exact Nat.lt_of_add_lt_add_left hlt
      · exact .inr ⟨rfl,.inr ⟨rfl,hrs⟩⟩

theorem trim_big_endian (h : n < 256 ^ k) :
    ∃ j ≤ k, (bigEndian k n).dropWhile (· = 0) = bigEndian j n ∧ n < 256 ^ j ∧
      (j ≠ 0 → 256 ^ (j - 1) ≤ n) := by
  induction k with
  | zero => exact ⟨0,Nat.le_refl _,rfl,h,fun hne => absurd rfl hne⟩
  | succ k ih =>
    by_cases hl : n < 256 ^ k
    · obtain ⟨j,hj,heq,hr⟩ := ih hl
      refine ⟨j,le_succ_of_le hj,?_,hr⟩
      rw [bigEndian,div_eq_of_lt hl,mod_eq_of_lt hl,dropWhile_cons_of_pos (by decide)]
      exact heq
    · have hle := Nat.le_of_not_lt hl
      refine ⟨k + 1,Nat.le_refl _,?_,h,fun _ => hle⟩
      have hd : n / 256 ^ k ≠ 0 := (Nat.div_pos hle (Nat.pow_pos (by decide))).ne'
      rw [bigEndian,dropWhile_cons_of_neg]
      simpa using fun hz => hd ((byte_eq (digit_lt h) (by decide)).mp hz)

/-- A number of 64 bits as its digits without leading zeros, after their number. -/
def ordered (n : Nat) : List UInt8 :=
  let digits := (bigEndian 8 n).dropWhile (· = 0)
  UInt8.ofNat digits.length :: digits

theorem ordered_eq (h : n < 2 ^ 64) :
    ∃ j ≤ 8, ordered n = UInt8.ofNat j :: bigEndian j n ∧ n < 256 ^ j ∧
      (j ≠ 0 → 256 ^ (j - 1) ≤ n) := by
  have hn : n < 256 ^ 8 := h
  obtain ⟨j,hj,heq,hr⟩ := trim_big_endian hn
  refine ⟨j,hj,?_,hr⟩
  rw [ordered,heq]
  simp

theorem ordered_head (h : n < 2 ^ 64) : ∃ b bs, ordered n = b :: bs ∧ b.toNat ≤ 8 := by
  obtain ⟨j,hj,heq,_⟩ := ordered_eq h
  exact ⟨_,_,heq,(to_nat_of_nat (by omega)).trans_le hj⟩

theorem lt_of_digits (hij : i < j) (hm : m < 256 ^ i) (hn : j ≠ 0 → 256 ^ (j - 1) ≤ n) : m < n := by
  have hle : 256 ^ i ≤ 256 ^ (j - 1) := Nat.pow_le_pow_right (by decide) (by omega)
  omega

/-- The code keeps the order, also in front of other codes. -/
theorem ordered_lt (hm : m < 2 ^ 64) (hn : n < 2 ^ 64) (r s : List UInt8) :
    ordered m ++ r < ordered n ++ s ↔ m < n ∨ m = n ∧ r < s := by
  obtain ⟨i,hi,hq,hmi,hw⟩ := ordered_eq hm
  obtain ⟨j,hj,hnq,hnj,hl⟩ := ordered_eq hn
  rw [hq,hnq,cons_append,cons_append,cons_lt_cons_iff,
    byte_lt (by omega) (by omega),byte_eq (by omega) (by omega)]
  rcases Nat.lt_trichotomy i j with hij | rfl | hij
  · have hlt := lt_of_digits hij hmi hl
    simp [hij,hlt]
  · rw [big_endian_lt hmi hnj]
    simp
  have hlt := lt_of_digits hij hnj hw
  have hne : ¬ (i < j ∨ i = j ∧ bigEndian i m ++ r < bigEndian j n ++ s) := by omega
  have hno : ¬ (m < n ∨ m = n ∧ r < s) := by omega
  exact iff_of_false hne hno

theorem ordered_append_inj (hm : m < 2 ^ 64) (hn : n < 2 ^ 64)
    (h : ordered m ++ r = ordered n ++ s) : m = n ∧ r = s := by
  obtain ⟨i,hi,hq,hmi,_⟩ := ordered_eq hm
  obtain ⟨j,hj,hne,hnj,_⟩ := ordered_eq hn
  rw [hq,hne,cons_append,cons_append,List.cons.injEq,byte_eq (by omega) (by omega)] at h
  obtain ⟨rfl,h⟩ := h
  obtain ⟨hd,hr⟩ := append_inj h (by simp)
  refine ⟨?_,hr⟩
  rw [← value_big_endian hmi,hd,value_big_endian hnj]

def decodeOrdered : List UInt8 → Option (Nat × Nat)
  | [] => none
  | b :: bs =>
    if 8 < b.toNat then none
    else if bs.length < b.toNat then none
    else some (value (bs.take b.toNat),b.toNat + 1)

theorem decode_ordered (h : n < 2 ^ 64) (r : List UInt8) :
    decodeOrdered (ordered n ++ r) = some (n,(ordered n).length) := by
  obtain ⟨j,hj,heq,hnj,_⟩ := ordered_eq h
  have hb : (UInt8.ofNat j).toNat = j := to_nat_of_nat (by omega)
  rw [heq,cons_append,decodeOrdered,hb,if_neg (by omega),if_neg (by simp)]
  simp [value_big_endian hnj]

/-- Digits to the base 128, the lowest first. All but the last are marked. -/
def varintOf : Nat → Nat → List UInt8
  | 0,_ => []
  | k + 1,n => if n < 128 then [UInt8.ofNat n] else UInt8.ofNat (n % 128 + 128) :: varintOf k (n / 128)

/-- Ten digits are enough for a number of 64 bits. -/
def varint (n : Nat) : List UInt8 := varintOf 10 n

theorem varint_of_length : (varintOf (k + 1) n).length ≠ 0 := by
  rw [varintOf]
  split <;> simp

theorem varint_pos (n : Nat) : 0 < (varint n).length := Nat.pos_of_ne_zero varint_of_length

theorem varint_of_length_le (h : n < 128 ^ (j + 1)) : (varintOf k n).length ≤ j + 1 := by
  induction k generalizing j n with
  | zero => exact Nat.zero_le _
  | succ k ih =>
    rw [varintOf]
    split
    · exact succ_le_succ (Nat.zero_le j)
    cases j with
    | zero => omega
    | succ j =>
      refine succ_le_succ (ih ?_)
      rw [Nat.div_lt_iff_lt_mul (by decide),← Nat.pow_succ]
      exact h

def decodeVarintOf : Nat → List UInt8 → Option (Nat × Nat)
  | 0,_ => none
  | _ + 1,[] => none
  | k + 1,b :: bs =>
    if b.toNat < 128 then some (b.toNat,1)
    else (decodeVarintOf k bs).map fun e => (b.toNat % 128 + 128 * e.1,e.2 + 1)

/-- At most ten digits, of which the last one may not lead out of 64 bits. -/
def decodeVarint (bs : List UInt8) : Option (Nat × Nat) :=
  (decodeVarintOf 10 bs).filter fun e => e.1 < 2 ^ 64

theorem decode_varint_of_pos (h : decodeVarintOf k bs = some e) : e.2 ≠ 0 := by
  rcases k with _ | k
  · cases h
  cases bs with
  | nil => cases h
  | cons b bs =>
    rw [decodeVarintOf] at h
    split at h
    · cases h
      exact Nat.one_ne_zero
    · obtain ⟨d,_,rfl⟩ := Option.map_eq_some_iff.mp h
      exact Nat.succ_ne_zero d.2

theorem decode_varint_of (h : n < 128 ^ (k + 1)) (r : List UInt8) :
    decodeVarintOf (k + 1) (varintOf (k + 1) n ++ r) = some (n,(varintOf (k + 1) n).length) := by
  induction k generalizing n with
  | zero =>
    have hn : n < 128 := h
    have hb : (UInt8.ofNat n).toNat = n := to_nat_of_nat (by omega)
    rw [varintOf,if_pos hn,singleton_append,decodeVarintOf,hb,if_pos hn]
    rfl
  | succ k ih =>
    rw [varintOf]
    by_cases hn : n < 128
    · have hb : (UInt8.ofNat n).toNat = n := to_nat_of_nat (by omega)
      rw [if_pos hn,singleton_append,decodeVarintOf,hb,if_pos hn]
      rfl
    · have hb : (UInt8.ofNat (n % 128 + 128)).toNat = n % 128 + 128 := to_nat_of_nat (by omega)
      have hd : n / 128 < 128 ^ (k + 1) := by
        rw [Nat.div_lt_iff_lt_mul (by decide),← Nat.pow_succ]
        exact h
      rw [if_neg hn,cons_append,decodeVarintOf,hb,if_neg (by omega),ih hd,Option.map_some,
        length_cons]
      have hv : (n % 128 + 128) % 128 + 128 * (n / 128) = n := by omega
      rw [hv]

theorem decode_varint (h : n < 2 ^ 64) (r : List UInt8) :
    decodeVarint (varint n ++ r) = some (n,(varint n).length) := by
  rw [decodeVarint,varint,decode_varint_of (by omega),Option.filter_some,
    if_pos (decide_eq_true h)]

theorem decode_varint_of_take (h : j < (varintOf k n).length) :
    decodeVarintOf k ((varintOf k n).take j) = none := by
  induction k generalizing j n with
  | zero => rfl
  | succ k ih =>
    rw [varintOf] at h ⊢
    cases j with
    | zero => rfl
    | succ j =>
      split at h
      · simp at h
      rename_i hn
      have hb : (UInt8.ofNat (n % 128 + 128)).toNat = n % 128 + 128 := to_nat_of_nat (by omega)
      rw [if_neg hn,take_succ_cons,decodeVarintOf,hb,if_neg (by omega),ih (lt_of_succ_lt_succ h)]
      rfl

theorem decode_varint_take (h : j < (varint n).length) :
    decodeVarint ((varint n).take j) = none := by
  rw [decodeVarint,varint,decode_varint_of_take h]
  rfl

end Digits
