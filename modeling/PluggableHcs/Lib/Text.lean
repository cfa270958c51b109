import Mathlib.Data.List.Basic
import Mathlib.Tactic.IntervalCases

namespace Text
open List

def hex (bytes : List UInt8) : List Char :=
  bytes.flatMap (fun b => [Nat.digitChar (b.toNat / 16),Nat.digitChar (b.toNat % 16)])

def decimal : Int → List Char
  | .ofNat n => Nat.toDigits 10 n
  | .negSucc n => '-' :: Nat.toDigits 10 (n + 1)

theorem digit_char_injective (hm : m < 16) (hn : n < 16)
    (h : Nat.digitChar m = Nat.digitChar n) : m = n := by
  interval_cases m <;> interval_cases n <;> first | rfl | (revert h; decide)

theorem byte_high_lt (b : UInt8) : b.toNat / 16 < 16 := by
  have := b.toNat_lt
  omega

theorem hex_injective {as bs : List UInt8} (h : hex as = hex bs) : as = bs := by
  induction as generalizing bs with
  | nil => cases bs with
    | nil => rfl
    | cons b bs => simp [hex] at h
  | cons a as ih => cases bs with
    | nil => simp [hex] at h
    | cons b bs =>
      simp only [hex,flatMap_cons,cons_append,nil_append,List.cons.injEq] at h
      obtain ⟨hh,hl,ht⟩ := h
      have hhi := digit_char_injective (byte_high_lt a) (byte_high_lt b) hh
      have hlo := digit_char_injective (Nat.mod_lt _ (by omega)) (Nat.mod_lt _ (by omega)) hl
      have he : a = b := UInt8.toNat_inj.mp (by omega)
      rw [he,ih ht]

theorem to_digits_injective (h : Nat.toDigits 10 m = Nat.toDigits 10 n) : m = n := by
  rw [← @Nat.ofDigitChars_ten_toDigits m,h,Nat.ofDigitChars_ten_toDigits]

theorem digit_mem (h : c ∈ Nat.toDigits 10 n) : c.isDigit = true :=
  Nat.isDigit_of_mem_toDigits (by omega) (by omega) h

theorem to_digits_no_sign : '-' ∉ Nat.toDigits 10 n := by
  intro h
  exact absurd (digit_mem h) (by decide)

theorem decimal_injective (h : decimal m = decimal n) : m = n := by
  match m, n with
  | .ofNat m, .ofNat n => rw [to_digits_injective h]
  | .negSucc m, .negSucc n =>
    have := to_digits_injective (List.cons.inj h).2
    rw [Nat.succ.inj this]
  | .ofNat m, .negSucc n =>
    have hm : '-' ∈ Nat.toDigits 10 m := by
      rw [show Nat.toDigits 10 m = decimal (.negSucc n) from h]
      exact mem_cons_self
    exact absurd hm to_digits_no_sign
  | .negSucc m, .ofNat n =>
    have hm : '-' ∈ Nat.toDigits 10 n := by
      rw [show Nat.toDigits 10 n = decimal (.negSucc m) from h.symm]
      exact mem_cons_self
    exact absurd hm to_digits_no_sign

theorem decimal_digits (h : c ∈ decimal n) : c = '-' ∨ c.isDigit = true := by
  match n with
  | .ofNat n => exact Or.inr (digit_mem h)
  | .negSucc n =>
    rcases mem_cons.mp h with h | h
    · exact Or.inl h
    · exact Or.inr (digit_mem h)

theorem hex_digits {bs : List UInt8} (h : c ∈ hex bs) : ∃ n < 16, c = Nat.digitChar n := by
  obtain ⟨b,_,hc⟩ := mem_flatMap.mp h
  simp only [mem_cons,not_mem_nil,or_false] at hc
  rcases hc with rfl | rfl
  · exact ⟨_,byte_high_lt b,rfl⟩
  · exact ⟨_,Nat.mod_lt _ (by omega),rfl⟩

def cutAt (sep : Char) : List Char → List Char × Option (List Char)
  | [] => ([],none)
  | c :: cs => if c = sep then ([],some cs) else (c :: (cutAt sep cs).1,(cutAt sep cs).2)

theorem cut_at_none (h : sep ∉ s) : cutAt sep s = (s,none) := by
  induction s with
  | nil => rfl
  | cons c cs ih =>
    rw [mem_cons,not_or] at h
    obtain ⟨hc,hcs⟩ := h
    simp [cutAt,Ne.symm hc,ih hcs]

theorem cut_at_some (h : sep ∉ s) : cutAt sep (s ++ sep :: rest) = (s,some rest) := by
  induction s with
  | nil => simp [cutAt]
  | cons c cs ih =>
    rw [mem_cons,not_or] at h
    obtain ⟨hc,hcs⟩ := h
    simp [cutAt,Ne.symm hc,ih hcs]

def readDigits (s : List Char) : Option Nat :=
  if s ≠ [] ∧ s.all Char.isDigit then some (Nat.ofDigitChars 10 s 0) else none

/-- Decimal text with an optional sign, within the range of a 64-bit integer. -/
def atoi : List Char → Option Int
  | '-' :: digits => (readDigits digits).bind fun n => if n ≤ 2 ^ 63 then some (-(n : Int)) else none
  | '+' :: digits => (readDigits digits).bind fun n => if n < 2 ^ 63 then some (n : Int) else none
  | digits => (readDigits digits).bind fun n => if n < 2 ^ 63 then some (n : Int) else none

theorem read_digits_to_digits (n : Nat) : readDigits (Nat.toDigits 10 n) = some n := by
  have hne : Nat.toDigits 10 n ≠ [] := Nat.toDigits_ne_nil
  have ha : (Nat.toDigits 10 n).all Char.isDigit = true :=
    all_eq_true.mpr fun c hc => digit_mem hc
  simp [readDigits,hne,ha]

theorem atoi_to_digits (h : n < 2 ^ 63) : atoi (Nat.toDigits 10 n) = some (n : Int) := by
  have hr := read_digits_to_digits n
  unfold atoi
  split
  · rename_i hmi
    exact absurd (by rw [hmi]; exact mem_cons_self) (to_digits_no_sign (n := n))
  · rename_i hp
    have hm : '+' ∈ Nat.toDigits 10 n := by
      rw [hp]
      exact mem_cons_self
    exact absurd (digit_mem hm) (by decide)
  · rw [hr,Option.bind_some,if_pos h]

theorem atoi_no_sign (hs : '-' ∉ s) (h : atoi s = some z) : ∃ n : Nat, n < 2 ^ 63 ∧ z = n := by
  have hr : ∀ ds, ((readDigits ds).bind fun n =>
      if n < 2 ^ 63 then some (n : Int) else none) = some z → ∃ n : Nat, n < 2 ^ 63 ∧ z = n := by
    intro ds h
    obtain ⟨n,_,hn⟩ := Option.bind_eq_some_iff.mp h
    split_ifs at hn with hlt
    exact ⟨n,hlt,(Option.some.inj hn).symm⟩
  unfold atoi at h
  split at h
  · exact absurd mem_cons_self hs
  · exact hr _ h
  · exact hr _ h

theorem mem_cut_at :
    (c ∈ (cutAt sep s).1 → c ∈ s ∧ c ≠ sep) ∧ ∀ re, (cutAt sep s).2 = some re → c ∈ re → c ∈ s := by
  induction s with
  | nil => simp [cutAt]
  | cons d s ih =>
    unfold cutAt
    split_ifs with hd
    · refine ⟨by simp,?_⟩
      intro re hr hc
      cases hr
      exact mem_cons_of_mem _ hc
    · refine ⟨?_,?_⟩
      · intro hc
        obtain rfl | hc := mem_cons.mp hc
        · exact ⟨mem_cons_self,hd⟩
        · exact ⟨mem_cons_of_mem _ (ih.1 hc).1,(ih.1 hc).2⟩
      · intro re hr hc
        exact mem_cons_of_mem _ (ih.2 re hr hc)

/-- Names one after another, each with a separator in front. -/
def rooted (sep : Char) (names : List (List Char)) : List Char :=
  names.flatMap fun name => sep :: name

section
variable {name : List Char}

theorem rooted_cons : rooted sep (name :: na) = sep :: (name ++ rooted sep na) := by
  simp [rooted]

theorem rooted_snoc : rooted sep (na ++ [name]) = rooted sep na ++ sep :: name := by
  simp [rooted]

theorem intercalate_rooted : sep :: [sep].intercalate (name :: na) = rooted sep (name :: na) := by
  induction na generalizing name with
  | nil => simp [rooted]
  | cons next na ih =>
    rw [rooted_cons,← ih]
    simp [intercalate_cons_cons]

theorem take_rooted (h : sep ∉ name) : (name ++ rooted sep na).takeWhile (· ≠ sep) = name := by
  have hn : ∀ c ∈ name, decide (c ≠ sep) = true := by
    intro c hc
    simp only [decide_eq_true_eq]
    rintro rfl
    exact h hc
  rw [takeWhile_append_of_pos hn]
  cases na with
  | nil => simp [rooted]
  | cons next na => simp [rooted_cons]

end

theorem rooted_injective (ha : ∀ a ∈ as, sep ∉ a)
    (hb : ∀ b ∈ bs, sep ∉ b) (h : rooted sep as = rooted sep bs) : as = bs := by
  induction as generalizing bs with
  | nil => cases bs with
    | nil => rfl
    | cons b bs =>
      rw [rooted_cons] at h
      cases h
  | cons a as ih => cases bs with
    | nil =>
      rw [rooted_cons] at h
      cases h
    | cons b bs =>
      rw [rooted_cons,rooted_cons,List.cons.injEq] at h
      obtain ⟨_,h⟩ := h
      have he : a = b := calc
        a = (a ++ rooted sep as).takeWhile (· ≠ sep) := (take_rooted (ha a mem_cons_self)).symm
        _ = (b ++ rooted sep bs).takeWhile (· ≠ sep) := by rw [h]
        _ = b := take_rooted (hb b mem_cons_self)
      subst he
      rw [ih (fun x hx => ha x (mem_cons_of_mem _ hx))
        (fun x hx => hb x (mem_cons_of_mem _ hx)) (append_cancel_left h)]

end Text
