import Mathlib.Algebra.Group.Int.Defs
import Mathlib.Algebra.Group.Nat.Defs
import Mathlib.Data.Int.Basic
import Mathlib.Data.List.Induction
import Mathlib.Data.List.TakeWhile
import Mathlib.Tactic.Common

namespace MatrixZht.Lib

/-- Decimal notation of an integer: a minus sign for negative numbers, then the digits. -/
def decimal (n : Int) : List Char :=
  if n < 0 then '-' :: Nat.toDigits 10 n.natAbs else Nat.toDigits 10 n.natAbs

def isBlank (c : Char) : Bool := c == ' ' || (9 ≤ c.toNat && c.toNat ≤ 13)

/-- The sign and the remaining characters of a numeral. -/
def readSign : List Char → Bool × List Char
  | '-' :: cs => (true, cs)
  | '+' :: cs => (false, cs)
  | cs => (false, cs)

/-- Formatted extraction of an integer with range `[lo, hi]`: leading blanks are skipped and the
longest numeral is read. A missing numeral or a value out of range reads as `0`. -/
def readDecimal (lo hi : Int) (cs : List Char) : Int :=
  let s := readSign (cs.dropWhile isBlank)
  let digits := s.2.takeWhile Char.isDigit
  if digits.isEmpty then 0
  else
    let n : Int := Nat.ofDigitChars 10 digits 0
    let v := if s.1 then -n else n
    if lo ≤ v ∧ v ≤ hi then v else 0

theorem isDigit_of_mem_digits {n : Nat} {c : Char} (h : c ∈ Nat.toDigits 10 n) :
    c.isDigit = true :=
  Nat.isDigit_of_mem_toDigits (by decide) (by decide) h

theorem isBlank_of_isDigit {c : Char} (h : c.isDigit = true) : isBlank c = false := by
  rw [Char.isDigit_iff_toNat] at h
  have hlo : 48 ≤ c.toNat := h.1
  have hne : c ≠ ' ' := by
    rintro rfl
    exact absurd hlo (by decide)
  have hhi : ¬ c.toNat ≤ 13 := by omega
  simp [isBlank, hne, hhi]

theorem mem_decimal {n : Int} {c : Char} (h : c ∈ decimal n) : c = '-' ∨ c.isDigit = true := by
  rw [decimal] at h
  split at h
  · rcases List.mem_cons.1 h with h | h
    · exact .inl h
    · exact .inr (isDigit_of_mem_digits h)
  · exact .inr (isDigit_of_mem_digits h)

@[simp] theorem decimal_ne_nil (n : Int) : decimal n ≠ [] := by
  rw [decimal]
  split
  · exact List.cons_ne_nil _ _
  · exact Nat.toDigits_ne_nil

theorem ne_of_mem_decimal {n : Int} {c d : Char} (hd : d.isDigit = false) (hm : d ≠ '-')
    (h : c ∈ decimal n) : c ≠ d := by
  rintro rfl
  rcases mem_decimal h with he | he
  · exact hm he
  · rw [hd] at he
    exact Bool.false_ne_true he

theorem takeWhile_digits (n : Nat) :
    (Nat.toDigits 10 n).takeWhile Char.isDigit = Nat.toDigits 10 n := by
  have h : (Nat.toDigits 10 n ++ []).takeWhile Char.isDigit =
      Nat.toDigits 10 n ++ [].takeWhile Char.isDigit :=
    List.takeWhile_append_of_pos fun c hc => isDigit_of_mem_digits hc
  simpa using h

theorem readSign_digits (n : Nat) : readSign (Nat.toDigits 10 n) = (false, Nat.toDigits 10 n) := by
  obtain ⟨c, cs, h⟩ := List.exists_cons_of_ne_nil (Nat.toDigits_ne_nil (n := n) (b := 10))
  have hc : c.isDigit = true := isDigit_of_mem_digits (h ▸ List.mem_cons_self)
  rw [h]
  unfold readSign
  split
  · simp_all
  · simp_all
  · rfl

theorem dropWhile_blank_decimal (n : Int) : (decimal n).dropWhile isBlank = decimal n := by
  obtain ⟨c, cs, h⟩ := List.exists_cons_of_ne_nil (decimal_ne_nil n)
  have hc : isBlank c = false := by
    rcases mem_decimal (h ▸ List.mem_cons_self : c ∈ decimal n) with he | he
    · rw [he]
      decide
    · exact isBlank_of_isDigit he
  rw [h, List.dropWhile_cons, if_neg (by simp [hc])]

theorem readDecimal_of_sign {lo hi : Int} {cs : List Char} {neg : Bool} {n : Nat}
    (h : readSign (cs.dropWhile isBlank) = (neg, Nat.toDigits 10 n)) :
    readDecimal lo hi cs =
      let v : Int := if neg then -n else n
      if lo ≤ v ∧ v ≤ hi then v else 0 := by
  have hne : (Nat.toDigits 10 n).isEmpty = false := by simp
  simp only [readDecimal, h, takeWhile_digits, Nat.ofDigitChars_ten_toDigits, hne,
    Bool.false_eq_true, if_false]

/-- Reading a printed integer gives it back when it is in range, and `0` otherwise. -/
theorem readDecimal_decimal (lo hi n : Int) :
    readDecimal lo hi (decimal n) = if lo ≤ n ∧ n ≤ hi then n else 0 := by
  by_cases hn : n < 0
  · have hs : readSign ((decimal n).dropWhile isBlank) = (true, Nat.toDigits 10 n.natAbs) := by
      rw [dropWhile_blank_decimal, decimal, if_pos hn]
      rfl
    have hv : -(n.natAbs : Int) = n := by omega
    rw [readDecimal_of_sign hs]
    simp only [if_true, hv]
  · have hs : readSign ((decimal n).dropWhile isBlank) = (false, Nat.toDigits 10 n.natAbs) := by
      rw [dropWhile_blank_decimal, decimal, if_neg hn]
      exact readSign_digits _
    have hv : (n.natAbs : Int) = n := by omega
    rw [readDecimal_of_sign hs]
    simp only [Bool.false_eq_true, if_false, hv]

theorem readDecimal_decimal_of_mem {lo hi n : Int} (h : lo ≤ n ∧ n ≤ hi) :
    readDecimal lo hi (decimal n) = n := by
  rw [readDecimal_decimal, if_pos h]

theorem decimal_natCast (n : Nat) : decimal n = Nat.toDigits 10 n := by
  rw [decimal, if_neg (by omega), Int.natAbs_natCast]

theorem decimal_injective : Function.Injective decimal := by
  intro m n h
  have hm : readDecimal (min m n) (max m n) (decimal m) = m :=
    readDecimal_decimal_of_mem (by omega)
  have hn : readDecimal (min m n) (max m n) (decimal n) = n :=
    readDecimal_decimal_of_mem (by omega)
  exact hm.symm.trans (h ▸ hn)

theorem exists_toDigits_of_append {n : Nat} {u v : List Char}
    (h : Nat.toDigits 10 n = u ++ v) (hu : u ≠ []) (hv : v ≠ []) :
    ∃ m, 0 < m ∧ u = Nat.toDigits 10 m := by
  induction v using List.reverseRecOn generalizing n with
  | nil => exact absurd rfl hv
  | append_singleton v d ih =>
    rw [← List.append_assoc] at h
    by_cases hn : n < 10
    · have hlen := congrArg List.length h
      have hpos := List.length_pos_iff.2 hu
      rw [Nat.toDigits_of_lt_base hn, List.length_singleton, List.length_append,
        List.length_append, List.length_singleton] at hlen
      omega
    · rw [Nat.toDigits_of_base_le (by decide) (by omega)] at h
      have hfront := (List.append_inj' h rfl).1
      by_cases hnil : v = []
      · rw [hnil, List.append_nil] at hfront
        exact ⟨n / 10, by omega, hfront.symm⟩
      · exact ih hfront hnil

/-- The digits of a number, filled up with zeros to a width. -/
def padded (width n : Nat) : List Char :=
  List.replicate (width - (Nat.toDigits 10 n).length) '0' ++ Nat.toDigits 10 n

/-- Conversion to an unsigned integer below `bound`: a value out of range reads as the largest one,
and a minus sign negates modulo `bound`. -/
def readUnsigned (bound : Nat) (cs : List Char) : Nat :=
  let s := readSign (cs.dropWhile isBlank)
  let n := Nat.ofDigitChars 10 (s.2.takeWhile Char.isDigit) 0
  if bound ≤ n then bound - 1 else if s.1 then (bound - n) % bound else n

theorem isDigit_of_mem_padded {width n : Nat} {c : Char} (h : c ∈ padded width n) :
    c.isDigit = true := by
  rcases List.mem_append.1 h with h | h
  · rw [List.eq_of_mem_replicate h]
    decide
  · exact isDigit_of_mem_digits h

theorem length_padded {width n : Nat} (hw : 0 < width) (h : n < 10 ^ width) :
    (padded width n).length = width := by
  have hlen : (Nat.toDigits 10 n).length ≤ width :=
    (Nat.length_toDigits_le_iff (by decide) hw).2 h
  rw [padded, List.length_append, List.length_replicate]
  omega

theorem le_length_padded (width n : Nat) :
    width ≤ (padded width n).length ∧ (Nat.toDigits 10 n).length ≤ (padded width n).length := by
  rw [padded, List.length_append, List.length_replicate]
  omega

theorem readSign_of_digits {cs : List Char} (h : ∀ c ∈ cs, c.isDigit = true) :
    readSign (cs.dropWhile isBlank) = (false, cs) := by
  cases cs with
  | nil => rfl
  | cons c cs =>
    have hc := h c List.mem_cons_self
    rw [List.dropWhile_cons, if_neg (by simp [isBlank_of_isDigit hc])]
    unfold readSign
    split
    · simp_all
    · simp_all
    · rfl

theorem readUnsigned_padded {bound n : Nat} (width : Nat) (h : n < bound) :
    readUnsigned bound (padded width n) = n := by
  have htake : (padded width n).takeWhile Char.isDigit = padded width n :=
    List.takeWhile_eq_self_iff.2 fun c hc => isDigit_of_mem_padded hc
  have hval : Nat.ofDigitChars 10 (padded width n) 0 = n := by
    rw [padded, Nat.ofDigitChars_append, Nat.ofDigitChars_replicate_zero, Nat.mul_zero,
      Nat.ofDigitChars_ten_toDigits]
  simp only [readUnsigned, readSign_of_digits fun c hc => isDigit_of_mem_padded hc, htake, hval]
  rw [if_neg (Nat.not_le_of_lt h)]
  rfl

theorem ofDigitChars_lt {cs : List Char} (h : ∀ c ∈ cs, c.isDigit = true) :
    Nat.ofDigitChars 10 cs 0 < 10 ^ cs.length := by
  induction cs with
  | nil => exact Nat.one_pos
  | cons c cs ih =>
    obtain ⟨hc, hcs⟩ := List.forall_mem_cons.1 h
    rw [Char.isDigit_iff_toNat] at hc
    have hhi : c.toNat ≤ 57 := hc.2
    have hzero : '0'.toNat = 48 := rfl
    have hdigit : c.toNat - '0'.toNat ≤ 9 := by omega
    have hrest := ih hcs
    have hmul := Nat.mul_le_mul_left (10 ^ cs.length) hdigit
    rw [Nat.ofDigitChars_cons, Nat.mul_zero, Nat.zero_add, Nat.ofDigitChars_eq_ofDigitChars_zero,
      List.length_cons, Nat.pow_succ]
    omega

theorem readUnsigned_range {bound width : Nat} {cs : List Char} (hlen : cs.length ≤ width)
    (hbound : 10 ^ width ≤ bound) :
    readUnsigned bound cs < 10 ^ width ∨
      bound - 10 ^ width < readUnsigned bound cs ∧ readUnsigned bound cs < bound := by
  have hsign : ∀ cs : List Char, (readSign cs).2.length ≤ cs.length := by
    intro cs
    unfold readSign
    split <;> simp
  have hdigits := (List.takeWhile_prefix Char.isDigit
    (l := (readSign (cs.dropWhile isBlank)).2)).length_le
  have hdrop := (List.dropWhile_suffix isBlank (l := cs)).length_le
  have hlt : Nat.ofDigitChars 10 ((readSign (cs.dropWhile isBlank)).2.takeWhile Char.isDigit) 0 <
      10 ^ width := by
    apply (ofDigitChars_lt fun c hc => List.mem_takeWhile_imp hc).trans_le
    exact Nat.pow_le_pow_right (by decide) (hdigits.trans ((hsign _).trans (hdrop.trans hlen)))
  simp only [readUnsigned]
  rw [if_neg (by omega)]
  split
  · rcases Nat.eq_zero_or_pos (Nat.ofDigitChars 10
        ((readSign (cs.dropWhile isBlank)).2.takeWhile Char.isDigit) 0) with hn | hn
    · rw [hn, Nat.sub_zero, Nat.mod_self]
      exact .inl (Nat.pow_pos (by decide))
    · rw [Nat.mod_eq_of_lt (by omega)]
      omega
  · exact .inl hlt

end MatrixZht.Lib
