import MatrixZht.Lib.Tokens
import MatrixZht.Lib.Numeral

namespace MatrixZht
open Lib

/-- A C++ `string`. Characters are only compared, so the alphabet may be wider than bytes. -/
abbrev Str := List Char

/-- `num_to_str<T>`, for a value that already has type `T`. -/
def numToStr (num : Int) : Str := decimal num

/-- `str_to_num<int>` -/
def strToInt (str : Str) : Int := readDecimal (-2 ^ 31) (2 ^ 31 - 1) str

/-- `str_to_num<long>` -/
def strToLong (str : Str) : Int := readDecimal (-2 ^ 63) (2 ^ 63 - 1) str

def IsInt (n : Int) : Prop := -2 ^ 31 ≤ n ∧ n ≤ 2 ^ 31 - 1

def IsLong (n : Int) : Prop := -2 ^ 63 ≤ n ∧ n ≤ 2 ^ 63 - 1

instance (n : Int) : Decidable (IsInt n) := inferInstanceAs (Decidable (_ ∧ _))

instance (n : Int) : Decidable (IsLong n) := inferInstanceAs (Decidable (_ ∧ _))

/-- Conversion of a wider integer to `int`. -/
def toInt32 (n : Int) : Int := Int.bmod n (2 ^ 32)

/-- The result of `long` arithmetic. -/
def toInt64 (n : Int) : Int := Int.bmod n (2 ^ 64)

theorem toInt32_eq {n : Int} (h : IsInt n) : toInt32 n = n := by
  unfold IsInt at h
  exact Int.bmod_eq_of_le (by omega) (by omega)

theorem toInt64_eq {n : Int} (h : IsLong n) : toInt64 n = n := by
  unfold IsLong at h
  exact Int.bmod_eq_of_le (by omega) (by omega)

theorem isInt_toInt32 (n : Int) : IsInt (toInt32 n) := by
  have hlo : -((2 ^ 32 : Nat) : Int) / 2 ≤ Int.bmod n (2 ^ 32) := Int.le_bmod (by decide)
  have hhi : Int.bmod n (2 ^ 32) < (((2 ^ 32 : Nat) : Int) + 1) / 2 := Int.bmod_lt (by decide)
  unfold IsInt toInt32
  omega

theorem isLong_toInt64 (n : Int) : IsLong (toInt64 n) := by
  have hlo : -((2 ^ 64 : Nat) : Int) / 2 ≤ Int.bmod n (2 ^ 64) := Int.le_bmod (by decide)
  have hhi : Int.bmod n (2 ^ 64) < (((2 ^ 64 : Nat) : Int) + 1) / 2 := Int.bmod_lt (by decide)
  unfold IsLong toInt64
  omega

theorem IsInt.isLong {n : Int} (h : IsInt n) : IsLong n := by
  unfold IsInt at h
  unfold IsLong
  omega

theorem strToInt_numToStr {n : Int} (h : IsInt n) : strToInt (numToStr n) = n :=
  readDecimal_decimal_of_mem h

theorem strToLong_numToStr {n : Int} (h : IsLong n) : strToLong (numToStr n) = n :=
  readDecimal_decimal_of_mem h

theorem strToInt_isInt (str : Str) : IsInt (strToInt str) := by
  unfold strToInt readDecimal IsInt
  grind

theorem strToLong_isLong (str : Str) : IsLong (strToLong str) := by
  unfold strToLong readDecimal IsLong
  grind

@[simp] theorem numToStr_ne_nil (n : Int) : numToStr n ≠ [] := decimal_ne_nil n

@[simp] theorem strToLong_nil : strToLong [] = 0 := rfl

@[simp] theorem strToInt_nil : strToInt [] = 0 := rfl

/-- `string::find_first_of` -/
def findFirstOf (source delimiter : Str) (prev : Nat) : Option Nat :=
  ((source.drop prev).findIdx? (delimiter.contains ·)).map (· + prev)

/-- The loop of `tokenize`, from position `prev` on; it returns the last `prev` and the tokens. -/
def tokenizeLoop (source delimiter : Str) : Nat → Nat → List Str → Nat × List Str
  | 0, prev, results => (prev, results)
  | fuel + 1, prev, results =>
    match findFirstOf source delimiter prev with
    | none => (prev, results)
    | some next =>
      let results := if next - prev ≠ 0 then results ++ [(source.drop prev).take (next - prev)]
        else results
      tokenizeLoop source delimiter fuel (next + 1) results

def tokenize (source delimiter : Str) : List Str :=
  if source.isEmpty then []
  else
    let (prev, results) := tokenizeLoop source delimiter (source.length + 1) 0 []
    if prev < source.length then results ++ [source.drop prev] else results

theorem findIdx?_split {α : Type*} {p : α → Bool} {l : List α} {i : Nat}
    (h : l.findIdx? p = some i) :
    ∃ d, p d = true ∧ l = l.take i ++ d :: l.drop (i + 1) ∧ ∀ c ∈ l.take i, p c = false := by
  obtain ⟨hi, hp, hlt⟩ := List.findIdx?_eq_some_iff_getElem.1 h
  refine ⟨l[i], hp, ?_, ?_⟩
  · rw [List.getElem_cons_drop, List.take_append_drop]
  · intro c hc
    obtain ⟨j, hj, he⟩ := List.mem_iff_getElem.1 hc
    rw [List.length_take] at hj
    have hji : j < i := by omega
    rw [List.getElem_take] at he
    rw [← he]
    simpa using hlt j hji

theorem tokenizeLoop_tokens (source delimiter : Str) (fuel prev : Nat) (results : List Str)
    (hf : source.length < prev + fuel) :
    let r := tokenizeLoop source delimiter fuel prev results
    (if r.1 < source.length then r.2 ++ [source.drop r.1] else r.2) =
      results ++ tokens (delimiter.contains ·) (source.drop prev) := by
  induction fuel generalizing prev results with
  | zero =>
    have hd : source.drop prev = [] := List.drop_eq_nil_of_le (by omega)
    simp only [tokenizeLoop, hd, tokens_nil, List.append_nil]
    rw [if_neg (by omega)]
  | succ fuel ih =>
    rw [tokenizeLoop, findFirstOf]
    cases hx : (source.drop prev).findIdx? (delimiter.contains ·) with
    | none =>
      have hclean : ∀ c ∈ source.drop prev, delimiter.contains c = false :=
        List.findIdx?_eq_none_iff.1 hx
      simp only [Option.map_none, tokens_of_clean hclean]
      by_cases hp : prev < source.length
      · have hne : (source.drop prev).isEmpty = false := by
          simpa using hp
        rw [if_pos hp, if_neg (by simp [hne])]
      · have he : source.drop prev = [] := List.drop_eq_nil_of_le (by omega)
        rw [if_neg hp, he]
        simp
    | some i =>
      obtain ⟨d, hd, hsplit, hclean⟩ := findIdx?_split hx
      have hrest : (source.drop prev).drop (i + 1) = source.drop (i + prev + 1) := by
        rw [List.drop_drop]
        congr 1
        omega
      have htok : tokens (delimiter.contains ·) (source.drop prev) =
          (if ((source.drop prev).take i).isEmpty then [] else [(source.drop prev).take i]) ++
            tokens (delimiter.contains ·) (source.drop (i + prev + 1)) := by
        rw [hsplit, tokens_append_cons hd, tokens_of_clean hclean, ← hsplit, hrest]
      have hi : i < (source.drop prev).length := (List.findIdx?_eq_some_iff_getElem.1 hx).1
      have hlen : (source.drop prev).length = source.length - prev := List.length_drop
      simp only [Option.map_some, Nat.add_sub_cancel]
      rw [ih (i + prev + 1) _ (by omega), htok]
      by_cases hz : i = 0
      · simp [hz]
      · have hne : ((source.drop prev).take i).isEmpty = false := by
          simp only [List.isEmpty_eq_false_iff, ne_eq, List.take_eq_nil_iff, not_or]
          exact ⟨hz, List.ne_nil_of_length_pos (by omega)⟩
        simp [hz, hne]

/-- `tokenize` returns the maximal runs of characters outside the delimiter set. -/
theorem tokenize_eq_tokens (source delimiter : Str) :
    tokenize source delimiter = tokens (delimiter.contains ·) source := by
  unfold tokenize
  by_cases hs : source.isEmpty = true
  · rw [if_pos hs, List.isEmpty_iff.1 hs]
    rfl
  · rw [if_neg hs]
    have h := tokenizeLoop_tokens source delimiter (source.length + 1) 0 [] (by omega)
    simpa using h

end MatrixZht
