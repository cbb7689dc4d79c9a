import MatrixZht.Requests
import MatrixZht.Zht.Routing

namespace MatrixZht
open Lib

/-- `string::npos` -/
def npos : Nat := 2 ^ 64 - 1

/-- `zht_tokenize`, which has the text of `tokenize`. -/
def zhtTokenize (source delimiter : Str) : List Str := tokenize source delimiter

/-- `string::find_first_not_of` -/
def findFirstNotOf (source delimiter : Str) (pos : Nat) : Option Nat :=
  ((source.drop pos).findIdx? (!delimiter.contains ·)).map (· + pos)

namespace StrTokenizer

/-- A tokenizer with the positions of the next token. `StrTokenizer` keeps the text instead. -/
structure Positions where
  source : Str
  delim : Str
  start : Nat
  stop : Nat

namespace Positions

def findNext (strtok : Positions) : Positions :=
  let start := (findFirstNotOf strtok.source strtok.delim strtok.stop).getD npos
  { strtok with start, stop := (findFirstOf strtok.source strtok.delim start).getD npos }

def new (source delim : Str) : Positions := findNext ⟨source, delim, 0, 0⟩

def hasMoreTokens (strtok : Positions) : Bool := strtok.start ≠ npos

/-- The length of a token is a difference of `size_t` numbers. `none` is the exception. -/
def nextToken (strtok : Positions) : Option (Str × Positions) :=
  if !strtok.hasMoreTokens then some ([], strtok)
  else
    (substr strtok.source strtok.start ((strtok.stop + 2 ^ 64 - strtok.start) % 2 ^ 64)).map
      fun token => (token, strtok.findNext)

/-- What `next_token` returns while `has_more_tokens` holds. `none` is an exception, or more turns
than `fuel`. -/
def allTokens : Nat → Positions → Option (List Str)
  | 0, _ => none
  | fuel + 1, strtok =>
    if strtok.hasMoreTokens then
      strtok.nextToken.bind fun (token, strtok) => (allTokens fuel strtok).map (token :: ·)
    else some []

/-- The text from the next token on. -/
def toStrTokenizer (strtok : Positions) : StrTokenizer :=
  ⟨strtok.source.drop strtok.start, strtok.delim⟩

/-- The positions are those of the first token in what is left of the source. -/
structure Ok (strtok : Positions) (left : Str) : Prop where
  short : strtok.source.length < npos
  start : strtok.start < strtok.source.length ∨ strtok.start = npos
  stop : strtok.stop = (findFirstOf strtok.source strtok.delim strtok.start).getD npos
  text : strtok.toStrTokenizer = StrTokenizer.findNext left strtok.delim

end Positions

end StrTokenizer

section Find

variable {source delimiter : Str} {pos : Nat}

theorem split_at_findIdx? (p : Char → Bool) (pos : Nat) (hs : source.length < npos) :
    let next := (((source.drop pos).findIdx? p).map (· + pos)).getD npos
    source.drop next = (source.drop pos).dropWhile (!p ·) ∧
      (pos ≤ npos → (source.drop pos).take (next - pos) = (source.drop pos).takeWhile (!p ·)) ∧
      (next < source.length ∧ pos ≤ next ∨ next = npos) := by
  intro next
  rw [List.dropWhile_eq_drop_findIdx_not, List.takeWhile_eq_take_findIdx_not]
  simp only [Bool.not_not]
  cases h : (source.drop pos).findIdx? p with
  | none =>
    have hnext : next = npos := by simp [next, h]
    have hall : (source.drop pos).findIdx p = (source.drop pos).length :=
      List.findIdx?_eq_none_iff_findIdx_eq.1 h
    rw [hall, hnext, List.drop_length, List.take_length, List.drop_eq_nil_of_le hs.le]
    refine ⟨rfl, fun _ => List.take_of_length_le ?_, .inr rfl⟩
    rw [List.length_drop]
    omega
  | some i =>
    have hnext : next = i + pos := by simp [next, h]
    obtain ⟨hi, hidx⟩ := List.findIdx?_eq_some_iff_findIdx_eq.1 h
    rw [List.length_drop] at hi
    rw [hidx, hnext, List.drop_drop, Nat.add_comm pos i, Nat.add_sub_cancel]
    exact ⟨rfl, fun _ => rfl, .inl ⟨by omega, by omega⟩⟩

end Find

namespace StrTokenizer.Positions

variable {strtok : Positions} {left : Str}

theorem findNext_delim : strtok.findNext.delim = strtok.delim := rfl

theorem findNext_ok (h : strtok.source.length < npos) :
    strtok.findNext.Ok (strtok.source.drop strtok.stop) := by
  obtain ⟨hdrop, _, hstart⟩ := split_at_findIdx? (!strtok.delim.contains ·) strtok.stop h
  simp only [Bool.not_not] at hdrop
  exact ⟨h, hstart.imp_left And.left, rfl, congrArg (StrTokenizer.mk · strtok.delim) hdrop⟩

theorem hasMoreTokens_eq (h : strtok.Ok left) :
    strtok.hasMoreTokens = strtok.toStrTokenizer.hasMoreTokens := by
  have hshort := h.short
  rcases h.start with hstart | hstart
  · have hne : strtok.start ≠ npos := by omega
    simp [hasMoreTokens, StrTokenizer.hasMoreTokens, toStrTokenizer, hne, hstart]
  · simp [hasMoreTokens, StrTokenizer.hasMoreTokens, toStrTokenizer, hstart, hshort.le]

/-- The positions give the token that the text gives. -/
theorem nextToken_spec (h : strtok.Ok left) (hmore : strtok.hasMoreTokens = true) :
    strtok.nextToken = some (strtok.toStrTokenizer.nextToken.1, strtok.findNext) ∧
      strtok.findNext.toStrTokenizer = strtok.toStrTokenizer.nextToken.2 := by
  have hshort := h.short
  have hstart : strtok.start < strtok.source.length :=
    h.start.resolve_right (of_decide_eq_true hmore)
  obtain ⟨hdrop, htake, hstop⟩ := split_at_findIdx? (strtok.delim.contains ·) strtok.start hshort
  have hfind : strtok.stop =
      (((strtok.source.drop strtok.start).findIdx? (strtok.delim.contains ·)).map
        (· + strtok.start)).getD npos := h.stop
  rw [← hfind] at hdrop htake hstop
  have hlen : (strtok.stop + 2 ^ 64 - strtok.start) % 2 ^ 64 = strtok.stop - strtok.start := by
    have hnpos : npos + 1 = 2 ^ 64 := rfl
    omega
  have hnext : strtok.toStrTokenizer.nextToken =
      ((strtok.source.drop strtok.start).takeWhile (!strtok.delim.contains ·),
        StrTokenizer.findNext (strtok.source.drop strtok.stop) strtok.delim) := by
    rw [hdrop, StrTokenizer.nextToken, ← hasMoreTokens_eq h, hmore]
    rfl
  have hsubstr : substr strtok.source strtok.start (strtok.stop - strtok.start) =
      some ((strtok.source.drop strtok.start).takeWhile (!strtok.delim.contains ·)) := by
    rw [substr, if_pos ⟨by omega, by omega⟩, ← htake (by omega), Int.toNat_natCast]
  constructor
  · rw [nextToken, hmore, hlen, hsubstr, hnext]
    rfl
  · rw [hnext]
    exact (findNext_ok hshort).text

theorem allTokens_eq {fuel : Nat} (h : strtok.Ok left)
    (hfuel : (tokens (strtok.delim.contains ·) left).length < fuel) :
    allTokens fuel strtok = some (tokens (strtok.delim.contains ·) left) := by
  induction fuel generalizing strtok left with
  | zero => omega
  | succ fuel ih =>
    have hempty := StrTokenizer.hasMoreTokens_findNext left strtok.delim
    rw [← h.text, ← hasMoreTokens_eq h] at hempty
    rw [allTokens]
    cases htok : tokens (strtok.delim.contains ·) left with
    | nil =>
      rw [htok] at hempty
      rw [hempty]
      rfl
    | cons token rest =>
      rw [htok] at hempty hfuel
      obtain ⟨hhead, left', hleft, htail⟩ := StrTokenizer.nextToken_findNext left strtok.delim
      obtain ⟨hnext, htext⟩ := nextToken_spec h hempty
      rw [htok, ← h.text] at hhead
      rw [htok] at htail
      rw [← h.text, ← htext] at hleft
      have hok : strtok.findNext.Ok left' :=
        { findNext_ok h.short with text := hleft }
      have hrest : allTokens fuel strtok.findNext = some rest := by
        have hih := ih hok
        rw [findNext_delim, htail] at hih
        exact hih (Nat.lt_of_succ_lt_succ hfuel)
      simp only [hempty, List.isEmpty_cons, Bool.not_false, if_true, hnext, hhead, List.headD_cons,
        Option.bind_some, hrest, Option.map_some]

theorem new_ok {source delim : Str} (h : source.length < npos) : (new source delim).Ok source :=
  findNext_ok h

end StrTokenizer.Positions

theorem findFirstOf_tokenizeLoop {source delimiter : Str} {fuel prev : Nat} {results : List Str}
    (hfuel : source.length < prev + fuel) :
    findFirstOf source delimiter (tokenizeLoop source delimiter fuel prev results).1 = none := by
  induction fuel generalizing prev results with
  | zero =>
    have hd : source.drop prev = [] := List.drop_eq_nil_of_le (by omega)
    rw [tokenizeLoop, findFirstOf, hd]
    rfl
  | succ fuel ih =>
    rw [tokenizeLoop]
    cases hnext : findFirstOf source delimiter prev with
    | none => exact hnext
    | some next =>
      have hle : prev ≤ next := by
        obtain ⟨i, _, rfl⟩ := Option.map_eq_some_iff.1 hnext
        omega
      exact ih (by omega)

/-- The three tokenizers end with the maximal runs of characters outside the delimiter set. -/
theorem tokenizers_agree (source delimiter : Str) (hsize : source.length < npos) :
    tokenize source delimiter = tokens (delimiter.contains ·) source ∧
      zhtTokenize source delimiter = tokens (delimiter.contains ·) source ∧
      findFirstOf source delimiter
        (tokenizeLoop source delimiter (source.length + 1) 0 []).1 = none ∧
      ∃ turns, (StrTokenizer.Positions.new source delimiter).allTokens turns =
        some (tokens (delimiter.contains ·) source) := by
  refine ⟨tokenize_eq_tokens .., tokenize_eq_tokens .., findFirstOf_tokenizeLoop (by omega), ?_⟩
  exact ⟨_, StrTokenizer.Positions.allTokens_eq (StrTokenizer.Positions.new_ok hsize)
    (Nat.lt_succ_self _)⟩

theorem tokenizers_agree_repeated :
    tokenize " a  bc ".toList [' '] = tokens ([' '].contains ·) " a  bc ".toList ∧
      zhtTokenize " a  bc ".toList [' '] = tokens ([' '].contains ·) " a  bc ".toList ∧
      findFirstOf " a  bc ".toList [' ']
        (tokenizeLoop " a  bc ".toList [' '] (" a  bc ".toList.length + 1) 0 []).1 = none ∧
      ∃ turns, (StrTokenizer.Positions.new " a  bc ".toList [' ']).allTokens turns =
        some (tokens ([' '].contains ·) " a  bc ".toList) :=
  tokenizers_agree " a  bc ".toList [' '] (by decide)

end MatrixZht
