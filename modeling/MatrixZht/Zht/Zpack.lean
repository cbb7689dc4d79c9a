import MatrixZht.Messages

namespace MatrixZht
open Lib

/-- The request and record package of `zpack.proto`. -/
structure ZPack where
  opcode : Option Str := none
  key : Option Str := none
  val : Option Str := none
  newval : Option Str := none
  lease : Option Str := none
  valnull : Option Bool := none
  newvalnull : Option Bool := none
  replicanum : Option Int := none
deriving DecidableEq

/-- `zht_num_to_str<bool>` -/
def boolToStr (b : Bool) : Str := if b then ['1'] else ['0']

/-- `zht_str_to_num<bool>`: a number other than `0` and `1` does not read as a `bool`. -/
def strToBool (str : Str) : Bool := readDecimal 0 1 str = 1

def zpackFields (zpack : ZPack) : List Str :=
  [zpack.opcode.getD "noopcode".toList,
    zpack.key.getD "nokey".toList,
    zpack.val.getD "noval".toList,
    zpack.newval.getD "nonewval".toList,
    zpack.lease.getD "nolease".toList,
    (zpack.valnull.map boolToStr).getD "novaln".toList,
    (zpack.newvalnull.map boolToStr).getD "nonewvaln".toList,
    (zpack.replicanum.map numToStr).getD "noreplicanum".toList]

def zpackToStr (zpack : ZPack) : Str := terminate ['/', '/'] (zpackFields zpack)

/-- A field that is not its absence word, read with `read`. -/
def readField {α : Type} (absent : String) (read : Str → α) (field : Str) : Option α :=
  if field ≠ absent.toList then some (read field) else none

/-- A text of fewer than eight fields reads as the package without any field. -/
def strToZpack (str : Str) : ZPack :=
  match tokenize str ['/', '/'] with
  | f₀ :: f₁ :: f₂ :: f₃ :: f₄ :: f₅ :: f₆ :: f₇ :: _ =>
    { opcode := readField "noopcode" id f₀
      key := readField "nokey" id f₁
      val := readField "noval" id f₂
      newval := readField "nonewval" id f₃
      lease := readField "nolease" id f₄
      valnull := readField "novaln" strToBool f₅
      newvalnull := readField "nonewvaln" strToBool f₆
      replicanum := readField "noreplicanum" strToInt f₇ }
  | _ => {}

/-- A text that one field of a package carries unchanged. -/
def IsText (absent : String) (s : Str) : Prop := IsField '/' s ∧ s ≠ absent.toList

structure ZPack.Clean (z : ZPack) : Prop where
  opcode : ∀ s ∈ z.opcode, IsText "noopcode" s
  key : ∀ s ∈ z.key, IsText "nokey" s
  val : ∀ s ∈ z.val, IsText "noval" s
  newval : ∀ s ∈ z.newval, IsText "nonewval" s
  lease : ∀ s ∈ z.lease, IsText "nolease" s
  replicanum : ∀ n ∈ z.replicanum, IsInt n

theorem isField_getD {absent : String} {o : Option Str}
    (h : absent.toList ≠ [] ∧ '/' ∉ absent.toList) (ho : ∀ s ∈ o, IsField '/' s) :
    IsField '/' (o.getD absent.toList) := by
  cases o with
  | none => exact isField_word h
  | some s => exact ho s rfl

theorem readField_getD {α : Type} {absent : String} {read : Str → α} {write : α → Str}
    {o : Option α} (ho : ∀ a ∈ o, write a ≠ absent.toList ∧ read (write a) = a) :
    readField absent read ((o.map write).getD absent.toList) = o := by
  cases o with
  | none => simp [readField]
  | some a =>
    obtain ⟨hne, hread⟩ := ho a rfl
    have h : readField absent read (write a) = some (read (write a)) := if_pos hne
    rw [hread] at h
    exact h

theorem readField_text {absent : String} {o : Option Str} (ho : ∀ s ∈ o, IsText absent s) :
    readField absent id (o.getD absent.toList) = o := by
  have h : readField absent id ((o.map id).getD absent.toList) = o :=
    readField_getD fun s hs => ⟨(ho s hs).2, rfl⟩
  rwa [Option.map_id, id_eq] at h

theorem strToBool_boolToStr (b : Bool) : strToBool (boolToStr b) = b := by
  cases b <;> decide

theorem isField_boolToStr {b : Bool} : IsField '/' (boolToStr b) := by
  rw [isField_iff]
  cases b <;> decide

theorem boolToStr_ne_word {s : String} (b : Bool) (h : s.toList ≠ ['0'] ∧ s.toList ≠ ['1']) :
    boolToStr b ≠ s.toList := by
  cases b
  · exact fun he => h.1 he.symm
  · exact fun he => h.2 he.symm

theorem ZPack.Clean.fields {z : ZPack} (h : z.Clean) : ∀ w ∈ zpackFields z, IsField '/' w := by
  simp only [zpackFields, List.forall_mem_cons, List.not_mem_nil, false_implies, implies_true,
    and_true]
  have hbool {absent : String} (o : Option Bool)
      (hw : absent.toList ≠ [] ∧ '/' ∉ absent.toList) :
      IsField '/' ((o.map boolToStr).getD absent.toList) := by
    refine isField_getD hw fun s hs => ?_
    obtain ⟨b, _, rfl⟩ := Option.map_eq_some_iff.1 hs
    exact isField_boolToStr
  refine ⟨isField_getD (by decide) fun s hs => (h.opcode s hs).1,
    isField_getD (by decide) fun s hs => (h.key s hs).1,
    isField_getD (by decide) fun s hs => (h.val s hs).1,
    isField_getD (by decide) fun s hs => (h.newval s hs).1,
    isField_getD (by decide) fun s hs => (h.lease s hs).1,
    hbool _ (by decide), hbool _ (by decide), isField_getD (by decide) fun s hs => ?_⟩
  obtain ⟨n, _, rfl⟩ := Option.map_eq_some_iff.1 hs
  exact isField_numToStr n (by decide) (by decide)

/-- A clean package is read back as it was written, whatever follows. -/
theorem strToZpack_zpackToStr_append {z : ZPack} (h : z.Clean) (rest : Str) :
    strToZpack (zpackToStr z ++ rest) = z := by
  rw [strToZpack, zpackToStr, tokenize_terminate_append h.fields]
  have hbool (absent : String) (o : Option Bool)
      (hw : absent.toList ≠ ['0'] ∧ absent.toList ≠ ['1']) :
      readField absent strToBool ((o.map boolToStr).getD absent.toList) = o :=
    readField_getD fun b _ => ⟨boolToStr_ne_word b hw, strToBool_boolToStr b⟩
  have hval := hbool "novaln" z.valnull (by decide)
  have hnewval := hbool "nonewvaln" z.newvalnull (by decide)
  have hnum : readField "noreplicanum" strToInt
      ((z.replicanum.map numToStr).getD "noreplicanum".toList) = z.replicanum :=
    readField_getD fun n hn => ⟨numToStr_ne_word n (c := 'n') (by decide) (by decide) (by decide),
      strToInt_numToStr (h.replicanum n hn)⟩
  simp only [zpackFields, List.cons_append, readField_text h.opcode, readField_text h.key,
    readField_text h.val, readField_text h.newval, readField_text h.lease, hval, hnewval, hnum]

theorem strToZpack_zpackToStr {z : ZPack} (h : z.Clean) : strToZpack (zpackToStr z) = z := by
  have hz := strToZpack_zpackToStr_append h []
  rwa [List.append_nil] at hz

section Read

variable {str opcode key : Str} {fields : List Str}

theorem strToZpack_of_short (h : (tokenize str ['/', '/']).length < 8) : strToZpack str = {} := by
  unfold strToZpack
  split
  · next hfields =>
    rw [hfields] at h
    simp only [List.length_cons] at h
    omega
  · rfl

theorem exists_six_cons {α : Type*} {l : List α} (h : 6 ≤ l.length) :
    ∃ a b c d e f rest, l = a :: b :: c :: d :: e :: f :: rest := by
  match l, h with
  | a :: b :: c :: d :: e :: f :: rest, _ => exact ⟨a, b, c, d, e, f, rest, rfl⟩

theorem strToZpack_cons (h : tokenize str ['/', '/'] = opcode :: key :: fields)
    (hlen : 6 ≤ fields.length) :
    (strToZpack str).opcode = readField "noopcode" id opcode ∧
      (strToZpack str).key = readField "nokey" id key := by
  obtain ⟨_, _, _, _, _, _, _, rfl⟩ := exists_six_cons hlen
  simp only [strToZpack, h, and_self]

theorem mem_readField {α : Type} {absent : String} {read : Str → α} {field : Str} {a : α}
    (h : a ∈ readField absent read field) : a = read field ∧ field ≠ absent.toList := by
  unfold readField at h
  split at h
  · next hne => exact ⟨(Option.some.inj h).symm, hne⟩
  · cases h

theorem strToZpack_clean (str : Str) : (strToZpack str).Clean := by
  have hwords : ∀ w ∈ tokenize str ['/', '/'], IsField '/' w := fun w hw =>
    isWord_of_mem_tokens (tokenize_eq_tokens _ _ ▸ hw)
  unfold strToZpack
  split
  · next hfields =>
    rw [hfields] at hwords
    simp only [List.forall_mem_cons] at hwords
    obtain ⟨h₀, h₁, h₂, h₃, h₄, _⟩ := hwords
    have htext {absent : String} {field : Str} (hf : IsField '/' field) :
        ∀ s ∈ readField absent id field, IsText absent s := by
      intro s hs
      obtain ⟨rfl, hne⟩ := mem_readField hs
      exact ⟨hf, hne⟩
    refine ⟨htext h₀, htext h₁, htext h₂, htext h₃, htext h₄, fun n hn => ?_⟩
    rw [(mem_readField hn).1]
    exact strToInt_isInt _
  · exact ⟨by simp, by simp, by simp, by simp, by simp, by simp⟩

end Read

section Delimiter

/-- The string fields of a package, each with the word for its absence. -/
def ZPack.texts (z : ZPack) : List (Option Str × String) :=
  [(z.opcode, "noopcode"), (z.key, "nokey"), (z.val, "noval"), (z.newval, "nonewval"),
    (z.lease, "nolease")]

/-- A present text that is not empty, neither contains the delimiter of the writer nor begins or
ends with half of it, and is not the word for its absence. -/
def IsDelimited (absent : String) (s : Str) : Prop :=
  s ≠ [] ∧ ¬ ['/', '/'] <:+: s ∧ s.head? ≠ some '/' ∧ s.getLast? ≠ some '/' ∧ s ≠ absent.toList

instance (absent : String) (s : Str) : Decidable (IsDelimited absent s) :=
  inferInstanceAs (Decidable (_ ∧ _ ∧ _ ∧ _ ∧ _))

theorem ZPack.clean_iff {z : ZPack} : z.Clean ↔
    (∀ p ∈ z.texts, ∀ s ∈ p.1, IsText p.2 s) ∧ ∀ n ∈ z.replicanum, IsInt n := by
  simp only [texts, List.forall_mem_cons, List.not_mem_nil, false_implies, implies_true, and_true]
  constructor
  · exact fun h => ⟨⟨h.opcode, h.key, h.val, h.newval, h.lease⟩, h.replicanum⟩
  · rintro ⟨⟨hopcode, hkey, hval, hnewval, hlease⟩, hnum⟩
    exact ⟨hopcode, hkey, hval, hnewval, hlease, hnum⟩

/-- The reader splits at every `/`, so that a package survives exactly if its texts have none. -/
theorem strToZpack_zpackToStr_iff {z : ZPack}
    (htexts : ∀ p ∈ z.texts, ∀ s ∈ p.1, IsDelimited p.2 s) (hnum : ∀ n ∈ z.replicanum, IsInt n) :
    strToZpack (zpackToStr z) = z ↔ ∀ p ∈ z.texts, ∀ s ∈ p.1, '/' ∉ s := by
  constructor
  · intro h p hp s hs
    have hclean : z.Clean := h ▸ strToZpack_clean (zpackToStr z)
    exact (isField_iff.1 ((ZPack.clean_iff.1 hclean).1 p hp s hs).1).2
  · intro h
    refine strToZpack_zpackToStr (ZPack.clean_iff.2 ⟨fun p hp s hs => ?_, hnum⟩)
    have hdelim := htexts p hp s hs
    exact ⟨isField_iff.2 ⟨hdelim.1, h p hp s hs⟩, hdelim.2.2.2.2⟩

theorem strToZpack_zpackToStr_iff_key :
    strToZpack (zpackToStr { key := some "ab".toList, valnull := some false }) =
      { key := some "ab".toList, valnull := some false } :=
  (strToZpack_zpackToStr_iff (by decide) (by simp)).2 (by decide)

/-- A path as the key shifts the fields after it. -/
theorem strToZpack_zpackToStr_path :
    (∀ p ∈ ({ key := some "a/b".toList } : ZPack).texts, ∀ s ∈ p.1, IsDelimited p.2 s) ∧
      strToZpack (zpackToStr { key := some "a/b".toList }) ≠ { key := some "a/b".toList } := by
  decide

end Delimiter

end MatrixZht
