import Mathlib.Data.List.Basic

namespace MatrixZht.Lib

/-- A stdio stream: the bytes of the file, the one position that reads and writes share, and whether
it was opened for reading. -/
structure File (α : Type*) where
  content : List α := []
  pos : Nat := 0
  readable : Bool := true

namespace File

variable {α : Type*} (zero : α)

def seek (f : File α) (pos : Nat) : File α := { f with pos }

/-- `fseek(f, 0, SEEK_END)` -/
def seekEnd (f : File α) : File α := f.seek f.content.length

def rewind (f : File α) : File α := f.seek 0

/-- `ftruncate` to length zero, which leaves the position where it was. -/
def truncate (f : File α) : File α := { f with content := [] }

/-- `fputc`: past the end, the gap is filled with `zero`. -/
def putc (f : File α) (c : α) : File α :=
  { f with
    content :=
      if f.pos < f.content.length then f.content.set f.pos c
      else f.content ++ List.replicate (f.pos - f.content.length) zero ++ [c]
    pos := f.pos + 1 }

/-- Writes a text byte by byte. -/
def puts (f : File α) (text : List α) : File α := text.foldl (putc zero) f

/-- `fgetc`, which is `none` at the end and on a stream that cannot be read. -/
def getc (f : File α) : Option α × File α :=
  if f.readable then
    match f.content[f.pos]? with
    | some c => (some c, { f with pos := f.pos + 1 })
    | none => (none, f)
  else (none, f)

/-- Writes one byte at each of the positions. -/
def putAt (f : File α) (c : α) (ps : List Nat) : File α :=
  ps.foldl (fun f pos => (f.seek pos).putc zero c) f

variable {zero} {f : File α}

theorem puts_of_pos (h : f.pos = f.content.length) (text : List α) :
    f.puts zero text =
      { f with content := f.content ++ text, pos := f.content.length + text.length } := by
  induction text generalizing f with
  | nil =>
    cases f
    simp_all [puts]
  | cons c text ih =>
    have hput : f.putc zero c =
        { f with content := f.content ++ [c], pos := f.content.length + 1 } := by
      simp [putc, h]
    have hpos : (f.putc zero c).pos = (f.putc zero c).content.length := by simp [hput]
    have hstep : f.puts zero (c :: text) = (f.putc zero c).puts zero text := rfl
    rw [hstep, ih hpos, hput]
    simp [Nat.add_comm, Nat.add_left_comm]

theorem seekEnd_puts (f : File α) (text : List α) :
    f.seekEnd.puts zero text =
      { f with content := f.content ++ text, pos := f.content.length + text.length } :=
  puts_of_pos rfl text

theorem getc_of_not_readable (h : f.readable = false) : f.getc = (none, f) := by
  simp [getc, h]

theorem getc_of_end (h : f.content.length ≤ f.pos) : f.getc = (none, f) := by
  simp [getc, List.getElem?_eq_none h]

theorem getc_of_drop {c : α} {rest : List α} (hr : f.readable = true)
    (h : f.content.drop f.pos = c :: rest) :
    f.getc = (some c, { f with pos := f.pos + 1 }) := by
  have hc : f.content[f.pos]? = some c := by
    rw [← List.head?_drop, h]
    rfl
  simp [getc, hr, hc]

theorem putAt_readable (c : α) (ps : List Nat) : (f.putAt zero c ps).readable = f.readable := by
  induction ps generalizing f with
  | nil => rfl
  | cons p ps ih => exact ih

theorem puts_readable (text : List α) : (f.puts zero text).readable = f.readable := by
  induction text generalizing f with
  | nil => rfl
  | cons c text ih => exact ih

/-- Overwriting bytes inside the file changes exactly those. -/
theorem putAt_content {c : α} {ps : List Nat} (h : ∀ p ∈ ps, p < f.content.length) :
    (f.putAt zero c ps).content = f.content.mapIdx fun i x => if i ∈ ps then c else x := by
  induction ps generalizing f with
  | nil =>
    apply List.ext_getElem?
    intro i
    simp [putAt, List.getElem?_mapIdx]
  | cons p ps ih =>
    obtain ⟨hp, hps⟩ := List.forall_mem_cons.1 h
    have hset : ((f.seek p).putc zero c).content = f.content.set p c := by
      simp [seek, putc, hp]
    have hstep : f.putAt zero c (p :: ps) = ((f.seek p).putc zero c).putAt zero c ps := rfl
    rw [hstep, ih (by simpa [hset] using hps), hset]
    apply List.ext_getElem?
    intro i
    simp only [List.getElem?_mapIdx, List.getElem?_set, List.mem_cons]
    by_cases hi : p = i
    · subst hi
      simp [hp]
    · simp [hi, Ne.symm hi]

end File

end MatrixZht.Lib
