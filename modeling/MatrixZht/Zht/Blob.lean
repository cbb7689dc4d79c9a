import MatrixZht.Lib.KeySet
import MatrixZht.Requests

namespace MatrixZht
open Lib

/-- One piece of a message on the wire. -/
structure Blob where
  uuid : Nat
  seqNum : Nat
  total : Nat
  size : Nat
  value : Str
deriving DecidableEq

namespace Blob

def getUuidLen : Nat := 20

def getCountLen : Nat := 7

def getSizeLen : Nat := 4

def getHeaderLen : Nat := getUuidLen + getCountLen * 2 + getSizeLen

def make (uuid seqNum total : Nat) (value : Str) : Blob :=
  { uuid, seqNum, total, size := value.length, value }

def toString (b : Blob) : Str :=
  padded getUuidLen b.uuid ++ (padded getCountLen b.seqNum ++
    (padded getCountLen b.total ++ (padded getSizeLen b.size ++ b.value)))

/-- `strtoull` and `strtoul`, base 10. -/
def strtoull (str : Str) : Nat := readUnsigned (2 ^ 64) str

/-- `Blob::assign`; `none` is the exception of `substr` on a text shorter than a header. -/
def assign (blob : Str) : Option Blob := do
  let uuid ← substr blob 0 getUuidLen
  let seqNum ← substr blob getUuidLen getCountLen
  let total ← substr blob (getUuidLen + getCountLen : Nat) getCountLen
  let size ← substr blob (getUuidLen + getCountLen * 2 : Nat) getSizeLen
  let value ← substr blob getHeaderLen blob.length
  some
    { uuid := strtoull uuid
      seqNum := strtoull seqNum
      total := strtoull total
      size := strtoull size
      value }

end Blob

/-- `Env::BUF_SIZE` -/
def zhtBufSize : Nat := 512 + 38

def blobSize : Nat := zhtBufSize - Blob.getHeaderLen

/-- `BdSendBase::split`, for the id that `genId` returned. -/
def split (uuid : Nat) (msg : Str) : List Blob :=
  let fold := msg.length / blobSize
  let mod := msg.length % blobSize
  let total := if mod ≠ 0 then fold + 1 else fold
  (List.range fold).map (fun i =>
      Blob.make uuid (i + 1) total ((msg.drop (i * blobSize)).take blobSize)) ++
    if mod ≠ 0 then [Blob.make uuid (fold + 1) total ((msg.drop (fold * blobSize)).take mod)]
    else []

/-- What the fields of a header can hold. -/
structure Blob.HeaderOk (b : Blob) : Prop where
  uuid : b.uuid < 2 ^ 64
  seqNum : b.seqNum < 10 ^ 7
  total : b.total < 10 ^ 7
  size : b.size < 10 ^ 4

namespace Blob

variable {b : Blob}

/-- The blob as it arrives in a C string. -/
def cut (b : Blob) : Blob := { b with value := cstr b.value }

theorem substr_at {text pre mid post : Str} {i n : Nat} (h : text = pre ++ (mid ++ post))
    (hp : pre.length = i) (hm : mid.length = n) : substr text i n = some mid := by
  subst h hp hm
  rw [substr, if_pos]
  · simp
  · rw [List.length_append]
    omega

theorem substr_rest {text pre post : Str} {i : Nat} (h : text = pre ++ post)
    (hp : pre.length = i) : substr text i text.length = some post := by
  subst h hp
  rw [substr, if_pos]
  · rw [Int.toNat_natCast, List.drop_left, List.take_of_length_le]
    rw [List.length_append]
    omega
  · rw [List.length_append]
    omega

theorem nul_not_mem_padded (width n : Nat) : '\x00' ∉ padded width n := by
  intro h
  have hd := isDigit_of_mem_padded h
  revert hd
  decide

/-- The header of a blob. -/
def header (b : Blob) : Str :=
  padded getUuidLen b.uuid ++ (padded getCountLen b.seqNum ++
    (padded getCountLen b.total ++ padded getSizeLen b.size))

theorem toString_eq (b : Blob) : b.toString = b.header ++ b.value := by
  simp only [toString, header, List.append_assoc]

theorem length_header (h : b.HeaderOk) : b.header.length = getHeaderLen := by
  have hu : (padded getUuidLen b.uuid).length = getUuidLen :=
    length_padded (by decide) (Nat.lt_trans h.uuid (by decide))
  have hs : (padded getCountLen b.seqNum).length = getCountLen := length_padded (by decide) h.seqNum
  have ht : (padded getCountLen b.total).length = getCountLen := length_padded (by decide) h.total
  have hz : (padded getSizeLen b.size).length = getSizeLen := length_padded (by decide) h.size
  simp only [header, List.length_append, hu, hs, ht, hz]
  rfl

theorem nul_not_mem_header (b : Blob) : '\x00' ∉ b.header := by
  simp only [header, List.mem_append, nul_not_mem_padded, or_self, not_false_eq_true]

theorem assign_toString (h : b.HeaderOk) : assign (cstr b.toString) = some b.cut := by
  have hu : (padded getUuidLen b.uuid).length = getUuidLen :=
    length_padded (by decide) (Nat.lt_trans h.uuid (by decide))
  have hs : (padded getCountLen b.seqNum).length = getCountLen := length_padded (by decide) h.seqNum
  have ht : (padded getCountLen b.total).length = getCountLen := length_padded (by decide) h.total
  have hz : (padded getSizeLen b.size).length = getSizeLen := length_padded (by decide) h.size
  have htext : cstr b.toString = b.header ++ cstr b.value := by
    rw [toString_eq, cstr_append b.nul_not_mem_header]
  have hrest := substr_rest htext (length_header h)
  simp only [header, List.append_assoc] at htext
  have huuid : substr (cstr b.toString) 0 getUuidLen = some (padded getUuidLen b.uuid) :=
    @substr_at _ [] _ _ _ _ htext rfl hu
  have hseq := substr_at htext hu hs
  have htotal : substr (cstr b.toString) (getUuidLen + getCountLen : Nat) getCountLen =
      some (padded getCountLen b.total) := by
    apply @substr_at _ (padded getUuidLen b.uuid ++ padded getCountLen b.seqNum)
    · rw [htext, List.append_assoc]
    · rw [List.length_append, hu, hs]
    · exact ht
  have hsize : substr (cstr b.toString) (getUuidLen + getCountLen * 2 : Nat) getSizeLen =
      some (padded getSizeLen b.size) := by
    apply @substr_at _ (padded getUuidLen b.uuid ++ (padded getCountLen b.seqNum ++
      padded getCountLen b.total))
    · rw [htext, List.append_assoc, List.append_assoc]
    · rw [List.length_append, List.length_append, hu, hs, ht]
      rfl
    · exact hz
  have hread : ∀ {width n : Nat}, n < 2 ^ 64 → strtoull (padded width n) = n :=
    fun hn => readUnsigned_padded _ hn
  rw [assign, huuid, hseq, htotal, hsize, hrest]
  simp only [Option.bind_eq_bind, Option.bind_some]
  rw [hread h.uuid, hread (Nat.lt_trans h.seqNum (by decide)),
    hread (Nat.lt_trans h.total (by decide)), hread (Nat.lt_trans h.size (by decide))]
  rfl

end Blob

section Split

variable {uuid : Nat} {msg : Str} {b : Blob}

/-- The number of blobs of a message. -/
def blobCount (msg : Str) : Nat :=
  if msg.length % blobSize ≠ 0 then msg.length / blobSize + 1 else msg.length / blobSize

theorem flatMap_range_take {n size : Nat} (msg : Str) :
    (List.range n).flatMap (fun i => (msg.drop (i * size)).take size) = msg.take (n * size) := by
  induction n with
  | zero => simp
  | succ n ih =>
    rw [List.range_succ, List.flatMap_append, ih, Nat.succ_mul, List.take_add]
    simp

theorem split_flatMap (uuid : Nat) (msg : Str) :
    (split uuid msg).flatMap Blob.value = msg := by
  have hfull : ((List.range (msg.length / blobSize)).map fun i => Blob.make uuid (i + 1)
      (blobCount msg) ((msg.drop (i * blobSize)).take blobSize)).flatMap Blob.value =
        msg.take (msg.length / blobSize * blobSize) := by
    rw [List.flatMap_map]
    exact flatMap_range_take msg
  have hdiv := Nat.div_add_mod' msg.length blobSize
  rw [split, List.flatMap_append]
  refine (congrArg (· ++ _) hfull).trans ?_
  by_cases hm : msg.length % blobSize = 0
  · rw [if_neg (by simp [hm]), List.flatMap_nil, List.append_nil, List.take_of_length_le]
    omega
  · rw [if_pos hm, List.flatMap_singleton, Blob.make, ← List.take_add, List.take_of_length_le]
    omega

theorem length_split (uuid : Nat) (msg : Str) : (split uuid msg).length = blobCount msg := by
  rw [split, blobCount, List.length_append, List.length_map, List.length_range]
  split <;> rfl

/-- Every blob of a message but the last is full. -/
structure Blob.Of (uuid : Nat) (msg : Str) (b : Blob) : Prop where
  uuid : b.uuid = uuid
  total : b.total = blobCount msg
  seqNum : b.seqNum ≤ blobCount msg
  size : b.size = b.value.length
  value : b.value.length ≤ blobSize
  value_pos : 0 < b.value.length

theorem split_cases (h : b ∈ split uuid msg) :
    (∃ i < msg.length / blobSize, b = Blob.make uuid (i + 1) (blobCount msg)
        ((msg.drop (i * blobSize)).take blobSize)) ∨
      (msg.length % blobSize ≠ 0 ∧ b = Blob.make uuid (msg.length / blobSize + 1) (blobCount msg)
        ((msg.drop (msg.length / blobSize * blobSize)).take (msg.length % blobSize))) := by
  rcases List.mem_append.1 h with h | h
  · obtain ⟨i, hi, rfl⟩ := List.mem_map.1 h
    exact .inl ⟨i, List.mem_range.1 hi, rfl⟩
  · by_cases hm : msg.length % blobSize = 0
    · rw [if_neg (by simp [hm])] at h
      cases h
    · rw [if_pos hm] at h
      exact .inr ⟨hm, List.mem_singleton.1 h⟩

theorem length_full {i : Nat} (hi : i < msg.length / blobSize) :
    ((msg.drop (i * blobSize)).take blobSize).length = blobSize := by
  have hdiv := Nat.div_add_mod' msg.length blobSize
  have hle : (i + 1) * blobSize ≤ msg.length / blobSize * blobSize := Nat.mul_le_mul_right _ hi
  rw [Nat.succ_mul] at hle
  rw [List.length_take, List.length_drop]
  omega

theorem of_mem_split (h : b ∈ split uuid msg) : b.Of uuid msg := by
  have hdiv := Nat.div_add_mod' msg.length blobSize
  have hpos : 0 < blobSize := by decide
  rcases split_cases h with ⟨i, hi, rfl⟩ | ⟨hm, rfl⟩
  · have hlen := length_full hi
    refine ⟨rfl, rfl, ?_, rfl, Nat.le_of_eq hlen, Nat.lt_of_lt_of_eq hpos hlen.symm⟩
    have hseq : i + 1 ≤ blobCount msg := by
      rw [blobCount]
      split <;> omega
    exact hseq
  · have hlen : ((msg.drop (msg.length / blobSize * blobSize)).take
        (msg.length % blobSize)).length = msg.length % blobSize := by
      rw [List.length_take, List.length_drop]
      omega
    have hlt := Nat.mod_lt msg.length hpos
    refine ⟨rfl, rfl, ?_, rfl, ?_, ?_⟩
    · rw [blobCount, if_pos hm]
      exact Nat.le_refl _
    · exact Nat.le_of_lt (hlen.trans_lt hlt)
    · exact Nat.lt_of_lt_of_eq (Nat.pos_of_ne_zero hm) hlen.symm

theorem split_sorted (uuid : Nat) (msg : Str) : KeySorted Blob.seqNum (split uuid msg) := by
  rw [split, KeySorted, List.pairwise_append]
  refine ⟨?_, ?_, ?_⟩
  · rw [List.pairwise_map]
    exact List.pairwise_lt_range.imp fun h => Nat.succ_lt_succ h
  · split
    · exact List.pairwise_singleton ..
    · exact List.Pairwise.nil
  · intro x hx y hy
    obtain ⟨i, hi, rfl⟩ := List.mem_map.1 hx
    split at hy
    · rw [List.mem_singleton.1 hy]
      exact Nat.succ_lt_succ (List.mem_range.1 hi)
    · cases hy

theorem length_of_mem_dropLast (h : b ∈ (split uuid msg).dropLast) :
    b.value.length = blobSize := by
  by_cases hm : msg.length % blobSize = 0
  · have hmem : b ∈ split uuid msg := (List.dropLast_sublist _).mem h
    rcases split_cases hmem with ⟨i, hi, rfl⟩ | ⟨hm', _⟩
    · exact length_full hi
    · exact absurd hm hm'
  · have hsplit : split uuid msg =
        (List.range (msg.length / blobSize)).map (fun i => Blob.make uuid (i + 1) (blobCount msg)
          ((msg.drop (i * blobSize)).take blobSize)) ++
        [Blob.make uuid (msg.length / blobSize + 1) (blobCount msg)
          ((msg.drop (msg.length / blobSize * blobSize)).take (msg.length % blobSize))] :=
      congrArg (_ ++ ·) (if_pos hm)
    rw [hsplit, List.dropLast_concat] at h
    obtain ⟨i, hi, rfl⟩ := List.mem_map.1 h
    exact length_full (List.mem_range.1 hi)

end Split

end MatrixZht
