import Mathlib.Data.List.Basic
import Mathlib.Data.List.Nodup
import Mathlib.Tactic.Common

namespace MatrixZht.Lib

variable {κ α β : Type*} [DecidableEq κ] {k k' : κ} {l l' : List (κ × α)}

/-- The elements of one source in a merge of the elements of several. -/
def only (k : κ) (l : List (κ × α)) : List α := (l.filter fun p => p.1 = k).map Prod.snd

/-- The elements of one source. -/
def tag (k : κ) (l : List α) : List (κ × α) := l.map (Prod.mk k)

theorem only_cons (k : κ) (p : κ × α) (l : List (κ × α)) :
    only k (p :: l) = if p.1 = k then p.2 :: only k l else only k l := by
  rw [only, only]
  split
  · next h => rw [List.filter_cons_of_pos (by simpa using h), List.map_cons]
  · next h => rw [List.filter_cons_of_neg (by simpa using h)]

@[simp] theorem only_append (k : κ) (l l' : List (κ × α)) :
    only k (l ++ l') = only k l ++ only k l' := by
  rw [only, List.filter_append, List.map_append, only, only]

theorem only_map (k : κ) (f : α → β) (l : List (κ × α)) :
    only k (l.map fun p => (p.1, f p.2)) = (only k l).map f := by
  induction l with
  | nil => rfl
  | cons p l ih =>
    rw [List.map_cons, only_cons, only_cons, ih]
    split <;> rfl

theorem mem_only {x : α} : x ∈ only k l ↔ (k, x) ∈ l := by
  rw [only, List.mem_map]
  constructor
  · rintro ⟨p, hp, rfl⟩
    obtain ⟨hmem, hk⟩ := List.mem_filter.1 hp
    obtain rfl : p.1 = k := by simpa using hk
    exact hmem
  · intro h
    exact ⟨(k, x), List.mem_filter.2 ⟨h, by simp⟩, rfl⟩

@[simp] theorem only_tag (k : κ) (xs : List α) : only k (tag k xs) = xs := by
  induction xs with
  | nil => rfl
  | cons x xs ih => rw [tag, List.map_cons, only_cons, if_pos rfl, ← tag, ih]

theorem only_tag_of_ne (h : k' ≠ k) (xs : List α) : only k (tag k' xs) = [] := by
  induction xs with
  | nil => rfl
  | cons x xs ih => rw [tag, List.map_cons, only_cons, if_neg h, ← tag, ih]

omit [DecidableEq κ] in
theorem map_tag (k : κ) (f : α → β) (xs : List α) :
    (tag k xs).map (fun p => (p.1, f p.2)) = tag k (xs.map f) := by
  rw [tag, List.map_map, tag, List.map_map]
  rfl

theorem only_flatMap_tag {ks : List κ} (hks : ks.Nodup) (f : κ → List α) (k : κ) :
    only k (ks.flatMap fun k => tag k (f k)) = if k ∈ ks then f k else [] := by
  induction ks with
  | nil => rfl
  | cons k' ks ih =>
    obtain ⟨hnew, hks⟩ := List.nodup_cons.1 hks
    rw [List.flatMap_cons, only_append, ih hks]
    by_cases hk : k' = k
    · subst hk
      rw [only_tag, if_neg hnew, if_pos List.mem_cons_self, List.append_nil]
    · rw [only_tag_of_ne hk, List.nil_append]
      have hiff : k ∈ k' :: ks ↔ k ∈ ks := by
        rw [List.mem_cons]
        exact or_iff_right fun h => hk h.symm
      simp only [hiff]

/-- A merge of images is the image of a merge. -/
theorem exists_merge_of_map {f : α → β} {events : List (κ × β)} {xs : κ → List α}
    (h : ∀ k, only k events = (xs k).map f) :
    ∃ order : List (κ × α), order.map (fun p => (p.1, f p.2)) = events ∧
      ∀ k, only k order = xs k := by
  induction events generalizing xs with
  | nil =>
    refine ⟨[], rfl, fun k => ?_⟩
    exact (List.map_eq_nil_iff.1 (h k).symm).symm
  | cons e events ih =>
    obtain ⟨k, y⟩ := e
    have hk := h k
    rw [only_cons, if_pos rfl] at hk
    obtain ⟨x, rest, hxs, hx, hrest⟩ := List.map_eq_cons_iff.1 hk.symm
    have hevents : ∀ k', only k' events = (Function.update xs k rest k').map f := by
      intro k'
      by_cases hkk : k' = k
      · rw [hkk, Function.update_self, hrest]
      · have hk' := h k'
        rw [only_cons, if_neg fun he => hkk he.symm] at hk'
        rw [Function.update_of_ne hkk, hk']
    obtain ⟨order, hmap, honly⟩ := ih hevents
    refine ⟨(k, x) :: order, ?_, fun k' => ?_⟩
    · rw [List.map_cons, hmap, hx]
    · rw [only_cons, honly]
      by_cases hkk : k = k'
      · rw [if_pos hkk, ← hkk, Function.update_self, hxs]
      · rw [if_neg hkk, Function.update_of_ne fun he => hkk he.symm]

end MatrixZht.Lib
