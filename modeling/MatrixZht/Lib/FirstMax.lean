import Mathlib.Data.List.Basic
import Mathlib.Order.Basic
import Mathlib.Order.Lattice

namespace MatrixZht.Lib

variable {α β : Type*} [LinearOrder β] {f : α → β} {best x : α} {l : List α}

/-- A scan that keeps an element until one of larger value comes. -/
def scanMax (f : α → β) (best : α) (l : List α) : α :=
  l.foldl (fun best x => if f best < f x then x else best) best

theorem scanMax_cons_of_lt (h : f best < f x) (l : List α) :
    scanMax f best (x :: l) = scanMax f x l := by
  rw [scanMax, List.foldl_cons, if_pos h]
  rfl

theorem scanMax_cons_of_le (h : f x ≤ f best) (l : List α) :
    scanMax f best (x :: l) = scanMax f best l := by
  rw [scanMax, List.foldl_cons, if_neg (not_lt.2 h)]
  rfl

theorem scanMax_spec (f : α → β) (best : α) (l : List α) :
    (scanMax f best l = best ∧ ∀ x ∈ l, f x ≤ f best) ∨
      ∃ us ws, l = us ++ scanMax f best l :: ws ∧ f best < f (scanMax f best l) ∧
        (∀ x ∈ us, f x < f (scanMax f best l)) ∧ ∀ x ∈ ws, f x ≤ f (scanMax f best l) := by
  induction l generalizing best with
  | nil => exact .inl ⟨rfl, nofun⟩
  | cons x l ih =>
    by_cases hlt : f best < f x
    · rw [scanMax_cons_of_lt hlt]
      rcases ih x with ⟨he, hle⟩ | ⟨us, ws, hl, hx, hus, hws⟩
      · rw [he]
        exact .inr ⟨[], l, rfl, hlt, nofun, hle⟩
      · exact .inr ⟨x :: us, ws, congrArg (x :: ·) hl, hlt.trans hx,
          List.forall_mem_cons.2 ⟨hx, hus⟩, hws⟩
    · have hxle : f x ≤ f best := not_lt.1 hlt
      rw [scanMax_cons_of_le hxle]
      rcases ih best with ⟨he, hle⟩ | ⟨us, ws, hl, hbest, hus, hws⟩
      · exact .inl ⟨he, List.forall_mem_cons.2 ⟨hxle, hle⟩⟩
      · exact .inr ⟨x :: us, ws, congrArg (x :: ·) hl, hbest,
          List.forall_mem_cons.2 ⟨hxle.trans_lt hbest, hus⟩, hws⟩

/-- When some element is larger than the first one, the scan ends with the first of the largest. -/
theorem scanMax_eq_getElem (h : ∃ x ∈ l, f best < f x) : ∃ i : Nat,
    l[i]? = some (scanMax f best l) ∧ f best < f (scanMax f best l) ∧
      (∀ x ∈ l, f x ≤ f (scanMax f best l)) ∧
      ∀ j < i, ∀ x, l[j]? = some x → f x < f (scanMax f best l) := by
  have hspec := scanMax_spec f best l
  generalize scanMax f best l = r at hspec ⊢
  rcases hspec with ⟨_, hle⟩ | ⟨us, ws, rfl, hbest, hus, hws⟩
  · obtain ⟨x, hx, hlt⟩ := h
    exact absurd hlt (not_lt.2 (hle x hx))
  · refine ⟨us.length, by simp, hbest, fun x hx => ?_, fun j hj x hx => ?_⟩
    · rcases List.mem_append.1 hx with hx | hx
      · exact (hus x hx).le
      · rcases List.mem_cons.1 hx with rfl | hx
        · exact le_refl _
        · exact hws x hx
    · rw [List.getElem?_append_left hj] at hx
      exact hus x (List.mem_of_getElem? hx)

end MatrixZht.Lib
