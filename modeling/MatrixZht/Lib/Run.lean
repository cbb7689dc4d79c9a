import Mathlib.Algebra.BigOperators.Group.Finset.Basic
import Mathlib.Data.Fintype.Basic
import Mathlib.Logic.Relation
import Mathlib.Order.WellFounded

namespace MatrixZht.Lib

section Run

variable {σ α : Type*} {step : σ → α → Option σ} {s s' : σ} {as bs : List α}

/-- The state after a sequence of actions, or `none` when one of them is not enabled. -/
def runActs (step : σ → α → Option σ) (s : σ) : List α → Option σ
  | [] => some s
  | a :: as => (step s a).bind (runActs step · as)

theorem runActs_concat (h : runActs step s as = some s') (a : α) :
    runActs step s (as ++ [a]) = step s' a := by
  induction as generalizing s with
  | nil =>
    cases h
    exact Option.bind_fun_some _
  | cons b as ih =>
    obtain ⟨s₁, h₁, hrest⟩ := Option.bind_eq_some_iff.1 h
    rw [List.cons_append, runActs, h₁, Option.bind_some, ih hrest]

theorem runActs_append (h : runActs step s as = some s') (bs : List α) :
    runActs step s (as ++ bs) = runActs step s' bs := by
  induction as generalizing s with
  | nil =>
    cases h
    rfl
  | cons a as ih =>
    obtain ⟨s₁, h₁, hrest⟩ := Option.bind_eq_some_iff.1 h
    rw [List.cons_append, runActs, h₁, Option.bind_some, ih hrest]

theorem exists_of_runActs_concat {s s' : σ} {as : List α} {a : α}
    (h : runActs step s (as ++ [a]) = some s') :
    ∃ s₁, runActs step s as = some s₁ ∧ step s₁ a = some s' := by
  induction as generalizing s with
  | nil =>
    obtain ⟨s₁, h₁, hrest⟩ := Option.bind_eq_some_iff.1 h
    exact ⟨s, rfl, h₁.trans hrest⟩
  | cons b as ih =>
    obtain ⟨s₁, h₁, hrest⟩ := Option.bind_eq_some_iff.1 h
    obtain ⟨s₂, h₂, ha⟩ := ih hrest
    exact ⟨s₂, by rw [runActs, h₁, Option.bind_some, h₂], ha⟩

/-- What every allowed step preserves holds at the end of a run of allowed steps. -/
theorem runActs_preserves {P : σ → Prop} {Allowed : α → Prop}
    (hstep : ∀ s a s', Allowed a → step s a = some s' → P s → P s')
    (ha : ∀ a ∈ as, Allowed a) (h : runActs step s as = some s') (hs : P s) : P s' := by
  induction as generalizing s with
  | nil =>
    cases h
    exact hs
  | cons a as ih =>
    obtain ⟨s₁, h₁, hrest⟩ := Option.bind_eq_some_iff.1 h
    exact ih (fun b hb => ha b (List.mem_cons_of_mem _ hb)) hrest
      (hstep s a s₁ (ha a List.mem_cons_self) h₁ hs)

/-- What every step preserves holds in every state reached. -/
theorem runActs_invariant {P : σ → Prop}
    (hstep : ∀ s a s', step s a = some s' → P s → P s')
    (h : runActs step s as = some s') (hs : P s) : P s' :=
  runActs_preserves (fun s a s' (_ : True) => hstep s a s') (fun _ _ => trivial) h hs

/-- Allowed actions lead from one state to another. -/
def Leads (step : σ → α → Option σ) (Allowed : α → Prop) (s s' : σ) : Prop :=
  ∃ as, (∀ a ∈ as, Allowed a) ∧ runActs step s as = some s'

namespace Leads

variable {Allowed : α → Prop} {s'' : σ}

theorem refl (s : σ) : Leads step Allowed s s := ⟨[], nofun, rfl⟩

theorem single {a : α} (ha : Allowed a) (h : step s a = some s') : Leads step Allowed s s' :=
  ⟨[a], by simpa using ha, by rw [runActs, h]; rfl⟩

theorem trans (h : Leads step Allowed s s') (h' : Leads step Allowed s' s'') :
    Leads step Allowed s s'' := by
  obtain ⟨as, has, hrun⟩ := h
  obtain ⟨bs, hbs, hrun'⟩ := h'
  refine ⟨as ++ bs, fun a ha => (List.mem_append.1 ha).elim (has a) (hbs a), ?_⟩
  rw [runActs_append hrun, hrun']

end Leads

end Run

section Reach

variable {α : Type*} [LT α] [WellFoundedLT α] {r : α → α → Prop} {root x : α}

/-- Where every node but the root is entered from a smaller one, the root reaches all of them. -/
theorem reflTransGen_of_pred {S : α → Prop} (h : ∀ x, S x → x ≠ root → ∃ y < x, S y ∧ r y x)
    (hx : S x) : Relation.ReflTransGen r root x := by
  induction x using WellFoundedLT.induction with
  | ind x ih =>
    by_cases hroot : x = root
    · rw [hroot]
    · obtain ⟨y, hlt, hy, hyx⟩ := h x hx hroot
      exact (ih y hlt hy).tail hyx

end Reach

section Sum

variable {ι M : Type*} [Fintype ι] [DecidableEq ι] [AddCommMonoid M]

theorem sum_add_eq_of_off {f g : ι → M} (i : ι) (h : ∀ j, j ≠ i → f j = g j) :
    ∑ j, f j + g i = ∑ j, g j + f i := by
  have hrest : ∑ j ∈ Finset.univ.erase i, f j = ∑ j ∈ Finset.univ.erase i, g j :=
    Finset.sum_congr rfl fun j hj => h j (Finset.ne_of_mem_erase hj)
  rw [← Finset.add_sum_erase _ f (Finset.mem_univ i),
    ← Finset.add_sum_erase _ g (Finset.mem_univ i), hrest]
  rw [add_comm (f i), add_comm (g i), add_right_comm]

theorem sum_add_eq_sum_add {N : Type*} [AddCancelCommMonoid N] {f g : ι → N} {x y : N} (i : ι)
    (h : ∀ j, j ≠ i → f j = g j) (hi : f i + x = g i + y) : ∑ j, f j + x = ∑ j, g j + y := by
  have hoff := sum_add_eq_of_off i h
  apply add_right_cancel (b := f i)
  calc ∑ j, f j + x + f i = ∑ j, f j + (g i + y) := by rw [add_assoc, add_comm x, hi]
    _ = ∑ j, g j + f i + y := by rw [← add_assoc, hoff]
    _ = ∑ j, g j + y + f i := add_right_comm ..

end Sum

section Keys

variable {α β γ : Type*} [Nonempty β] {l : List α} {key : α → γ}

end Keys

end MatrixZht.Lib
