import Mathlib.Data.List.Perm.Basic
import Mathlib.Order.Defs.Unbundled

namespace MatrixZht.Lib.PriorityQueue

variable {α : Type*} {comp : α → α → Bool} {k : Nat} {ks : List Nat} {queue queue' xs : List α}
  {x : α}

/-- The element that leaves a queue ordered by `comp` is one that has no other after it. The
position `k` is the choice that is made among several of them. -/
def pop (comp : α → α → Bool) (k : Nat) (queue : List α) : Option (α × List α) :=
  queue[k]?.bind fun x => if queue.all (!comp x ·) then some (x, queue.eraseIdx k) else none

/-- One element leaves for each of the positions. -/
def popMany (comp : α → α → Bool) : List Nat → List α → Option (List α × List α)
  | [], queue => some ([], queue)
  | k :: ks, queue =>
    (pop comp k queue).bind fun (x, queue) =>
      (popMany comp ks queue).map fun (xs, queue) => (x :: xs, queue)

theorem perm_of_pop (h : pop comp k queue = some (x, queue')) : queue.Perm (x :: queue') := by
  obtain ⟨x', hk, h⟩ := Option.bind_eq_some_iff.1 h
  rw [Option.ite_none_right_eq_some] at h
  cases h.2
  obtain ⟨hlt, rfl⟩ := List.getElem?_eq_some_iff.1 hk
  exact (List.getElem_cons_eraseIdx_perm hlt).symm

theorem top_of_pop (h : pop comp k queue = some (x, queue')) : ∀ y ∈ queue, comp x y = false := by
  obtain ⟨x', hk, h⟩ := Option.bind_eq_some_iff.1 h
  rw [Option.ite_none_right_eq_some] at h
  cases h.2
  simpa using h.1

theorem popMany_cons (h : popMany comp (k :: ks) queue = some (xs, queue')) : ∃ x queue₁ xs',
    pop comp k queue = some (x, queue₁) ∧ popMany comp ks queue₁ = some (xs', queue') ∧
      xs = x :: xs' := by
  obtain ⟨⟨x, queue₁⟩, hpop, h⟩ := Option.bind_eq_some_iff.1 h
  obtain ⟨⟨xs', queue₂⟩, hrest, he⟩ := Option.map_eq_some_iff.1 h
  cases he
  exact ⟨x, queue₁, xs', hpop, hrest, rfl⟩

theorem perm_of_popMany (h : popMany comp ks queue = some (xs, queue')) :
    queue.Perm (xs ++ queue') := by
  induction ks generalizing queue xs with
  | nil =>
    cases h
    exact .refl _
  | cons k ks ih =>
    obtain ⟨x, queue₁, xs', hpop, hrest, rfl⟩ := popMany_cons h
    exact (perm_of_pop hpop).trans ((ih hrest).cons x)

theorem length_of_popMany (h : popMany comp ks queue = some (xs, queue')) :
    xs.length = ks.length := by
  induction ks generalizing queue xs with
  | nil =>
    cases h
    rfl
  | cons k ks ih =>
    obtain ⟨x, queue₁, xs', _, hrest, rfl⟩ := popMany_cons h
    exact congrArg (· + 1) (ih hrest)

/-- None of those that have left comes before one that is still there. -/
theorem top_of_popMany (h : popMany comp ks queue = some (xs, queue')) :
    ∀ x ∈ xs, ∀ y ∈ queue', comp x y = false := by
  induction ks generalizing queue xs with
  | nil =>
    cases h
    nofun
  | cons k ks ih =>
    obtain ⟨x, queue₁, xs', hpop, hrest, rfl⟩ := popMany_cons h
    refine List.forall_mem_cons.2 ⟨fun y hy => top_of_pop hpop y ?_, ih hrest⟩
    refine (perm_of_pop hpop).mem_iff.2 (List.mem_cons_of_mem _ ?_)
    exact (perm_of_popMany hrest).mem_iff.2 (List.mem_append_right _ hy)

section Exists

variable (comp) [IsStrictOrder α (comp · ·)]

theorem exists_top (h : queue ≠ []) : ∃ x ∈ queue, ∀ y ∈ queue, comp x y = false := by
  induction queue with
  | nil => exact absurd rfl h
  | cons x queue ih =>
    have hx : comp x x = false := Bool.eq_false_iff.2 (irrefl (r := (comp · ·)) x)
    by_cases hq : queue = []
    · subst hq
      exact ⟨x, List.mem_singleton_self x, by simpa using hx⟩
    · obtain ⟨y, hy, htop⟩ := ih hq
      cases hyx : comp y x with
      | true =>
        -- an element after `x` would be after `y` too
        refine ⟨x, List.mem_cons_self, List.forall_mem_cons.2 ⟨hx, fun z hz => ?_⟩⟩
        rw [Bool.eq_false_iff]
        intro hxz
        have hyz : comp y z := trans_of (comp · ·) hyx hxz
        rw [htop z hz] at hyz
        cases hyz
      | false => exact ⟨y, List.mem_cons_of_mem _ hy, List.forall_mem_cons.2 ⟨hyx, htop⟩⟩

theorem exists_pop (h : queue ≠ []) : ∃ k x queue', pop comp k queue = some (x, queue') := by
  obtain ⟨x, hx, htop⟩ := exists_top comp h
  obtain ⟨k, hk⟩ := List.mem_iff_getElem?.1 hx
  refine ⟨k, x, queue.eraseIdx k, ?_⟩
  rw [pop, hk, Option.bind_some, if_pos (by simpa using htop)]

end Exists

end MatrixZht.Lib.PriorityQueue
