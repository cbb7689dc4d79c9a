import Mathlib.Logic.Function.Basic
import MatrixZht.Util

namespace MatrixZht

/-- The contents of the ZHT as its clients see them. -/
abbrev Store := Str → Option Str

namespace Store

/-- The text `lookup` yields, empty for an unbound key. -/
def lookup (s : Store) (key : Str) : Str := (s key).getD []

def insert (s : Store) (key val : Str) : Store := Function.update s key (some val)

def remove (s : Store) (key : Str) : Store := Function.update s key none

/-- The status, the value yielded and the contents afterwards. -/
def compareSwap (s : Store) (key seenVal newVal : Str) : Int × Str × Store :=
  if s key = some seenVal then (0, newVal, s.insert key newVal) else (-4, s.lookup key, s)

variable {s : Store} {key key' val : Str}

@[simp] theorem insert_self (s : Store) (key val : Str) : s.insert key val key = some val :=
  Function.update_self ..

theorem insert_of_ne (h : key' ≠ key) : s.insert key val key' = s key' :=
  Function.update_of_ne h ..

theorem lookup_eq (h : s key = some val) : s.lookup key = val := by
  rw [lookup, h, Option.getD_some]

theorem lookup_of_none (h : s key = none) : s.lookup key = [] := by
  rw [lookup, h, Option.getD_none]

theorem eq_some_of_lookup (h : s.lookup key ≠ []) : s key = some (s.lookup key) := by
  cases hk : s key with
  | none => exact absurd (lookup_of_none hk) h
  | some v => rw [lookup_eq hk]

end Store

/-- A loop that looks a key up, computes a new value and swaps it in, between two requests. -/
inductive Retry where
  | look
  | swap (seenVal newVal : Str)
deriving DecidableEq

namespace Retry

/-- One request of the loop. `attempt` computes the new value, `none` being an exit. The second
component of the result is `none` once the swap has succeeded. -/
def step (attempt : Str → Option Str) (key : Str) (s : Store) :
    Retry → Option (Store × Option Retry)
  | look => (attempt (s.lookup key)).map fun newVal => (s, some (swap (s.lookup key) newVal))
  | swap seenVal newVal =>
    match s.compareSwap key seenVal newVal with
    | (0, _, s') => some (s', none)
    | (_, queryValue, s') =>
      if queryValue.isEmpty then some (s', some look)
      else (attempt queryValue).map fun newVal => (s', some (swap queryValue newVal))

/-- The loop run without interference. -/
def loop (attempt : Str → Option Str) (key : Str) : Nat → Store → Retry → Option Store
  | 0, _, _ => none
  | fuel + 1, s, r =>
    match r.step attempt key s with
    | none => none
    | some (s', none) => some s'
    | some (s', some r') => loop attempt key fuel s' r'

/-- The new value is the one computed from the value the swap expects. -/
def Ok (attempt : Str → Option Str) : Retry → Prop
  | look => True
  | swap seenVal newVal => attempt seenVal = some newVal

variable {attempt : Str → Option Str} {key : Str} {s s' : Store} {r : Retry} {r' : Option Retry}

/-- What a request of the loop can do: it succeeds and replaces the current value, or it leaves
the contents as they are and goes on. -/
theorem step_cases (hok : r.Ok attempt) (h : r.step attempt key s = some (s', r')) :
    (∃ old new, s key = some old ∧ attempt old = some new ∧ s' = s.insert key new ∧ r' = none) ∨
      (∃ next : Retry, s' = s ∧ r' = some next ∧ next.Ok attempt) := by
  cases r with
  | look =>
    obtain ⟨new, hnew, he⟩ := Option.map_eq_some_iff.1 h
    simp only [Prod.mk.injEq] at he
    exact .inr ⟨_, he.1.symm, he.2.symm, hnew⟩
  | swap seenVal newVal =>
    rw [step, Store.compareSwap] at h
    by_cases hs : s key = some seenVal
    · rw [if_pos hs] at h
      simp only [Option.some.injEq, Prod.mk.injEq] at h
      exact .inl ⟨seenVal, newVal, hs, hok, h.1.symm, h.2.symm⟩
    · rw [if_neg hs] at h
      simp only [Int.reduceNeg] at h
      by_cases hq : (s.lookup key).isEmpty = true
      · rw [if_pos hq] at h
        simp only [Option.some.injEq, Prod.mk.injEq] at h
        exact .inr ⟨look, h.1.symm, h.2.symm, trivial⟩
      · rw [if_neg hq] at h
        obtain ⟨new, hnew, he⟩ := Option.map_eq_some_iff.1 h
        simp only [Prod.mk.injEq] at he
        exact .inr ⟨_, he.1.symm, he.2.symm, hnew⟩

/-- Alone, the loop needs one lookup and one swap. -/
theorem loop_look {old new : Str} (hold : s key = some old) (hnew : attempt old = some new)
    (fuel : Nat) : loop attempt key (fuel + 2) s look = some (s.insert key new) := by
  have hl : s.lookup key = old := Store.lookup_eq hold
  have hswap : s.compareSwap key old new = (0, new, s.insert key new) := if_pos hold
  simp only [loop, step, hl, hnew, Option.map_some, hswap]

end Retry

end MatrixZht
