import Mathlib.Algebra.Order.Floor.Semifield
import Mathlib.Analysis.Real.Sqrt
import MatrixZht.Lib.FirstMax
import MatrixZht.Lib.Run
import MatrixZht.Messages

namespace MatrixZht
open Lib

/-- What a thief knows from the start: the schedulers, its own index among them and the bounds of
the poll interval. -/
structure StealConf where
  schedulerVec : List Str
  index : Int
  wsPollIntervalStart : Int
  wsPollIntervalUb : Int

/-- The members of a scheduler that work stealing uses. -/
structure StealState where
  neighIdx : List Int
  chooseBitMap : List Bool
  maxLoadedIdx : Int := -1
  maxLoad : Int := -1000000
  pollInterval : Int
  numWS : Int := 0
  numWSFail : Int := 0
deriving DecidableEq

/-- `neighIdx[i] = idx; chooseBitMap[idx] = true;` -/
def StealState.choose (s : StealState) (i idx : Nat) : StealState :=
  { s with neighIdx := s.neighIdx.set i idx, chooseBitMap := s.chooseBitMap.set idx true }

/-- An index that `schedulerVec` has no entry for, or a reply that `str_to_mm` cannot read. -/
inductive StealError where
  | schedulerVec
  | strToMm
deriving DecidableEq

/-- What happens in an iteration of `workstealing` from outside: the values of `rand`, what each
scheduler replies to a query of its load (`[]` when nothing comes), and whether tasks arrive. -/
structure Round where
  draws : List Nat
  reply : Int → Str
  stolen : Bool

/-- The load that a scheduler reports. -/
def Round.load (r : Round) (idx : Int) : Option Int :=
  if r.reply idx = [] then none else (strToMm (r.reply idx)).map (·.count.getD 0)

namespace StealConf

variable (conf : StealConf)

def numScheduler : Nat := conf.schedulerVec.length

/-- `(int) (sqrt(schedulerVec.size()) + 0.5)`, in numbers without fractions. -/
def numNeigh : Nat := (Nat.sqrt (4 * conf.numScheduler) + 1) / 2

/-- `schedulerVec.at` -/
def schedulerAt (idx : Int) : Option Str :=
  if 0 ≤ idx then conf.schedulerVec[idx.toNat]? else none

/-- The constructor leaves `neighIdx` as it finds it. -/
def start (neighIdx : List Int) : StealState where
  neighIdx := neighIdx
  chooseBitMap := List.replicate conf.numScheduler false
  pollInterval := conf.wsPollIntervalStart

def resetChoosebm (s : StealState) : StealState :=
  { s with chooseBitMap := List.replicate conf.numScheduler false }

/-- Draws until an index comes that is neither the own one nor chosen; `none` when the draws run
out before. -/
def drawIdx (chooseBitMap : List Bool) : List Nat → Option (Nat × List Nat)
  | [] => none
  | r :: draws =>
    let idx := r % conf.numScheduler
    if idx = conf.index ∨ chooseBitMap.getD idx false then drawIdx chooseBitMap draws
    else some (idx, draws)

/-- The first `i` iterations of `choose_neigh`. -/
def chooseUpTo : Nat → StealState → List Nat → Option (StealState × List Nat)
  | 0, s, draws => some (s, draws)
  | i + 1, s, draws =>
    (chooseUpTo i s draws).bind fun (s, draws) =>
      (conf.drawIdx s.chooseBitMap draws).map fun (idx, draws) => (s.choose i idx, draws)

def chooseNeigh (s : StealState) (draws : List Nat) : Option (StealState × List Nat) :=
  (conf.chooseUpTo conf.numNeigh s draws).map fun (s, draws) => (conf.resetChoosebm s, draws)

/-- The loop of `find_most_loaded_neigh` over the neighbours that are left. -/
def findMostLoaded (r : Round) : List Int → StealState → Except StealError StealState
  | [], s => .ok s
  | idx :: neigh, s =>
    match conf.schedulerAt idx with
    | none => .error .schedulerVec
    | some _ =>
      if r.reply idx = [] then findMostLoaded r neigh s
      else
        match strToMm (r.reply idx) with
        | none => .error .strToMm
        | some mmLoad =>
          let load := mmLoad.count.getD 0
          findMostLoaded r neigh
            (if s.maxLoad < load then { s with maxLoad := load, maxLoadedIdx := idx } else s)

/-- The scheduler that `steal_task` contacts. -/
def stealTask (s : StealState) : Except StealError (Option Int) :=
  if s.maxLoad ≤ 0 then .ok none
  else
    match conf.schedulerAt s.maxLoadedIdx with
    | none => .error .schedulerVec
    | some _ => .ok (some s.maxLoadedIdx)

/-- The end of an iteration of `workstealing`. -/
def endRound (success : Bool) (s : StealState) : StealState :=
  let s := { s with numWS := s.numWS + 1, maxLoadedIdx := -1, maxLoad := -1000000 }
  if success then { s with pollInterval := conf.wsPollIntervalStart }
  else { s with numWSFail := s.numWSFail + 1, pollInterval := toInt64 (s.pollInterval * 2) }

/-- An iteration of `workstealing`, with the scheduler contacted; `none` when `choose_neigh` has
not come to an end with the draws. -/
def round (r : Round) (s : StealState) : Option (Except StealError (Option Int × StealState)) :=
  (conf.chooseNeigh s r.draws).map fun (s, _) => do
    let s ← conf.findMostLoaded r s.neighIdx s
    let target ← conf.stealTask s
    return (target, conf.endRound (target.isSome && r.stolen) s)

end StealConf

/-- The loops of `workstealing`: an iteration of the inner one, or a sleep of the outer one. -/
inductive StealAct where
  | round (r : Round)
  | sleep

namespace StealConf

variable (conf : StealConf)

def step (s : StealState) : StealAct → Option StealState
  | .round r =>
    if s.pollInterval < conf.wsPollIntervalUb then
      match conf.round r s with
      | some (.ok (_, s')) => some s'
      | _ => none
    else none
  | .sleep =>
    if s.pollInterval < conf.wsPollIntervalUb then
      some { s with pollInterval := conf.wsPollIntervalStart }
    else none

end StealConf

/-- Between two iterations nothing is chosen and no load is known. -/
structure StealState.Idle (conf : StealConf) (s : StealState) : Prop where
  length : s.neighIdx.length = conf.numNeigh
  chooseBitMap : s.chooseBitMap = List.replicate conf.numScheduler false
  maxLoadedIdx : s.maxLoadedIdx = -1
  maxLoad : s.maxLoad = -1000000

/-- The first `i` neighbours are chosen, and marked. -/
structure StealState.Chosen (conf : StealConf) (i : Nat) (s : StealState) : Prop where
  length : s.neighIdx.length = conf.numNeigh
  nodup : (s.neighIdx.take i).Nodup
  mem : ∀ idx ∈ s.neighIdx.take i, 0 ≤ idx ∧ idx < conf.numScheduler ∧ idx ≠ conf.index
  marks : s.chooseBitMap.length = conf.numScheduler
  marked : ∀ idx < conf.numScheduler,
    s.chooseBitMap[idx]? = some (decide ((idx : Int) ∈ s.neighIdx.take i))
  maxLoadedIdx : s.maxLoadedIdx = -1
  maxLoad : s.maxLoad = -1000000

namespace StealConf

variable {conf : StealConf} {s s' : StealState} {draws rest : List Nat} {i : Nat}

theorem numNeigh_eq_floor (conf : StealConf) :
    conf.numNeigh = ⌊√(conf.numScheduler : ℝ) + 1 / 2⌋₊ := by
  have hsqrt : √((4 * conf.numScheduler : Nat) : ℝ) = 2 * √(conf.numScheduler : ℝ) := by
    push_cast
    rw [Real.sqrt_mul (by norm_num), show (4 : ℝ) = 2 ^ 2 by norm_num,
      Real.sqrt_sq (by norm_num)]
  calc conf.numNeigh
      = (⌊√((4 * conf.numScheduler : Nat) : ℝ)⌋₊ + 1) / 2 := by
        rw [Real.nat_floor_real_sqrt_eq_nat_sqrt, numNeigh]
    _ = ⌊(√((4 * conf.numScheduler : Nat) : ℝ) + 1) / 2⌋₊ := by
        rw [Nat.floor_div_ofNat, Nat.floor_add_one (Real.sqrt_nonneg _)]
    _ = ⌊√(conf.numScheduler : ℝ) + 1 / 2⌋₊ := by
        rw [hsqrt]
        congr 1
        ring

theorem numNeigh_lt (h : 2 ≤ conf.numScheduler) : conf.numNeigh < conf.numScheduler := by
  have hsqrt : Nat.sqrt (4 * conf.numScheduler) < 2 * conf.numScheduler - 1 := by
    obtain ⟨k, hk⟩ := Nat.exists_eq_add_of_le h
    rw [Nat.sqrt_lt, hk]
    rw [show 2 * (2 + k) - 1 = 2 * k + 3 by omega]
    nlinarith
  rw [numNeigh]
  omega

theorem drawIdx_spec {marks : List Bool} {idx : Nat} (hn : 0 < conf.numScheduler)
    (h : conf.drawIdx marks draws = some (idx, rest)) :
    idx < conf.numScheduler ∧ (idx : Int) ≠ conf.index ∧ marks.getD idx false = false := by
  induction draws with
  | nil => cases h
  | cons r draws ih =>
    rw [drawIdx] at h
    split at h
    · exact ih h
    · next hno =>
      cases h
      push Not at hno
      exact ⟨Nat.mod_lt _ hn, hno.1, by simpa using hno.2⟩

end StealConf

namespace StealState

variable {conf : StealConf} {s : StealState} {draws rest : List Nat} {i : Nat}

theorem take_set {l : List Int} (h : i < l.length) (x : Int) :
    (l.set i x).take (i + 1) = l.take i ++ [x] := by
  rw [List.take_add_one, List.getElem?_set_self h, List.take_set_of_le (Nat.le_refl i)]
  rfl

theorem Idle.chosen (h : s.Idle conf) : s.Chosen conf 0 where
  length := h.length
  nodup := List.nodup_nil
  mem := nofun
  marks := by rw [h.chooseBitMap, List.length_replicate]
  marked := by
    intro idx hidx
    rw [h.chooseBitMap, List.getElem?_replicate, if_pos hidx, List.take_zero]
    rfl
  maxLoadedIdx := h.maxLoadedIdx
  maxLoad := h.maxLoad

theorem Chosen.next (h : s.Chosen conf i) (hi : i < conf.numNeigh) (hn : 0 < conf.numScheduler)
    {idx : Nat} (hidx : conf.drawIdx s.chooseBitMap draws = some (idx, rest)) :
    (s.choose i idx).Chosen conf (i + 1) := by
  obtain ⟨hlt, hne, hmark⟩ := StealConf.drawIdx_spec hn hidx
  have hlen : i < s.neighIdx.length := h.length.symm ▸ hi
  have hnew : (idx : Int) ∉ s.neighIdx.take i := by
    rw [List.getD_eq_getElem?_getD, h.marked idx hlt, Option.getD_some] at hmark
    exact of_decide_eq_false hmark
  exact
    { length := by rw [choose, List.length_set, h.length]
      nodup := by
        rw [choose, take_set hlen]
        exact List.nodup_append.2 ⟨h.nodup, List.nodup_singleton _, by grind⟩
      mem := by
        intro x hx
        rw [choose, take_set hlen, List.mem_append, List.mem_singleton] at hx
        rcases hx with hx | rfl
        · exact h.mem x hx
        · exact ⟨Int.natCast_nonneg idx, by exact_mod_cast hlt, hne⟩
      marks := by rw [choose, List.length_set, h.marks]
      marked := by
        intro j hj
        rw [choose, take_set hlen, List.getElem?_set, h.marks]
        by_cases hji : idx = j
        · subst hji
          simp [hlt]
        · rw [if_neg hji, h.marked j hj]
          simp [eq_comm, hji]
      maxLoadedIdx := h.maxLoadedIdx
      maxLoad := h.maxLoad }

theorem Chosen.exists_unchosen (h : s.Chosen conf i) (hi : i < conf.numNeigh)
    (hn : 2 ≤ conf.numScheduler) :
    ∃ idx < conf.numScheduler, (idx : Int) ≠ conf.index ∧ s.chooseBitMap[idx]? = some false := by
  by_contra hall
  push Not at hall
  have hsub : (List.range conf.numScheduler).map (Nat.cast : Nat → Int) ⊆
      conf.index :: s.neighIdx.take i := by
    intro x hx
    obtain ⟨idx, hidx, rfl⟩ := List.mem_map.1 hx
    by_cases hown : (idx : Int) = conf.index
    · rw [hown]
      exact List.mem_cons_self
    · have hmark := hall idx (List.mem_range.1 hidx) hown
      rw [h.marked idx (List.mem_range.1 hidx)] at hmark
      exact List.mem_cons_of_mem _ (by simpa using hmark)
  have hnodup : ((List.range conf.numScheduler).map (Nat.cast : Nat → Int)).Nodup :=
    List.nodup_range.map Int.ofNat_injective
  have hle := (hnodup.subperm hsub).length_le
  have hlt := StealConf.numNeigh_lt hn
  simp only [List.length_map, List.length_range, List.length_cons, List.length_take] at hle
  omega

end StealState

namespace StealConf

variable {conf : StealConf} {s s' : StealState} {draws rest : List Nat} {i : Nat}

theorem chooseUpTo_spec (h : s.Idle conf) (hn : 0 < conf.numScheduler) (hi : i ≤ conf.numNeigh)
    (hrun : conf.chooseUpTo i s draws = some (s', rest)) : s'.Chosen conf i := by
  induction i generalizing s' rest with
  | zero =>
    cases hrun
    exact h.chosen
  | succ i ih =>
    obtain ⟨⟨s₁, draws₁⟩, hprev, hrun⟩ := Option.bind_eq_some_iff.1 hrun
    obtain ⟨⟨idx, draws₂⟩, hidx, he⟩ := Option.map_eq_some_iff.1 hrun
    cases he
    exact (ih (Nat.le_of_succ_le hi) hprev).next hi hn hidx

theorem chooseNeigh_spec (h : s.Idle conf) (hn : 0 < conf.numScheduler)
    (hrun : conf.chooseNeigh s draws = some (s', rest)) : s'.Idle conf ∧ s'.neighIdx.Nodup ∧
      ∀ idx ∈ s'.neighIdx, 0 ≤ idx ∧ idx < conf.numScheduler ∧ idx ≠ conf.index := by
  obtain ⟨⟨s₁, draws₁⟩, hchoose, he⟩ := Option.map_eq_some_iff.1 hrun
  cases he
  have hchosen := chooseUpTo_spec h hn (Nat.le_refl _) hchoose
  have hnodup := hchosen.nodup
  have hmem := hchosen.mem
  rw [← hchosen.length, List.take_length] at hnodup hmem
  exact ⟨⟨hchosen.length, rfl, hchosen.maxLoadedIdx, hchosen.maxLoad⟩, hnodup, hmem⟩

theorem exists_schedulerAt {idx : Int} (h : 0 ≤ idx ∧ idx < conf.numScheduler) :
    ∃ peer, conf.schedulerAt idx = some peer := by
  have hlt : idx.toNat < conf.schedulerVec.length := by
    have := h.2
    rw [numScheduler] at this
    omega
  exact ⟨_, by rw [schedulerAt, if_pos h.1, List.getElem?_eq_getElem hlt]⟩

end StealConf

/-- The loads that are reported, with the neighbours that report them. -/
def Round.loads (r : Round) (neigh : List Int) : List (Int × Int) :=
  neigh.filterMap fun idx => (r.load idx).map (idx, ·)

theorem Round.loads_cons_none {r : Round} {idx : Int} (h : r.load idx = none) (neigh : List Int) :
    r.loads (idx :: neigh) = r.loads neigh :=
  List.filterMap_cons_none (by rw [h]; rfl)

theorem Round.loads_cons_some {r : Round} {idx load : Int} (h : r.load idx = some load)
    (neigh : List Int) : r.loads (idx :: neigh) = (idx, load) :: r.loads neigh :=
  List.filterMap_cons_some (by rw [h]; rfl)

/-- A neighbour that reports a positive load, and none reports a larger one. -/
structure Round.MostLoaded (r : Round) (neigh : List Int) (target : Int) : Prop where
  mem : target ∈ neigh
  max : ∃ load, r.load target = some load ∧ 0 < load ∧
    ∀ idx ∈ neigh, ∀ load', r.load idx = some load' → load' ≤ load

namespace StealConf

variable {conf : StealConf} {s s' : StealState} {r : Round} {neigh : List Int}

theorem findMostLoaded_spec
    (h : ∀ idx ∈ neigh, 0 ≤ idx ∧ idx < conf.numScheduler) (s : StealState) :
    conf.findMostLoaded r neigh s = .error .strToMm ∨
      conf.findMostLoaded r neigh s = .ok
        { s with
          maxLoadedIdx := (scanMax Prod.snd (s.maxLoadedIdx, s.maxLoad) (r.loads neigh)).1
          maxLoad := (scanMax Prod.snd (s.maxLoadedIdx, s.maxLoad) (r.loads neigh)).2 } := by
  induction neigh generalizing s with
  | nil => exact .inr rfl
  | cons idx neigh ih =>
    obtain ⟨hidx, hneigh⟩ := List.forall_mem_cons.1 h
    obtain ⟨peer, hpeer⟩ := exists_schedulerAt hidx
    simp only [findMostLoaded, hpeer]
    by_cases hreply : r.reply idx = []
    · rw [if_pos hreply, Round.loads_cons_none (if_pos hreply)]
      exact ih hneigh s
    · rw [if_neg hreply]
      cases hmm : strToMm (r.reply idx) with
      | none => exact .inl rfl
      | some mmLoad =>
        have hload : r.load idx = some (mmLoad.count.getD 0) := by
          rw [Round.load, if_neg hreply, hmm, Option.map_some]
        rw [Round.loads_cons_some hload]
        dsimp only
        by_cases hlt : s.maxLoad < mmLoad.count.getD 0
        · rw [if_pos hlt, scanMax_cons_of_lt (by exact hlt)]
          exact ih hneigh _
        · rw [if_neg hlt, scanMax_cons_of_le (by exact not_lt.1 hlt)]
          exact ih hneigh s

theorem mem_loads {x : Int × Int} : x ∈ r.loads neigh ↔ x.1 ∈ neigh ∧ r.load x.1 = some x.2 := by
  rw [Round.loads, List.mem_filterMap]
  constructor
  · rintro ⟨idx, hidx, hx⟩
    obtain ⟨load, hload, rfl⟩ := Option.map_eq_some_iff.1 hx
    exact ⟨hidx, hload⟩
  · rintro ⟨hidx, hload⟩
    exact ⟨x.1, hidx, by rw [hload]; rfl⟩

theorem mostLoaded_of_scan {best : Int × Int} (hbest : best.2 ≤ 0)
    (h : 0 < (scanMax Prod.snd best (r.loads neigh)).2) :
    r.MostLoaded neigh (scanMax Prod.snd best (r.loads neigh)).1 := by
  have hspec := scanMax_spec Prod.snd best (r.loads neigh)
  have hmax (x : Int × Int) : x ∈ r.loads neigh ↔ x.1 ∈ neigh ∧ r.load x.1 = some x.2 := mem_loads
  generalize r.loads neigh = l at *
  generalize scanMax Prod.snd best l = x at *
  rcases hspec with ⟨rfl, _⟩ | ⟨us, ws, rfl, _, hus, hws⟩
  · omega
  · obtain ⟨hmem, hload⟩ := (hmax x).1 (List.mem_append_right us List.mem_cons_self)
    refine ⟨hmem, x.2, hload, h, fun idx hidx load' hload' => ?_⟩
    rcases List.mem_append.1 ((hmax (idx, load')).2 ⟨hidx, hload'⟩) with hy | hy
    · exact (hus _ hy).le
    · rcases List.mem_cons.1 hy with he | hy
      · rw [← he]
      · exact hws _ hy

theorem endRound_idle (h : s.Idle conf) (x : Int × Int) (success : Bool) :
    (conf.endRound success { s with maxLoadedIdx := x.1, maxLoad := x.2 }).Idle conf := by
  cases success <;> exact ⟨h.length, h.chooseBitMap, rfl, rfl⟩

/-- An iteration fails on a reply at most, and a scheduler that it contacts is the most loaded of
those asked. -/
theorem round_spec (h : s.Idle conf) (hn : 0 < conf.numScheduler)
    {e : Except StealError (Option Int × StealState)} (hround : conf.round r s = some e) :
    ∃ s₁ rest, conf.chooseNeigh s r.draws = some (s₁, rest) ∧ (e = .error .strToMm ∨
      ∃ target s', e = .ok (target, s') ∧ s'.Idle conf ∧
        ∀ idx, target = some idx → r.MostLoaded s₁.neighIdx idx) := by
  obtain ⟨⟨s₁, rest⟩, hchoose, rfl⟩ := Option.map_eq_some_iff.1 hround
  refine ⟨s₁, rest, hchoose, ?_⟩
  obtain ⟨hidle, _, hneigh⟩ := chooseNeigh_spec h hn hchoose
  have hrange : ∀ idx ∈ s₁.neighIdx, 0 ≤ idx ∧ idx < conf.numScheduler := fun idx hidx =>
    ⟨(hneigh idx hidx).1, (hneigh idx hidx).2.1⟩
  rcases findMostLoaded_spec (r := r) hrange s₁ with hfind | hfind
  · left
    simp only [hfind]
    rfl
  · right
    have hbest : (s₁.maxLoadedIdx, s₁.maxLoad).2 ≤ 0 := by simp [hidle.maxLoad]
    have hmost := @mostLoaded_of_scan r s₁.neighIdx _ hbest
    generalize scanMax Prod.snd (s₁.maxLoadedIdx, s₁.maxLoad) (r.loads s₁.neighIdx) = x at *
    set s₂ : StealState := { s₁ with maxLoadedIdx := x.1, maxLoad := x.2 }
    by_cases hle : x.2 ≤ 0
    · have hsteal : conf.stealTask s₂ = .ok none := if_pos hle
      refine ⟨none, _, ?_, endRound_idle hidle x false, nofun⟩
      simp only [hfind]
      change (conf.stealTask s₂ >>= _) = _
      rw [hsteal]
      rfl
    · have hmost := hmost (not_le.1 hle)
      obtain ⟨peer, hpeer⟩ := exists_schedulerAt (hrange x.1 hmost.mem)
      have hsteal : conf.stealTask s₂ = .ok (some x.1) := by
        rw [stealTask, if_neg hle, hpeer]
      refine ⟨some x.1, _, ?_, endRound_idle hidle x r.stolen, ?_⟩
      · simp only [hfind]
        change (conf.stealTask s₂ >>= _) = _
        rw [hsteal]
        rfl
      · intro idx hidx
        rwa [← Option.some.inj hidx]

theorem step_idle (hn : 0 < conf.numScheduler) {a : StealAct} (hstep : conf.step s a = some s')
    (h : s.Idle conf) : s'.Idle conf := by
  cases a with
  | round r =>
    rw [step, Option.ite_none_right_eq_some] at hstep
    obtain ⟨_, hstep⟩ := hstep
    split at hstep
    · next hround =>
      cases hstep
      obtain ⟨_, _, _, he | ⟨_, _, he, hidle, _⟩⟩ := round_spec h hn hround
      · cases he
      · cases he
        exact hidle
    · cases hstep
  | sleep =>
    rw [step, Option.ite_none_right_eq_some] at hstep
    cases hstep.2
    exact ⟨h.length, h.chooseBitMap, h.maxLoadedIdx, h.maxLoad⟩

theorem start_idle {neighIdx : List Int} (h : neighIdx.length = conf.numNeigh) :
    (conf.start neighIdx).Idle conf :=
  ⟨h, rfl, rfl, rfl⟩

end StealConf

/-- In every iteration of `workstealing` there is a neighbour left to choose, the neighbours chosen
are different ones, and only the most loaded of them is stolen from. -/
theorem workstealing_targets (conf : StealConf) (hn : 2 ≤ conf.numScheduler)
    (neighIdx : List Int) (hlen : neighIdx.length = conf.numNeigh) (as : List StealAct)
    (s : StealState) (hrun : runActs conf.step (conf.start neighIdx) as = some s) :
    conf.numNeigh = ⌊√(conf.numScheduler : ℝ) + 1 / 2⌋₊ ∧
      conf.numNeigh ≤ conf.numScheduler - 1 ∧
      (∀ i < conf.numNeigh, ∀ draws s₁ rest, conf.chooseUpTo i s draws = some (s₁, rest) →
        ∃ idx < conf.numScheduler, (idx : Int) ≠ conf.index ∧
          s₁.chooseBitMap[idx]? = some false) ∧
      (∀ draws s₁ rest, conf.chooseNeigh s draws = some (s₁, rest) →
        s₁.neighIdx.length = conf.numNeigh ∧ s₁.neighIdx.Nodup ∧
          (∀ idx ∈ s₁.neighIdx, 0 ≤ idx ∧ idx < conf.numScheduler ∧ idx ≠ conf.index) ∧
          s₁.chooseBitMap = List.replicate conf.numScheduler false) ∧
      ∀ r e, conf.round r s = some e → e ≠ .error .schedulerVec ∧
        ∀ target s', e = .ok (some target, s') →
          ∃ s₁ rest, conf.chooseNeigh s r.draws = some (s₁, rest) ∧
            r.MostLoaded s₁.neighIdx target := by
  have hpos : 0 < conf.numScheduler := Nat.lt_of_lt_of_le Nat.zero_lt_two hn
  have hidle : s.Idle conf := runActs_invariant (P := fun s => s.Idle conf)
    (fun s a s' hstep h => StealConf.step_idle hpos hstep h) hrun (StealConf.start_idle hlen)
  have hlt := StealConf.numNeigh_lt hn
  refine ⟨conf.numNeigh_eq_floor, by omega, ?_, ?_, ?_⟩
  · intro i hi draws s₁ rest hchoose
    exact (StealConf.chooseUpTo_spec hidle hpos hi.le hchoose).exists_unchosen hi hn
  · intro draws s₁ rest hchoose
    obtain ⟨hidle₁, hnodup, hmem⟩ := StealConf.chooseNeigh_spec hidle hpos hchoose
    exact ⟨hidle₁.length, hnodup, hmem, hidle₁.chooseBitMap⟩
  · intro r e hround
    obtain ⟨s₁, rest, hchoose, rfl | ⟨target, s', rfl, _, hmost⟩⟩ :=
      StealConf.round_spec hidle hpos hround
    · exact ⟨by decide, nofun⟩
    · refine ⟨nofun, fun idx s'' he => ⟨s₁, rest, hchoose, hmost idx ?_⟩⟩
      cases he
      rfl

def twoSchedulers : StealConf := ⟨["a".toList, "b".toList], 0, 1, 8⟩

/-- The own index is drawn twice, then the other one, which has three tasks. -/
def loadedRound : Round where
  draws := [0, 2, 1]
  reply := fun _ => mmToStr { msgtype := "send load".toList, count := some 3 }
  stolen := true

theorem numNeigh_twoSchedulers : twoSchedulers.numNeigh = 1 := by
  have hsqrt : Nat.sqrt 8 = 2 := (Nat.eq_sqrt.2 (by decide)).symm
  exact congrArg (fun k => (k + 1) / 2) hsqrt

theorem chooseNeigh_loadedRound : twoSchedulers.chooseNeigh (twoSchedulers.start [7]) [0, 2, 1] =
    some (⟨[1], [false, false], -1, -1000000, 1, 0, 0⟩, []) := by
  rw [StealConf.chooseNeigh, numNeigh_twoSchedulers]
  decide

theorem workstealing_targets_loaded : loadedRound.MostLoaded [1] 1 := by
  have hround : twoSchedulers.round loadedRound (twoSchedulers.start [7]) =
      some (.ok (some 1, ⟨[1], [false, false], -1, -1000000, 1, 1, 0⟩)) := by
    have hchoose := chooseNeigh_loadedRound
    rw [StealConf.round, loadedRound, hchoose]
    rfl
  obtain ⟨_, _, _, _, htarget⟩ := workstealing_targets twoSchedulers (by decide) [7]
    numNeigh_twoSchedulers.symm [.sleep] (twoSchedulers.start [7]) rfl
  obtain ⟨s₁, rest, hchoose, hmost⟩ := (htarget loadedRound _ hround).2 1 _ rfl
  rw [loadedRound, chooseNeigh_loadedRound] at hchoose
  cases hchoose
  exact hmost

end MatrixZht
