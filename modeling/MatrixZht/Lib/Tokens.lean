import Mathlib.Data.List.Basic
import Mathlib.Data.List.TakeWhile

namespace MatrixZht.Lib

/-- Preferred to running through all elements of a finite type. -/
instance (priority := high) decidableForallMem {α : Type*} (p : α → Prop) [DecidablePred p]
    (l : List α) : Decidable (∀ x ∈ l, p x) :=
  List.decidableBAll p l

variable {α : Type*} {p : α → Bool} {sep u w : List α} {us ws : List (List α)} {d : α}

/-- The maximal non-empty runs of elements outside the delimiter set `p`, in order. -/
def tokens (p : α → Bool) (l : List α) : List (List α) :=
  (l.splitOnP p).filter (fun w => !w.isEmpty)

/-- A word that survives splitting: non-empty and free of delimiters. -/
def IsWord (p : α → Bool) (w : List α) : Prop := w ≠ [] ∧ ∀ c ∈ w, p c = false

/-- Every word is followed by the terminator `sep`. -/
def terminate (sep : List α) (ws : List (List α)) : List α := ws.flatMap (· ++ sep)

@[simp] theorem terminate_nil (sep : List α) : terminate sep [] = [] := rfl

@[simp] theorem terminate_cons (sep w : List α) (ws : List (List α)) :
    terminate sep (w :: ws) = w ++ (sep ++ terminate sep ws) := by
  simp only [terminate, List.flatMap_cons, List.append_assoc]

theorem terminate_append (sep : List α) (us ws : List (List α)) :
    terminate sep (us ++ ws) = terminate sep us ++ terminate sep ws := by
  simp only [terminate, List.flatMap_append]

theorem terminate_eq_nil (hs : sep ≠ []) : terminate sep ws = [] ↔ ws = [] := by
  cases ws with
  | nil => simp only [terminate_nil]
  | cons w ws => simp [hs]

theorem mem_terminate {c : α} (h : c ∈ terminate sep ws) : (∃ w ∈ ws, c ∈ w) ∨ c ∈ sep := by
  obtain ⟨w, hw, hc⟩ := List.mem_flatMap.1 h
  rcases List.mem_append.1 hc with hc | hc
  · exact .inl ⟨w, hw, hc⟩
  · exact .inr hc

@[simp] theorem tokens_nil (p : α → Bool) : tokens p [] = [] := rfl

theorem tokens_append_cons (hd : p d = true) (xs ys : List α) :
    tokens p (xs ++ d :: ys) = tokens p xs ++ tokens p ys := by
  simp only [tokens, List.splitOnP_append_cons xs ys hd, List.filter_append]

theorem tokens_cons_of_delim (hd : p d = true) (ys : List α) :
    tokens p (d :: ys) = tokens p ys :=
  tokens_append_cons hd [] ys

theorem tokens_of_clean (h : ∀ c ∈ w, p c = false) :
    tokens p w = if w.isEmpty then [] else [w] := by
  rw [tokens, List.splitOnP_eq_singleton h]
  cases w <;> rfl

theorem IsWord.tokens_eq (h : IsWord p w) : tokens p w = [w] := by
  rw [tokens_of_clean h.2, if_neg (by simpa using h.1)]

theorem IsWord.append (hu : IsWord p u) (hw : ∀ c ∈ w, p c = false) : IsWord p (u ++ w) := by
  refine ⟨by simp [hu.1], fun c hc => ?_⟩
  rcases List.mem_append.1 hc with hc | hc
  · exact hu.2 c hc
  · exact hw c hc

theorem tokens_delims_append (hs : ∀ c ∈ sep, p c = true) (ys : List α) :
    tokens p (sep ++ ys) = tokens p ys := by
  induction sep with
  | nil => rfl
  | cons d sep ih =>
    rw [List.cons_append, tokens_cons_of_delim (hs d List.mem_cons_self)]
    exact ih fun c hc => hs c (List.mem_cons_of_mem _ hc)

theorem tokens_append_delims (hs : ∀ c ∈ sep, p c = true) (xs : List α) :
    tokens p (xs ++ sep) = tokens p xs := by
  cases sep with
  | nil => rw [List.append_nil]
  | cons d sep =>
    have hsep := tokens_delims_append (fun c hc => hs c (List.mem_cons_of_mem _ hc)) []
    rw [tokens_append_cons (hs d List.mem_cons_self)]
    simpa using hsep

theorem tokens_word_append (hw : IsWord p w) (hs : ∀ c ∈ sep, p c = true) (hn : sep ≠ [])
    (ys : List α) : tokens p (w ++ (sep ++ ys)) = w :: tokens p ys := by
  obtain ⟨d, sep, rfl⟩ := List.exists_cons_of_ne_nil hn
  rw [List.cons_append, tokens_append_cons (hs d List.mem_cons_self), hw.tokens_eq,
    tokens_delims_append fun c hc => hs c (List.mem_cons_of_mem _ hc)]
  rfl

/-- Splitting undoes termination: the words come back, in order. -/
theorem tokens_terminate_append (hw : ∀ w ∈ ws, IsWord p w) (hs : ∀ c ∈ sep, p c = true)
    (hn : sep ≠ []) (ys : List α) : tokens p (terminate sep ws ++ ys) = ws ++ tokens p ys := by
  induction ws with
  | nil => rfl
  | cons w ws ih =>
    have hrest := ih fun u hu => hw u (List.mem_cons_of_mem _ hu)
    rw [terminate_cons, List.append_assoc, List.append_assoc,
      tokens_word_append (hw w List.mem_cons_self) hs hn, hrest]
    rfl

theorem tokens_terminate (hw : ∀ w ∈ ws, IsWord p w) (hs : ∀ c ∈ sep, p c = true)
    (hn : sep ≠ []) : tokens p (terminate sep ws) = ws := by
  have h := tokens_terminate_append hw hs hn []
  simpa using h

theorem tokens_terminate_filter (hw : ∀ w ∈ ws, ∀ c ∈ w, p c = false)
    (hs : ∀ c ∈ sep, p c = true) (hn : sep ≠ []) :
    tokens p (terminate sep ws) = ws.filter fun w => !w.isEmpty := by
  induction ws with
  | nil => rfl
  | cons w ws ih =>
    obtain ⟨hw, hws⟩ := List.forall_mem_cons.1 hw
    rw [terminate_cons]
    by_cases he : w = []
    · rw [he, List.nil_append, tokens_delims_append hs, ih hws]
      rfl
    · rw [tokens_word_append ⟨he, hw⟩ hs hn, ih hws, List.filter_cons_of_pos (by simpa using he)]

theorem exists_take_append {v x : List α} {k : Nat} (hk : u.length ≤ k) :
    ∃ i j l, (u ++ (w ++ (v ++ x))).take k = u ++ (w.take i ++ (v.take j ++ x.take l)) := by
  rw [List.take_append, List.take_of_length_le hk, List.take_append, List.take_append]
  exact ⟨_, _, _, rfl⟩

/-- A text that is cut ends inside one of its words or right after it. -/
theorem prefix_terminate {q : List α} (h : q <+: terminate sep ws) :
    q = terminate sep ws ∨ ∃ us w vs k, ws = us ++ w :: vs ∧
      q = terminate sep us ++ (w ++ sep).take k ∧ k < (w ++ sep).length := by
  induction ws generalizing q with
  | nil => exact .inl (List.prefix_nil.1 h)
  | cons w ws ih =>
    rw [terminate_cons, ← List.append_assoc] at h ⊢
    have hword : w ++ sep <+: w ++ sep ++ terminate sep ws := List.prefix_append _ _
    by_cases hlen : q.length < (w ++ sep).length
    · have hq := List.prefix_of_prefix_length_le h hword hlen.le
      exact .inr ⟨[], w, ws, q.length, rfl, List.prefix_iff_eq_take.1 hq, hlen⟩
    · obtain ⟨q', rfl⟩ := List.prefix_of_prefix_length_le hword h (not_lt.1 hlen)
      rcases ih ((List.prefix_append_right_inj _).1 h) with rfl | ⟨us, v, vs, k, rfl, rfl, hk⟩
      · exact .inl rfl
      · exact .inr ⟨w :: us, v, vs, k, rfl, by simp, hk⟩

theorem tokens_take_word (hw : IsWord p w) (hs : ∀ c ∈ sep, p c = true) (k : Nat) :
    tokens p ((w ++ sep).take k) = if k = 0 then [] else [w.take k] := by
  have hclean : ∀ c ∈ w.take k, p c = false := fun c hc => hw.2 c (List.mem_of_mem_take hc)
  rw [List.take_append, tokens_append_delims (fun c hc => hs c (List.mem_of_mem_take hc)),
    tokens_of_clean hclean]
  have hempty : (w.take k).isEmpty = true ↔ k = 0 := by simp [hw.1]
  simp only [hempty]

theorem tokens_dropWhile (l : List α) : tokens p (l.dropWhile p) = tokens p l := by
  have hdelims : ∀ c ∈ l.takeWhile p, p c = true := fun c hc => List.mem_takeWhile_imp hc
  have h := tokens_delims_append hdelims (l.dropWhile p)
  rw [List.takeWhile_append_dropWhile] at h
  exact h.symm

theorem eq_false_of_dropWhile {l : List α} (h : l.dropWhile p = d :: w) : p d = false := by
  have hhead := List.head_dropWhile_not p (l := l) (by rw [h]; exact List.cons_ne_nil d w)
  simpa only [h, List.head_cons] using hhead

theorem tokens_cons_of_not_delim (hd : p d = false) (l : List α) :
    tokens p (d :: l) =
      (d :: l).takeWhile (!p ·) :: tokens p ((d :: l).dropWhile (!p ·)) := by
  have hword : IsWord p ((d :: l).takeWhile (!p ·)) := by
    refine ⟨by simp [hd], fun c hc => ?_⟩
    simpa using List.mem_takeWhile_imp hc
  have hsplit : (d :: l).takeWhile (!p ·) ++ (d :: l).dropWhile (!p ·) = d :: l :=
    List.takeWhile_append_dropWhile
  cases hrest : (d :: l).dropWhile (!p ·) with
  | nil =>
    rw [hrest, List.append_nil] at hsplit
    rw [hsplit] at hword ⊢
    exact hword.tokens_eq
  | cons e rest =>
    have he : p e = true := by simpa using eq_false_of_dropWhile hrest
    rw [hrest] at hsplit
    calc tokens p (d :: l) = tokens p ((d :: l).takeWhile (!p ·) ++ e :: rest) := by rw [hsplit]
      _ = [(d :: l).takeWhile (!p ·)] ++ tokens p rest := by
        rw [tokens_append_cons he, hword.tokens_eq]
      _ = _ := by rw [tokens_cons_of_delim he, List.singleton_append]

theorem exists_last_delim (l : List α) : (∀ c ∈ l, p c = false) ∨
    ∃ u d w, l = u ++ d :: w ∧ p d = true ∧ ∀ c ∈ w, p c = false := by
  induction l with
  | nil => exact .inl fun c hc => absurd hc List.not_mem_nil
  | cons x l ih =>
    rcases ih with hl | ⟨u, d, w, rfl, hd, hw⟩
    · cases hx : p x with
      | false => exact .inl (List.forall_mem_cons.2 ⟨hx, hl⟩)
      | true => exact .inr ⟨[], x, l, rfl, hx, hl⟩
    · exact .inr ⟨x :: u, d, w, rfl, hd, hw⟩

theorem IsWord.tokens_append (h : IsWord p w) (ys : List α) :
    ∃ v rest, tokens p (w ++ ys) = (w ++ v) :: rest := by
  induction ys generalizing w with
  | nil => exact ⟨[], [], by rw [List.append_nil, h.tokens_eq]⟩
  | cons y ys ih =>
    cases hy : p y with
    | true =>
      refine ⟨[], tokens p ys, ?_⟩
      rw [tokens_append_cons hy, h.tokens_eq, List.append_nil]
      rfl
    | false =>
      obtain ⟨v, rest, hv⟩ := ih (h.append (w := [y]) (by simpa using hy))
      refine ⟨y :: v, rest, ?_⟩
      simpa using hv

theorem tokens_append_of_last {l : List α} (h : tokens p l = ws ++ [w]) (ys : List α) :
    ∃ v rest, tokens p (l ++ ys) = ws ++ (w ++ v) :: rest := by
  rcases exists_last_delim (p := p) l with hl | ⟨u, d, t, rfl, hd, ht⟩
  · rw [tokens_of_clean hl] at h
    split at h
    · simp at h
    · next hne =>
      have hws : ws = [] := by
        cases ws with
        | nil => rfl
        | cons v ws => simp at h
      subst hws
      obtain rfl : l = w := by simpa using h
      exact IsWord.tokens_append ⟨by simpa using hne, hl⟩ ys
  · rw [tokens_append_cons hd, tokens_of_clean ht] at h
    rw [List.append_assoc, List.cons_append, tokens_append_cons hd]
    by_cases hte : t = []
    · subst hte
      refine ⟨[], tokens p ys, ?_⟩
      have hu : tokens p u = ws ++ [w] := by simpa using h
      simp [hu]
    · rw [if_neg (by simpa using hte)] at h
      obtain ⟨rfl, hw⟩ := List.append_inj' h rfl
      obtain rfl : t = w := by simpa using hw
      obtain ⟨v, rest, hv⟩ := IsWord.tokens_append ⟨hte, ht⟩ ys
      exact ⟨v, rest, by rw [hv]⟩

theorem clean_of_mem_splitOnP {l : List α} (h : w ∈ l.splitOnP p) : ∀ c ∈ w, p c = false := by
  induction l generalizing w with
  | nil =>
    simp only [List.splitOnP_nil, List.mem_singleton] at h
    simp [h]
  | cons x l ih =>
    obtain ⟨r, rs, hr⟩ := List.exists_cons_of_ne_nil (List.splitOnP_ne_nil p l)
    rw [List.splitOnP_cons_eq_if_modifyHead, hr] at h
    by_cases hx : p x = true
    · rw [if_pos hx] at h
      rcases List.mem_cons.1 h with he | h
      · simp [he]
      · exact ih (hr ▸ h)
    · rw [if_neg hx, List.modifyHead_cons] at h
      rcases List.mem_cons.1 h with he | h
      · intro c hc
        rw [he] at hc
        rcases List.mem_cons.1 hc with hc | hc
        · rw [hc]
          exact Bool.eq_false_iff.2 hx
        · exact ih (hr ▸ List.mem_cons_self) c hc
      · exact ih (hr ▸ List.mem_cons_of_mem _ h)

theorem sublist_of_mem_splitOnP {l : List α} (h : w ∈ l.splitOnP p) : w.Sublist l := by
  induction l generalizing w with
  | nil =>
    simp only [List.splitOnP_nil, List.mem_singleton] at h
    simp [h]
  | cons x l ih =>
    obtain ⟨r, rs, hr⟩ := List.exists_cons_of_ne_nil (List.splitOnP_ne_nil p l)
    rw [List.splitOnP_cons_eq_if_modifyHead, hr] at h
    by_cases hx : p x = true
    · rw [if_pos hx] at h
      rcases List.mem_cons.1 h with he | h
      · simp [he]
      · exact (ih (hr ▸ h)).cons x
    · rw [if_neg hx, List.modifyHead_cons] at h
      rcases List.mem_cons.1 h with he | h
      · rw [he]
        exact (ih (hr ▸ List.mem_cons_self)).cons_cons x
      · exact (ih (hr ▸ List.mem_cons_of_mem _ h)).cons x

theorem sublist_of_mem_tokens {l : List α} (h : w ∈ tokens p l) : w.Sublist l :=
  sublist_of_mem_splitOnP (List.mem_filter.1 h).1

theorem isWord_of_mem_tokens {l : List α} (h : w ∈ tokens p l) : IsWord p w := by
  obtain ⟨hw, hn⟩ := List.mem_filter.1 h
  exact ⟨by simpa using hn, clean_of_mem_splitOnP hw⟩

end MatrixZht.Lib
