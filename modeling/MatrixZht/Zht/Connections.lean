import MatrixZht.Lib.Merge
import MatrixZht.Zht.Client
import MatrixZht.Zht.Segments
import Mathlib.Data.List.ReduceOption

namespace MatrixZht
open Lib

def alphanum : Str := "0123456789ABCDEFGHIJKLMNOPQRSTUVWXYZabcdefghijklmnopqrstuvwxyz".toList

/-- `HashUtil::randomString`, from the results of `rand`. -/
def randomString (rands : List Nat) : Str := rands.map fun r => alphanum.getD (r % 62) ' '

def genId (rands : List Nat) : Nat := genHash (randomString rands)

/-- The read loop of `EpollServer::serve`. The reads of all connections go through one `getBdStr`,
and what is ready is queued as an event of the connection it was read from. -/
def serve (bdMap : BdMap) : List (Nat × Str) → Option (BdMap × List (Nat × Str))
  | [] => some (bdMap, [])
  | (fd, buf) :: reads => do
    let (bdMap, ready) ← getBdStr bdMap buf
    let (bdMap, events) ← serve bdMap reads
    some (bdMap, (ready.map fun bd => (fd, bd)).toList ++ events)

/-- The blobs of every connection arrive in the order they were sent. -/
def Interleaving (sent : Nat → List Msg) (arrivals : List (Nat × Blob)) : Prop :=
  ∀ fd, only fd arrivals = (sent fd).flatMap Msg.blobs

/-- However the blobs are interleaved, the events of a connection are the messages sent on it. -/
def Separate (sent : Nat → List Msg) : Prop :=
  ∀ arrivals, Interleaving sent arrivals →
    ∃ bdMap events,
      serve (fun _ => none) (arrivals.map fun a => (a.1, a.2.toString)) = some (bdMap, events) ∧
        ∀ fd, only fd events = (sent fd).map Msg.text

def serveAll (bdMap : BdMap) : List (Nat × Blob) → BdMap × List (Nat × Str)
  | [] => (bdMap, [])
  | (fd, blob) :: arrivals =>
    let r := receive bdMap blob
    let rs := serveAll r.1 arrivals
    (rs.1, (r.2.map fun bd => (fd, bd)).toList ++ rs.2)

section Serve

variable {bdMap bdMap' : BdMap} {arrivals arrivals' : List (Nat × Blob)} {fd : Nat}
  {bs : List Blob} {b : Blob}

theorem serve_toString (h : ∀ a ∈ arrivals, a.2.HeaderOk) :
    serve bdMap (arrivals.map fun a => (a.1, a.2.toString)) =
      some (serveAll bdMap (arrivals.map fun a => (a.1, a.2.cut))) := by
  induction arrivals generalizing bdMap with
  | nil => rfl
  | cons a arrivals ih =>
    obtain ⟨ha, harrivals⟩ := List.forall_mem_cons.1 h
    have hget : getBdStr bdMap a.2.toString = some (receive bdMap a.2.cut) := by
      rw [getBdStr, Blob.assign_toString ha]
      rfl
    rw [List.map_cons, serve, hget]
    simp only [Option.bind_eq_bind, Option.bind_some, ih harrivals]
    rfl

theorem serveAll_append (bdMap : BdMap) (as as' : List (Nat × Blob)) :
    serveAll bdMap (as ++ as') =
      ((serveAll (serveAll bdMap as).1 as').1,
        (serveAll bdMap as).2 ++ (serveAll (serveAll bdMap as).1 as').2) := by
  induction as generalizing bdMap with
  | nil => rfl
  | cons a as ih => simp only [List.cons_append, serveAll, ih, List.append_assoc]

theorem serveAll_tag (bdMap : BdMap) (fd : Nat) (bs : List Blob) :
    serveAll bdMap (tag fd bs) =
      ((receiveAll bdMap bs).1, tag fd (receiveAll bdMap bs).2.reduceOption) := by
  induction bs generalizing bdMap with
  | nil => rfl
  | cons b bs ih =>
    rw [tag, List.map_cons, serveAll, ← tag, ih, receiveAll]
    dsimp only
    cases (receive bdMap b).2 with
    | none => rw [List.reduceOption_cons_of_none]; rfl
    | some bd => rw [List.reduceOption_cons_of_some]; rfl

theorem receive_agree {ids : Nat → Prop} (hmap : ∀ u, ids u → bdMap u = bdMap' u)
    (hb : b.total ≠ 1 → ids b.uuid) :
    (receive bdMap b).2 = (receive bdMap' b).2 ∧
      ∀ u, ids u → (receive bdMap b).1 u = (receive bdMap' b).1 u := by
  have hupdate : ∀ set u, ids u → Function.update bdMap b.uuid set u =
      Function.update bdMap' b.uuid set u := by
    intro set u hu
    by_cases hub : u = b.uuid
    · rw [hub, Function.update_self, Function.update_self]
    · rw [Function.update_of_ne hub, Function.update_of_ne hub, hmap u hu]
  by_cases hone : b.total = 1
  · rw [receive, receive, if_pos hone, if_pos hone]
    exact ⟨rfl, hmap⟩
  · rw [receive, receive, if_neg hone, if_neg hone, ← hmap b.uuid (hb hone)]
    cases bdMap b.uuid with
    | none => exact ⟨rfl, hupdate _⟩
    | some set =>
      dsimp only
      split
      · exact ⟨rfl, hupdate _⟩
      · exact ⟨rfl, hupdate _⟩

theorem receive_other {u : Nat} (hb : b.total ≠ 1 → b.uuid ≠ u) :
    (receive bdMap b).1 u = bdMap u := by
  by_cases hone : b.total = 1
  · rw [receive, if_pos hone]
  · have hu : u ≠ b.uuid := (hb hone).symm
    rw [receive, if_neg hone]
    cases bdMap b.uuid with
    | none => exact Function.update_of_ne hu ..
    | some set =>
      dsimp only
      split
      · exact Function.update_of_ne hu ..
      · exact Function.update_of_ne hu ..

/-- A connection whose ids no other connection uses is served as if it were alone. -/
theorem serveAll_only {ids : Nat → Prop} (hmap : ∀ u, ids u → bdMap u = bdMap' u)
    (harrivals : ∀ a ∈ arrivals, a.2.total ≠ 1 → (ids a.2.uuid ↔ a.1 = fd)) :
    only fd (serveAll bdMap arrivals).2 =
      (receiveAll bdMap' (only fd arrivals)).2.reduceOption := by
  induction arrivals generalizing bdMap bdMap' with
  | nil => rfl
  | cons a arrivals ih =>
    obtain ⟨ha, hrest⟩ := List.forall_mem_cons.1 harrivals
    obtain ⟨fd', b⟩ := a
    rw [serveAll, only_append, only_cons]
    dsimp only
    by_cases hfd : fd' = fd
    · obtain ⟨hout, hagree⟩ := receive_agree hmap fun hone => (ha hone).2 hfd
      rw [if_pos hfd, receiveAll, hout, ih hagree hrest]
      cases (receive bdMap' b).2 with
      | none => rw [List.reduceOption_cons_of_none]; rfl
      | some bd =>
        rw [List.reduceOption_cons_of_some, Option.map_some, Option.toList_some, only_cons,
          if_pos hfd]
        rfl
    · have hagree : ∀ u, ids u → (receive bdMap b).1 u = bdMap' u := by
        intro u hu
        rw [receive_other fun hone he => hfd ((ha hone).1 (he ▸ hu)), hmap u hu]
      rw [if_neg hfd, ih hagree hrest]
      cases (receive bdMap b).2 with
      | none => rfl
      | some bd => rw [Option.map_some, Option.toList_some, only_cons, if_neg hfd]; rfl

end Serve

/-- What the messages amount to when they arrive one after the other. -/
def carriedAll (msgs : List Msg) : List Str := (msgs.filter fun m => m.pieces ≠ []).map Msg.carried

section Messages

variable {m : Msg} {msgs : List Msg} {bdMap : BdMap}

theorem length_pieces (m : Msg) : m.pieces.length = blobCount m.text := by
  rw [Msg.pieces, List.length_map, Msg.blobs, length_split]

theorem two_le_length_pieces (m : Msg) : 2 ≤ m.pieces.length ↔ blobSize < m.text.length := by
  have hsize : blobSize = 512 := rfl
  rw [length_pieces, blobCount, hsize]
  split <;> omega

theorem pieces_eq_nil (m : Msg) : m.pieces = [] ↔ m.text = [] := by
  have hsize : blobSize = 512 := rfl
  rw [← List.length_eq_zero_iff, ← List.length_eq_zero_iff, length_pieces, blobCount, hsize]
  split <;> omega

theorem receiveAll_msg (hmap : 2 ≤ m.pieces.length → bdMap m.uuid = none) (hne : m.pieces ≠ []) :
    receiveAll bdMap m.pieces =
      (bdMap, List.replicate (m.pieces.length - 1) none ++ [some m.carried]) := by
  by_cases htwo : 2 ≤ m.pieces.length
  · exact receiveAll_pieces hne (hmap htwo)
  · have hpos := List.length_pos_of_ne_nil hne
    have hone : m.pieces.length = 1 := by omega
    obtain ⟨b, hb⟩ := List.length_eq_one_iff.1 hone
    have htotal : b.total = 1 := by
      rw [Msg.total_of_mem (hb ▸ List.mem_singleton_self b), hone]
    have hcarried : m.carried = b.value := by
      rw [Msg.carried, hb]
      exact List.flatMap_singleton ..
    rw [hcarried, hb, receiveAll, receive, if_pos htotal]
    rfl

theorem receiveAll_msgs (hmap : ∀ m ∈ msgs, 2 ≤ m.pieces.length → bdMap m.uuid = none) :
    (receiveAll bdMap (msgs.flatMap Msg.pieces)).1 = bdMap ∧
      (receiveAll bdMap (msgs.flatMap Msg.pieces)).2.reduceOption = carriedAll msgs := by
  induction msgs with
  | nil => exact ⟨rfl, rfl⟩
  | cons m msgs ih =>
    obtain ⟨hm, hmsgs⟩ := List.forall_mem_cons.1 hmap
    obtain ⟨hfst, hsnd⟩ := ih hmsgs
    rw [List.flatMap_cons, carriedAll]
    by_cases hne : m.pieces = []
    · rw [List.filter_cons_of_neg (by simp [hne]), hne, List.nil_append]
      exact ⟨hfst, hsnd⟩
    · rw [List.filter_cons_of_pos (by simp [hne]), receiveAll_append, receiveAll_msg hm hne]
      refine ⟨hfst, ?_⟩
      dsimp only
      rw [List.reduceOption_append, List.reduceOption_append, List.reduceOption_replicate_none,
        hsnd, List.map_cons]
      rfl

theorem carriedAll_eq (h : ∀ m ∈ msgs, m.text ≠ [] ∧ '\x00' ∉ m.text) :
    carriedAll msgs = msgs.map Msg.text := by
  have hall : (msgs.filter fun m => m.pieces ≠ []) = msgs := by
    rw [List.filter_eq_self]
    intro m hm
    simpa [pieces_eq_nil] using (h m hm).1
  rw [carriedAll, hall]
  exact List.map_congr_left fun m hm => carried_eq (h m hm).2

end Messages

section Separation

variable {sent : Nat → List Msg} {arrivals : List (Nat × Blob)}

theorem Interleaving.cut (h : Interleaving sent arrivals) (fd : Nat) :
    only fd (arrivals.map fun a => (a.1, a.2.cut)) = (sent fd).flatMap Msg.pieces := by
  rw [only_map, h fd, List.map_flatMap]
  rfl

theorem Interleaving.headerOk (h : Interleaving sent arrivals)
    (hsent : ∀ fd, ∀ m ∈ sent fd, m.Sendable) : ∀ a ∈ arrivals, a.2.HeaderOk := by
  rintro ⟨fd, b⟩ ha
  have hb : b ∈ (sent fd).flatMap Msg.blobs := by
    rw [← h fd]
    exact mem_only.2 ha
  obtain ⟨m, hm, hbm⟩ := List.mem_flatMap.1 hb
  exact (hsent fd m hm).headerOk hbm

theorem separate_of_distinct (hsent : ∀ fd, ∀ m ∈ sent fd, m.Sendable)
    (htext : ∀ fd, ∀ m ∈ sent fd, m.text ≠ [] ∧ '\x00' ∉ m.text)
    (hids : ∀ fd fd', fd ≠ fd' → ∀ m ∈ sent fd, ∀ m' ∈ sent fd', blobSize < m.text.length →
      blobSize < m'.text.length → m.uuid ≠ m'.uuid) : Separate sent := by
  intro arrivals harrivals
  refine ⟨_, _, serve_toString (harrivals.headerOk hsent), fun fd => ?_⟩
  let ids (u : Nat) : Prop := ∃ m ∈ sent fd, blobSize < m.text.length ∧ m.uuid = u
  have hown : ∀ a ∈ arrivals.map fun a => (a.1, a.2.cut), a.2.total ≠ 1 →
      (ids a.2.uuid ↔ a.1 = fd) := by
    rintro ⟨fd', b⟩ ha hone
    have hb : b ∈ (sent fd').flatMap Msg.pieces := by
      rw [← harrivals.cut fd']
      exact mem_only.2 ha
    obtain ⟨m', hm', hbm⟩ := List.mem_flatMap.1 hb
    have htotal := Msg.total_of_mem hbm
    have hpos := List.length_pos_of_mem hbm
    have hlong' : blobSize < m'.text.length := by
      rw [← two_le_length_pieces]
      dsimp only at hone
      omega
    have huuid := Msg.uuid_of_mem hbm
    constructor
    · rintro ⟨m, hm, hlong, he⟩
      by_contra hfd
      exact hids fd' fd hfd m' hm' m hm hlong' hlong (huuid.symm.trans he.symm)
    · rintro rfl
      exact ⟨m', hm', hlong', huuid.symm⟩
  rw [@serveAll_only _ (fun _ => none) _ _ ids (fun _ _ => rfl) hown, harrivals.cut fd,
    (receiveAll_msgs fun _ _ _ => rfl).2, carriedAll_eq (htext fd)]

end Separation

section Clash

variable {sent : Nat → List Msg} {arrivals : List (Nat × Blob)} {msgs : List Msg} {m : Msg}
  {bdMap : BdMap} {bs : List Blob}

theorem nul_not_mem_of_cstr {s : Str} (h : cstr s = s) : '\x00' ∉ s := by
  rw [← h]
  intro hmem
  simpa using List.mem_takeWhile_imp hmem

theorem length_flatMap_cut (bs : List Blob) :
    (bs.flatMap fun b => cstr b.value).length ≤ (bs.flatMap Blob.value).length := by
  induction bs with
  | nil => exact Nat.le_refl 0
  | cons b bs ih =>
    have hcut : (cstr b.value).length ≤ b.value.length := (List.takeWhile_prefix _).length_le
    rw [List.flatMap_cons, List.flatMap_cons, List.length_append, List.length_append]
    omega

theorem nul_not_mem_of_flatMap_cut
    (h : (bs.flatMap fun b => cstr b.value) = bs.flatMap Blob.value) :
    '\x00' ∉ bs.flatMap Blob.value := by
  induction bs with
  | nil => exact List.not_mem_nil
  | cons b bs ih =>
    rw [List.flatMap_cons, List.flatMap_cons] at h
    have hcut : (cstr b.value).length ≤ b.value.length := (List.takeWhile_prefix _).length_le
    have hrest := length_flatMap_cut bs
    have hlen := congrArg List.length h
    rw [List.length_append, List.length_append] at hlen
    obtain ⟨hvalue, hbs⟩ := List.append_inj h (by omega)
    rw [List.flatMap_cons, List.mem_append, not_or]
    exact ⟨nul_not_mem_of_cstr hvalue, ih hbs⟩

theorem nul_not_mem_of_carried (h : m.carried = m.text) : '\x00' ∉ m.text := by
  have hsplit : m.blobs.flatMap Blob.value = m.text := split_flatMap m.uuid m.text
  rw [Msg.carried, Msg.pieces, combineBlobs, List.flatMap_map] at h
  rw [← hsplit]
  exact nul_not_mem_of_flatMap_cut (h.trans hsplit.symm)

theorem of_carriedAll_eq (h : carriedAll msgs = msgs.map Msg.text) :
    ∀ m ∈ msgs, m.text ≠ [] ∧ '\x00' ∉ m.text := by
  have hlen := congrArg List.length h
  rw [carriedAll, List.length_map, List.length_map, List.length_filter_eq_length_iff] at hlen
  have hall := List.filter_eq_self.2 hlen
  rw [carriedAll, hall] at h
  intro m hm
  refine ⟨?_, nul_not_mem_of_carried (List.map_inj_left.1 h m hm)⟩
  rw [ne_eq, ← pieces_eq_nil]
  simpa using hlen m hm

theorem length_carriedAll_le (msgs : List Msg) : (carriedAll msgs).length ≤ msgs.length := by
  rw [carriedAll, List.length_map]
  exact List.length_filter_le ..

theorem Separate.events (h : Separate sent) (hsent : ∀ fd, ∀ m ∈ sent fd, m.Sendable)
    (harrivals : Interleaving sent arrivals) (fd : Nat) :
    only fd (serveAll (fun _ => none) (arrivals.map fun a => (a.1, a.2.cut))).2 =
      (sent fd).map Msg.text := by
  obtain ⟨bdMap, events, hrun, hevents⟩ := h arrivals harrivals
  rw [serve_toString (harrivals.headerOk hsent)] at hrun
  rw [Option.some.inj hrun]
  exact hevents fd

/-- All that is sent on the connections, one connection after the other. -/
def oneByOne (sent : Nat → List Msg) (fds : List Nat) : List (Nat × Blob) :=
  fds.flatMap fun fd => tag fd ((sent fd).flatMap Msg.blobs)

theorem serveAll_oneByOne (sent : Nat → List Msg) (fds : List Nat) :
    serveAll (fun _ => none) ((oneByOne sent fds).map fun a => (a.1, a.2.cut)) =
      (fun _ => none, fds.flatMap fun fd => tag fd (carriedAll (sent fd))) := by
  induction fds with
  | nil => rfl
  | cons fd fds ih =>
    have hpieces : ((sent fd).flatMap Msg.blobs).map Blob.cut = (sent fd).flatMap Msg.pieces := by
      rw [List.map_flatMap]
      rfl
    obtain ⟨hfst, hsnd⟩ := @receiveAll_msgs (sent fd) (fun _ => none) fun _ _ _ => rfl
    rw [oneByOne, List.flatMap_cons, List.map_append, ← oneByOne, map_tag, hpieces,
      serveAll_append, serveAll_tag, hfst, hsnd, ih, List.flatMap_cons]

theorem Separate.texts (h : Separate sent) (hsent : ∀ fd, ∀ m ∈ sent fd, m.Sendable)
    {fds : List Nat} (hnodup : fds.Nodup) (hfds : ∀ fd, fd ∉ fds → sent fd = []) (fd : Nat) :
    ∀ m ∈ sent fd, m.text ≠ [] ∧ '\x00' ∉ m.text := by
  have harrivals : Interleaving sent (oneByOne sent fds) := by
    intro fd
    rw [oneByOne, only_flatMap_tag hnodup]
    split
    · rfl
    · next hfd => rw [hfds fd hfd, List.flatMap_nil]
  have hevents := h.events hsent harrivals fd
  rw [serveAll_oneByOne, only_flatMap_tag hnodup] at hevents
  apply of_carriedAll_eq
  rw [← hevents]
  split
  · rfl
  · next hfd => rw [hfds fd hfd]; rfl

theorem split_head {uuid : Nat} {msg : Str} {b : Blob} (h : split uuid msg = b :: bs) :
    b.seqNum = 1 := by
  rw [split] at h
  cases hfold : msg.length / blobSize with
  | zero =>
    rw [hfold] at h
    dsimp only [List.range_zero, List.map_nil, List.nil_append] at h
    split at h
    · rw [← (List.cons.inj h).1]
      rfl
    · cases h
  | succ fold =>
    rw [hfold, List.range_succ_eq_map] at h
    rw [← (List.cons.inj h).1]
    rfl

theorem receiveAll_short {u total : Nat} (hbs : ∀ b ∈ bs, b.uuid = u ∧ b.total = total)
    (hone : total ≠ 1) (hlen : ((bdMap u).getD []).length + bs.length < total) :
    (receiveAll bdMap bs).2.reduceOption = [] ∧
      ∀ u' ≠ u, (receiveAll bdMap bs).1 u' = bdMap u' := by
  induction bs generalizing bdMap with
  | nil => exact ⟨rfl, fun _ _ => rfl⟩
  | cons b bs ih =>
    obtain ⟨⟨huuid, htotal⟩, hrest⟩ := List.forall_mem_cons.1 hbs
    rw [List.length_cons] at hlen
    have hstep : ∃ set : List Blob, set.length ≤ ((bdMap u).getD []).length + 1 ∧
        receive bdMap b = (Function.update bdMap u (some set), none) := by
      rw [receive, htotal, huuid, if_neg hone]
      cases hset : bdMap u with
      | none => exact ⟨[b], Nat.le_refl 1, rfl⟩
      | some set =>
        rw [hset] at hlen
        have hinsert := length_insertKey_le Blob.seqNum b set
        refine ⟨insertKey Blob.seqNum b set, hinsert, ?_⟩
        dsimp only [Option.getD_some] at hlen ⊢
        rw [if_neg (by omega)]
    obtain ⟨set, hset, hreceive⟩ := hstep
    have hlen' : ((Function.update bdMap u (some set) u).getD []).length + bs.length < total := by
      rw [Function.update_self, Option.getD_some]
      omega
    obtain ⟨hout, hothers⟩ := ih hrest hlen'
    rw [receiveAll, hreceive]
    refine ⟨?_, fun u' hu' => ?_⟩
    · rw [List.reduceOption_cons_of_none]
      exact hout
    · exact (hothers u' hu').trans (Function.update_of_ne hu' ..)

theorem exists_last {α : Type} {p : α → Prop} {l : List α} (h : ∃ x ∈ l, p x) :
    ∃ pre x post, l = pre ++ x :: post ∧ p x ∧ ∀ y ∈ post, ¬p y := by
  induction l with
  | nil =>
    obtain ⟨x, hx, _⟩ := h
    cases hx
  | cons x l ih =>
    by_cases hl : ∃ y ∈ l, p y
    · obtain ⟨pre, y, post, rfl, hy, hpost⟩ := ih hl
      exact ⟨x :: pre, y, post, rfl, hy, hpost⟩
    · obtain ⟨y, hy, hp⟩ := h
      rcases List.mem_cons.1 hy with rfl | hy
      · exact ⟨[], y, l, rfl, hp, fun z hz hz' => hl ⟨z, hz, hz'⟩⟩
      · exact absurd ⟨y, hy, hp⟩ hl

theorem receive_first {b : Blob} (hpieces : m.pieces = b :: bs) (hbs : bs ≠ [])
    (hmap : bdMap m.uuid = none) :
    receive bdMap b = (Function.update bdMap m.uuid (some [b]), none) ∧ m.slot [b] = some [b] := by
  have hb : b ∈ m.pieces := hpieces ▸ List.mem_cons_self
  have hone : b.total ≠ 1 := by
    rw [Msg.total_of_mem hb, hpieces, List.length_cons]
    have := List.length_pos_of_ne_nil hbs
    omega
  have hfirst : receive bdMap b = (Function.update bdMap m.uuid (some [b]), none) := by
    rw [receive, if_neg hone, Msg.uuid_of_mem hb, hmap]
  have hslot : m.slot [] = none := Msg.slot_of_none fun _ _ => List.not_mem_nil
  have hnext := @receive_next m b bdMap [] bs hpieces (hmap.trans hslot.symm)
  rw [hfirst] at hnext
  have hupdate := congrFun (Prod.mk.inj hnext).1 m.uuid
  rw [Function.update_self, Function.update_self] at hupdate
  exact ⟨hfirst, hupdate.symm⟩

theorem receive_dropped {b c : Blob} {u : Nat} (hmap : bdMap u = some [b]) (huuid : c.uuid = u)
    (hseq : c.seqNum = b.seqNum) (hone : c.total ≠ 1) : receive bdMap c = (bdMap, none) := by
  rw [receive, if_neg hone, huuid, hmap]
  dsimp only
  rw [insertKey_cons_of_eq hseq, if_neg fun h => hone h.symm, ← hmap, Function.update_eq_self]

/-- The first blobs of two messages arrive before the rest of either. -/
def crossed (fd fd' : Nat) (pre post pre' post' : List Msg) (a b : Blob) (as bs : List Blob) :
    List (Nat × Blob) :=
  tag fd (pre.flatMap Msg.blobs) ++ (tag fd' (pre'.flatMap Msg.blobs) ++ (tag fd [a] ++
    (tag fd' [b] ++ (tag fd (as ++ post.flatMap Msg.blobs) ++
      tag fd' (bs ++ post'.flatMap Msg.blobs)))))

theorem map_cut_blobs (msgs : List Msg) :
    (msgs.flatMap Msg.blobs).map Blob.cut = msgs.flatMap Msg.pieces := by
  rw [List.map_flatMap]
  rfl

theorem length_crossed {fd fd' : Nat} (hfd : fd ≠ fd') {m m' : Msg} {a b : Blob}
    {as bs : List Blob} (hm : m.blobs = a :: as) (has : as ≠ []) (hm' : m'.blobs = b :: bs)
    (hbs : bs ≠ []) (hid : m'.uuid = m.uuid) (pre post pre' post' : List Msg)
    (hpost' : ∀ c ∈ post', 2 ≤ c.pieces.length → c.uuid ≠ m.uuid) :
    (only fd' (serveAll (fun _ => none) ((crossed fd fd' pre post pre' post' a b as bs).map
      fun p => (p.1, p.2.cut))).2).length ≤ pre'.length + post'.length := by
  have hpieces : m.pieces = a.cut :: as.map Blob.cut := by rw [Msg.pieces, hm, List.map_cons]
  have hpieces' : m'.pieces = b.cut :: bs.map Blob.cut := by rw [Msg.pieces, hm', List.map_cons]
  have hascut : as.map Blob.cut ≠ [] := by simpa using has
  have hfree : ∀ msgs : List Msg,
      (receiveAll (fun _ => none) (msgs.flatMap Msg.pieces)).1 = (fun _ => none) ∧
        (receiveAll (fun _ => none) (msgs.flatMap Msg.pieces)).2.reduceOption = carriedAll msgs :=
    fun _ => receiveAll_msgs fun _ _ _ => rfl
  obtain ⟨hpre, _⟩ := hfree pre
  obtain ⟨hpre', hout⟩ := hfree pre'
  obtain ⟨hpost, _⟩ := hfree post
  obtain ⟨hfirst, hslot⟩ := @receive_first m (fun _ => none) _ _ hpieces hascut rfl
  have hseq : b.cut.seqNum = a.cut.seqNum := (split_head hm').trans (split_head hm).symm
  have htotal : ∀ c ∈ m'.pieces, c.uuid = m.uuid ∧ c.total = m'.pieces.length := fun c hc =>
    ⟨(Msg.uuid_of_mem hc).trans hid, Msg.total_of_mem hc⟩
  obtain ⟨hhead, htail⟩ := List.forall_mem_cons.1 (hpieces' ▸ htotal)
  have hpos := List.length_pos_of_ne_nil hbs
  have hone : (b.cut :: bs.map Blob.cut).length ≠ 1 := by
    rw [List.length_cons, List.length_map]
    omega
  -- the first blob of the other message is taken for a duplicate
  have hdropped := @receive_dropped (Function.update (fun _ => none) m.uuid (some [a.cut]))
    a.cut b.cut m.uuid (Function.update_self ..) hhead.1 hseq (hhead.2 ▸ hone)
  have hrest := @receiveAll_rest m (Function.update (fun _ => none) m.uuid (some [a.cut])) [a.cut]
    (as.map Blob.cut) hpieces hascut (by rw [hslot, Function.update_self])
  rw [Function.update_idem, Function.update_eq_self] at hrest
  obtain ⟨hlost, hothers⟩ := @receiveAll_short (fun _ => none) (bs.map Blob.cut) m.uuid _ htail
    hone (by simp)
  have hlast := @receiveAll_msgs post' (receiveAll (fun _ => none) (bs.map Blob.cut)).1
    fun c hc htwo => hothers c.uuid (hpost' c hc htwo)
  have hle := length_carriedAll_le pre'
  have hle' := length_carriedAll_le post'
  simp only [crossed, List.map_append, map_tag, map_cut_blobs, serveAll_append, serveAll_tag,
    List.map_cons, List.map_nil, receiveAll_append, hpre, hpre', hout, receiveAll, hfirst, hdropped,
    hrest, hpost, only_append, only_tag, only_tag_of_ne hfd, List.reduceOption_append, hlost,
    hlast.2, List.reduceOption_cons_of_none, List.reduceOption_nil, List.nil_append,
    List.length_append]
  exact Nat.add_le_add hle hle'

theorem exists_blobs_of_long (hlong : blobSize < m.text.length) :
    ∃ b bs, m.blobs = b :: bs ∧ bs ≠ [] := by
  have htwo := (two_le_length_pieces m).2 hlong
  rw [Msg.pieces, List.length_map] at htwo
  rcases hblobs : m.blobs with _ | ⟨b, _ | ⟨b', bs⟩⟩
  · rw [hblobs] at htwo
    cases htwo
  · rw [hblobs] at htwo
    cases Nat.le_of_succ_le_succ htwo
  · exact ⟨b, b' :: bs, rfl, List.cons_ne_nil b' bs⟩

/-- The messages of two connections cross after all those of the others have arrived. -/
theorem interleaving_crossed {others : List Nat} (hothers : others.Nodup) {fd fd' : Nat}
    (hfd : fd ≠ fd') (hmem : ∀ g, g ∉ others → g ≠ fd → g ≠ fd' → sent g = [])
    (hfree : fd ∉ others) (hfree' : fd' ∉ others) {m m' : Msg} {a b : Blob} {as bs : List Blob}
    {pre post pre' post' : List Msg} (hsplit : sent fd = pre ++ m :: post) (hm : m.blobs = a :: as)
    (hsplit' : sent fd' = pre' ++ m' :: post') (hm' : m'.blobs = b :: bs) :
    Interleaving sent
      (oneByOne sent others ++ crossed fd fd' pre post pre' post' a b as bs) := by
  intro g
  rw [only_append, oneByOne, only_flatMap_tag hothers]
  simp only [crossed, only_append]
  by_cases hg : g = fd
  · subst hg
    rw [if_neg hfree]
    simp only [only_tag, only_tag_of_ne hfd.symm, hsplit, List.flatMap_append,
      List.flatMap_cons, hm]
    simp
  · by_cases hg' : g = fd'
    · subst hg'
      rw [if_neg hfree']
      simp only [only_tag, only_tag_of_ne hfd, hsplit', List.flatMap_append, List.flatMap_cons,
        hm']
      simp
    · simp only [only_tag_of_ne (Ne.symm hg), only_tag_of_ne (Ne.symm hg'), List.append_nil]
      split
      · rfl
      · next hnot => rw [hmem g hnot hg hg', List.flatMap_nil]

theorem not_separate_of_clash (hsent : ∀ fd, ∀ m ∈ sent fd, m.Sendable) {fds : List Nat}
    (hnodup : fds.Nodup) (hfds : ∀ fd, fd ∉ fds → sent fd = []) {fd fd' : Nat} (hfd : fd ≠ fd')
    {m m' : Msg} (hm : m ∈ sent fd) (hm' : m' ∈ sent fd') (hlong : blobSize < m.text.length)
    (hlong' : blobSize < m'.text.length) (hid : m'.uuid = m.uuid) : ¬Separate sent := by
  intro h
  obtain ⟨pre, post, hsplit⟩ := List.append_of_mem hm
  obtain ⟨pre', c, post', hsplit', ⟨hlongc, hidc⟩, hpost'⟩ :=
    @exists_last _ (fun c : Msg => blobSize < c.text.length ∧ c.uuid = m.uuid) _
      ⟨m', hm', hlong', hid⟩
  obtain ⟨a, as, ha, has⟩ := exists_blobs_of_long hlong
  obtain ⟨b, bs, hb, hbs⟩ := exists_blobs_of_long hlongc
  let others := fds.filter fun g => g ≠ fd ∧ g ≠ fd'
  have hothers : others.Nodup := hnodup.filter _
  have hmem : ∀ g, g ∈ others ↔ g ∈ fds ∧ g ≠ fd ∧ g ≠ fd' := by simp [others]
  have hfree : fd ∉ others := fun hmem' => ((hmem fd).1 hmem').2.1 rfl
  have hfree' : fd' ∉ others := fun hmem' => ((hmem fd').1 hmem').2.2 rfl
  have hnone : ∀ g, g ∉ others → g ≠ fd → g ≠ fd' → sent g = [] := fun g hnot hg hg' =>
    hfds g fun hgm => hnot ((hmem g).2 ⟨hgm, hg, hg'⟩)
  have harrivals :=
    interleaving_crossed hothers hfd hnone hfree hfree' hsplit ha hsplit' hb
  have hevents := congrArg List.length (h.events hsent harrivals fd')
  have hcount := @length_crossed fd fd' hfd m c a b as bs ha has hb hbs hidc pre post pre' post'
    fun d hd htwo he => hpost' d hd ⟨(two_le_length_pieces d).1 htwo, he⟩
  rw [List.map_append, serveAll_append, serveAll_oneByOne, only_append,
    only_flatMap_tag hothers, if_neg hfree', List.nil_append, List.length_map, hsplit',
    List.length_append, List.length_cons] at hevents
  dsimp only at hevents
  omega

end Clash

/-- Connections are kept apart exactly when their messages are texts that survive on their own and
the messages of several blobs have no id in common with those of another connection. -/
theorem separate_iff (fds : Finset Nat) (sent : Nat → List Msg)
    (hfds : ∀ fd, fd ∉ fds → sent fd = [])
    (hsent : ∀ fd, ∀ m ∈ sent fd, m.uuid < 2 ^ 64 ∧ ∀ b ∈ m.blobs, b.toString.length ≤ zhtBufSize) :
    Separate sent ↔
      (∀ fd, ∀ m ∈ sent fd, m.text ≠ [] ∧ '\x00' ∉ m.text) ∧
        ∀ fd fd', fd ≠ fd' → ∀ m ∈ sent fd, ∀ m' ∈ sent fd', blobSize < m.text.length →
          blobSize < m'.text.length → m.uuid ≠ m'.uuid := by
  have hsendable : ∀ fd, ∀ m ∈ sent fd, m.Sendable := fun fd m hm =>
    ⟨(hsent fd m hm).1, length_le_of_fits (hsent fd m hm).2⟩
  have hlist : ∀ fd, fd ∉ fds.toList → sent fd = [] := fun fd h =>
    hfds fd fun hmem => h (Finset.mem_toList.2 hmem)
  constructor
  · intro h
    refine ⟨h.texts hsendable fds.nodup_toList hlist, ?_⟩
    intro fd fd' hne m hm m' hm' hlong hlong' hid
    exact not_separate_of_clash hsendable fds.nodup_toList hlist hne hm hm' hlong hlong' hid.symm h
  · rintro ⟨htext, hids⟩
    exact separate_of_distinct hsendable htext hids

/-- Two clients, on connections `4` and `5`. -/
def twoClients (msgs msgs' : List Msg) : Nat → List Msg
  | 4 => msgs
  | 5 => msgs'
  | _ => []

theorem twoClients_cases {msgs msgs' : List Msg} {fd : Nat} {m : Msg}
    (h : m ∈ twoClients msgs msgs' fd) : fd = 4 ∧ m ∈ msgs ∨ fd = 5 ∧ m ∈ msgs' := by
  rw [twoClients.eq_def] at h
  split at h
  · exact .inl ⟨rfl, h⟩
  · exact .inr ⟨rfl, h⟩
  · cases h

theorem separate_distinct_ids :
    Separate (twoClients [⟨7, List.replicate 513 'a'⟩, ⟨9, "c".toList⟩]
      [⟨8, List.replicate 513 'b'⟩, ⟨9, "d".toList⟩]) := by
  apply (separate_iff {4, 5} _ _ _).2
  · constructor
    · intro fd m hm
      rcases twoClients_cases hm with ⟨rfl, hm⟩ | ⟨rfl, hm⟩
      · revert m
        decide +kernel
      · revert m
        decide +kernel
    · have hids : ∀ m ∈ ([⟨7, List.replicate 513 'a'⟩, ⟨9, "c".toList⟩] : List Msg),
          ∀ m' ∈ ([⟨8, List.replicate 513 'b'⟩, ⟨9, "d".toList⟩] : List Msg),
            blobSize < m.text.length → blobSize < m'.text.length → m.uuid ≠ m'.uuid := by
        decide +kernel
      intro fd fd' hne m hm m' hm' hlong hlong'
      rcases twoClients_cases hm with ⟨rfl, hm⟩ | ⟨rfl, hm⟩ <;>
        rcases twoClients_cases hm' with ⟨rfl, hm'⟩ | ⟨rfl, hm'⟩
      · exact absurd rfl hne
      · exact hids m hm m' hm' hlong hlong'
      · exact (hids m' hm' m hm hlong' hlong).symm
      · exact absurd rfl hne
  · intro fd hfd
    rw [twoClients.eq_def]
    split
    · exact absurd (by decide) hfd
    · exact absurd (by decide) hfd
    · rfl
  · intro fd m hm
    rcases twoClients_cases hm with ⟨rfl, hm⟩ | ⟨rfl, hm⟩
    · revert m
      decide +kernel
    · revert m
      decide +kernel

/-- Under one id, a message of one connection is completed by the blobs of another. -/
theorem not_separate_same_id :
    let m : Msg := ⟨genId (List.replicate 62 0), List.replicate 513 'a'⟩
    let m' : Msg := ⟨genId (List.replicate 62 0), List.replicate 513 'b'⟩
    let arrivals := tag 4 (m.blobs.take 1) ++ tag 5 m'.blobs ++ tag 4 (m.blobs.drop 1)
    Interleaving (twoClients [m] [m']) arrivals ∧
      (serve (fun _ => none) (arrivals.map fun a => (a.1, a.2.toString))).map Prod.snd =
        some [(5, List.replicate 512 'a' ++ ['b'])] ∧
      ¬Separate (twoClients [m] [m']) := by
  intro m m' arrivals
  have harrivals : Interleaving (twoClients [m] [m']) arrivals := by
    intro fd
    by_cases h : fd = 4
    · subst h
      decide +kernel
    · by_cases h' : fd = 5
      · subst h'
        decide +kernel
      · have hnone : twoClients [m] [m'] fd = [] := by
          rw [twoClients]
          · exact h
          · exact h'
        simp only [arrivals, only_append, only_tag_of_ne (Ne.symm h), only_tag_of_ne (Ne.symm h'),
          hnone]
        rfl
  have hevents : (serve (fun _ => none) (arrivals.map fun a => (a.1, a.2.toString))).map Prod.snd =
      some [(5, List.replicate 512 'a' ++ ['b'])] := by
    decide +kernel
  refine ⟨harrivals, hevents, fun h => ?_⟩
  obtain ⟨bdMap, events, hrun, honly⟩ := h arrivals harrivals
  rw [hrun] at hevents
  have hmixed : events = [(5, List.replicate 512 'a' ++ ['b'])] := Option.some.inj hevents
  have hmine := honly 4
  rw [hmixed] at hmine
  revert hmine
  decide +kernel

end MatrixZht
