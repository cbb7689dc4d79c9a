import MatrixZht.Zht.Blob

namespace MatrixZht
open Lib

/-- `_BdMap`: for each id, the blobs received so far in the order of their sequence numbers. -/
abbrev BdMap := Nat → Option (List Blob)

def combineBlobs (set : List Blob) : Str := set.flatMap Blob.value

/-- `getBdStr` once the blob is parsed, with the result when it is ready. -/
def receive (bdMap : BdMap) (blob : Blob) : BdMap × Option Str :=
  if blob.total = 1 then (bdMap, some blob.value)
  else
    match bdMap blob.uuid with
    | none => (Function.update bdMap blob.uuid (some [blob]), none)
    | some set =>
      let set := insertKey Blob.seqNum blob set
      if set.length = blob.total then
        (Function.update bdMap blob.uuid none, some (combineBlobs set))
      else (Function.update bdMap blob.uuid (some set), none)

/-- `BdRecvBase::getBdStr` on the bytes of one read, which it takes as a C string; `none` is the
exception for a read shorter than a header. -/
def getBdStr (bdMap : BdMap) (buf : Str) : Option (BdMap × Option Str) :=
  (Blob.assign (cstr buf)).map (receive bdMap)

/-- One `getBdStr` for each read. -/
def recvReads (bdMap : BdMap) : List Str → Option (BdMap × List (Option Str))
  | [] => some (bdMap, [])
  | buf :: bufs => do
    let (bdMap, out) ← getBdStr bdMap buf
    let (bdMap, outs) ← recvReads bdMap bufs
    some (bdMap, out :: outs)

def receiveAll (bdMap : BdMap) : List Blob → BdMap × List (Option Str)
  | [] => (bdMap, [])
  | blob :: blobs =>
    let r := receive bdMap blob
    let rs := receiveAll r.1 blobs
    (rs.1, r.2 :: rs.2)

theorem receiveAll_append (bdMap : BdMap) (bs bs' : List Blob) :
    receiveAll bdMap (bs ++ bs') =
      ((receiveAll (receiveAll bdMap bs).1 bs').1,
        (receiveAll bdMap bs).2 ++ (receiveAll (receiveAll bdMap bs).1 bs').2) := by
  induction bs generalizing bdMap with
  | nil => rfl
  | cons b bs ih => simp only [List.cons_append, receiveAll, ih]

theorem recvReads_toString {bdMap : BdMap} {bs : List Blob} (h : ∀ b ∈ bs, b.HeaderOk) :
    recvReads bdMap (bs.map Blob.toString) = some (receiveAll bdMap (bs.map Blob.cut)) := by
  induction bs generalizing bdMap with
  | nil => rfl
  | cons b bs ih =>
    obtain ⟨hb, hbs⟩ := List.forall_mem_cons.1 h
    have hget : getBdStr bdMap b.toString = some (receive bdMap b.cut) := by
      rw [getBdStr, Blob.assign_toString hb]
      rfl
    rw [List.map_cons, recvReads, hget]
    simp only [Option.bind_eq_bind, Option.bind_some, ih hbs]
    rfl

/-- A message and the id it was sent under. -/
structure Msg where
  uuid : Nat
  text : Str
deriving DecidableEq

namespace Msg

def blobs (m : Msg) : List Blob := split m.uuid m.text

/-- The blobs of a message as they arrive. -/
def pieces (m : Msg) : List Blob := m.blobs.map Blob.cut

/-- What a header of fixed width can describe. -/
structure Sendable (m : Msg) : Prop where
  uuid : m.uuid < 2 ^ 64
  length : m.text.length ≤ 512 * 9999999

/-- What the values of a message's blobs amount to when they arrive. -/
def carried (m : Msg) : Str := combineBlobs m.pieces

end Msg

instance (m : Msg) : Decidable m.Sendable :=
  decidable_of_iff (m.uuid < 2 ^ 64 ∧ m.text.length ≤ 512 * 9999999)
    ⟨fun h => ⟨h.1, h.2⟩, fun h => ⟨h.uuid, h.length⟩⟩

section Pieces

variable {m : Msg} {b : Blob}

theorem Msg.Sendable.headerOk (h : m.Sendable) (hb : b ∈ m.blobs) : b.HeaderOk := by
  have hof := of_mem_split hb
  have hcount : blobCount m.text < 10 ^ 7 := by
    have hlen := h.length
    have hsize : blobSize = 512 := rfl
    rw [blobCount, hsize]
    split <;> omega
  have hsize : b.value.length ≤ 512 := hof.value
  refine ⟨hof.uuid ▸ h.uuid, Nat.lt_of_le_of_lt hof.seqNum hcount, hof.total ▸ hcount, ?_⟩
  rw [hof.size]
  omega

theorem Msg.uuid_of_mem (h : b ∈ m.pieces) : b.uuid = m.uuid := by
  obtain ⟨b, hb, rfl⟩ := List.mem_map.1 h
  exact (of_mem_split hb).uuid

theorem Msg.total_of_mem (h : b ∈ m.pieces) : b.total = m.pieces.length := by
  obtain ⟨b, hb, rfl⟩ := List.mem_map.1 h
  rw [Msg.pieces, List.length_map, Msg.blobs, length_split]
  exact (of_mem_split hb).total

theorem Msg.sorted (m : Msg) : KeySorted Blob.seqNum m.pieces :=
  List.pairwise_map.2 (split_sorted m.uuid m.text)

end Pieces

/-- What the map holds for a message of which the blobs in `pre` have arrived. -/
def Msg.slot (m : Msg) (pre : List Blob) : Option (List Blob) :=
  if (∀ b ∈ m.pieces, b ∉ pre) ∨ ∀ b ∈ m.pieces, b ∈ pre then none
  else some (m.pieces.filter fun b => b ∈ pre)

section Slot

variable {m : Msg} {b : Blob} {pre : List Blob} {bdMap : BdMap}

theorem Msg.slot_of_none (h : ∀ b ∈ m.pieces, b ∉ pre) : m.slot pre = none := if_pos (.inl h)

theorem Msg.slot_of_all (h : ∀ b ∈ m.pieces, b ∈ pre) : m.slot pre = none := if_pos (.inr h)

theorem Msg.slot_append (hb : b ∈ m.pieces) :
    m.slot (pre ++ [b]) =
      if ∀ b' ∈ m.pieces, b' ∈ pre ++ [b] then none
      else some (insertKey Blob.seqNum b (m.pieces.filter fun b => b ∈ pre)) := by
  have hinsert := @insertKey_filter _ _ _ b _ (fun b => b ∈ pre) _ m.sorted hb
  have hsome : ¬∀ b' ∈ m.pieces, b' ∉ pre ++ [b] := fun h => h b hb (by simp)
  rw [hinsert, Msg.slot]
  simp only [hsome, false_or]
  simp only [List.mem_append, List.mem_singleton]

theorem length_insertKey_eq (hb : b ∈ m.pieces) :
    (insertKey Blob.seqNum b (m.pieces.filter fun b => b ∈ pre)).length = m.pieces.length ↔
      ∀ b' ∈ m.pieces, b' ∈ pre ++ [b] := by
  rw [@insertKey_filter _ _ _ b _ (fun b => b ∈ pre) _ m.sorted hb,
    List.length_filter_eq_length_iff]
  simp

theorem receive_piece (hb : b ∈ m.pieces) (hmissing : ∃ b ∈ m.pieces, b ∉ pre)
    (hslot : bdMap m.uuid = m.slot pre) :
    receive bdMap b = (Function.update bdMap m.uuid (m.slot (pre ++ [b])),
      if ∀ b' ∈ m.pieces, b' ∈ pre ++ [b] then some m.carried else none) := by
  have hnotall : ¬∀ b ∈ m.pieces, b ∈ pre := by
    intro h
    obtain ⟨c, hc, hn⟩ := hmissing
    exact hn (h c hc)
  rw [receive, Msg.uuid_of_mem hb, Msg.total_of_mem hb, hslot, Msg.slot_append hb]
  by_cases hone : m.pieces.length = 1
  · -- a message of one blob never enters the map
    obtain ⟨c, hc⟩ := List.length_eq_one_iff.1 hone
    obtain rfl : b = c := List.mem_singleton.1 (hc ▸ hb)
    have hall : ∀ b' ∈ m.pieces, b' ∈ pre ++ [b] := by
      intro b' hb'
      rw [hc] at hb'
      exact List.mem_append_right _ hb'
    have hnone : m.slot pre = none := by
      apply Msg.slot_of_none
      rw [hc] at hnotall ⊢
      simpa using hnotall
    have hsame : Function.update bdMap m.uuid none = bdMap := by
      rw [← hnone, ← hslot]
      exact Function.update_eq_self ..
    have hcarried : m.carried = b.value := by
      rw [Msg.carried, hc]
      exact List.flatMap_singleton ..
    rw [if_pos hone, if_pos hall, if_pos hall, hsame, hcarried]
  · rw [if_neg hone]
    by_cases hnone : ∀ b ∈ m.pieces, b ∉ pre
    · have hempty : (m.pieces.filter fun b => b ∈ pre) = [] := by
        simpa using hnone
      have hone' : ¬∀ b' ∈ m.pieces, b' ∈ pre ++ [b] := by
        rw [← length_insertKey_eq hb, hempty]
        exact fun h => hone h.symm
      rw [Msg.slot_of_none hnone, if_neg hone', if_neg hone', hempty]
      rfl
    · have hsome : m.slot pre = some (m.pieces.filter fun b => b ∈ pre) :=
        if_neg (not_or.2 ⟨hnone, hnotall⟩)
      rw [hsome]
      dsimp only
      by_cases hall : ∀ b' ∈ m.pieces, b' ∈ pre ++ [b]
      · have hfull : insertKey Blob.seqNum b (m.pieces.filter fun b => b ∈ pre) = m.pieces := by
          rw [@insertKey_filter _ _ _ b _ (fun b => b ∈ pre) _ m.sorted hb, List.filter_eq_self]
          intro c hc
          simpa using hall c hc
        rw [if_pos ((length_insertKey_eq hb).2 hall), if_pos hall, if_pos hall, hfull]
        rfl
      · rw [if_neg fun h => hall ((length_insertKey_eq hb).1 h), if_neg hall, if_neg hall]

theorem Msg.nodup_pieces (m : Msg) : m.pieces.Nodup := by
  apply m.sorted.imp
  intro b c hlt he
  rw [he] at hlt
  exact Nat.lt_irrefl _ hlt

theorem receive_next {done rest : List Blob} (h : m.pieces = done ++ b :: rest)
    (hslot : bdMap m.uuid = m.slot done) :
    receive bdMap b = (Function.update bdMap m.uuid (m.slot (done ++ [b])),
      if rest = [] then some m.carried else none) := by
  have hnodup := m.nodup_pieces
  rw [h, List.nodup_append] at hnodup
  obtain ⟨_, hnodup, hdisjoint⟩ := hnodup
  have hb : b ∈ m.pieces := by simp [h]
  have hnew : b ∉ done := fun hd => hdisjoint b hd b List.mem_cons_self rfl
  have hall : (∀ b' ∈ m.pieces, b' ∈ done ++ [b]) ↔ rest = [] := by
    rw [h]
    constructor
    · intro hall
      rw [List.eq_nil_iff_forall_not_mem]
      intro c hc
      rcases List.mem_append.1 (hall c (by simp [hc])) with hd | hcb
      · exact hdisjoint c hd c (List.mem_cons_of_mem _ hc) rfl
      · rw [List.mem_singleton.1 hcb] at hc
        exact (List.nodup_cons.1 hnodup).1 hc
    · rintro rfl b' hb'
      exact hb'
  rw [receive_piece hb ⟨b, hb, hnew⟩ hslot]
  simp only [hall]

theorem receiveAll_rest {done rest : List Blob} (h : m.pieces = done ++ rest) (hrest : rest ≠ [])
    (hslot : bdMap m.uuid = m.slot done) :
    receiveAll bdMap rest = (Function.update bdMap m.uuid none,
      List.replicate (rest.length - 1) none ++ [some m.carried]) := by
  induction rest generalizing done bdMap with
  | nil => exact absurd rfl hrest
  | cons b rest ih =>
    have hnext := receive_next h hslot
    cases rest with
    | nil =>
      have hlast : m.slot (done ++ [b]) = none := by
        apply Msg.slot_of_all
        rw [h]
        exact fun _ hb => hb
      simp only [receiveAll, hnext, hlast, if_true]
      rfl
    | cons c rest =>
      have hslot' : Function.update bdMap m.uuid (m.slot (done ++ [b])) m.uuid =
          m.slot (done ++ [b]) := Function.update_self ..
      have hdone : m.pieces = done ++ [b] ++ c :: rest := by simpa using h
      have hrec := ih hdone (List.cons_ne_nil c rest) hslot'
      rw [if_neg (List.cons_ne_nil c rest)] at hnext
      rw [receiveAll, hnext, hrec]
      simp [List.replicate_succ]

theorem receiveAll_pieces (hne : m.pieces ≠ []) (hslot : bdMap m.uuid = none) :
    receiveAll bdMap m.pieces =
      (bdMap, List.replicate (m.pieces.length - 1) none ++ [some m.carried]) := by
  have hempty : m.slot [] = none := Msg.slot_of_none fun _ _ => List.not_mem_nil
  have h := @receiveAll_rest m bdMap [] m.pieces rfl hne (hslot.trans hempty.symm)
  rwa [← hslot, Function.update_eq_self] at h

end Slot

/-- What the map holds when blobs of these messages have arrived. -/
def pending (msgs : List Msg) (pre : List Blob) : BdMap := fun uuid =>
  (msgs.find? fun m => m.uuid = uuid).bind fun m => m.slot pre

/-- What `getBdStr` reports for a blob that arrives after those in `pre`. -/
def reported (msgs : List Msg) (pre : List Blob) (b : Blob) : Option Str :=
  (msgs.find? fun m => m.uuid = b.uuid).bind fun m =>
    if ∀ b' ∈ m.blobs, b' ∈ pre ++ [b] then some m.text else none

def reports (msgs : List Msg) (pre : List Blob) : List Blob → List (Option Str)
  | [] => []
  | b :: ds => reported msgs pre b :: reports msgs (pre ++ [b]) ds

/-- Blobs of the messages in any order, each at least once, and none for a message that is
complete. -/
structure Deliveries (msgs : List Msg) (ds : List Blob) : Prop where
  sent : ∀ b ∈ ds, ∃ m ∈ msgs, b ∈ m.blobs
  all : ∀ m ∈ msgs, ∀ b ∈ m.blobs, b ∈ ds
  early : ∀ (i : Nat) b, ds[i]? = some b → ∀ m ∈ msgs, b ∈ m.blobs → ∃ b' ∈ m.blobs, b' ∉ ds.take i

instance (msgs : List Msg) (ds : List Blob) : Decidable (Deliveries msgs ds) :=
  decidable_of_iff
    ((∀ b ∈ ds, ∃ m ∈ msgs, b ∈ m.blobs) ∧ (∀ m ∈ msgs, ∀ b ∈ m.blobs, b ∈ ds) ∧
      ∀ i ∈ List.range ds.length, ∀ b ∈ ds[i]?, ∀ m ∈ msgs, b ∈ m.blobs →
        ∃ b' ∈ m.blobs, b' ∉ ds.take i) <| by
    constructor
    · rintro ⟨hsent, hall, hearly⟩
      refine ⟨hsent, hall, fun i b hb => hearly i ?_ b hb⟩
      exact List.mem_range.2 (List.getElem?_eq_some_iff.1 hb).1
    · exact fun h => ⟨h.sent, h.all, fun i _ b hb => h.early i b hb⟩

section Reassembly

variable {msgs : List Msg} {m : Msg} {b : Blob} {pre ds : List Blob}

theorem cut_eq (h : '\x00' ∉ m.text) (hb : b ∈ m.blobs) : b.cut = b := by
  have hvalue : '\x00' ∉ b.value := by
    intro hn
    apply h
    rw [← split_flatMap m.uuid m.text]
    exact List.mem_flatMap.2 ⟨b, hb, hn⟩
  rw [Blob.cut, cstr_eq hvalue]

theorem pieces_eq (h : '\x00' ∉ m.text) : m.pieces = m.blobs :=
  (List.map_congr_left fun _ => cut_eq h).trans (List.map_id _)

theorem carried_eq (h : '\x00' ∉ m.text) : m.carried = m.text := by
  rw [Msg.carried, pieces_eq h]
  exact split_flatMap m.uuid m.text

theorem find_uuid (hnodup : (msgs.map Msg.uuid).Nodup) (hm : m ∈ msgs) :
    msgs.find? (fun m' => m'.uuid = m.uuid) = some m := by
  induction msgs with
  | nil => cases hm
  | cons m' msgs ih =>
    obtain ⟨hne, hnodup⟩ := List.nodup_cons.1 hnodup
    rcases List.mem_cons.1 hm with rfl | hm
    · simp
    · have hne' : m'.uuid ≠ m.uuid := fun he => hne (he ▸ List.mem_map_of_mem hm)
      rw [List.find?_cons_of_neg (by simpa using hne'), ih hnodup hm]

theorem pending_append (hnodup : (msgs.map Msg.uuid).Nodup) (hm : m ∈ msgs)
    (hb : b ∈ m.pieces) :
    Function.update (pending msgs pre) m.uuid (m.slot (pre ++ [b])) =
      pending msgs (pre ++ [b]) := by
  funext u
  by_cases hu : u = m.uuid
  · subst hu
    rw [Function.update_self, pending, find_uuid hnodup hm]
    rfl
  · rw [Function.update_of_ne hu, pending, pending]
    cases hf : msgs.find? fun m => m.uuid = u with
    | none => rfl
    | some m' =>
      have hu' : m'.uuid = u := by simpa using List.find?_some hf
      have hother : ∀ c ∈ m'.pieces, c ∈ pre ++ [b] ↔ c ∈ pre := by
        intro c hc
        have hne : c ≠ b := by
          intro he
          have hcu := Msg.uuid_of_mem hc
          rw [he, Msg.uuid_of_mem hb, hu'] at hcu
          exact hu hcu.symm
        simp [hne]
      have hfilter : (m'.pieces.filter fun c => c ∈ pre ++ [b]) =
          m'.pieces.filter fun c => c ∈ pre :=
        List.filter_congr fun c hc => by simp only [hother c hc]
      have hnone : (∀ c ∈ m'.pieces, c ∉ pre ++ [b]) ↔ ∀ c ∈ m'.pieces, c ∉ pre :=
        forall₂_congr fun c hc => not_congr (hother c hc)
      have hall : (∀ c ∈ m'.pieces, c ∈ pre ++ [b]) ↔ ∀ c ∈ m'.pieces, c ∈ pre :=
        forall₂_congr hother
      simp only [Option.bind_some, Msg.slot, hfilter, hnone, hall]

/-- One arrival: only its message makes progress. -/
theorem receive_pending (hnodup : (msgs.map Msg.uuid).Nodup) (hm : m ∈ msgs)
    (hnul : '\x00' ∉ m.text) (hb : b ∈ m.blobs) (hmissing : ∃ b ∈ m.blobs, b ∉ pre) :
    receive (pending msgs pre) b = (pending msgs (pre ++ [b]), reported msgs pre b) := by
  have hpieces := pieces_eq hnul
  rw [← hpieces] at hb hmissing
  have hslot : pending msgs pre m.uuid = m.slot pre := by
    rw [pending, find_uuid hnodup hm]
    rfl
  rw [receive_piece hb hmissing hslot, pending_append hnodup hm hb, reported,
    Msg.uuid_of_mem hb, find_uuid hnodup hm, Option.bind_some, carried_eq hnul, hpieces]

theorem receiveAll_pending (hnodup : (msgs.map Msg.uuid).Nodup)
    (hnul : ∀ m ∈ msgs, '\x00' ∉ m.text) (hsent : ∀ b ∈ ds, ∃ m ∈ msgs, b ∈ m.blobs)
    (hearly : ∀ (i : Nat) b, ds[i]? = some b → ∀ m ∈ msgs, b ∈ m.blobs →
      ∃ b' ∈ m.blobs, b' ∉ pre ++ ds.take i) :
    receiveAll (pending msgs pre) ds = (pending msgs (pre ++ ds), reports msgs pre ds) := by
  induction ds generalizing pre with
  | nil => simp [receiveAll, reports]
  | cons b ds ih =>
    obtain ⟨⟨m, hm, hb⟩, hsent⟩ := List.forall_mem_cons.1 hsent
    have hmissing : ∃ b' ∈ m.blobs, b' ∉ pre := by
      simpa using hearly 0 b rfl m hm hb
    have hrest := @ih (pre ++ [b]) hsent (by
      intro i c hc m' hm' hb'
      have hi := hearly (i + 1) c hc m' hm' hb'
      simpa using hi)
    simp only [receiveAll, receive_pending hnodup hm (hnul m hm) hb hmissing, hrest, reports,
      List.append_assoc, List.singleton_append]

theorem getElem?_reports (i : Nat) :
    (reports msgs pre ds)[i]? = ds[i]?.map (reported msgs (pre ++ ds.take i)) := by
  induction ds generalizing pre i with
  | nil => simp [reports]
  | cons b ds ih =>
    cases i with
    | zero => simp [reports]
    | succ i => simp [reports, ih]

theorem reported_eq (hnodup : (msgs.map Msg.uuid).Nodup) (hm : m ∈ msgs) (hb : b ∈ m.blobs) :
    reported msgs pre b = if ∀ b' ∈ m.blobs, b' ∈ pre ++ [b] then some m.text else none := by
  rw [reported, (of_mem_split hb).uuid, find_uuid hnodup hm]
  rfl

theorem take_succ_of_getElem? {i : Nat} (h : ds[i]? = some b) :
    ds.take (i + 1) = ds.take i ++ [b] := by
  rw [List.take_add_one, h]
  rfl

/-- A message is reported at the one arrival that completes it, and at no other of its arrivals. -/
def ReadyOnce (m : Msg) (ds : List Blob) (outs : List (Option Str)) : Prop :=
  ∃ i, (∃ b ∈ m.blobs, ds[i]? = some b) ∧ (∃ b ∈ m.blobs, b ∉ ds.take i) ∧
    (∀ b ∈ m.blobs, b ∈ ds.take (i + 1)) ∧ outs[i]? = some (some m.text) ∧
    ∀ j, j ≠ i → ∀ b ∈ m.blobs, ds[j]? = some b → outs[j]? = some none

theorem Deliveries.readyOnce (h : Deliveries msgs ds) (hnodup : (msgs.map Msg.uuid).Nodup)
    (hm : m ∈ msgs) (hne : m.text ≠ []) : ReadyOnce m ds (reports msgs [] ds) := by
  have hblobs : m.blobs ≠ [] := by
    intro he
    apply hne
    rw [← split_flatMap m.uuid m.text]
    exact congrArg (List.flatMap Blob.value) he
  have hfull : ∃ n, ∀ b ∈ m.blobs, b ∈ ds.take n :=
    ⟨ds.length, fun b hb => by simpa using h.all m hm b hb⟩
  obtain ⟨n, hn, hleast⟩ : ∃ n, (∀ b ∈ m.blobs, b ∈ ds.take n) ∧
      ∀ k < n, ¬∀ b ∈ m.blobs, b ∈ ds.take k := by
    classical
    exact ⟨Nat.find hfull, Nat.find_spec hfull, fun k => Nat.find_min hfull⟩
  have hpos : n ≠ 0 := by
    rintro rfl
    obtain ⟨b, hb⟩ := List.exists_mem_of_ne_nil _ hblobs
    exact absurd (hn b hb) (by simp)
  obtain ⟨i, rfl⟩ := Nat.exists_eq_succ_of_ne_zero hpos
  obtain ⟨b, hb, hmissing⟩ : ∃ b ∈ m.blobs, b ∉ ds.take i := by
    have hi := hleast i (Nat.lt_succ_self i)
    push Not at hi
    exact hi
  have harrives : ds[i]? = some b := by
    have hmem := hn b hb
    rw [List.take_add_one, List.mem_append] at hmem
    exact Option.mem_toList.1 (hmem.resolve_left hmissing)
  refine ⟨i, ⟨b, hb, harrives⟩, ⟨b, hb, hmissing⟩, hn, ?_, ?_⟩
  · rw [getElem?_reports, harrives, Option.map_some, List.nil_append, reported_eq hnodup hm hb,
      ← take_succ_of_getElem? harrives, if_pos hn]
  · intro j hj c hc hjc
    rw [getElem?_reports, hjc, Option.map_some, List.nil_append, reported_eq hnodup hm hc,
      ← take_succ_of_getElem? hjc]
    rcases Nat.lt_or_gt_of_ne hj with hlt | hgt
    · rw [if_neg (hleast (j + 1) (Nat.succ_lt_succ hlt))]
    · obtain ⟨c', hc', hlate⟩ := h.early j c hjc m hm hc
      exact absurd ((List.take_sublist_take_left hgt).mem (hn c' hc')) hlate

theorem pending_nil (msgs : List Msg) : pending msgs [] = fun _ => none := by
  funext u
  rw [pending, Option.bind_eq_none_iff]
  intro m _
  exact Msg.slot_of_none fun b _ => List.not_mem_nil

theorem Deliveries.take (h : Deliveries msgs ds) (n : Nat) :
    (∀ b ∈ ds.take n, ∃ m ∈ msgs, b ∈ m.blobs) ∧
      ∀ (i : Nat) b, (ds.take n)[i]? = some b → ∀ m ∈ msgs, b ∈ m.blobs →
        ∃ b' ∈ m.blobs, b' ∉ [] ++ (ds.take n).take i := by
  refine ⟨fun b hb => h.sent b (List.mem_of_mem_take hb), ?_⟩
  intro i b hb m hm hbm
  rw [List.getElem?_take] at hb
  split at hb
  · next hi =>
    rw [List.take_take, Nat.min_eq_left (Nat.le_of_lt hi)]
    exact h.early i b hb m hm hbm
  · cases hb

theorem recvReads_take (h : Deliveries msgs ds) (hnodup : (msgs.map Msg.uuid).Nodup)
    (hmsgs : ∀ m ∈ msgs, m.Sendable ∧ '\x00' ∉ m.text) (n : Nat) :
    recvReads (fun _ => none) ((ds.take n).map Blob.toString) =
      some (pending msgs (ds.take n), reports msgs [] (ds.take n)) := by
  obtain ⟨hsent, hearly⟩ := h.take n
  have hheader : ∀ b ∈ ds.take n, b.HeaderOk := by
    intro b hb
    obtain ⟨m, hm, hbm⟩ := hsent b hb
    exact (hmsgs m hm).1.headerOk hbm
  have hsame : ∀ b ∈ ds.take n, b.cut = b := by
    intro b hb
    obtain ⟨m, hm, hbm⟩ := hsent b hb
    exact cut_eq (hmsgs m hm).2 hbm
  have hcut : (ds.take n).map Blob.cut = ds.take n :=
    (List.map_congr_left hsame).trans (List.map_id _)
  have hall := @receiveAll_pending msgs [] (ds.take n) hnodup (fun m hm => (hmsgs m hm).2) hsent
    hearly
  rw [recvReads_toString hheader, hcut, ← pending_nil msgs, hall, List.nil_append]

end Reassembly

/-- In whatever order and however often the blobs of messages with distinct ids arrive, every
message is reported once, whole, at the arrival of its last missing blob, and then forgotten. -/
theorem getBdStr_reassembles (msgs : List Msg)
    (hmsgs : ∀ m ∈ msgs, m.Sendable ∧ m.text ≠ [] ∧ '\x00' ∉ m.text)
    (hnodup : (msgs.map Msg.uuid).Nodup) (ds : List Blob) (hds : Deliveries msgs ds) :
    (∃ bdMap outs, recvReads (fun _ => none) (ds.map Blob.toString) = some (bdMap, outs) ∧
      ∀ m ∈ msgs, ReadyOnce m ds outs) ∧
    ∀ n, ∃ bdMap outs,
      recvReads (fun _ => none) ((ds.take n).map Blob.toString) = some (bdMap, outs) ∧
        ∀ m ∈ msgs, (∀ b ∈ m.blobs, b ∈ ds.take n) → bdMap m.uuid = none := by
  have hok : ∀ m ∈ msgs, m.Sendable ∧ '\x00' ∉ m.text :=
    fun m hm => ⟨(hmsgs m hm).1, (hmsgs m hm).2.2⟩
  constructor
  · have hrun := recvReads_take hds hnodup hok ds.length
    rw [List.take_length] at hrun
    exact ⟨_, _, hrun, fun m hm => hds.readyOnce hnodup hm (hmsgs m hm).2.1⟩
  · intro n
    refine ⟨_, _, recvReads_take hds hnodup hok n, ?_⟩
    intro m hm hall
    rw [pending, find_uuid hnodup hm]
    apply Msg.slot_of_all
    rw [pieces_eq (hmsgs m hm).2.2]
    exact hall

theorem getBdStr_reassembles_interleaved :
    let long : Msg := ⟨7, List.replicate 513 'a'⟩
    let short : Msg := ⟨8, "b".toList⟩
    let ds := long.blobs.reverse.take 1 ++ long.blobs.reverse.take 1 ++ short.blobs ++
      long.blobs.take 1
    ∃ bdMap outs, recvReads (fun _ => none) (ds.map Blob.toString) = some (bdMap, outs) ∧
      ∀ m ∈ [long, short], ReadyOnce m ds outs := by
  intro long short ds
  apply (getBdStr_reassembles [long, short] _ _ ds _).1
  · decide +kernel
  · decide +kernel
  · decide +kernel

end MatrixZht
