import Folio.Proofs.Region.SourceMap

/-!
# Segments

A region has a place for each of its characters. It is enough to know where the runs of characters
start that are placed one after another: a *segment* says from which offset of the text on the places
are counted from which offset of the source, and the place of an offset is found in the last segment
that starts at or before it. Main statements:

* `Segmented.root_tells`, `Segmented.slice?_tells` and `Segmented.fromPieces?_tells`: a source, its
  parts and what is joined have the same text and the same places in both forms;
* `Segmented.tells_of_takenAlike`: so does everything that is taken from a source.
-/

namespace Folio

/-- From the offset `start` of a text on, places are counted from the offset `source` of the source. -/
structure Segment where
  start : Nat
  source : Nat
  deriving DecidableEq, Repr

namespace Segment

/-- The last segment that starts at or before an offset, where segments come in order. -/
def last? (segments : List Segment) (offset : Nat) : Option Segment :=
  (segments.takeWhile fun s => s.start ≤ offset).getLast?

/-- Segments start one after another. -/
abbrev InOrder (segments : List Segment) : Prop := segments.Pairwise fun s t => s.start < t.start

/-- A segment is the last of some segments that starts at or before an offset. -/
structure IsLast (segments : List Segment) (offset : Nat) (s : Segment) : Prop where
  mem : s ∈ segments
  le : s.start ≤ offset
  most : ∀ t ∈ segments, t.start ≤ offset → t.start ≤ s.start

variable {segments : List Segment} {s t : Segment} {n : Nat}

/-- A segment that comes first is the last one before an offset if the others start after it. -/
theorem IsLast.head (le : s.start ≤ n) (later : ∀ t ∈ segments, n < t.start) :
    IsLast (s :: segments) n s where
  mem := List.mem_cons_self
  le := le
  most := List.forall_mem_cons.2 ⟨fun _ => Nat.le_refl _, fun t mem le' =>
    absurd (later t mem) (Nat.not_lt_of_le le')⟩

/-- A segment that starts earlier than the last one before an offset does not matter. -/
theorem IsLast.cons (last : IsLast segments n t) (le : s.start ≤ t.start) :
    IsLast (s :: segments) n t where
  mem := List.mem_cons_of_mem s last.mem
  le := last.le
  most := List.forall_mem_cons.2 ⟨fun _ => le, last.most⟩

theorem last?_cons (s : Segment) (segments : List Segment) (n : Nat) :
    last? (s :: segments) n = if s.start ≤ n then some ((last? segments n).getD s) else none := by
  unfold last?
  rw [List.takeWhile_cons]
  by_cases le : s.start ≤ n
  · rw [if_pos (decide_eq_true le), if_pos le, List.getLast?_cons]
  · rw [if_neg (by simpa using le), if_neg le]
    rfl

theorem lt_of_last?_eq_none (ordered : InOrder segments) (h : last? segments n = none) :
    ∀ s ∈ segments, n < s.start := by
  cases segments with
  | nil => exact List.forall_mem_nil _
  | cons s segments =>
    rw [last?_cons] at h
    split at h
    · cases h
    · rename_i later
      rw [Nat.not_le] at later
      have rest := (List.pairwise_cons.1 ordered).1
      exact List.forall_mem_cons.2 ⟨later, fun t mem => Nat.lt_trans later (rest t mem)⟩

theorem isLast_of_last? (ordered : InOrder segments) (h : last? segments n = some s) :
    IsLast segments n s := by
  induction segments generalizing s with
  | nil => cases h
  | cons u segments ih =>
    obtain ⟨first, ordered⟩ := List.pairwise_cons.1 ordered
    rw [last?_cons] at h
    split at h
    · rename_i le
      cases rest : last? segments n with
      | none =>
        rw [rest] at h
        cases h
        exact .head le (lt_of_last?_eq_none ordered rest)
      | some t =>
        rw [rest] at h
        cases h
        have last := ih ordered rest
        exact last.cons (Nat.le_of_lt (first t last.mem))
    · cases h

theorem eq_of_start_eq (ordered : InOrder segments) (hs : s ∈ segments) (ht : t ∈ segments)
    (same : s.start = t.start) : s = t := by
  induction ordered with
  | nil => cases hs
  | @cons u segments first _ ih =>
    rcases List.mem_cons.1 hs with rfl | hs' <;> rcases List.mem_cons.1 ht with rfl | ht'
    · rfl
    · exact absurd same (Nat.ne_of_lt (first t ht'))
    · exact absurd same.symm (Nat.ne_of_lt (first s hs'))
    · exact ih hs' ht'

theorem last?_eq_some_iff (ordered : InOrder segments) :
    last? segments n = some s ↔ IsLast segments n s := by
  constructor
  · exact isLast_of_last? ordered
  · intro last
    cases found : last? segments n with
    | none =>
      exact absurd (lt_of_last?_eq_none ordered found s last.mem) (Nat.not_lt_of_le last.le)
    | some t =>
      have last' := isLast_of_last? ordered found
      have same := Nat.le_antisymm (last.most t last'.mem last'.le) (last'.most s last.mem last.le)
      rw [eq_of_start_eq ordered last'.mem last.mem same]

end Segment

/-- A text with the segments that place it in a source, and the place of its end. -/
structure Segmented where
  text : Text
  segments : List Segment
  stop : Nat
  deriving DecidableEq, Repr

namespace Segmented

/-- A whole source, which is one segment. -/
def root (source : Text) : Segmented :=
  { text := source, segments := [⟨0, 0⟩], stop := Text.bytes source }

/-- The source offset of an offset in the text. -/
def toSource (m : Segmented) (offset : Nat) : Nat :=
  if Text.bytes m.text ≤ offset then m.stop
  else
    match Segment.last? m.segments offset with
    | some s => s.source + (offset - s.start)
    | none => offset

/-- The segments of a part: one that starts with it, and those that start in it. -/
def partSegments (segments : List Segment) (start stop source : Nat) : List Segment :=
  ⟨0, source⟩ :: (segments.filter fun s => start < s.start ∧ s.start < stop).map fun s =>
    { s with start := s.start - start }

/-- The part between two boundaries. -/
def slice? (m : Segmented) (start stop : Nat) : Option Segmented := do
  let text ← m.text.cut? start stop
  return {
    text
    segments := partSegments m.segments start stop (m.toSource start)
    stop := m.toSource stop }

/-- Joins a piece to a text with segments, with a line feed unless it is the first one. -/
def addPiece (m : Segmented) (joined : Text × List Segment) (piece : Nat × Nat) :
    Option (Text × List Segment) := do
  let inside ← m.text.cut? piece.1 piece.2
  let before := if joined.2.isEmpty then joined.1 else joined.1 ++ ['\n']
  return (before ++ inside, joined.2 ++ [⟨Text.bytes before, m.toSource piece.1⟩])

/-- The parts of a text that are each given by its two ends, joined with line feeds. Each of them is
a segment, and there is one without any of them. -/
def fromPieces? (m : Segmented) (pieces : List (Nat × Nat)) : Option Segmented := do
  let (text, segments) ← pieces.foldlM m.addPiece ([], [])
  let stop := m.toSource ((pieces.getLast?.map Prod.snd).getD 0)
  return { text, segments := if segments.isEmpty then [⟨0, stop⟩] else segments, stop }

/-- A text with segments has the text and the places of a region, and its segments are in order. -/
structure Tells (m : Segmented) (r : Region) : Prop where
  inOrder : Segment.InOrder m.segments
  text : m.text = r.text
  stop : m.stop = r.stop
  toSource : ∀ n, m.toSource n = r.toSource n

end Segmented

namespace Region

variable {source : Text} {r inner : Region} {stop start : Nat}

theorem map_char_splitCells? (ps : List Placed) (n : Nat) :
    (splitCells? ps n).map (fun parts => (parts.1.map Placed.char, parts.2.map Placed.char)) =
      Text.split? (ps.map Placed.char) n := by
  induction ps generalizing n with
  | nil => cases n <;> rfl
  | cons p ps ih =>
    cases n with
    | zero => rfl
    | succ n =>
      rw [List.map_cons, splitCells?, Text.split?]
      split
      · rw [← ih, Option.map_map, Option.map_map]
        rfl
      · rfl

/-- What is cut out of a region is what is cut out of its text. -/
theorem map_char_cutCells? (r : Region) (start stop : Nat) :
    (r.cutCells? start stop).map (·.map Placed.char) = r.text.cut? start stop := by
  unfold cutCells? Text.cut? text
  split
  · rfl
  · rw [← map_char_splitCells?]
    cases splitCells? r.cells start with
    | none => rfl
    | some parts =>
      simp only [Option.map_some, Option.bind_eq_bind, Option.bind_some, ← map_char_splitCells?]
      cases splitCells? parts.2 (stop - start) <;> rfl

theorem locate_of_le {ps : List Placed} {n : Nat} (le : Text.bytes (ps.map Placed.char) ≤ n) :
    locate stop ps n = stop := by
  induction ps generalizing n with
  | nil => rfl
  | cons p ps ih =>
    rw [List.map_cons, Text.bytes_cons] at le
    rw [locate, if_neg (by omega)]
    exact ih (by omega)

theorem toSource_of_le {n : Nat} (le : Text.bytes r.text ≤ n) : r.toSource n = r.stop :=
  locate_of_le le

/-- What comes after some placed characters has no effect on the places in them. -/
theorem locate_append_of_lt (stop stop' : Nat) {ps qs : List Placed} {n : Nat}
    (lt : n < Text.bytes (ps.map Placed.char)) :
    locate stop (ps ++ qs) n = locate stop' ps n := by
  induction ps generalizing n with
  | nil => cases lt
  | cons p ps ih =>
    rw [List.map_cons, Text.bytes_cons] at lt
    rw [List.cons_append, locate, locate]
    split
    · rfl
    · exact ih (by omega)

theorem locate_along {pos n : Nat} {s : Text} (lt : n < Text.bytes s) :
    locate stop (Placed.along pos s) n = pos + n := by
  induction s generalizing pos n with
  | nil => cases lt
  | cons c s ih =>
    rw [Text.bytes_cons] at lt
    rw [Placed.along, locate]
    dsimp only
    split
    · rfl
    · rw [ih (by omega)]
      omega

/-- The places in a part of a region are those in the region. -/
theorem toSource_of_slice? (taken : r.slice? start stop = some inner) {n : Nat}
    (lt : n < Text.bytes inner.text) : inner.toSource n = r.toSource (start + n) := by
  obtain ⟨inside, cut, rfl⟩ := Option.map_eq_some_iff.1 taken
  obtain ⟨before, after, cells, rfl, -⟩ := cutCells?_eq_some_iff.1 cut
  have there : r.toSource (Text.bytes (before.map Placed.char) + n) =
      locate r.stop (inside ++ after) n := by
    rw [toSource, cells, locate_append]
  rw [there]
  exact (locate_append_of_lt r.stop _ lt).symm

end Region

namespace Segmented

variable {m : Segmented} {r : Region} {source : Text} {start stop n : Nat}

/-! ### A whole source -/

theorem root_tells (source : Text) : (root source).Tells (Region.root source) where
  inOrder := List.pairwise_singleton _ _
  text := (Region.text_root source).symm
  stop := rfl
  toSource n := by
    by_cases past : Text.bytes source ≤ n
    · rw [Region.toSource_of_le (by rwa [Region.text_root]), toSource, root, if_pos past]
      rfl
    · rw [toSource, root, if_neg past, Region.toSource, Region.root,
        Region.locate_along (Nat.lt_of_not_le past)]
      simp [Segment.last?]

/-! ### A part -/

section Part

variable {segments : List Segment} {s : Segment}

theorem mem_filter_iff : s ∈ segments.filter (fun s => start < s.start ∧ s.start < stop) ↔
    s ∈ segments ∧ start < s.start ∧ s.start < stop := by
  simp

theorem inOrder_partSegments (ordered : Segment.InOrder segments) (start stop source : Nat) :
    Segment.InOrder (partSegments segments start stop source) := by
  rw [Segment.InOrder, partSegments, List.pairwise_cons, List.forall_mem_map, List.pairwise_map]
  refine ⟨fun s mem => Nat.sub_pos_of_lt (mem_filter_iff.1 mem).2.1, ?_⟩
  refine (ordered.filter _).imp_of_mem fun hs _ lt => ?_
  exact Nat.sub_lt_sub_right (Nat.le_of_lt (mem_filter_iff.1 hs).2.1) lt

/-- A segment that starts in a part before an offset is found there. -/
theorem isLast_partSegments (last : Segment.IsLast segments (start + n) s) (late : start < s.start)
    (lt : start + n < stop) (source : Nat) :
    Segment.IsLast (partSegments segments start stop source) n
      { s with start := s.start - start } where
  mem := List.mem_cons_of_mem _ (List.mem_map_of_mem
    (mem_filter_iff.2 ⟨last.mem, late, Nat.lt_of_le_of_lt last.le lt⟩))
  le := Nat.sub_le_of_le_add (by rw [Nat.add_comm]; exact last.le)
  most := by
    rw [partSegments, List.forall_mem_cons, List.forall_mem_map]
    refine ⟨fun _ => Nat.zero_le _, fun t mem le => ?_⟩
    obtain ⟨mem, after, -⟩ := mem_filter_iff.1 mem
    exact Nat.sub_le_sub_right (last.most t mem (by dsimp only at le; omega)) start

/-- Where no segment starts in a part before an offset, the part is one segment up to there. -/
theorem isLast_partSegments_zero
    (early : ∀ s ∈ segments, s.start ≤ start + n → s.start ≤ start) (source : Nat) :
    Segment.IsLast (partSegments segments start stop source) n ⟨0, source⟩ where
  mem := List.mem_cons_self
  le := Nat.zero_le _
  most := by
    rw [partSegments, List.forall_mem_cons, List.forall_mem_map]
    refine ⟨fun _ => Nat.le_refl _, fun t mem le => ?_⟩
    obtain ⟨mem, after, -⟩ := mem_filter_iff.1 mem
    exact absurd (early t mem (by dsimp only at le; omega)) (Nat.not_le_of_lt after)

end Part

theorem toSource_of_le (le : Text.bytes m.text ≤ n) : m.toSource n = m.stop := if_pos le

/-- The place of an offset in the last segment that starts at or before it. -/
theorem toSource_of_isLast (ordered : Segment.InOrder m.segments) (lt : n < Text.bytes m.text)
    {s : Segment} (last : Segment.IsLast m.segments n s) :
    m.toSource n = s.source + (n - s.start) := by
  rw [toSource, if_neg (Nat.not_le_of_lt lt), (Segment.last?_eq_some_iff ordered).2 last]

/-- An offset that no segment starts before is its own place. -/
theorem toSource_of_forall_lt (ordered : Segment.InOrder m.segments) (lt : n < Text.bytes m.text)
    (none : ∀ s ∈ m.segments, n < s.start) : m.toSource n = n := by
  rw [toSource, if_neg (Nat.not_le_of_lt lt)]
  cases found : Segment.last? m.segments n with
  | none => rfl
  | some s =>
    have last := Segment.isLast_of_last? ordered found
    exact absurd last.le (Nat.not_le_of_lt (none s last.mem))

/-- In a part, an offset has the place that it has in the whole text. -/
theorem toSource_of_slice? (ordered : Segment.InOrder m.segments) {part : Segmented}
    (taken : m.slice? start stop = some part) (lt : n < Text.bytes part.text) :
    part.toSource n = m.toSource (start + n) := by
  obtain ⟨text, cut, made⟩ := Option.bind_eq_some_iff.1 taken
  cases made
  obtain ⟨held, rfl⟩ := Text.cut?_eq_some_iff.1 cut
  have whole : start + Text.bytes text ≤ Text.bytes m.text :=
    Text.le_bytes_of_isBoundary held.isBoundary_stop
  have lt : n < Text.bytes text := lt
  have ordered' := inOrder_partSegments ordered start (start + Text.bytes text) (m.toSource start)
  have within : start + n < Text.bytes m.text := by omega
  cases found : Segment.last? m.segments (start + n) with
  | none =>
    have none := Segment.lt_of_last?_eq_none ordered found
    have early : ∀ s ∈ m.segments, s.start ≤ start + n → s.start ≤ start :=
      fun s mem le => absurd (none s mem) (Nat.not_lt_of_le le)
    rw [toSource_of_isLast ordered' lt (isLast_partSegments_zero early _),
      toSource_of_forall_lt ordered within none,
      toSource_of_forall_lt ordered (by omega) fun s mem => by have := none s mem; omega]
    rfl
  | some s =>
    have last := Segment.isLast_of_last? ordered found
    rw [toSource_of_isLast ordered within last]
    by_cases late : start < s.start
    · rw [toSource_of_isLast ordered' lt (isLast_partSegments last late (by omega) _)]
      dsimp only
      omega
    · have early : ∀ t ∈ m.segments, t.start ≤ start + n → t.start ≤ start :=
        fun t mem le => Nat.le_trans (last.most t mem le) (Nat.le_of_not_lt late)
      have at_start : Segment.IsLast m.segments start s :=
        ⟨last.mem, Nat.le_of_not_lt late, fun t mem le => last.most t mem (by omega)⟩
      rw [toSource_of_isLast ordered' lt (isLast_partSegments_zero early _),
        toSource_of_isLast ordered (by omega) at_start]
      dsimp only
      omega

/-- A part has the same text and the same places in both forms, if it can be taken. -/
theorem slice?_tells (h : m.Tells r) (start stop : Nat) :
    Option.Rel Tells (m.slice? start stop) (r.slice? start stop) := by
  have texts := r.map_char_cutCells? start stop
  rw [← h.text] at texts
  cases cut : r.cutCells? start stop with
  | none =>
    rw [cut] at texts
    rw [slice?, ← texts, Region.slice?, cut]
    exact .none
  | some cells =>
    rw [cut] at texts
    have taken : r.slice? start stop = some ⟨cells, r.toSource stop⟩ := by
      rw [Region.slice?, cut, Option.map_some]
    obtain ⟨part, taken', text_eq, stop_eq, ordered⟩ : ∃ part, m.slice? start stop = some part ∧
        part.text = cells.map Placed.char ∧ part.stop = m.toSource stop ∧
        Segment.InOrder part.segments := by
      rw [slice?, ← texts]
      exact ⟨_, rfl, rfl, rfl, inOrder_partSegments h.inOrder ..⟩
    rw [taken, taken']
    refine .some ⟨ordered, text_eq, stop_eq.trans (h.toSource stop), fun n => ?_⟩
    by_cases past : Text.bytes (cells.map Placed.char) ≤ n
    · rw [toSource_of_le (text_eq ▸ past), stop_eq, h.toSource]
      exact (Region.locate_of_le past).symm
    · rw [Nat.not_le] at past
      rw [toSource_of_slice? h.inOrder taken' (text_eq ▸ past), h.toSource]
      exact (Region.toSource_of_slice? taken past).symm

/-! ### Joined pieces -/

/-- The segments of joined parts, the first of which starts at an offset. -/
def joinedSegments (at_ : Nat) : List (Nat × Text) → List Segment
  | [] => []
  | (pos, s) :: parts => ⟨at_, pos⟩ :: joinedSegments (at_ + Text.bytes s + 1) parts

theorem le_of_mem_joinedSegments {at_ : Nat} {parts : List (Nat × Text)} {s : Segment}
    (mem : s ∈ joinedSegments at_ parts) : at_ ≤ s.start := by
  induction parts generalizing at_ with
  | nil => cases mem
  | cons part parts ih =>
    rcases List.mem_cons.1 mem with rfl | mem
    · exact Nat.le_refl _
    · have := ih mem
      omega

theorem inOrder_joinedSegments (at_ : Nat) (parts : List (Nat × Text)) :
    Segment.InOrder (joinedSegments at_ parts) := by
  induction parts generalizing at_ with
  | nil => exact .nil
  | cons part parts ih =>
    refine .cons (fun s mem => ?_) (ih _)
    have := le_of_mem_joinedSegments mem
    dsimp only
    omega

/-- The first segment of joined parts places what comes before the second one. -/
theorem isLast_joinedSegments_cons {at_ : Nat} {s : Text} {parts : List (Nat × Text)} (pos : Nat)
    (le : at_ ≤ n) (lt : n ≤ at_ + Text.bytes s) :
    Segment.IsLast (joinedSegments at_ ((pos, s) :: parts)) n ⟨at_, pos⟩ := by
  refine .head le fun t mem => ?_
  have := le_of_mem_joinedSegments mem
  omega

/-- Joined characters are placed as the last segment before them says. -/
theorem exists_isLast_joinedSegments {at_ : Nat} {parts : List (Nat × Text)}
    (lt : n < Text.bytes ((Region.joinPieces parts).map Placed.char)) :
    ∃ s, Segment.IsLast (joinedSegments at_ parts) (at_ + n) s ∧
      s.source + (at_ + n - s.start) = Region.locate stop (Region.joinPieces parts) n := by
  induction parts generalizing at_ n with
  | nil => cases lt
  | cons part parts ih =>
    obtain ⟨pos, s⟩ := part
    cases parts with
    | nil =>
      rw [Region.joinPieces, Placed.map_char_along] at lt
      refine ⟨_, isLast_joinedSegments_cons pos (Nat.le_add_right ..) (by omega), ?_⟩
      rw [Region.joinPieces, Region.locate_along lt, Nat.add_sub_cancel_left]
    | cons part parts =>
      -- a part is placed with the line feed after it
      have size : Text.bytes ((Placed.along pos (s ++ ['\n'])).map Placed.char) =
          Text.bytes s + 1 := by
        rw [Placed.map_char_along, Text.bytes_append]
        rfl
      have cells : Region.joinPieces ((pos, s) :: part :: parts) =
          Placed.along pos (s ++ ['\n']) ++ Region.joinPieces (part :: parts) := rfl
      rw [cells] at lt ⊢
      rw [List.map_append, Text.bytes_append, size] at lt
      by_cases here : n < Text.bytes s + 1
      · refine ⟨_, isLast_joinedSegments_cons pos (Nat.le_add_right ..) (by omega), ?_⟩
        rw [Region.locate_append_of_lt stop stop (size ▸ here), Region.locate_along,
          Nat.add_sub_cancel_left]
        rw [Text.bytes_append]
        exact here
      · obtain ⟨k, rfl⟩ := Nat.exists_eq_add_of_le (Nat.le_of_not_lt here)
        obtain ⟨t, last, place⟩ := @ih k (at_ + Text.bytes s + 1) (by omega)
        have offset : at_ + (Text.bytes s + 1 + k) = at_ + Text.bytes s + 1 + k := by omega
        have later := le_of_mem_joinedSegments last.mem
        rw [← size, Region.locate_append, size, offset]
        exact ⟨t, last.cons (by dsimp only; omega), place⟩

theorem map_char_joinPieces_cons (pos : Nat) (s : Text) (parts : List (Nat × Text)) :
    (Region.joinPieces ((pos, s) :: parts)).map Placed.char =
      s ++ parts.flatMap fun part => '\n' :: part.2 := by
  induction parts generalizing pos s with
  | nil => rw [Region.joinPieces, Placed.map_char_along, List.flatMap_nil, List.append_nil]
  | cons part parts ih =>
    obtain ⟨pos', s'⟩ := part
    rw [Region.joinPieces, List.map_append, Placed.map_char_along, ih, List.flatMap_cons,
      List.append_assoc]
    · rfl
    · rintro ⟨⟩

/-- A piece is joined with its segment. -/
theorem addPiece_eq (h : m.Tells r) (t : Text) (segments : List Segment) (piece : Nat × Nat) :
    m.addPiece (t, segments) piece = (r.cutCells? piece.1 piece.2).map fun cells =>
      ((if segments.isEmpty then t else t ++ ['\n']) ++ cells.map Placed.char,
        segments ++ [⟨Text.bytes (if segments.isEmpty then t else t ++ ['\n']),
          r.toSource piece.1⟩]) := by
  rw [addPiece, h.text, ← Region.map_char_cutCells?, h.toSource]
  cases r.cutCells? piece.1 piece.2 <;> rfl

/-- Each of the pieces after the first one adds a line feed and itself. -/
theorem foldlM_addPiece (h : m.Tells r) (pieces : List (Nat × Nat)) {t : Text}
    {segments : List Segment} (more : segments.isEmpty = false) :
    pieces.foldlM m.addPiece (t, segments) = (r.parts? pieces).map fun parts =>
      (t ++ parts.flatMap (fun part => '\n' :: part.2),
        segments ++ joinedSegments (Text.bytes t + 1) parts) := by
  induction pieces generalizing t segments with
  | nil => simp [Region.parts?, joinedSegments]
  | cons piece pieces ih =>
    rw [List.foldlM_cons, addPiece_eq h, Region.parts?_cons_eq, more]
    cases r.cutCells? piece.1 piece.2 with
    | none => rfl
    | some cells =>
      have eol : ('\n').utf8Size = 1 := rfl
      rw [Option.map_some, Option.bind_eq_bind, Option.bind_some, ih (by simp)]
      cases r.parts? pieces <;> simp [joinedSegments, eol, Nat.add_assoc]

theorem foldlM_addPiece_cons (h : m.Tells r) (piece : Nat × Nat) (pieces : List (Nat × Nat)) :
    (piece :: pieces).foldlM m.addPiece ([], []) = (r.parts? (piece :: pieces)).map fun parts =>
      ((Region.joinPieces parts).map Placed.char, joinedSegments 0 parts) := by
  rw [List.foldlM_cons, addPiece_eq h, Region.parts?_cons_eq]
  cases r.cutCells? piece.1 piece.2 with
  | none => rfl
  | some cells =>
    rw [Option.map_some, Option.bind_eq_bind, Option.bind_some, foldlM_addPiece h pieces (by simp)]
    cases r.parts? pieces <;> simp [map_char_joinPieces_cons, joinedSegments]

/-- What is joined has the same text and the same places in both forms, if it can be joined. -/
theorem fromPieces?_tells (h : m.Tells r) (pieces : List (Nat × Nat)) :
    Option.Rel Tells (m.fromPieces? pieces) (r.fromPieces? pieces) := by
  have stop_eq := h.toSource ((pieces.getLast?.map Prod.snd).getD 0)
  have joined : r.fromPieces? pieces = (r.parts? pieces).map fun parts =>
      ⟨Region.joinPieces parts, r.toSource ((pieces.getLast?.map Prod.snd).getD 0)⟩ := by
    rw [Region.fromPieces?]
    exact Option.map_eq_bind.symm
  cases pieces with
  | nil =>
    refine .some ⟨List.pairwise_singleton _ _, rfl, stop_eq, fun n => ?_⟩
    exact (toSource_of_le (Nat.zero_le n)).trans stop_eq
  | cons piece pieces =>
    rw [fromPieces?, foldlM_addPiece_cons h, joined, stop_eq]
    cases r.parts? (piece :: pieces) with
    | none => exact .none
    | some parts =>
      generalize r.toSource (((piece :: pieces).getLast?.map Prod.snd).getD 0) = stop
      have ordered : Segment.InOrder
          (if (joinedSegments 0 parts).isEmpty then [⟨0, stop⟩] else joinedSegments 0 parts) := by
        split
        · exact List.pairwise_singleton _ _
        · exact inOrder_joinedSegments 0 parts
      refine .some ⟨ordered, rfl, rfl, fun n => ?_⟩
      by_cases past : Text.bytes ((Region.joinPieces parts).map Placed.char) ≤ n
      · exact (toSource_of_le past).trans (Region.locate_of_le past).symm
      · rw [Nat.not_le] at past
        obtain ⟨s, last, place⟩ := @exists_isLast_joinedSegments stop n 0 parts past
        rw [Nat.zero_add] at last place
        have filled : (joinedSegments 0 parts).isEmpty = false :=
          List.isEmpty_eq_false_iff.2 (List.ne_nil_of_mem last.mem)
        rw [filled] at ordered ⊢
        exact (toSource_of_isLast ordered past last).trans place

/-! ### What is taken from a source -/

/-- A text with segments and a region that are taken from a source in the same way, by cutting out
parts and joining them. -/
inductive TakenAlike (source : Text) : Segmented → Region → Prop
  | root : TakenAlike source (root source) (Region.root source)
  | slice {m part : Segmented} {r inner : Region} {start stop : Nat} (alike : TakenAlike source m r)
      (cut : m.slice? start stop = some part) (cut' : r.slice? start stop = some inner) :
      TakenAlike source part inner
  | join {m whole : Segmented} {r inner : Region} {pieces : List (Nat × Nat)}
      (alike : TakenAlike source m r) (joined : m.fromPieces? pieces = some whole)
      (joined' : r.fromPieces? pieces = some inner) : TakenAlike source whole inner

/-- **Segments place a text as its characters do**, however it has been taken from a source. -/
theorem tells_of_takenAlike (alike : TakenAlike source m r) : m.Tells r := by
  induction alike with
  | root => exact root_tells source
  | @slice m part r inner start stop _ cut cut' ih =>
    have both := slice?_tells ih start stop
    rw [cut, cut'] at both
    cases both with
    | some tells => exact tells
  | @join m whole r inner pieces _ joined joined' ih =>
    have both := fromPieces?_tells ih pieces
    rw [joined, joined'] at both
    cases both with
    | some tells => exact tells

/-- The second line of a joined item, cut out with the line feed before it, is two segments. -/
example : ((root ['-', ' ', 'a', '\n', ' ', ' ', 'b']).fromPieces? [(2, 3), (6, 7)]).bind
    (·.slice? 1 3) = some ⟨['\n', 'b'], [⟨0, 3⟩, ⟨1, 6⟩], 7⟩ := by decide

end Segmented
end Folio
