import Folio.Proofs.Markup.LinePieces
import Folio.Proofs.Text.Octets
import Mathlib.Data.List.Forall2

/-!
# Source maps

Regions are taken from a source by cutting a region and by joining parts of its lines, again and
again. `Region.Taken` says that a region comes about in this way, where pieces may end anywhere in
their lines, so that a joining line feed has no place of its own in the source. Still the places of
a region's bytes are in order, and all bytes but line feeds stand in the source:

* `Region.Maps` is what cuts and joins preserve: `Region.maps_of_slice?` and
  `Region.maps_of_fromPieces?`;
* `Region.source_map_of_taken` says what it means for the bytes of a region.
-/

namespace Folio

/-! ### Pieces in lines -/

namespace Line

variable {s : Text} {l m : Line} {ls : List Line} {n : Nat} {piece next : Nat × Nat}

/-- A piece of a text lies inside a line, before the line feed that ends it. -/
structure Has (s : Text) (piece : Nat × Nat) (l : Line) : Prop where
  cut : s.IsCut piece.1 piece.2
  start_le : l.start ≤ piece.1
  le : piece.2 ≤ l.stop ∨ piece.2 < l.next

/-- What stands in a line before its line feed. -/
theorem exists_before_eol (mem : l ∈ split s) (le : n ≤ l.stop ∨ n < l.next) :
    ∃ t, s.Holds l.start t ∧ '\n' ∉ t ∧ n ≤ l.start + Text.bytes t := by
  have eol := eol_not_mem mem
  have next_eq : l.next = l.stop + Text.bytes l.ending.text := rfl
  have held := holds_raw mem
  rw [raw] at held
  cases ending : l.ending with
  | none =>
    rw [ending, LineEnding.text_none, Text.bytes_nil] at next_eq
    exact ⟨l.text, holds mem, eol, show n ≤ l.stop by omega⟩
  | lf =>
    have size : Text.bytes ['\n'] = 1 := rfl
    rw [ending, LineEnding.text_lf, size] at next_eq
    exact ⟨l.text, holds mem, eol, show n ≤ l.stop by omega⟩
  | crlf =>
    have size : Text.bytes ['\r', '\n'] = 2 := rfl
    rw [ending, LineEnding.text_crlf] at held next_eq
    rw [List.append_cons] at held
    refine ⟨l.text ++ ['\r'], (Text.holds_append_iff.1 held).1, by simp [eol], ?_⟩
    rw [Text.bytes_append, ← Nat.add_assoc]
    show n ≤ l.stop + 1
    omega

theorem Has.isPiece (mem : l ∈ split s) (h : Has s piece l) : s.IsPiece piece := by
  obtain ⟨t, held, eol, le⟩ := exists_before_eol mem h.le
  obtain ⟨w, inside, stop⟩ := h.cut.exists_holds
  obtain ⟨n, start⟩ := Nat.exists_eq_add_of_le h.start_le
  have within : t.Holds n w := held.inside (start ▸ inside) (by omega)
  exact ⟨w, inside, fun mem => eol (within.mem mem), stop⟩

/-- The lines of a text are apart, with their endings before the next one. -/
theorem pairwise_next (suffix : ls <:+ split s) :
    ls.Pairwise fun l m => l.stop < m.start ∧ l.next ≤ m.start := by
  induction ls with
  | nil => exact .nil
  | cons l ls ih =>
    refine .cons (fun m mem => ⟨(gap suffix mem).1.lt, ?_⟩) (ih ((List.suffix_cons l ls).trans suffix))
    exact (whole_of_suffix suffix).2.2 m mem

theorem Has.lt (h : Has s piece l) (h' : Has s next m) (apart : l.stop < m.start ∧ l.next ≤ m.start) :
    piece.2 < next.1 := by
  have start := h'.start_le
  rcases h.le with le | lt <;> omega

end Line

/-! ### Placed characters -/

/-- What follows a placed character is further on. Every character but a line feed stands in the
source at its place, and what follows comes right after it. -/
structure Placed.Precedes (source : Text) (p : Placed) (next : Nat) : Prop where
  lt : p.pos < next
  stands : p.char ≠ '\n' → source.Holds p.pos [p.char] ∧ p.pos + p.char.utf8Size = next

theorem Placed.Precedes.le {source : Text} {p : Placed} {next : Nat} (h : p.Precedes source next) :
    p.pos + p.char.utf8Size ≤ next := by
  by_cases eol : p.char = '\n'
  · rw [eol]
    exact h.lt
  · exact Nat.le_of_eq (h.stands eol).2

namespace Region

variable {source : Text} {r inner : Region} {ps qs : List Placed} {stop i j : Nat}

/-- Placed characters that are followed by `stop` are in order. -/
def Maps (source : Text) (stop : Nat) : List Placed → Prop
  | [] => stop ≤ Text.bytes source
  | p :: ps => p.Precedes source (place stop ps) ∧ Maps source stop ps

namespace Maps

theorem stop_le (h : Maps source stop ps) : stop ≤ Text.bytes source := by
  induction ps with
  | nil => exact h
  | cons p ps ih => exact ih h.2

theorem place_le (h : Maps source stop ps) : place stop ps ≤ stop := by
  induction ps with
  | nil => exact Nat.le_refl _
  | cons p ps ih => exact Nat.le_trans (Nat.le_of_lt h.1.lt) (ih h.2)

/-- The characters of a part of a line are placed one after another. -/
theorem along_eq (h : Maps source stop ps) (visible : '\n' ∉ ps.map Placed.char) :
    Placed.along (place stop ps) (ps.map Placed.char) = ps ∧
      place stop ps + Text.bytes (ps.map Placed.char) = stop := by
  induction ps with
  | nil => exact ⟨rfl, rfl⟩
  | cons p ps ih =>
    rw [List.map_cons, List.mem_cons, not_or] at visible
    obtain ⟨along, size⟩ := ih h.2 visible.2
    have next_eq := (h.1.stands (Ne.symm visible.1)).2
    constructor
    · rw [List.map_cons, Placed.along, place_cons, next_eq, along]
    · rw [place_cons, List.map_cons, Text.bytes_cons, ← Nat.add_assoc, next_eq, size]

/-! Offsets among placed characters -/

theorem locate_le (h : Maps source stop ps) (i : Nat) : locate stop ps i ≤ stop := by
  induction ps generalizing i with
  | nil => exact Nat.le_refl _
  | cons p ps ih =>
    rw [locate]
    split
    · have := h.1.le
      have := h.2.place_le
      omega
    · exact ih h.2 _

theorem place_le_locate (h : Maps source stop ps) (i : Nat) : place stop ps ≤ locate stop ps i := by
  induction ps generalizing i with
  | nil => exact Nat.le_refl _
  | cons p ps ih =>
    rw [locate, place_cons]
    split
    · exact Nat.le_add_right ..
    · exact Nat.le_trans (Nat.le_of_lt h.1.lt) (ih h.2 _)

theorem locate_lt (h : Maps source stop ps) (lt : i < j)
    (le : j ≤ Text.bytes (ps.map Placed.char)) : locate stop ps i < locate stop ps j := by
  induction ps generalizing i j with
  | nil =>
    rw [List.map_nil, Text.bytes_nil] at le
    omega
  | cons p ps ih =>
    rw [List.map_cons, Text.bytes_cons] at le
    rw [locate, locate]
    by_cases here : j < p.char.utf8Size
    · rw [if_pos here, if_pos (Nat.lt_trans lt here)]
      exact Nat.add_lt_add_left lt _
    · rw [if_neg here]
      by_cases first : i < p.char.utf8Size
      · rw [if_pos first]
        have after := h.2.place_le_locate (j - p.char.utf8Size)
        have := h.1.le
        omega
      · rw [if_neg first]
        exact ih h.2 (by omega) (by omega)

/-- A byte that is no line feed stands in the source. -/
theorem getElem?_octets (h : Maps source stop ps) {b : UInt8}
    (byte : (Text.octets (ps.map Placed.char))[i]? = some b) (visible : b ≠ 10) :
    source.octets[locate stop ps i]? = some b := by
  induction ps generalizing i with
  | nil => cases byte
  | cons p ps ih =>
    rw [List.map_cons, Text.octets_cons] at byte
    rw [locate]
    split
    · rename_i here
      rw [List.getElem?_append_left (by rwa [String.length_utf8EncodeChar])] at byte
      have char : p.char ≠ '\n' := by
        intro eol
        rw [eol] at byte
        exact visible (List.mem_singleton.1 (List.mem_of_getElem? byte))
      rw [Text.getElem?_octets_of_holds (h.1.stands char).1 (by simpa using here), Text.octets_cons,
        Text.octets_nil, List.append_nil]
      exact byte
    · rename_i past
      rw [List.getElem?_append_right (by rw [String.length_utf8EncodeChar]; omega),
        String.length_utf8EncodeChar] at byte
      exact ih h.2 byte

end Maps

theorem maps_append_iff :
    Maps source stop (ps ++ qs) ↔ Maps source (place stop qs) ps ∧ Maps source stop qs := by
  induction ps with
  | nil =>
    constructor
    · intro h
      exact ⟨Nat.le_trans h.place_le h.stop_le, h⟩
    · exact And.right
  | cons p ps ih => rw [List.cons_append, Maps, Maps, ih, place_append, and_assoc]

theorem maps_of_follows (h : Follows source stop ps) : Maps source stop ps := by
  induction ps with
  | nil => exact Text.le_bytes_of_isBoundary h
  | cons p ps ih => exact ⟨⟨h.1.lt, h.1.holds⟩, ih h.2⟩

/-! ### Cuts and joins -/

/-- The characters between two boundaries, and where they and what follows them are placed. -/
theorem Maps.exists_cells (h : Maps source r.stop r.cells) (cut : Text.IsCut r.text i j) :
    ∃ inside, r.cutCells? i j = some inside ∧ r.text.Holds i (inside.map Placed.char) ∧
      i + Text.bytes (inside.map Placed.char) = j ∧ Maps source (r.toSource j) inside ∧
      r.toSource i = place (r.toSource j) inside := by
  obtain ⟨inside, taken⟩ := Option.isSome_iff_exists.1 (cutCells?_isSome_iff.2 cut)
  obtain ⟨before, after, cells, rfl, rfl⟩ := cutCells?_eq_some_iff.1 taken
  have start := toSource_eq_place cells
  rw [← List.append_assoc] at cells
  have stop := toSource_eq_place cells
  rw [List.map_append, Text.bytes_append] at stop
  rw [cells] at h
  have first := (maps_append_iff.1 (maps_append_iff.1 h).1).2
  refine ⟨inside, taken, ⟨after.map Placed.char, before.map Placed.char, ?_, rfl⟩, rfl, ?_, ?_⟩
  · rw [text, cells, List.map_append, List.map_append, List.append_assoc]
  · rwa [stop]
  · rw [start, stop, place_append]

theorem maps_of_slice? (h : Maps source r.stop r.cells) (taken : r.slice? i j = some inner) :
    Maps source inner.stop inner.cells := by
  obtain ⟨cells, cut, rfl⟩ := Option.map_eq_some_iff.1 taken
  have is_cut := cutCells?_isSome_iff.1 (Option.isSome_of_eq_some cut)
  obtain ⟨inside, cut', -, -, maps, -⟩ := h.exists_cells is_cut
  rw [cut] at cut'
  cases cut'
  exact maps

theorem Maps.toSource_lt (h : Maps source r.stop r.cells) (lt : i < j)
    (le : j ≤ Text.bytes r.text) : r.toSource i < r.toSource j :=
  h.locate_lt lt le

/-- A piece of a line is joined as it is cut. -/
theorem Maps.cut_piece {piece : Nat × Nat} (h : Maps source r.stop r.cells)
    (is_piece : r.text.IsPiece piece) :
    ∃ inside, (r.cutCells? piece.1 piece.2).map (·.map Placed.char) =
        some (inside.map Placed.char) ∧ Maps source (r.toSource piece.2) inside ∧
      Placed.along (r.toSource piece.1) (inside.map Placed.char) = inside ∧
      r.toSource piece.1 = place (r.toSource piece.2) inside ∧
      r.toSource piece.1 + Text.bytes (inside.map Placed.char) = r.toSource piece.2 := by
  obtain ⟨inside, cut, held, size, maps, start⟩ := h.exists_cells is_piece.isCut
  obtain ⟨w, held', visible, stop⟩ := is_piece
  have same : inside.map Placed.char = w := held.unique held' (by omega)
  obtain ⟨along, size'⟩ := maps.along_eq (same ▸ visible)
  rw [← start] at along size'
  exact ⟨inside, by rw [cut, Option.map_some], maps, along, start, size'⟩

theorem Maps.joinPieces {piece : Nat × Nat} {pieces : List (Nat × Nat)} {l : Line} {ls : List Line}
    {parts : List (Nat × Text)} (h : Maps source r.stop r.cells)
    (sub : (l :: ls).Sublist r.lines) (on : List.Forall₂ (Line.Has r.text) (piece :: pieces) (l :: ls))
    (taken : r.parts? (piece :: pieces) = some parts) {last : Nat × Nat}
    (last_eq : (piece :: pieces).getLast? = some last) :
    Maps source (r.toSource last.2) (Region.joinPieces parts) ∧
      place (r.toSource last.2) (Region.joinPieces parts) = r.toSource piece.1 := by
  induction pieces generalizing piece parts l ls with
  | nil =>
    obtain ⟨has, -⟩ := List.forall₂_cons.1 on
    obtain ⟨inside, cut, maps, along, start, -⟩ :=
      h.cut_piece (has.isPiece (sub.subset List.mem_cons_self))
    obtain ⟨rest, others, rfl⟩ := parts?_cons cut taken
    obtain rfl : [] = rest := Option.some.inj others
    obtain rfl : piece = last := Option.some.inj last_eq
    rw [Region.joinPieces, along]
    exact ⟨maps, start.symm⟩
  | cons next pieces ih =>
    cases on with
    | cons has on =>
    cases on with
    | @cons _ m _ ls has' on =>
    obtain ⟨inside, cut, maps, along, start, size⟩ :=
      h.cut_piece (has.isPiece (sub.subset List.mem_cons_self))
    obtain ⟨rest, others, rfl⟩ := parts?_cons cut taken
    have sub' : (m :: ls).Sublist r.lines := (List.sublist_cons_self l _).trans sub
    obtain ⟨after, first⟩ := ih sub' (.cons has' on) others last_eq
    obtain ⟨inside', cut', -⟩ := h.cut_piece (has'.isPiece (sub'.subset List.mem_cons_self))
    obtain ⟨rest', -, rfl⟩ := parts?_cons cut' others
    -- the line feed stands where the piece ends, which is before the next piece starts
    have apart := (List.pairwise_cons.1 ((Line.pairwise_next (List.suffix_refl _)).sublist sub)).1 m
      List.mem_cons_self
    have eol : (⟨'\n', r.toSource piece.2⟩ : Placed).Precedes source (r.toSource next.1) :=
      ⟨h.toSource_lt (has.lt has' apart) (Text.le_bytes_of_isBoundary has'.cut.start),
        fun visible => absurd rfl visible⟩
    have cells : Region.joinPieces ((r.toSource piece.1, inside.map Placed.char) ::
          (r.toSource next.1, inside'.map Placed.char) :: rest') =
        inside ++ (⟨'\n', r.toSource piece.2⟩ ::
          Region.joinPieces ((r.toSource next.1, inside'.map Placed.char) :: rest')) := by
      rw [Region.joinPieces, Placed.along_append, along, size, List.append_assoc]
      · rfl
      · rintro ⟨⟩
    rw [cells, maps_append_iff, place_append, place_cons, start]
    exact ⟨⟨maps, by rwa [first], after⟩, rfl⟩

/-- Pieces lie inside lines of a text, in order and no two of them in one line. -/
def OnLines (s : Text) (pieces : List (Nat × Nat)) : Prop :=
  List.SublistForall₂ (Line.Has s) pieces (Line.split s)

theorem OnLines.isCut {s : Text} {piece : Nat × Nat} {pieces : List (Nat × Nat)}
    (h : OnLines s pieces) (mem : piece ∈ pieces) : s.IsCut piece.1 piece.2 := by
  obtain ⟨ls, on, -⟩ := List.sublistForall₂_iff.1 h
  clear h
  induction on with
  | nil => cases mem
  | cons has _ ih =>
    rcases List.mem_cons.1 mem with rfl | mem
    · exact has.cut
    · exact ih mem

theorem maps_of_fromPieces? {pieces : List (Nat × Nat)} (h : Maps source r.stop r.cells)
    (on : OnLines r.text pieces) (joined : r.fromPieces? pieces = some inner) :
    Maps source inner.stop inner.cells := by
  obtain ⟨ls, has, sub⟩ := List.sublistForall₂_iff.1 on
  obtain ⟨parts, taken, made⟩ := Option.bind_eq_some_iff.1 joined
  cases made
  cases has with
  | nil =>
    cases taken
    exact Nat.le_trans (h.locate_le 0) h.stop_le
  | @cons piece l pieces ls first rest =>
    have last_eq := List.getLast?_eq_some_getLast (List.cons_ne_nil piece pieces)
    rw [last_eq]
    exact (h.joinPieces sub (.cons first rest) taken last_eq).1

/-! ### Regions taken from a source -/

/-- Regions that are taken from a source by cutting regions and joining pieces of their lines. -/
inductive Taken (source : Text) : Region → Prop
  | root : Taken source (root source)
  | slice {r inner : Region} {start stop : Nat} (taken : Taken source r)
    (cut : r.slice? start stop = some inner) : Taken source inner
  | join {r inner : Region} {pieces : List (Nat × Nat)} (taken : Taken source r)
    (on : OnLines r.text pieces) (joined : r.fromPieces? pieces = some inner) : Taken source inner

theorem maps_of_taken (taken : Taken source r) : Maps source r.stop r.cells := by
  induction taken with
  | root => exact maps_of_follows (faithful_root source)
  | slice _ cut ih => exact maps_of_slice? ih cut
  | join _ on joined ih => exact maps_of_fromPieces? ih on joined

/-- **Source maps.** In a region that is taken from a source, every byte that is no line feed stands
in the source, at the place that the region gives it; places are in order, up to the end of the
region, and none is past the end of the source. The region can be cut between any two boundaries and
joined from any pieces of its lines. -/
theorem source_map_of_taken (taken : Taken source r) :
    (∀ i b, r.text.octets[i]? = some b → b ≠ 10 → source.octets[r.toSource i]? = some b) ∧
      (∀ i j, i < j → j ≤ r.text.octets.length → r.toSource i < r.toSource j) ∧
      (∀ i, r.toSource i ≤ source.octets.length) ∧
      (∀ start stop, Text.IsCut r.text start stop → (r.slice? start stop).isSome = true) ∧
      ∀ pieces, OnLines r.text pieces → (r.fromPieces? pieces).isSome = true := by
  have maps := maps_of_taken taken
  rw [Text.length_octets, Text.length_octets]
  refine ⟨fun i b byte visible => maps.getElem?_octets byte visible,
    fun i j lt le => maps.toSource_lt lt le, fun i => Nat.le_trans (maps.locate_le i) maps.stop_le,
    fun start stop cut => slice?_isSome_iff.2 cut,
    fun pieces on => fromPieces?_isSome_iff.2 fun piece mem => on.isCut mem⟩

/-- The text of a quote is joined, and its second line cut out with the line feed before it. -/
theorem source_map_of_taken_quote :
    ∃ r, Taken ['>', ' ', 'é', '\n', '>', ' ', 'b'] r ∧ r.text = ['\n', 'b'] ∧
      r.toSource 0 = 4 ∧ r.toSource 1 = 7 ∧
      (Text.octets ['>', ' ', 'é', '\n', '>', ' ', 'b'])[r.toSource 1]? = some 98 := by
  have on : OnLines ['>', ' ', 'é', '\n', '>', ' ', 'b'] [(2, 4), (7, 8)] := by
    refine List.sublistForall₂_iff.2 ⟨_, ?_, List.Sublist.refl _⟩
    exact .cons ⟨by decide, by decide, by decide⟩ (.cons ⟨by decide, by decide, by decide⟩ .nil)
  have joined : Taken ['>', ' ', 'é', '\n', '>', ' ', 'b'] _ := Taken.root.join on rfl
  have cut : Taken ['>', ' ', 'é', '\n', '>', ' ', 'b'] _ := @Taken.slice _ _ _ 2 4 joined rfl
  exact ⟨_, cut, rfl, rfl, rfl, (source_map_of_taken cut).1 1 98 rfl (by decide)⟩

end Region
end Folio
