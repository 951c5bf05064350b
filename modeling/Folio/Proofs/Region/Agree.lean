import Folio.Proofs.Region.Parts

/-!
# Regions that agree

Two regions agree from an offset on if they place their characters in the same way and have the same
characters there, as far as some ends reach. What is made of that part is the same in both. Main
statements:

* `Region.Agree.span_eq`, `Block.slice_eq_of_agree` and `Block.gather_eq_of_agree`: spans, parts and
  joined pieces;
* `Region.agree_root` and `Region.agree_root_of_suffix`: whole sources that differ only elsewhere.
-/

namespace Folio

namespace Region

/-- Two regions agree on what starts at `start` or later and ends at one of some offsets. -/
structure Agree (r r' : Region) (start : Nat) (ends : Nat → Prop) : Prop where
  toSource_eq : r.toSource = r'.toSource
  sizeAt_eq : ∀ n, start ≤ n → ends (n + 1) → sizeAt r.text n = sizeAt r'.text n
  cutCells?_eq : ∀ m n, start ≤ m → ends n → r.cutCells? m n = r'.cutCells? m n

variable {r r' : Region} {start m n k : Nat} {ends : Nat → Prop}

namespace Agree

variable (h : Agree r r' start ends)

include h

theorem span_eq (le : start ≤ m) (stop : ends n) : r.span m n = r'.span m n := by
  unfold span
  rw [h.toSource_eq]
  split
  · have last : n - 1 + 1 = n := by omega
    rw [h.sizeAt_eq (n - 1) (by omega) (last.symm ▸ stop)]
  · rfl

theorem slice?_eq (le : start ≤ m) (stop : ends n) : r.slice? m n = r'.slice? m n := by
  rw [slice?, slice?, h.toSource_eq, h.cutCells?_eq m n le stop]

theorem fromPieces?_eq {pieces : List (Nat × Nat)}
    (within : ∀ p ∈ pieces, start ≤ p.1 ∧ ends p.2) :
    r.fromPieces? pieces = r'.fromPieces? pieces := by
  have parts : r.parts? pieces = r'.parts? pieces := by
    induction pieces with
    | nil => rfl
    | cons p ps ih =>
      rw [List.forall_mem_cons] at within
      have rest := ih within.2
      rw [parts?, parts?] at rest ⊢
      rw [List.mapM_cons, List.mapM_cons, rest]
      dsimp only
      rw [h.cutCells?_eq p.1 p.2 within.1.1 within.1.2, h.toSource_eq]
  unfold fromPieces?
  rw [parts?, parts?] at parts
  rw [parts, h.toSource_eq]

end Agree

/-! ### Parts of cells -/

theorem splitCells?_cons {p : Placed} {ps : List Placed} (pos : 0 < n) :
    splitCells? (p :: ps) n =
      if p.char.utf8Size ≤ n then
        (splitCells? ps (n - p.char.utf8Size)).map fun (before, after) => (p :: before, after)
      else none := by
  obtain ⟨n, rfl⟩ := Nat.exists_eq_add_one_of_ne_zero (Nat.ne_of_gt pos)
  rfl

theorem splitCells?_append_add (p q : List Placed) (n : Nat) :
    splitCells? (p ++ q) (Text.bytes (p.map Placed.char) + n) =
      (splitCells? q n).map fun (before, after) => (p ++ before, after) := by
  induction p with
  | nil =>
    rw [List.nil_append, List.map_nil, Text.bytes_nil, Nat.zero_add]
    cases splitCells? q n <;> rfl
  | cons c p ih =>
    have pos := c.char.utf8Size_pos
    have rest : c.char.utf8Size + Text.bytes (p.map Placed.char) + n - c.char.utf8Size =
        Text.bytes (p.map Placed.char) + n := by omega
    rw [List.cons_append, List.map_cons, Text.bytes_cons, splitCells?_cons (by omega),
      if_pos (by omega), rest, ih]
    cases splitCells? q n <;> rfl

theorem splitCells?_append_of_le {p : List Placed} (le : n ≤ Text.bytes (p.map Placed.char))
    (q : List Placed) :
    splitCells? (p ++ q) n = (splitCells? p n).map fun (before, after) => (before, after ++ q) := by
  induction p generalizing n with
  | nil =>
    obtain rfl : n = 0 := Nat.le_zero.1 le
    cases q <;> rfl
  | cons c p ih =>
    rw [List.map_cons, Text.bytes_cons] at le
    by_cases zero : n = 0
    · rw [zero]
      rfl
    · have pos : 0 < n := Nat.pos_of_ne_zero zero
      rw [List.cons_append, splitCells?_cons pos, splitCells?_cons pos]
      split
      · rw [ih (by omega)]
        cases splitCells? p (n - c.char.utf8Size) <;> rfl
      · rfl

theorem cutCells?_of_lt (lt : n < m) : r.cutCells? m n = none := by
  rw [cutCells?, if_pos lt]
  rfl

/-- What is cut from cells after others is cut from the cells alone. -/
theorem cutCells?_of_append {p q : List Placed} (cells : r.cells = p ++ q)
    (size : Text.bytes (p.map Placed.char) = k) (stop : Nat) :
    r.cutCells? (k + m) (k + n) = cutCells? ⟨q, stop⟩ m n := by
  by_cases lt : n < m
  · rw [cutCells?_of_lt lt, cutCells?_of_lt (by omega)]
  · unfold cutCells?
    rw [cells, ← size, splitCells?_append_add, if_neg (by omega), if_neg lt,
      Nat.add_sub_add_left]
    cases splitCells? q m <;> rfl

/-- What is cut from cells before others is cut from the cells alone. -/
theorem cutCells?_of_le {p q : List Placed} (le : n ≤ Text.bytes (p.map Placed.char))
    (stop stop' : Nat) : cutCells? ⟨p ++ q, stop⟩ m n = cutCells? ⟨p, stop'⟩ m n := by
  by_cases lt : n < m
  · rw [cutCells?_of_lt lt, cutCells?_of_lt lt]
  · unfold cutCells?
    rw [if_neg lt, if_neg lt]
    dsimp only
    rw [splitCells?_append_of_le (by omega)]
    cases split : splitCells? p m with
    | none => rfl
    | some parts =>
      obtain ⟨before, after⟩ := parts
      obtain ⟨rfl, size⟩ := eq_append_of_splitCells? split
      rw [List.map_append, Text.bytes_append] at le
      have rest : splitCells? (after ++ q) (n - m) =
          (splitCells? after (n - m)).map fun (inside, after) => (inside, after ++ q) :=
        splitCells?_append_of_le (by omega) q
      dsimp [bind, Option.bind]
      rw [rest]
      cases splitCells? after (n - m) <;> rfl

theorem sizeAt_append_of_lt {s t : Text} (lt : n < Text.bytes s) :
    sizeAt (s ++ t) n = sizeAt s n := by
  induction s generalizing n with
  | nil => exact absurd lt (Nat.not_lt_zero n)
  | cons c s ih =>
    rw [Text.bytes_cons] at lt
    rw [List.cons_append, sizeAt, sizeAt]
    split
    · rfl
    · exact ih (by omega)

/-! ### Whole sources -/

/-- Offsets of a whole source are their own places, but for those past its end. -/
theorem toSource_root (s : Text) (n : Nat) : (root s).toSource n = min n (Text.bytes s) := by
  have along : ∀ pos, locate (pos + Text.bytes s) (Placed.along pos s) n =
      pos + min n (Text.bytes s) := by
    induction s generalizing n with
    | nil =>
      intro pos
      rw [Text.bytes_nil, Nat.min_zero]
      rfl
    | cons c s ih =>
      intro pos
      rw [Placed.along, locate, Text.bytes_cons]
      dsimp only
      split
      · omega
      · have rest := ih (n - c.utf8Size) (pos + c.utf8Size)
        rw [Nat.add_assoc] at rest
        omega
  have whole := along 0
  rwa [Nat.zero_add, Nat.zero_add] at whole

theorem toSource_root_eq {s s' : Text} (size : Text.bytes s = Text.bytes s') :
    (root s).toSource = (root s').toSource := by
  funext n
  rw [toSource_root, toSource_root, size]

theorem cells_root (v w : Text) :
    (root (v ++ w)).cells = Placed.along 0 v ++ Placed.along (Text.bytes v) w := by
  rw [root, Placed.along_append, Nat.zero_add]

variable {s s' v v' u w w' : Text}

/-- Sources that are the same from an offset on agree from there on. -/
theorem agree_root_of_suffix (text : s = v ++ u) (text' : s' = v' ++ u)
    (size : Text.bytes v = Text.bytes v') :
    Agree (root s) (root s') (Text.bytes v) (fun _ => True) where
  toSource_eq := toSource_root_eq (by rw [text, text', Text.bytes_append, Text.bytes_append, size])
  sizeAt_eq := by
    intro n le _
    obtain ⟨k, rfl⟩ := Nat.exists_eq_add_of_le le
    rw [text_root, text_root, text, text', sizeAt_append, size, sizeAt_append]
  cutCells?_eq := by
    intro m n le _
    by_cases lt : n < m
    · rw [cutCells?_of_lt lt, cutCells?_of_lt lt]
    · obtain ⟨i, rfl⟩ := Nat.exists_eq_add_of_le le
      obtain ⟨j, rfl⟩ : ∃ j, n = Text.bytes v + j := Nat.exists_eq_add_of_le (by omega)
      have first : Text.bytes ((Placed.along 0 v).map Placed.char) = Text.bytes v := by simp
      have first' : Text.bytes ((Placed.along 0 v').map Placed.char) = Text.bytes v := by simp [size]
      rw [text, text', cutCells?_of_append (cells_root v u) first 0,
        cutCells?_of_append (cells_root v' u) first' 0, size]

/-- Sources that are the same between two offsets agree there. -/
theorem agree_root (text : s = v ++ (u ++ w)) (text' : s' = v' ++ (u ++ w'))
    (size : Text.bytes v = Text.bytes v') (size' : Text.bytes w = Text.bytes w') :
    Agree (root s) (root s') (Text.bytes v) (· ≤ Text.bytes v + Text.bytes u) where
  toSource_eq := toSource_root_eq (by simp [text, text', size, size'])
  sizeAt_eq := by
    intro n le lt
    obtain ⟨k, rfl⟩ := Nat.exists_eq_add_of_le le
    rw [text_root, text_root, text, text', sizeAt_append, size, sizeAt_append,
      sizeAt_append_of_lt (by omega), sizeAt_append_of_lt (by omega)]
  cutCells?_eq := by
    intro m n le le'
    by_cases lt : n < m
    · rw [cutCells?_of_lt lt, cutCells?_of_lt lt]
    · obtain ⟨i, rfl⟩ := Nat.exists_eq_add_of_le le
      obtain ⟨j, rfl⟩ : ∃ j, n = Text.bytes v + j := Nat.exists_eq_add_of_le (by omega)
      have first : Text.bytes ((Placed.along 0 v).map Placed.char) = Text.bytes v := by simp
      have first' : Text.bytes ((Placed.along 0 v').map Placed.char) = Text.bytes v := by simp [size]
      have within : ∀ pos, j ≤ Text.bytes ((Placed.along pos u).map Placed.char) := by
        intro pos
        rw [Placed.map_char_along]
        omega
      rw [text, text', cutCells?_of_append (cells_root v _) first 0,
        cutCells?_of_append (cells_root v' _) first' 0, Placed.along_append, Placed.along_append,
        size, cutCells?_of_le (within _) 0 0, cutCells?_of_le (within _) 0 0]

end Region

namespace Block

variable {r r' : Region} {start : Nat} {ends : Nat → Prop}

theorem slice_eq_of_agree {m n : Nat} (h : Region.Agree r r' start ends) (le : start ≤ m)
    (stop : ends n) : slice r m n = slice r' m n := by
  rw [slice, slice, h.slice?_eq le stop]

theorem gather_eq_of_agree {pieces : List (Nat × Nat)} (h : Region.Agree r r' start ends)
    (within : ∀ p ∈ pieces, start ≤ p.1 ∧ ends p.2) : gather r pieces = gather r' pieces := by
  have bad : badPiece r pieces = badPiece r' pieces := by
    unfold badPiece
    congr 1
    induction pieces with
    | nil => rfl
    | cons p ps ih =>
      rw [List.forall_mem_cons] at within
      rw [List.find?_cons, List.find?_cons, ih within.2]
      dsimp only
      rw [h.cutCells?_eq p.1 p.2 within.1.1 within.1.2]
  rw [gather, gather, h.fromPieces?_eq within, bad]

end Block
end Folio
