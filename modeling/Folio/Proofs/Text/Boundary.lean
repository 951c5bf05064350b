import Folio.Editor.Selection

/-!
# Boundaries

An offset is a boundary of a text exactly if it is the size of a beginning of the text. Two
boundaries in order are a *cut*: they have a part of the text between them.

* `Text.split?_eq_some_iff` and `Text.isBoundary_iff` say which offsets are boundaries;
* `Text.isBoundary_floor` says that pulling an offset back reaches one;
* `Text.IsCut.exists_parts` says what a cut divides a text into;
* `Selection.clamp_fits` says that a clamped selection is a cut.
-/

namespace Folio

namespace Text

@[simp] theorem split?_zero (s : Text) : split? s 0 = some ([], s) := by
  cases s <;> rfl

theorem split?_cons {n : Nat} (c : Char) (s : Text) (pos : 0 < n) :
    split? (c :: s) n =
      if c.utf8Size ≤ n then
        (split? s (n - c.utf8Size)).map fun (before, after) => (c :: before, after)
      else none := by
  obtain ⟨n, rfl⟩ := Nat.exists_eq_succ_of_ne_zero (Nat.ne_of_gt pos)
  rfl

/-- A text is divided at the size of its first part. -/
theorem split?_append (s t : Text) : split? (s ++ t) (bytes s) = some (s, t) := by
  induction s with
  | nil => simp
  | cons c s ih =>
    have pos := c.utf8Size_pos
    rw [List.cons_append, bytes_cons, split?_cons c (s ++ t) (by omega), if_pos (by omega),
      Nat.add_sub_cancel_left, ih]
    rfl

theorem eq_append_of_split? {s p q : Text} {n : Nat} (h : split? s n = some (p, q)) :
    s = p ++ q ∧ bytes p = n := by
  induction s generalizing n p with
  | nil =>
    cases n with
    | zero =>
      cases h
      exact ⟨rfl, rfl⟩
    | succ n => cases h
  | cons c s ih =>
    cases n with
    | zero =>
      cases h
      exact ⟨rfl, rfl⟩
    | succ n =>
      rw [split?_cons c s (Nat.succ_pos n)] at h
      split at h
      · rename_i le
        obtain ⟨⟨p', q'⟩, h', e⟩ := Option.map_eq_some_iff.1 h
        cases e
        obtain ⟨rfl, size⟩ := ih h'
        refine ⟨rfl, ?_⟩
        rw [bytes_cons, size]
        omega
      · cases h

theorem split?_eq_some_iff {s p q : Text} {n : Nat} :
    split? s n = some (p, q) ↔ s = p ++ q ∧ bytes p = n := by
  constructor
  · exact eq_append_of_split?
  · rintro ⟨rfl, rfl⟩
    exact split?_append p q

theorem isBoundary_iff {s : Text} {n : Nat} :
    isBoundary s n = true ↔ ∃ p q, s = p ++ q ∧ bytes p = n := by
  rw [isBoundary, Option.isSome_iff_exists]
  constructor
  · rintro ⟨⟨p, q⟩, h⟩
    exact ⟨p, q, eq_append_of_split? h⟩
  · rintro ⟨p, q, rfl, rfl⟩
    exact ⟨(p, q), split?_append p q⟩

@[simp] theorem isBoundary_zero (s : Text) : isBoundary s 0 = true := by
  simp [isBoundary]

theorem isBoundary_bytes (s : Text) : isBoundary s (bytes s) = true :=
  isBoundary_iff.2 ⟨s, [], by simp, rfl⟩

theorem isBoundary_append (s t : Text) : isBoundary (s ++ t) (bytes s) = true :=
  isBoundary_iff.2 ⟨s, t, rfl, rfl⟩

theorem le_bytes_of_isBoundary {s : Text} {n : Nat} (h : isBoundary s n = true) : n ≤ bytes s := by
  obtain ⟨p, q, rfl, rfl⟩ := isBoundary_iff.1 h
  rw [bytes_append]
  omega

/-- The boundary at or before an offset. -/
theorem isBoundary_floor (s : Text) (n : Nat) : isBoundary s (floor s n) = true :=
  isBoundary_iff.2 ⟨takeBytes s n, dropBytes s n, by simp, by simp⟩

theorem dropBytes_append (s t : Text) : dropBytes (s ++ t) (bytes s) = t := by
  induction s with
  | nil =>
    cases t with
    | nil => rfl
    | cons c t => exact if_neg (Nat.not_le_of_lt c.utf8Size_pos)
  | cons c s ih =>
    rw [List.cons_append, bytes_cons, dropBytes, if_pos (Nat.le_add_right ..),
      Nat.add_sub_cancel_left, ih]

theorem takeBytes_append (s t : Text) : takeBytes (s ++ t) (bytes s) = s := by
  have parts := takeBytes_append_dropBytes (s ++ t) (bytes s)
  rw [dropBytes_append] at parts
  exact List.append_cancel_right parts

theorem floor_of_isBoundary {s : Text} {n : Nat} (boundary : isBoundary s n = true) :
    floor s n = n := by
  obtain ⟨before, after, rfl, rfl⟩ := isBoundary_iff.1 boundary
  rw [← bytes_takeBytes, takeBytes_append]

theorem dropBytes_append_of_le {v w : Text} {n : Nat} (le : n ≤ bytes v) :
    dropBytes (v ++ w) n = dropBytes v n ++ w := by
  induction v generalizing n with
  | nil =>
    obtain rfl : n = 0 := Nat.le_zero.1 le
    exact dropBytes_append [] w
  | cons c v ih =>
    rw [bytes_cons] at le
    rw [List.cons_append, dropBytes, dropBytes]
    split
    · exact ih (by omega)
    · rfl

/-! ### Cuts -/

/-- Two offsets are boundaries of a text, in order. -/
structure IsCut (text : Text) (start stop : Nat) : Prop where
  ordered : start ≤ stop
  start : isBoundary text start = true
  stop : isBoundary text stop = true

instance (text : Text) (start stop : Nat) : Decidable (IsCut text start stop) :=
  decidable_of_iff (start ≤ stop ∧ isBoundary text start = true ∧ isBoundary text stop = true)
    ⟨fun ⟨ordered, start, stop⟩ => ⟨ordered, start, stop⟩, fun h => ⟨h.ordered, h.start, h.stop⟩⟩

/-- Of two beginnings of a text the smaller one begins the other. -/
theorem prefix_of_bytes_le {p q p' q' : Text} (e : p ++ q = p' ++ q') (le : bytes p ≤ bytes p') :
    ∃ t, p' = p ++ t := by
  rcases List.append_eq_append_iff.1 e with ⟨t, rfl, -⟩ | ⟨t, rfl, -⟩
  · exact ⟨t, rfl⟩
  · cases t with
    | nil => exact ⟨[], by simp⟩
    | cons c t =>
      have pos := c.utf8Size_pos
      simp only [bytes_append, bytes_cons] at le
      omega

theorem IsCut.exists_parts {text : Text} {start stop : Nat} (h : IsCut text start stop) :
    ∃ before inside after, text = before ++ (inside ++ after) ∧ bytes before = start ∧
      bytes before + bytes inside = stop := by
  obtain ⟨before, rest, text_eq, rfl⟩ := isBoundary_iff.1 h.start
  obtain ⟨upto, after, text_eq', rfl⟩ := isBoundary_iff.1 h.stop
  obtain ⟨inside, rfl⟩ := prefix_of_bytes_le (text_eq.symm.trans text_eq') h.ordered
  exact ⟨before, inside, after, by rw [text_eq', List.append_assoc], rfl, by rw [bytes_append]⟩

theorem isCut_of_parts (before inside after : Text) :
    IsCut (before ++ (inside ++ after)) (bytes before) (bytes before + bytes inside) where
  ordered := Nat.le_add_right ..
  start := isBoundary_append before _
  stop := by
    rw [← bytes_append, ← List.append_assoc]
    exact isBoundary_append _ after

end Text

namespace Selection

/-- The ends of a selection are boundaries of a text, in order. -/
abbrev Fits (s : Selection) (text : Text) : Prop := Text.IsCut text s.start s.stop

theorem between_fits {text : Text} {a b : Nat} (ha : Text.isBoundary text a = true)
    (hb : Text.isBoundary text b = true) : (between a b).Fits text := by
  unfold between
  split
  · rename_i le
    exact ⟨le, ha, hb⟩
  · rename_i gt
    exact ⟨Nat.le_of_not_le gt, hb, ha⟩

theorem clamp_fits (s : Selection) (text : Text) : (s.clamp text).Fits text :=
  between_fits (Text.isBoundary_floor text s.start) (Text.isBoundary_floor text s.stop)

theorem cursor_fits (text : Text) : (cursor 0).Fits text :=
  ⟨Nat.le_refl 0, by simp [cursor], by simp [cursor]⟩

end Selection
end Folio
