import Folio.Proofs.Text.Boundary

/-!
# What stands at an offset

`Text.IsRest s pos t` says that `t` is all that follows the offset `pos` in `s`, and
`Text.Holds s pos w` that `w` stands there. Both imply that the offset is a boundary.

* `Text.IsRest.unique`: an offset has at most one rest;
* `Text.IsRest.trans`: rests of rests are rests;
* `Text.holds_append_iff`: two texts stand one after the other exactly if each of them stands in
  its place.
-/

namespace Folio.Text

variable {s t u v w : Text} {pos n : Nat} {c : Char}

/-- The text `t` is what follows an offset. -/
def IsRest (s : Text) (pos : Nat) (t : Text) : Prop :=
  ∃ before, s = before ++ t ∧ bytes before = pos

/-- The text `w` stands at an offset. -/
def Holds (s : Text) (pos : Nat) (w : Text) : Prop :=
  ∃ after, IsRest s pos (w ++ after)

/-! ### Rests -/

theorem isBoundary_iff_isRest : isBoundary s pos = true ↔ ∃ t, IsRest s pos t := by
  rw [isBoundary_iff]
  constructor
  · rintro ⟨before, t, s_eq, size⟩
    exact ⟨t, before, s_eq, size⟩
  · rintro ⟨t, before, s_eq, size⟩
    exact ⟨before, t, s_eq, size⟩

namespace IsRest

theorem refl (s : Text) : IsRest s 0 s := ⟨[], rfl, rfl⟩

theorem isBoundary (h : IsRest s pos t) : isBoundary s pos = true :=
  isBoundary_iff_isRest.2 ⟨t, h⟩

theorem unique (h : IsRest s pos t) (h' : IsRest s pos u) : t = u := by
  obtain ⟨before, s_eq, size⟩ := h
  obtain ⟨before', s_eq', size'⟩ := h'
  have first : split? s pos = some (before, t) := split?_eq_some_iff.2 ⟨s_eq, size⟩
  have second : split? s pos = some (before', u) := split?_eq_some_iff.2 ⟨s_eq', size'⟩
  rw [first] at second
  cases second
  rfl

theorem trans (h : IsRest s pos t) (h' : IsRest t n u) : IsRest s (pos + n) u := by
  obtain ⟨before, rfl, rfl⟩ := h
  obtain ⟨between, rfl, rfl⟩ := h'
  exact ⟨before ++ between, by rw [List.append_assoc], by rw [bytes_append]⟩

theorem append (h : IsRest s pos (w ++ t)) : IsRest s (pos + bytes w) t :=
  h.trans ⟨w, rfl, rfl⟩

theorem cons (h : IsRest s pos (c :: t)) : IsRest s (pos + c.utf8Size) t := by
  have rest := IsRest.append (w := [c]) h
  rwa [bytes_cons, bytes_nil, Nat.add_zero] at rest

theorem holds_of_begins (h : IsRest s pos t) (begins : w <+: t) : Holds s pos w := by
  obtain ⟨after, rfl⟩ := begins
  exact ⟨after, h⟩

end IsRest

/-! ### Texts that stand somewhere -/

theorem holds_nil_iff : Holds s pos [] ↔ isBoundary s pos = true := isBoundary_iff_isRest.symm

namespace Holds

theorem isBoundary (h : Holds s pos w) : isBoundary s pos = true := by
  obtain ⟨after, rest⟩ := h
  exact rest.isBoundary

theorem isBoundary_stop (h : Holds s pos w) : Text.isBoundary s (pos + bytes w) = true := by
  obtain ⟨after, rest⟩ := h
  exact rest.append.isBoundary

theorem isCut (h : Holds s pos w) : IsCut s pos (pos + bytes w) :=
  ⟨Nat.le_add_right .., h.isBoundary, h.isBoundary_stop⟩

/-- A character that stands in a text is one of its characters. -/
theorem mem (h : Holds s pos w) (mem : c ∈ w) : c ∈ s := by
  obtain ⟨after, before, rfl, -⟩ := h
  exact List.mem_append_right _ (List.mem_append_left _ mem)

end Holds

theorem holds_append_iff : Holds s pos (v ++ w) ↔ Holds s pos v ∧ Holds s (pos + bytes v) w := by
  constructor
  · rintro ⟨after, rest⟩
    rw [List.append_assoc] at rest
    exact ⟨⟨w ++ after, rest⟩, ⟨after, rest.append⟩⟩
  · rintro ⟨⟨after, first⟩, ⟨after', second⟩⟩
    have after_eq : after = w ++ after' := first.append.unique second
    rw [after_eq, ← List.append_assoc] at first
    exact ⟨after', first⟩

theorem holds_cons_iff : Holds s pos (c :: w) ↔ Holds s pos [c] ∧ Holds s (pos + c.utf8Size) w := by
  rw [← List.singleton_append, holds_append_iff, bytes_cons, bytes_nil, Nat.add_zero]

/-- Of one size, only one text stands at an offset. -/
theorem Holds.unique (h : Holds s pos v) (h' : Holds s pos w) (size : bytes v = bytes w) :
    v = w := by
  obtain ⟨after, rest⟩ := h
  obtain ⟨after', rest'⟩ := h'
  have same : v ++ after = w ++ after' := rest.unique rest'
  have first : split? (v ++ after) (bytes v) = some (v, after) := split?_append v after
  rw [same, size, split?_append] at first
  cases first
  rfl

/-- Of two texts that stand at an offset, the smaller one begins the other. -/
theorem Holds.isPrefix (h : Holds s pos v) (h' : Holds s pos w) (le : bytes v ≤ bytes w) :
    v <+: w := by
  obtain ⟨after, rest⟩ := h
  obtain ⟨after', rest'⟩ := h'
  obtain ⟨t, rfl⟩ := prefix_of_bytes_le (rest.unique rest') le
  exact ⟨t, rfl⟩

/-- What stands within a text that stands somewhere, stands in that text. -/
theorem Holds.inside (outer : Holds s pos v) (held : Holds s (pos + n) w)
    (le : n + bytes w ≤ bytes v) : Holds v n w := by
  obtain ⟨after, before, rfl, rfl⟩ := outer
  obtain ⟨after', before', text_eq, size⟩ := held
  obtain ⟨between, rfl⟩ := prefix_of_bytes_le text_eq (by omega)
  rw [bytes_append, Nat.add_left_cancel_iff] at size
  rw [List.append_assoc, List.append_cancel_left_eq, ← List.append_assoc] at text_eq
  obtain ⟨rest, rfl⟩ := prefix_of_bytes_le text_eq.symm (by rw [bytes_append, size]; exact le)
  exact ⟨rest, between, List.append_assoc .., size⟩

/-- What stands at an offset is cut out there. -/
theorem Holds.cut?_eq (held : Holds s n w) : cut? s n (n + bytes w) = some w := by
  obtain ⟨after, before, rfl, rfl⟩ := held
  simp [cut?, split?_append]

theorem cut?_eq_some_iff {m : Nat} : cut? s n m = some w ↔ Holds s n w ∧ n + bytes w = m := by
  constructor
  · intro cut
    rw [cut?] at cut
    split at cut
    · cases cut
    · rename_i ordered
      obtain ⟨⟨before, after⟩, first, cut⟩ := Option.bind_eq_some_iff.1 cut
      obtain ⟨⟨inside, rest⟩, second, cut⟩ := Option.bind_eq_some_iff.1 cut
      cases cut
      obtain ⟨rfl, rfl⟩ := eq_append_of_split? first
      obtain ⟨rfl, size⟩ := eq_append_of_split? second
      exact ⟨⟨rest, before, rfl, rfl⟩, by omega⟩
  · rintro ⟨held, rfl⟩
    exact held.cut?_eq

/-- The rest further on. -/
theorem IsRest.dropBytes (h : IsRest s pos t) (boundary : Text.isBoundary s n = true)
    (le : pos ≤ n) : IsRest s n (Text.dropBytes t (n - pos)) := by
  obtain ⟨u, rest⟩ := isBoundary_iff_isRest.1 boundary
  obtain ⟨before, rfl, rfl⟩ := h
  obtain ⟨before', s_eq, rfl⟩ := rest
  obtain ⟨between, rfl⟩ := prefix_of_bytes_le s_eq le
  rw [List.append_assoc, List.append_cancel_left_eq] at s_eq
  rw [s_eq, bytes_append, Nat.add_sub_cancel_left, dropBytes_append]
  exact ⟨before ++ between, by rw [List.append_assoc], by rw [bytes_append]⟩

/-- A cut has a text standing in it. -/
theorem IsCut.exists_holds {start stop : Nat} (h : IsCut s start stop) :
    ∃ w, Holds s start w ∧ start + bytes w = stop := by
  obtain ⟨before, inside, after, rfl, rfl, size⟩ := h.exists_parts
  exact ⟨inside, ⟨after, before, rfl, rfl⟩, size⟩

end Folio.Text
