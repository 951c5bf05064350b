import Folio.Proofs.Markup.Bodies
import Folio.Proofs.Markup.Scan
import Folio.Proofs.Region.Content

/-!
# The characters of parts

Regions are made of the characters of the source and line feeds: `Block.mem_of_bodies` says so of
the bodies of widgets. So a source without tags has no bodies, `Block.bodies_eq_nil`. And a source in
which all white space is made of characters of one byte has no line that a margin can divide within a
character: `Document.parse_ne_badCut` says that such a source is either read or has a mistake.
-/

namespace Folio

/-- All white space of a text is made of characters of one byte. -/
def Text.HasSmallBlanks (s : Text) : Prop :=
  ∀ c ∈ s, isBlankChar c = true → c.utf8Size = 1

namespace Block

variable {r content : Region} {l : Line} {ls : List Line} {inner : Inner} {c : Char}

/-! ### The characters of a part -/

theorem mem_of_dedent (h : dedent r = .ok content) (mem : c ∈ content.text) :
    c = '\n' ∨ c ∈ r.text := by
  unfold dedent at h
  dsimp only at h
  split at h
  · cases h
    exact .inr mem
  · exact mem_of_gather h mem

theorem mem_of_widgetBody? (h : widgetBody? r l ls = some content) (mem : c ∈ content.text) :
    c ∈ r.text := by
  unfold widgetBody? at h
  dsimp only at h
  split at h
  · cases h
  · split at h
    · cases h
    · obtain ⟨close, -, taken⟩ := Option.bind_eq_some_iff.1 h
      obtain ⟨before, after, text_eq, -⟩ := Region.text_of_slice? taken
      rw [text_eq]
      exact List.mem_append_right _ (List.mem_append_left _ mem)

theorem mem_of_itemContents {ordered : Bool} {resume : Nat}
    (item : content ∈ itemContents inner r ordered resume ls) (mem : c ∈ content.text) :
    c = '\n' ∨ c ∈ r.text := by
  induction ls generalizing resume with
  | nil => cases item
  | cons l ls ih =>
    rw [itemContents] at item
    split at item
    · exact ih item
    · split at item
      · cases item
      · split at item
        · cases item
        · rename_i joined
          rcases List.mem_cons.1 item with rfl | item
          · exact mem_of_gather joined mem
          · split at item
            · exact ih item
            · cases item

theorem mem_of_handed (part : content ∈ handed inner r l ls) (mem : c ∈ content.text) :
    c = '\n' ∨ c ∈ r.text := by
  unfold handed at part
  split at part
  · cases joined : quoteContent r l ls with
    | error e =>
      rw [joined] at part
      cases part
    | ok quoted =>
      rw [joined] at part
      cases List.mem_singleton.1 part
      exact mem_of_gather joined mem
  · exact mem_of_itemContents part mem
  · obtain ⟨body, found, dedented⟩ := Option.bind_eq_some_iff.1 (Option.mem_toList.1 part)
    cases read : dedent body with
    | error e =>
      rw [read] at dedented
      cases dedented
    | ok content =>
      rw [read] at dedented
      cases dedented
      exact (mem_of_dedent read mem).imp_right (mem_of_widgetBody? found)
  · cases part

/-- The bodies in a region are made of its characters and line feeds. -/
theorem mem_of_bodies {levels : Nat} {skip : List Declaration} {r body : Region}
    (reached : body ∈ bodies levels skip r) (mem : c ∈ body.text) : c = '\n' ∨ c ∈ r.text := by
  induction levels generalizing skip r with
  | zero => cases reached
  | succ levels ih =>
    obtain ⟨⟨l, ls⟩, -, reached⟩ := List.mem_flatMap.1 reached
    rcases List.mem_append.1 reached with found | inside
    · have found := Option.mem_toList.1 found
      unfold bodyAt? at found
      split at found
      · exact .inr (mem_of_widgetBody? found mem)
      · cases found
    · obtain ⟨content, handed, reached⟩ := List.mem_flatMap.1 inside
      rcases ih reached with rfl | mem
      · exact .inl rfl
      · exact mem_of_handed handed mem

/-- There are no bodies where there are no tags. -/
theorem bodies_eq_nil {levels : Nat} {skip : List Declaration} {r : Region} (tagless : '<' ∉ r.text) :
    bodies levels skip r = [] := by
  induction levels generalizing skip r with
  | zero => rfl
  | succ levels ih =>
    rw [bodies, List.flatMap_eq_nil_iff]
    rintro ⟨l, ls⟩ mem
    have l_mem : l ∈ r.lines := (suffix_of_mem_starts mem).subset List.mem_cons_self
    have none : bodyAt? r l ls = none := by
      have fits := opening_fits l.text
      unfold bodyAt?
      split
      · rename_i kind
        rw [kind] at fits
        exact absurd ((Line.holds l_mem).mem (mem_of_isWidgetStart fits)) tagless
      · rfl
    dsimp only
    rw [none, Option.toList_none, List.nil_append, List.flatMap_eq_nil_iff]
    intro content handed
    refine ih fun angle => ?_
    rcases mem_of_handed handed angle with eol | angle
    · cases eol
    · exact tagless angle

/-! ### White space -/

/-- Characters of one byte are not divided. -/
theorem straddles_eq_false (small : r.text.HasSmallBlanks) (mem : l ∈ r.lines) :
    straddles (margin r) l = false := by
  rw [← Bool.not_eq_true]
  intro inside
  have blank := isBlank_of_straddles mem inside
  obtain ⟨p, c, q, text_eq, gt, lt⟩ := straddles_iff.1 inside
  have in_line : c ∈ l.text := by simp [text_eq]
  have size := small c ((Line.holds mem).mem in_line) (List.all_eq_true.1 blank c in_line)
  omega

end Block

/-- A source whose white space is made of characters of one byte is not cut within a character. -/
theorem Document.parse_ne_badCut (formats : Formats) {source : Text}
    (small : source.HasSmallBlanks) (a b : Nat) :
    Document.parse formats source ≠ .error (.badCut a b) := by
  rw [Ne, Document.parse_badCut_iff_body]
  rintro ⟨-, body, reached, failed⟩
  obtain ⟨l, found, -⟩ := Block.dedent_eq_error_iff.1 failed
  have body_small : body.text.HasSmallBlanks := by
    intro c mem blank
    rcases Block.mem_of_bodies reached mem with rfl | mem
    · rfl
    · exact small c (Region.text_root source ▸ mem) blank
  have straddled := List.find?_some found
  rw [Block.straddles_eq_false body_small (List.mem_of_find?_eq_some found)] at straddled
  cases straddled

end Folio
