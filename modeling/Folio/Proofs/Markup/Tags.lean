import Folio.Markup.Tag
import Folio.Proofs.Text.Boundary

/-!
# Offsets of tags

Tags are read character by character, with the offset of each. `OpenTag.stop_of_read` says that an
opening tag ends at a boundary of the text, and `ClosingTag.start_of_find?` that the closing tag of
a body starts at one.
-/

namespace Folio

/-- An offset is a boundary of a text whose first character is at offset `at_`. -/
def Text.IsBoundaryFrom (at_ : Nat) (s : Text) (offset : Nat) : Prop :=
  ∃ before after, s = before ++ after ∧ offset = at_ + bytes before

namespace Text.IsBoundaryFrom

variable {at_ offset : Nat} {c : Char} {s : Text}

theorem start (at_ : Nat) (s : Text) : IsBoundaryFrom at_ s at_ := ⟨[], s, rfl, rfl⟩

theorem cons (h : IsBoundaryFrom (at_ + c.utf8Size) s offset) :
    IsBoundaryFrom at_ (c :: s) offset := by
  obtain ⟨before, after, rfl, rfl⟩ := h
  exact ⟨c :: before, after, rfl, by rw [bytes_cons, Nat.add_assoc]⟩

end Text.IsBoundaryFrom

namespace TagToken

theorem isPrefix_of_quotedRest? {quote : Char} {s rest : Text}
    (h : quotedRest? quote s = some rest) : rest <+: s := by
  fun_induction quotedRest? quote s generalizing rest with
  | case1 => cases h
  | case2 c s eol => cases h
  | case3 c s eol ih =>
    obtain ⟨rest, more, rfl⟩ := Option.map_eq_some_iff.1 h
    exact (List.prefix_cons_inj _).2 ((List.prefix_cons_inj _).2 (ih more))
  | case4 c s _ closes =>
    cases h
    exact (List.prefix_cons_inj _).2 ⟨s, rfl⟩
  | case5 c s => cases h
  | case6 c s _ _ _ ih =>
    obtain ⟨rest, more, rfl⟩ := Option.map_eq_some_iff.1 h
    exact (List.prefix_cons_inj _).2 (ih more)

theorem starts_of_head? {s : Text} {c : Char} (h : (s.head? == some c) = true) : [c] <+: s :=
  List.singleton_prefix_iff_head?_eq_some.2 (beq_iff_eq.1 h)

/-- A token is read at the start of a text. -/
theorem isPrefix_of_read? {s : Text} {t : TagToken} (h : read? s = some t) : t.text <+: s := by
  unfold read? at h
  split at h
  · cases h
  · split at h
    · rename_i slash
      cases h
      exact (List.prefix_cons_inj _).2 (starts_of_head? slash)
    · cases h
      exact ⟨_, rfl⟩
  · cases h
    exact ⟨_, rfl⟩
  · cases h
    exact ⟨_, rfl⟩
  · cases h
    exact ⟨_, rfl⟩
  · split at h
    · rename_i angle
      cases h
      exact (List.prefix_cons_inj _).2 (starts_of_head? angle)
    · cases h
  · split at h
    · cases h
      exact (List.prefix_cons_inj _).2 ⟨_, List.takeWhile_append_dropWhile⟩
    · split at h
      · obtain ⟨rest, quoted, rfl⟩ := Option.map_eq_some_iff.1 h
        exact (List.prefix_cons_inj _).2 (isPrefix_of_quotedRest? quoted)
      · cases h

end TagToken

namespace OpenTag

theorem stop_of_readyStep {name : String} {props : List WidgetProp} {at_ : Nat} {c : Char}
    {token : Option TagToken} {t : OpenTag}
    (h : readyStep name props at_ c token = .ok (.done t)) :
    ∃ last, token = some last ∧ t.stop = at_ + Text.bytes last.text := by
  unfold readyStep at h
  split at h
  · cases h
    exact ⟨_, rfl, rfl⟩
  · cases h
    exact ⟨_, rfl, rfl⟩
  · cases h
  · cases h
  · split at h <;> cases h

/-- The reading of a tag is complete past a token. -/
theorem stop_of_step {state : State} {at_ : Nat} {c : Char} {s : Text} {t : OpenTag}
    (h : step state at_ c s = .ok (.done t)) :
    ∃ last, TagToken.read? (c :: s) = some last ∧ t.stop = at_ + Text.bytes last.text := by
  unfold step at h
  cases state with
  | opened =>
    dsimp only at h
    split at h <;> cases h
  | ready name props => exact stop_of_readyStep h
  | named name props prop span =>
    dsimp only at h
    split at h
    · cases h
    · exact stop_of_readyStep h
  | valued name props prop start =>
    simp only [valueStep] at h
    repeat' split at h
    all_goals cases h

theorem stop_of_readFrom {tag : Nat} {state : State} {resume at_ : Nat} {s : Text} {t : OpenTag}
    (h : readFrom tag state resume at_ s = .ok t) : Text.IsBoundaryFrom at_ s t.stop := by
  fun_induction readFrom tag state resume at_ s with
  | case1 => cases h
  | case2 state resume at_ c s skipped ih => exact (ih h).cons
  | case3 state resume at_ c s starts e => cases h
  | case4 state resume at_ c s starts t' done =>
    cases h
    obtain ⟨last, token, stop⟩ := stop_of_step done
    obtain ⟨after, text_eq⟩ := TagToken.isPrefix_of_read? token
    exact ⟨last.text, after, text_eq.symm, stop⟩
  | case5 state resume at_ c s starts state' resume' more ih => exact (ih h).cons

/-- An opening tag ends at a boundary of the text that it is read from. -/
theorem stop_of_read {at_ : Nat} {s : Text} {t : OpenTag} (h : read at_ s = .ok t) :
    Text.IsBoundaryFrom at_ s t.stop := by
  unfold read at h
  dsimp only at h
  split at h
  · exact stop_of_readFrom h
  · cases h

end OpenTag

namespace ClosingTag

theorem start_of_findFrom {name : Text} {depth : Nat} {lineStart : Bool} {resume at_ : Nat}
    {s : Text} {close : ClosingTag} (h : findFrom name depth lineStart resume at_ s = some close) :
    Text.IsBoundaryFrom at_ s close.start := by
  fun_induction findFrom name depth lineStart resume at_ s with
  | case1 => cases h
  -- all ways but one go on with the next character
  | case2 _ _ _ _ _ _ _ _ ih => exact (ih h).cons
  | case3 _ _ _ _ _ _ _ _ _ fence ih => exact (ih h).cons
  | case4 _ _ _ _ _ _ _ _ _ eol ih => exact (ih h).cons
  | case5 _ _ _ _ _ _ _ _ _ _ code ih => exact (ih h).cons
  | case6 _ _ at_ c s _ _ _ _ _ found =>
    cases h
    exact .start at_ (c :: s)
  | case7 _ _ _ _ _ _ _ _ _ _ _ inner _ ih => exact (ih h).cons
  | case8 _ _ _ _ _ _ _ _ _ _ _ _ reopened _ ih => exact (ih h).cons
  | case9 _ _ _ _ _ _ _ _ _ _ _ _ _ ih => exact (ih h).cons

/-- A closing tag starts at a boundary of the text of the body and what follows it. -/
theorem start_of_find? {name : Text} {lineStart : Bool} {at_ : Nat} {s : Text} {close : ClosingTag}
    (h : find? name lineStart at_ s = some close) : Text.IsBoundaryFrom at_ s close.start :=
  start_of_findFrom h

end ClosingTag
end Folio
