import Folio.Editor.Command
import Folio.Proofs.Render.OneWidget
import Folio.Render.Builtin
import Mathlib.Data.List.Basic

/-!
# Uploaded images

The markup of an uploaded image is read back as a figure of the address with its quotes escaped,
as long as no backslash stands in the address: what follows a backslash is taken for an escape.

* `compile_uploadedImage_iff`: which addresses the markup keeps;
* `compile_uploadedImage_backslash`: an address that it does not keep.
-/

namespace Folio

variable {formats : Formats} {caps : CapabilitySet} {c : Char} {s t rest v w url : Text}

/-! ### Quoted strings with escapes -/

namespace TagToken

/-- An escape stands for no more than its character. -/
theorem utf8Size_escaped_le (c : Char) :
    (if c == 'n' then '\n' else if c == 't' then '\t' else c).utf8Size ≤ c.utf8Size := by
  split
  · exact c.utf8Size_pos
  · split
    · exact c.utf8Size_pos
    · exact Nat.le_refl _

theorem bytes_unescape_le (s : Text) : Text.bytes (unescape s) ≤ Text.bytes s := by
  fun_induction unescape s with
  | case1 => exact Nat.le_refl _
  | case2 c s ih =>
    have size := utf8Size_escaped_le c
    simp only [Text.bytes_cons]
    omega
  | case3 c s plain ih =>
    simp only [Text.bytes_cons]
    omega

theorem bytes_unescape_lt (c : Char) (s : Text) :
    Text.bytes (unescape ('\\' :: c :: s)) < Text.bytes ('\\' :: c :: s) := by
  have size := utf8Size_escaped_le c
  have le := bytes_unescape_le s
  have backslash : '\\'.utf8Size = 1 := rfl
  rw [unescape]
  simp only [Text.bytes_cons, backslash]
  omega

/-- A quoted string that is as long as the text that it stands for has no escapes. -/
theorem exists_body_of_quotedRest? (found : quotedRest? '"' s = some rest) :
    ∃ body, rest = body ++ ['"'] ∧
      (Text.bytes (unescape body) = Text.bytes body → '\\' ∉ body) := by
  fun_induction quotedRest? '"' s generalizing rest with
  | case1 => cases found
  | case2 c s eol => cases found
  | case3 c s eol ih =>
    obtain ⟨rest, more, rfl⟩ := Option.map_eq_some_iff.1 found
    obtain ⟨body, rfl, -⟩ := ih more
    exact ⟨'\\' :: c :: body, rfl, fun same => absurd same (Nat.ne_of_lt (bytes_unescape_lt c body))⟩
  | case4 c s _ closes =>
    cases found
    rw [beq_iff_eq] at closes
    exact ⟨[], by rw [closes]; rfl, fun _ => List.not_mem_nil⟩
  | case5 c s => cases found
  | case6 c s _ _ other ih =>
    obtain ⟨rest, more, rfl⟩ := Option.map_eq_some_iff.1 found
    obtain ⟨body, rfl, plain⟩ := ih more
    have is_plain : c ≠ '\\' := by simpa using other
    refine ⟨c :: body, rfl, fun same => ?_⟩
    rw [unescape, Text.bytes_cons, Text.bytes_cons, Nat.add_left_cancel_iff] at same
    · rw [List.mem_cons, not_or]
      exact ⟨Ne.symm is_plain, plain same⟩
    · exact fun _ _ escape => absurd escape is_plain

end TagToken

theorem mem_of_mem_stripSpans {spans : List Span} {at_ : Nat} (mem : c ∈ stripSpans spans at_ s)
    (visible : c ≠ ' ') : c ∈ s := by
  induction s generalizing at_ with
  | nil => cases mem
  | cons d s ih =>
    rw [stripSpans, List.mem_append] at mem
    rcases mem with first | more
    · split at first
      · exact List.mem_cons.2 (.inl (List.mem_singleton.1 (mem_of_mem_blankOut first visible)))
      · exact List.mem_cons.2 (.inl (List.mem_singleton.1 first))
    · exact List.mem_cons_of_mem d (ih more)

/-! ### The markup of an image -/

/-- An address with its quotes escaped. -/
def withoutQuotes (url : Text) : Text := url.flatMap fun c => if c == '"' then ['%', '2', '2'] else [c]

theorem quote_not_mem_withoutQuotes (url : Text) : '"' ∉ withoutQuotes url := by
  rw [withoutQuotes, List.mem_flatMap]
  rintro ⟨c, -, mem⟩
  split at mem
  · exact absurd mem (by decide)
  · next other => exact other (by simpa using Eq.symm (List.mem_singleton.1 mem))

theorem backslash_mem_withoutQuotes : '\\' ∈ withoutQuotes url ↔ '\\' ∈ url := by
  rw [withoutQuotes, List.mem_flatMap]
  constructor
  · rintro ⟨c, mem, inside⟩
    split at inside
    · exact absurd inside (by decide)
    · rwa [List.mem_singleton.1 inside]
  · exact fun mem => ⟨'\\', mem, List.mem_singleton.2 rfl⟩

/-- The start of an image's markup. -/
def imageLead : Text := OpenTag.propLead "Figure".toList "src".toList

theorem isTagName_figure : IsTagName "Figure".toList := ⟨rfl, List.all_eq_true.1 (by decide)⟩

theorem isPropName_src : OpenTag.IsPropName "src".toList :=
  ⟨rfl, List.all_eq_true.1 (by decide)⟩

theorem uploadedImage_eq (url : Text) :
    uploadedImage url = imageLead ++ '"' :: (withoutQuotes url ++ '"' :: [' ', '/', '>', '\n']) := by
  have lead : "<Figure src=\"".toList = imageLead ++ ['"'] := by decide
  have tail : "\" />\n".toList = '"' :: [' ', '/', '>', '\n'] := by decide
  unfold uploadedImage
  rw [lead, tail, List.append_assoc, List.append_assoc, List.singleton_append, withoutQuotes]

theorem Edit.insert_empty (piece : Text) (selection : Selection) :
    (Edit.insert piece [] selection).text = piece := by
  simp [Edit.insert, Edit.put, Text.takeBytes, Text.dropBytes]

/-- The figure that an image's markup is to show. -/
def figureOf (url : Text) (span : Span) : Node :=
  .widget "Figure" [("src", .string (String.ofList (withoutQuotes url)))] [] span

/-- The markup is read as a figure if the string in it ends where it is meant to. -/
theorem compile_uploadedImage (formats : Formats)
    (quoted : TagToken.quotedRest? '"' (withoutQuotes url ++ ['"']) = some (withoutQuotes url ++ ['"'])) :
    ∃ span, compile formats .builtins (uploadedImage url) =
      .tree { nodes := [.widget "Figure"
                [("src", .string (String.ofList (TagToken.unescape (withoutQuotes url))))] [] span]
              metadata := none } := by
  have written : IsValue ('"' :: (withoutQuotes url ++ ['"']))
      (.string (String.ofList (TagToken.unescape (withoutQuotes url)))) := by
    intro tag at_ start name prop rest
    have own := TagToken.quotedRest?_own (by decide) quoted rest
    rw [List.cons_append, OpenTag.readFrom_quoted rest own, TagToken.unquote, List.drop_succ_cons,
      List.drop_zero, List.dropLast_concat]
  have text : uploadedImage url =
      tagText "Figure".toList "src".toList ('"' :: (withoutQuotes url ++ ['"'])) ++ ['\n'] := by
    simp [uploadedImage_eq, tagText, imageLead, OpenTag.ending]
  have known : CapabilitySet.builtins.get? (String.ofList "Figure".toList) = some Builtin.figure := by
    rw [String.ofList_toList]
    rfl
  have accepts : Builtin.figure.validate [(String.ofList "src".toList,
      .string (String.ofList (TagToken.unescape (withoutQuotes url))))] = .ok () := by
    rw [String.ofList_toList]
    rfl
  have blank : Text.isBlank ['\n'] = true := by decide
  have evaluated : ∀ span, Evaluation.propValue formats
      { name := String.ofList "src".toList
        value := .string (String.ofList (TagToken.unescape (withoutQuotes url))), span } =
        .ok (.string (String.ofList (TagToken.unescape (withoutQuotes url)))) := fun _ => rfl
  have made := compile_tagText isTagName_figure isPropName_src written blank known evaluated accepts
  rw [String.ofList_toList, String.ofList_toList, ← text] at made
  exact ⟨_, made⟩

/-! ### Addresses with backslashes -/

/-- A quote stays one character when a text is stripped. -/
theorem exists_stripSpans_quote (spans : List Span) (at_ : Nat) (s : Text) :
    ∃ c, stripSpans spans at_ ('"' :: s) = c :: stripSpans spans (at_ + 1) s := by
  rw [stripSpans]
  split
  · exact ⟨' ', rfl⟩
  · exact ⟨'"', rfl⟩

/-- Stripping may blank out lines of an address, but no quote comes into it. -/
theorem exists_strip_uploadedImage (url : Text) :
    ∃ s c e, strip (uploadedImage url) = imageLead ++ '"' :: (s ++ c :: e) ∧
      Text.bytes s = Text.bytes (withoutQuotes url) ∧ '"' ∉ s ∧ '"' ∉ e := by
  have text : uploadedImage url =
      imageLead ++ ['"'] ++ (withoutQuotes url ++ '"' :: [' ', '/', '>', '\n']) := by
    rw [uploadedImage_eq, List.append_assoc, List.singleton_append]
  obtain ⟨spans, stripped⟩ :=
    strip_append_of_widget (w := imageLead ++ ['"']) (by decide) (by simp [imageLead, OpenTag.propLead])
      (fun _ => rfl) (withoutQuotes url ++ '"' :: [' ', '/', '>', '\n'])
  have kept : ∀ {at_ : Nat} {u : Text}, '"' ∉ u → '"' ∉ stripSpans spans at_ u :=
    fun bare mem => bare (mem_of_mem_stripSpans mem (by decide))
  have tail : '"' ∉ [' ', '/', '>', '\n'] := by decide
  rw [stripSpans_append, ← text] at stripped
  obtain ⟨c, closing⟩ := exists_stripSpans_quote spans
    (Text.bytes (imageLead ++ ['"']) + Text.bytes (withoutQuotes url)) [' ', '/', '>', '\n']
  rw [closing, List.append_assoc, List.singleton_append] at stripped
  exact ⟨_, c, _, stripped, bytes_stripSpans spans _ _, kept (quote_not_mem_withoutQuotes url), kept tail⟩

/-- An address that is kept has no backslashes. -/
theorem backslash_not_mem_of_compile {t : Tree} {span : Span}
    (compiled : compile formats caps (uploadedImage url) = .tree t)
    (nodes : t.nodes = [figureOf url span]) : '\\' ∉ url := by
  obtain ⟨s, c, e, stripped, size, bare, bare'⟩ := exists_strip_uploadedImage url
  obtain ⟨ns, metadata⟩ := t
  obtain rfl : ns = [figureOf url span] := nodes
  obtain ⟨v, quoted, src⟩ :=
    exists_quoted_of_compile isTagName_figure isPropName_src stripped compiled
  obtain ⟨body, rfl, escapes⟩ := TagToken.exists_body_of_quotedRest? quoted
  obtain ⟨rest, whole⟩ := TagToken.isPrefix_of_quotedRest? quoted
  -- the string that is read ends at the only quote, so it is what stripping has left of the address
  have body_eq : body = s := by
    rw [List.append_assoc] at whole
    exact ((List.append_cons_inj_of_notMem bare bare').1 whole.symm).1.symm
  have resolved : withoutQuotes url = TagToken.unescape body := by
    have same : some (Json.string (String.ofList (withoutQuotes url))) =
        some (Json.string (String.ofList (TagToken.unquote ('"' :: (body ++ ['"']))))) := src
    rw [TagToken.unquote, List.drop_succ_cons, List.drop_zero, List.dropLast_concat] at same
    exact String.ofList_injective (Json.string.inj (Option.some.inj same))
  -- stripping keeps the size, so the string has none to spare for an escape
  have plain : '\\' ∉ body := escapes (by rw [← resolved, ← size, body_eq])
  rw [TagToken.unescape_plain plain] at resolved
  rwa [← backslash_mem_withoutQuotes, resolved]

/-- **An uploaded image keeps its address, with its quotes escaped, just if no backslash stands in
it.** -/
theorem compile_uploadedImage_iff (formats : Formats) (url : Text) (selection : Selection) :
    (∃ t span, compile formats .builtins (Edit.insert (uploadedImage url) [] selection).text = .tree t ∧
        t.nodes = [figureOf url span]) ↔ '\\' ∉ url := by
  rw [Edit.insert_empty]
  constructor
  · rintro ⟨t, span, compiled, nodes⟩
    exact backslash_not_mem_of_compile compiled nodes
  · intro plain
    have unescaped : '\\' ∉ withoutQuotes url := fun mem => plain (backslash_mem_withoutQuotes.1 mem)
    have quoted := TagToken.quotedRest?_plain ⟨quote_not_mem_withoutQuotes url, unescaped⟩ []
    obtain ⟨span, compiled⟩ := compile_uploadedImage formats quoted
    rw [TagToken.unescape_plain unescaped] at compiled
    exact ⟨_, span, compiled, rfl⟩

/-- The address `a\b` is lost: the figure is one of `ab`. -/
theorem compile_uploadedImage_backslash :
    let formats : Formats := { json := fun _ => .ok .null, yaml := fun _ => .ok .null }
    let source := (Edit.insert (uploadedImage "a\\b".toList) [] (.cursor 0)).text
    source = "<Figure src=\"a\\b\" />\n".toList ∧
      (∃ span, compile formats .builtins source =
        .tree { nodes := [.widget "Figure" [("src", .string "ab")] [] span], metadata := none }) ∧
      ¬∃ t span, compile formats .builtins source = .tree t ∧
        t.nodes = [figureOf "a\\b".toList span] := by
  intro formats source
  have text : source = uploadedImage "a\\b".toList := Edit.insert_empty _ _
  have address : withoutQuotes "a\\b".toList = "a\\b".toList := by decide
  have resolved : String.ofList (TagToken.unescape "a\\b".toList) = "ab" := by decide
  have quoted : TagToken.quotedRest? '"' (withoutQuotes "a\\b".toList ++ ['"']) =
      some (withoutQuotes "a\\b".toList ++ ['"']) := by decide
  have made := compile_uploadedImage formats quoted
  rw [address, resolved, ← text] at made
  refine ⟨by rw [text]; decide, made, ?_⟩
  rintro ⟨t, span, compiled, nodes⟩
  obtain ⟨other, made⟩ := made
  rw [made] at compiled
  obtain rfl := Compiled.tree.inj compiled
  exact absurd nodes (by rw [figureOf, address]; simp)

end Folio
