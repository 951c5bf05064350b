import Folio.Json.Reader
import Folio.Proofs.Json.CompactText
import Folio.Proofs.Markup.WidenedBlocks
import Folio.Proofs.Render.OneWidget

/-!
# Values in braces

Any JSON value can be written in braces, as the value of a prop or as a document of its own.

* `Document.exists_parse_literal`: a literal is read as a paragraph of one expression;
* `compile_braced`: the compact text of a value compiles to the value, as a prop and as a document.
-/

namespace Folio

variable {s e : Text}

/-! ### A literal as a document -/

/-- Nothing is left to do for tokens that have been read. -/
theorem Inline.readFrom_of_all_passed {r : Region} {st : State} {resume : Nat} {ts : List Lexeme}
    (passed : ∀ t ∈ ts, t.stop ≤ resume) :
    readFrom r st resume ts = .ok (State.unwind st.out st.frames) := by
  induction ts with
  | nil => rfl
  | cons t ts ih =>
    rw [List.forall_mem_cons] at passed
    rw [readFrom_cons, if_pos passed.1, ih passed.2]

theorem Lexeme.stop_le_of_stand {ts : List Lexeme} (stand : Stand s ts) :
    ∀ t ∈ ts, t.stop ≤ Text.bytes s := by
  induction ts with
  | nil => nofun
  | cons t ts ih =>
    exact List.forall_mem_cons.2
      ⟨Text.le_bytes_of_isBoundary stand.holds.isBoundary_stop, ih stand.2.2⟩

/-- A literal is read as one expression. -/
theorem Inline.read_literal {r : Region} (text : r.text = e) (literal : Expression.IsLiteral e) :
    Inline.read r = .ok [.expression (Expression.source e) (r.span 0 (Text.bytes e))] := by
  have whole : Expression.read 0 e = .ok e := by simpa using literal.read 0 []
  obtain ⟨u, -, braces⟩ := literal
  have stand := Lexeme.stand_readAll e
  have joined : Lexeme.join (Lexeme.readAll e) = e :=
    (Lexeme.stand_readFrom (p := []) (Text.IsRest.refl e)).2
  have tokens : ∃ ts, Lexeme.readAll e =
      { token := .brace, start := 0, text := ['{'], before := none, after := (u ++ ['}']).head? } ::
        ts := by
    rw [braces]
    exact ⟨_, Lexeme.readFrom_cons (w := []) rfl⟩
  obtain ⟨ts, tokens⟩ := tokens
  have filled : 0 < Text.bytes ['{'] := by decide
  have passed : ∀ t ∈ ts, t.stop ≤ Text.bytes e := by
    rw [tokens] at stand
    exact Lexeme.stop_le_of_stand stand.2.2
  rw [Inline.read, text, tokens, readFrom_cons, if_neg (by exact Nat.not_le_of_lt filled),
    if_neg (Nat.lt_irrefl 0), next, take, ← tokens, joined]
  dsimp only
  rw [whole]
  dsimp only [bind, Except.bind]
  rw [Nat.zero_add, Inline.readFrom_of_all_passed passed]
  rfl

/-- A literal on one line declares nothing, and is a paragraph. -/
theorem Document.exists_parse_literal (formats : Formats) (eol : '\n' ∉ e)
    (literal : Expression.IsLiteral e) :
    Declaration.scan e = [] ∧ ∃ span span', Document.parse formats e =
      .ok (.ofBlocks [.paragraph [.expression (Expression.source e) span] span']) := by
  obtain ⟨u, -, braces⟩ := id literal
  have lines : Line.split e = [{ start := 0, text := e, ending := .none }] :=
    Line.split_of_eol_not_mem eol (by rw [braces]; exact List.cons_ne_nil _ _)
  have first : (Text.trimStart e).head? = some '{' := by
    rw [braces]
    rfl
  have quiet : IsQuiet e := isQuiet_of_head? first (by decide)
  have nothing : Declaration.scan e = [] := by
    have bare : Declaration.declared? true { start := 0, text := e, ending := .none } [] = none := by
      rw [Declaration.declared?_eq_none_iff]
      refine .inr ⟨fun imports => ?_, fun exports => ?_⟩
      · obtain ⟨rest, text⟩ := Declaration.exists_of_isImport imports
        rw [show e = 'i' :: rest from text] at first
        cases first
      · rw [Declaration.head?_of_isExport exports.2] at first
        cases first
    unfold Declaration.scan
    rw [lines]
    exact Declaration.scanFrom_of_bare (Nat.zero_le _) quiet.filled bare
  have flush : body e = e := by
    rw [braces]
    rfl
  obtain ⟨content, content_text, paragraph⟩ := Document.exists_parse_line formats eol quiet nothing
  rw [flush] at content_text
  obtain ⟨span, read⟩ := paragraph _ (Inline.read_literal content_text literal)
  exact ⟨nothing, content.span 0 (Text.bytes e), span, read⟩

/-! ### Compilation -/

/-- **Every value without doubles can be written in braces**: as the prop of a widget that accepts all
props, and as a document. -/
theorem compile_braced (formats : Formats) (caps : CapabilitySet) {v : Json} (exact_ : v.IsExact)
    (reads : formats.json v.compact.toList = .ok v) {w : Widget} (known : caps.get? "W" = some w)
    (accepts : ∀ props, w.validate props = .ok ()) :
    compile formats caps ("<W p=\x7b".toList ++ (v.compact.toList ++ "\x7d />".toList)) =
      .tree { nodes := [.widget "W" [("p", v)] [] ⟨0, Text.bytes v.compact.toList + 10⟩]
              metadata := none } ∧
    compile formats caps ('{' :: (v.compact.toList ++ ['}'])) =
      .tree { nodes := [.el "p" [.text v.display]], metadata := none } := by
  have written := Json.isWritten_compact exact_
  have literal := Json.isLiteral_compact exact_
  have said : Expression.source ('{' :: (v.compact.toList ++ ['}'])) = v.compact := by
    rw [Expression.source, List.drop_succ_cons, List.drop_zero, List.dropLast_concat,
      Json.trim_compact exact_, String.ofList_toList]
  have evaluated : ∀ span, Evaluation.expression formats v.compact span = .ok v := by
    intro span
    rw [Evaluation.expression, reads]
  constructor
  · have named : IsTagName ['W'] := ⟨rfl, List.all_eq_true.1 (by decide)⟩
    have propNamed : OpenTag.IsPropName ['p'] := ⟨rfl, List.all_eq_true.1 (by decide)⟩
    have value := isValue_expression literal
    rw [said] at value
    have evaluated' : ∀ span, Evaluation.propValue formats
        { name := "p", value := .expression v.compact, span } = .ok v := evaluated
    have blank : Text.isBlank [] = true := rfl
    have compiled := compile_tagText named propNamed value blank known evaluated' (accepts _)
    have parts : tagText ['W'] ['p'] ('{' :: (v.compact.toList ++ ['}'])) =
        "<W p=\x7b".toList ++ (v.compact.toList ++ "\x7d />".toList) := by
      simp [tagText, OpenTag.propLead, OpenTag.ending]
    have front : Text.bytes "<W p=\x7b".toList = 6 := rfl
    have back : Text.bytes "\x7d />".toList = 4 := rfl
    rw [List.append_nil, parts, Text.bytes_append, Text.bytes_append, front, back, Nat.add_comm 6,
      Nat.add_assoc] at compiled
    exact compiled
  · have eol : '\n' ∉ '{' :: (v.compact.toList ++ ['}']) := by
      simp only [List.mem_cons, List.mem_append, List.not_mem_nil, or_false, not_or]
      exact ⟨by decide, fun mem => absurd (written.shown _ mem) (by decide), by decide⟩
    obtain ⟨nothing, span, span', read⟩ := Document.exists_parse_literal formats eol literal
    have made : Evaluation.block formats caps (.paragraph [.expression v.compact span] span') =
        .ok (.el "p" [.text v.display]) := by
      rw [Evaluation.block, Evaluation.inlines, Evaluation.inline, evaluated, Evaluation.inlines]
      rfl
    rw [said] at read
    rw [compile_of_scan_eq_nil formats caps nothing read, Document.evaluate_of_block rfl made]

/-- An object whose strings hold quotes, braces, a backslash and a line feed. -/
theorem compile_braced_object :
    let formats : Formats := {
      json := fun s => (Json.read? s).elim (.error "") .ok
      yaml := fun _ => .error "" }
    let w : Widget := {
      name := "W", describe := "", template := ""
      validate := fun _ => .ok (), render := fun _ _ => .broken none }
    let caps : CapabilitySet := { widgets := [("W", w)] }
    let v : Json := .object [("a\"\x7d", .array [.null, .integer (-7)]), ("b", .string "'\\\x7b\né")]
    (v.IsExact ∧ formats.json v.compact.toList = .ok v ∧ caps.get? "W" = some w ∧
        ∀ props, w.validate props = .ok ()) ∧
      compile formats caps ("<W p=\x7b".toList ++ (v.compact.toList ++ "\x7d />".toList)) =
        .tree { nodes := [.widget "W" [("p", v)] [] ⟨0, Text.bytes v.compact.toList + 10⟩]
                metadata := none } ∧
      compile formats caps ('{' :: (v.compact.toList ++ ['}'])) =
        .tree { nodes := [.el "p" [.text v.display]], metadata := none } := by
  intro formats w caps v
  have items : ∀ i ∈ [Json.null, .integer (-7)], i.IsExact := by
    simp only [List.mem_cons, List.not_mem_nil, or_false]
    rintro i (rfl | rfl)
    exacts [.null, .integer _]
  have exact_ : v.IsExact := by
    refine .object ?_
    simp only [List.mem_cons, List.not_mem_nil, or_false]
    rintro f (rfl | rfl)
    exacts [.array items, .string _]
  have text : v.compact.toList = ['{', '"', 'a', '\\', '"', '}', '"', ':', '[', 'n', 'u', 'l', 'l', ',',
      '-', '7', ']', ',', '"', 'b', '"', ':', '"', '\'', '\\', '\\', '{', '\\', 'n', 'é', '"', '}'] := by
    decide +kernel
  have reads : formats.json v.compact.toList = .ok v := by
    rw [text]
    rfl
  exact ⟨⟨exact_, reads, rfl, fun _ => rfl⟩,
    compile_braced formats caps exact_ reads rfl fun _ => rfl⟩

end Folio
