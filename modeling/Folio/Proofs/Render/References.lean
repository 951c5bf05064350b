import Folio.Proofs.Render.OneWidget

/-!
# References to registered widgets

A registry takes every name that starts with an upper-case letter, and a tag refers to a widget by a
name of letters, digits and a few marks. The two rules agree on some names only. Main statements:

* `Registry.register_eq_ok_iff` and `Registry.get?_of_register`: which widgets are registered, and that
  they stay so, whatever is registered after them;
* `Document.isNameChar_of_head?`: the first widget of a text has the name of a tag;
* `Registry.reference_iff`: the reference to a registered widget is read as such if and only if all
  characters of its name are those of a tag's name, and what it is compiled to then.
-/

namespace Folio

variable {formats : Formats} {r r₁ r₂ : Registry} {w : Widget} {ws : List Widget}

/-! ### Registration -/

namespace Registry

/-- A widget is registered if its name starts with an upper-case letter and is not taken. -/
theorem register_eq_ok_iff :
    r.register w = .ok r₁ ↔ w.name.toList.head?.any isUpper = true ∧
      Fields.contains w.name r.widgets = false ∧
      r₁ = { widgets := Fields.insert w.name w r.widgets } := by
  unfold register
  by_cases starts : w.name.toList.head?.any isUpper = true
  · by_cases taken : Fields.contains w.name r.widgets = true
    · simp [starts, taken]
    · simp [starts, taken, eq_comm]
  · simp [starts]

/-- A registered widget is found by its name, and no other widget is replaced. -/
theorem get?_of_register_eq_ok (registered : r.register w = .ok r₁) (name : String) :
    r₁.freeze.get? name = if name = w.name then some w else r.freeze.get? name := by
  obtain ⟨-, -, rfl⟩ := register_eq_ok_iff.1 registered
  exact Fields.get?_insert name w.name w r.widgets

/-- What is found by a name is found by it after further registrations. -/
theorem get?_of_foldlM {v : Widget} {name : String} (found : r.freeze.get? name = some v)
    (more : ws.foldlM register r = .ok r₁) : r₁.freeze.get? name = some v := by
  induction ws generalizing r with
  | nil =>
    cases more
    exact found
  | cons w ws ih =>
    rw [List.foldlM_cons] at more
    cases registered : r.register w with
    | error e =>
      rw [registered] at more
      cases more
    | ok next =>
      rw [registered] at more
      refine ih ?_ more
      have free : name ≠ w.name := by
        rintro rfl
        obtain ⟨-, untaken, -⟩ := register_eq_ok_iff.1 registered
        have taken : Fields.contains w.name r.widgets = true := by
          rw [Fields.contains, show Fields.get? w.name r.widgets = some v from found]
          rfl
        rw [taken] at untaken
        cases untaken
      rw [get?_of_register_eq_ok registered, if_neg free, found]

/-- **A registered widget stays**, whatever is registered after it. -/
theorem get?_of_register (registered : r.register w = .ok r₁) (more : ws.foldlM register r₁ = .ok r₂) :
    r₂.freeze.get? w.name = some w :=
  get?_of_foldlM (by rw [get?_of_register_eq_ok registered, if_pos rfl]) more

end Registry

/-! ### The name of the first widget -/

/-- The tag that a text starts with has the name of a tag. -/
theorem OpenTag.isNameChar_of_read {c : Char} {t : Text} {tag : OpenTag} (upper : isUpper c = true)
    (read : OpenTag.read 0 ('<' :: c :: t) = .ok tag) : ∀ d ∈ tag.name.toList, isNameChar d = true := by
  have outcome := read_outcome (Text.IsRest.refl ('<' :: c :: t)) upper
  rw [read] at outcome
  exact outcome.name

/-- **The first widget of a text that starts with a tag has the name of a tag.** -/
theorem Document.isNameChar_of_head? {c : Char} {t : Text} {d : Document} {tag : WidgetTag}
    {closed : Bool} {body : List Block} (upper : isUpper c = true)
    (read : Document.parse formats ('<' :: c :: t) = .ok d)
    (first : d.blocks.head? = some (.widget tag closed body)) :
    ∀ e ∈ tag.name.toList, isNameChar e = true := by
  obtain ⟨l, ls, split, start, flush, widget⟩ := exists_split_of_isUpper upper t
  obtain ⟨b, stop, bs, taken, blocks⟩ := Document.exists_blockAt_of_widget split widget read
  rw [blocks, List.head?_cons, Option.some_inj] at first
  subst first
  rw [Block.blockAt_eq, Block.opening_of_isWidgetStart widget] at taken
  obtain ⟨opened, opened_eq, rfl⟩ := Block.exists_tagAt_of_widgetAt taken
  rw [Block.tagAt_of_split split start flush] at opened_eq
  exact OpenTag.isNameChar_of_read upper opened_eq

/-! ### References -/

namespace Widget

/-- The text that refers to a widget and holds nothing else. -/
def reference (w : Widget) : Text := OpenTag.write w.name.toList [] true

/-- The tag that the reference is to be read as. -/
def referenceTag (w : Widget) : WidgetTag :=
  { name := w.name, props := [], span := ⟨0, Text.bytes w.reference⟩ }

/-- The reference is read as one widget without props that closes itself. -/
def IsReferred (formats : Formats) (w : Widget) : Prop :=
  Document.parse formats (strip w.reference) =
    .ok { metadata := none, imports := [], blocks := [.widget w.referenceTag true []] }

/-- What the reference is compiled to when it is read as one: the widget without props and children, or
what the widget says against having no props. -/
def referenceCompiled (w : Widget) : Compiled :=
  match w.validate [] with
  | .ok () => .tree { nodes := [.widget w.name [] [] w.referenceTag.span], metadata := none }
  | .error e =>
    .failed (Failure.ofEvaluation w.reference
      { span := w.referenceTag.span, fault := .invalidProps w.name e.message })

/-- The reference to a widget whose name is a tag's name is one tag. -/
theorem exists_isLone (named : IsTagName w.name.toList) :
    ∃ tag, IsLone w.reference [] tag ∧
      Inline.tagIn (Region.root (w.reference ++ [])) tag 0 tag.stop = w.referenceTag := by
  obtain ⟨props, contents, read⟩ :=
    OpenTag.exists_read_write 0 named (List.forall_mem_nil PlainProp.IsPlain) true []
  obtain rfl : props = [] := by simpa using contents
  have lone : IsLone w.reference [] _ := {
    starts := by
      obtain ⟨starts, -⟩ := named
      rw [reference, OpenTag.write]
      cases chars : w.name.toList with
      | nil =>
        rw [chars] at starts
        cases starts
      | cons c t =>
        rw [chars] at starts
        exact ⟨c, _, rfl, starts⟩
    read := read
    selfClosing := rfl
    stop := Nat.zero_add _
    blank := rfl }
  have last : w.reference = ('<' :: (w.name.toList ++ [' ', '/'])) ++ ['>'] := by
    simp [reference, OpenTag.write, OpenTag.ending]
  refine ⟨_, lone, ?_⟩
  rw [Inline.tagIn, lone.span_eq last, String.ofList_toList, referenceTag]
  rfl

/-- The reference to a widget whose name is a tag's name is read as such. -/
theorem isReferred_of_isTagName (formats : Formats) (named : IsTagName w.name.toList) :
    w.IsReferred formats := by
  obtain ⟨tag, lone, tag_eq⟩ := exists_isLone named
  have nothing := lone.scan_eq_nil
  have read := lone.parse_eq formats
  rw [tag_eq] at read
  rw [List.append_nil] at nothing read
  rw [IsReferred, strip_of_scan_eq_nil nothing, read]

/-- What the reference is compiled to with a set that holds the widget. -/
theorem compile_reference (named : IsTagName w.name.toList) {caps : CapabilitySet}
    (known : caps.get? w.name = some w) :
    compile formats caps w.reference = w.referenceCompiled := by
  obtain ⟨tag, lone, -⟩ := exists_isLone named
  have nothing := lone.scan_eq_nil
  rw [List.append_nil] at nothing
  have read := isReferred_of_isTagName formats named
  rw [IsReferred, strip_of_scan_eq_nil nothing] at read
  have props : Evaluation.tag formats caps w.referenceTag =
      match w.validate [] with
      | .ok () => .ok []
      | .error e => .error { span := w.referenceTag.span, fault := .invalidProps w.name e.message } := by
    rw [Evaluation.tag, referenceTag]
    dsimp only
    rw [known]
    rfl
  rw [compile_of_scan_eq_nil formats caps nothing read, referenceCompiled, Document.evaluate,
    Evaluation.blocks, Evaluation.block, Evaluation.blocks, props]
  cases w.validate [] with
  | ok => rfl
  | error e => rfl

/-- Where the reference is read as such, the name is one of a tag. -/
theorem isNameChar_of_isReferred (starts : w.name.toList.head?.any isUpper = true)
    (referred : w.IsReferred formats) : ∀ c ∈ w.name.toList, isNameChar c = true := by
  cases chars : w.name.toList with
  | nil => exact List.forall_mem_nil _
  | cons c t =>
    rw [chars] at starts
    have upper : isUpper c = true := starts
    have letter : c ≠ '\n' ∧ c ≠ '\r' := by constructor <;> rintro rfl <;> cases upper
    obtain ⟨spans, stripped⟩ := strip_append_of_widget (List.cons_ne_nil '<' [c])
      (by simp [letter]) (fun t => by exact upper) (t ++ OpenTag.ending true)
    have text : w.reference = ['<', c] ++ (t ++ OpenTag.ending true) := by
      simp [reference, OpenTag.write, chars]
    rw [IsReferred, text, stripped] at referred
    have name := Document.isNameChar_of_head? upper referred rfl
    rwa [referenceTag, chars] at name

end Widget

/-- **A registered widget can be referred to if and only if its name is the name of a tag.** The registry
asks for an upper-case letter at the start of a name; the tag `<Name />` is read as one reference to the
widget when the other characters are letters, digits, `_`, `.`, `:` or `-` too, and only then. Such a
reference is compiled to the widget without props, or else the widget refuses to have none. -/
theorem Registry.reference_iff (registered : r.register w = .ok r₁)
    (more : ws.foldlM Registry.register r₁ = .ok r₂) (formats : Formats) :
    (w.IsReferred formats ↔ ∀ c ∈ w.name.toList, isNameChar c = true) ∧
      (w.IsReferred formats → compile formats r₂.freeze w.reference = w.referenceCompiled) := by
  obtain ⟨starts, -, -⟩ := Registry.register_eq_ok_iff.1 registered
  have named : w.IsReferred formats → IsTagName w.name.toList :=
    fun referred => ⟨starts, Widget.isNameChar_of_isReferred starts referred⟩
  refine ⟨⟨fun referred => (named referred).chars, fun chars => ?_⟩, fun referred => ?_⟩
  · exact Widget.isReferred_of_isTagName formats ⟨starts, chars⟩
  · exact Widget.compile_reference (named referred) (Registry.get?_of_register registered more)

/-- A name with a dot is one of a tag, and the widget is found although another one comes after it. -/
theorem Registry.reference_iff_dotted :
    let formats : Formats := { json := fun _ => .ok .null, yaml := fun _ => .ok .null }
    let named (name : String) : Widget :=
      { name, describe := "", template := "", validate := fun _ => .ok ()
        render := fun _ _ => .node (.text "") }
    let r₁ : Registry := { widgets := [("Chart.Bar", named "Chart.Bar")] }
    let r₂ : Registry := { widgets := [("Chart.Bar", named "Chart.Bar"), ("Note", named "Note")] }
    Registry.empty.register (named "Chart.Bar") = .ok r₁ ∧
      [named "Note"].foldlM Registry.register r₁ = .ok r₂ ∧
      (named "Chart.Bar").IsReferred formats ∧
      compile formats r₂.freeze (named "Chart.Bar").reference =
        .tree { nodes := [.widget "Chart.Bar" [] [] ⟨0, 13⟩], metadata := none } := by
  intro formats named r₁ r₂
  have registered : Registry.empty.register (named "Chart.Bar") = .ok r₁ :=
    Registry.register_eq_ok_iff.2 ⟨by decide, by decide, rfl⟩
  have next : r₁.register (named "Note") = .ok r₂ := by
    have after : ¬ "Note" < "Chart.Bar" := by decide
    have other : "Note" ≠ "Chart.Bar" := by decide
    refine Registry.register_eq_ok_iff.2 ⟨by decide, by decide, ?_⟩
    show r₂ = { widgets := Fields.insert "Note" (named "Note") [("Chart.Bar", named "Chart.Bar")] }
    rw [Fields.insert, if_neg after, if_neg other]
    rfl
  have more : [named "Note"].foldlM Registry.register r₁ = .ok r₂ := by
    rw [List.foldlM_cons, next]
    rfl
  obtain ⟨iff, compiled⟩ := Registry.reference_iff registered more formats
  have chars : "Chart.Bar".toList.all isNameChar = true := by decide
  have referred : (named "Chart.Bar").IsReferred formats := iff.2 (List.all_eq_true.1 chars)
  have size : Text.bytes (named "Chart.Bar").reference = 13 := by decide
  refine ⟨registered, more, referred, ?_⟩
  rw [compiled referred, Widget.referenceCompiled, Widget.referenceTag, size]

/-- A name with a space is registered, and the tag with this name refers to a widget of another name, with
the rest of the name for a prop. -/
theorem Registry.reference_spaced :
    let formats : Formats := { json := fun _ => .ok .null, yaml := fun _ => .ok .null }
    let w : Widget :=
      { name := "A b", describe := "", template := "", validate := fun _ => .ok ()
        render := fun _ _ => .node (.text "") }
    let r : Registry := { widgets := [("A b", w)] }
    Registry.empty.register w = .ok r ∧ w.reference = ['<', 'A', ' ', 'b', ' ', '/', '>'] ∧
      Document.parse formats (strip w.reference) =
        .ok { metadata := none, imports := []
              blocks := [.widget { name := "A", props := [{ name := "b", value := .flag, span := ⟨3, 4⟩ }]
                                   span := ⟨0, 7⟩ } true []] } ∧
      compile formats r.freeze w.reference =
        .failed (Failure.ofEvaluation w.reference
          { span := ⟨0, 7⟩, fault := .unknownCapability "A" }) := by
  intro formats w r
  have text : w.reference = ['<', 'A', ' ', 'b', ' ', '/', '>'] := by decide
  have read : Document.parse formats (strip w.reference) =
      .ok { metadata := none, imports := []
            blocks := [.widget { name := "A", props := [{ name := "b", value := .flag, span := ⟨3, 4⟩ }]
                                 span := ⟨0, 7⟩ } true []] } := by
    rw [text]
    rfl
  have nothing : Declaration.scan w.reference = [] := by
    rw [text]
    rfl
  refine ⟨Registry.register_eq_ok_iff.2 ⟨by decide, by decide, rfl⟩, text, read, ?_⟩
  rw [strip_of_scan_eq_nil nothing] at read
  have unknown : r.freeze.get? "A" = none := by simp [r, Registry.freeze, CapabilitySet.get?, Fields.get?]
  rw [compile_of_scan_eq_nil formats r.freeze nothing read, Document.evaluate, Evaluation.blocks,
    Evaluation.block, Evaluation.tag, unknown]
  rfl

end Folio
