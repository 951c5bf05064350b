import Folio.Render.Html
import Mathlib.Data.List.Forall2

/-!
# Escaped output

Tags are written between angle brackets, and what authors write comes out without any. Two
renderings have the same *shape* when they differ only in what authors write: texts, messages of
errors, and the values of attributes that have one. Main statements:

* `brackets_escape` and `brackets_escapeAttribute`: what is escaped has no brackets;
* `brackets_node`: nodes of one shape are written with the same brackets;
* `brackets_of_allSameShape`: so are fragments and pages, and no value of an attribute ends its
  quotes or its tag.
-/

namespace Folio

/-! ### Shapes -/

namespace Node

/-- Attributes of one name that both have a value, or neither has. -/
def SameAttribute (a b : String × String) : Prop := a.1 = b.1 ∧ (a.2 = "" ↔ b.2 = "")

mutual

/-- Nodes of one kind; elements have the same tag and names of attributes, and children of one
shape. Of a widget that is not expanded only the kind counts. -/
inductive SameShape : Node → Node → Prop
  | element {tag : String} {as bs : List (String × String)} {ns ms : List Node} :
      List.Forall₂ SameAttribute as bs → AllSameShape ns ms →
      SameShape (element tag as ns) (element tag bs ms)
  | text {s t : String} : SameShape (text s) (text t)
  | error {s t : String} {span span' : Option Span} : SameShape (error s span) (error t span')
  | widget {s t : String} {ps qs : List (String × Json)} {ns ms : List Node} {span span' : Span} :
      SameShape (widget s ps ns span) (widget t qs ms span')

/-- As many nodes, of one shape each. -/
inductive AllSameShape : List Node → List Node → Prop
  | nil : AllSameShape [] []
  | cons {n m : Node} {ns ms : List Node} :
      SameShape n m → AllSameShape ns ms → AllSameShape (n :: ns) (m :: ms)

end

section Building

variable {n m : Node} {ns ms ns' ms' : List Node} {as bs : List (String × String)}
  {name v w : String}

theorem sameAttribute_insert (values : v = "" ↔ w = "") (same : List.Forall₂ SameAttribute as bs) :
    List.Forall₂ SameAttribute (Fields.insert name v as) (Fields.insert name w bs) := by
  induction same with
  | nil => exact .cons ⟨rfl, values⟩ .nil
  | @cons a b as bs first rest ih =>
    obtain ⟨k, v'⟩ := a
    obtain ⟨k', w'⟩ := b
    obtain ⟨rfl, values'⟩ : k = k' ∧ (v' = "" ↔ w' = "") := first
    rw [Fields.insert, Fields.insert]
    split
    · exact .cons ⟨rfl, values⟩ (.cons ⟨rfl, values'⟩ rest)
    · split
      · exact .cons ⟨rfl, values⟩ rest
      · exact .cons ⟨rfl, values'⟩ ih

theorem AllSameShape.append (same : AllSameShape ns ms) (more : AllSameShape ns' ms') :
    AllSameShape (ns ++ ns') (ms ++ ms') := by
  induction ns generalizing ms with
  | nil =>
    cases same
    exact more
  | cons n ns ih =>
    cases same with
    | cons first rest => exact .cons first (ih rest)

/-- Only whether it is empty matters to the shape of the value that an attribute is set to. -/
theorem SameShape.withAttribute (same : SameShape n m) (values : v = "" ↔ w = "") :
    SameShape (n.withAttribute name v) (m.withAttribute name w) := by
  cases same with
  | element attributes children => exact .element (sameAttribute_insert values attributes) children
  | text => exact .text
  | error => exact .error
  | widget => exact .widget

/-- Nodes of one shape stay so when children of one shape are added to them. -/
theorem SameShape.withChildren (same : SameShape n m) (more : AllSameShape ns ms) :
    SameShape (n.withChildren ns) (m.withChildren ms) := by
  cases same with
  | element attributes children => exact .element attributes (children.append more)
  | text => exact .text
  | error => exact .error
  | widget => exact .widget

end Building

end Node

namespace Html

open Node (SameAttribute SameShape AllSameShape)

/-! ### Brackets -/

/-- Whether a character begins or ends a tag. -/
def isBracket (c : Char) : Bool := c == '<' || c == '>'

/-- The angle brackets of a text, in order. -/
def brackets (s : String) : List Char := s.toList.filter isBracket

@[simp] theorem brackets_append (s t : String) : brackets (s ++ t) = brackets s ++ brackets t := by
  simp [brackets]

/-- A text has no brackets if none of its characters is one. -/
theorem brackets_eq_nil {s : String} (none_in : ∀ c ∈ s.toList, c ≠ '<' ∧ c ≠ '>') :
    brackets s = [] := by
  rw [brackets, List.filter_eq_nil_iff]
  intro c mem
  simpa [isBracket] using none_in c mem

/-! ### Escaping -/

/-- An escaped character comes out without brackets, and without a quote unless it is one. -/
theorem of_mem_escapeChar {c d : Char} (mem : d ∈ escapeChar c) :
    d ≠ '<' ∧ d ≠ '>' ∧ (d = '"' → c = '"') := by
  have named : ∀ d ∈ "&amp;".toList ++ "&lt;".toList ++ "&gt;".toList,
      d ≠ '<' ∧ d ≠ '>' ∧ d ≠ '"' := by simp
  have of_named (within : d ∈ "&amp;".toList ++ "&lt;".toList ++ "&gt;".toList) :
      d ≠ '<' ∧ d ≠ '>' ∧ (d = '"' → c = '"') := by
    obtain ⟨less, greater, quote⟩ := named d within
    exact ⟨less, greater, fun eq => absurd eq quote⟩
  unfold escapeChar at mem
  split at mem
  · exact of_named (List.mem_append_left _ (List.mem_append_left _ mem))
  · split at mem
    · exact of_named (List.mem_append_left _ (List.mem_append_right _ mem))
    · rename_i less
      split at mem
      · exact of_named (List.mem_append_right _ mem)
      · rename_i greater
        rw [List.mem_singleton.1 mem]
        exact ⟨by simpa using less, by simpa using greater, id⟩

theorem of_mem_escapeAttributeChar {c d : Char} (mem : d ∈ escapeAttributeChar c) :
    d ≠ '"' ∧ d ≠ '<' ∧ d ≠ '>' := by
  unfold escapeAttributeChar at mem
  split at mem
  · revert d
    simp
  · rename_i quote
    obtain ⟨less, greater, quoted⟩ := of_mem_escapeChar mem
    exact ⟨fun eq => quote (by simpa using quoted eq), less, greater⟩

/-- An escaped text has no brackets. -/
@[simp] theorem brackets_escape (s : String) : brackets (escape s) = [] := by
  refine brackets_eq_nil fun d mem => ?_
  rw [escape, String.toList_ofList] at mem
  obtain ⟨c, -, mem⟩ := List.mem_flatMap.1 mem
  obtain ⟨less, greater, -⟩ := of_mem_escapeChar mem
  exact ⟨less, greater⟩

/-- An escaped value has no brackets, and no quote that ends it. -/
theorem of_mem_escapeAttribute {s : String} {d : Char} (mem : d ∈ (escapeAttribute s).toList) :
    d ≠ '"' ∧ d ≠ '<' ∧ d ≠ '>' := by
  rw [escapeAttribute, String.toList_ofList] at mem
  obtain ⟨c, -, mem⟩ := List.mem_flatMap.1 mem
  exact of_mem_escapeAttributeChar mem

@[simp] theorem brackets_escapeAttribute (s : String) : brackets (escapeAttribute s) = [] :=
  brackets_eq_nil fun _ mem => (of_mem_escapeAttribute mem).2

/-! ### Nodes -/

/-- Of an attribute only the name can have brackets. -/
theorem brackets_attributeText (name value : String) :
    brackets (attributeText name value) = brackets name := by
  have marks : brackets " " = [] ∧ brackets "=\"" = [] ∧ brackets "\"" = [] := by decide
  unfold attributeText
  split <;> simp [marks]

theorem brackets_attributes {as bs : List (String × String)}
    (same : List.Forall₂ SameAttribute as bs) :
    brackets (attributes as) = brackets (attributes bs) := by
  induction same with
  | nil => rfl
  | cons first _ ih =>
    simp only [attributes, brackets_append, brackets_attributeText]
    rw [ih, first.1]

/-- A note has the brackets of its own tags, and between them those of its content. -/
theorem brackets_alert (content : String) :
    brackets (alert content) = ['<', '>'] ++ brackets content ++ ['<', '>'] := by
  have opening : brackets "<div class=\"scribe-error\" role=\"alert\">" = ['<', '>'] := by
    simp [brackets, isBracket]
  have closing : brackets "</div>" = ['<', '>'] := by simp [brackets, isBracket]
  unfold alert
  rw [brackets_append _ "</div>", brackets_append _ content, opening, closing]

mutual

/-- Nodes of one shape are written with the same brackets. -/
theorem brackets_node {n m : Node} : SameShape n m → brackets (node n) = brackets (node m)
  | .element same inside => by
    have attributes_eq := brackets_attributes same
    have children_eq := brackets_nodes inside
    rw [node, node]
    split
    · simp [attributes_eq]
    · simp [attributes_eq, children_eq]
  | .text => by rw [node, node, brackets_escape, brackets_escape]
  | .error => by rw [node, node, brackets_alert, brackets_alert, brackets_escape, brackets_escape]
  | .widget => by
    -- The angle brackets around the name are written escaped, like the name.
    have named (name : String) :
        brackets ("unrendered widget &lt;" ++ escape name ++ "&gt;") = [] := by
      rw [brackets_append _ "&gt;", brackets_append _ (escape name), brackets_escape]
      simp [brackets, isBracket]
    rw [node, node, brackets_alert, brackets_alert, named, named]

theorem brackets_nodes {ns ms : List Node} :
    AllSameShape ns ms → brackets (nodes ns) = brackets (nodes ms)
  | .nil => rfl
  | .cons first rest => by
    rw [nodes, nodes, brackets_append, brackets_append, brackets_node first, brackets_nodes rest]

end

theorem brackets_lines {ns ms : List Node} :
    AllSameShape ns ms → brackets (lines ns) = brackets (lines ms)
  | .nil => rfl
  | .cons first rest => by
    rw [lines, lines, brackets_append _ (lines _), brackets_append _ "\n",
      brackets_append _ (lines _), brackets_append _ "\n", brackets_node first, brackets_lines rest]

/-! ### Documents -/

/-- A page has the brackets of its own tags and those of its fragment, whatever its title. -/
theorem brackets_page {r s : Rendered} (same : brackets (fragment r) = brackets (fragment s)) :
    brackets (page r) = brackets (page s) := by
  unfold page
  -- The page is taken apart from its end, so that the brackets of its own tags are never counted.
  rw [brackets_append _ "</body>\n</html>\n", brackets_append _ "</body>\n</html>\n",
    brackets_append _ (fragment r), brackets_append _ (fragment s), same,
    brackets_append _ "</title>\n</head>\n<body>\n",
    brackets_append _ "</title>\n</head>\n<body>\n",
    brackets_append _ (escape _), brackets_append _ (escape _), brackets_escape, brackets_escape]

/-- **What authors write brings no markup.** Two rendered documents of one shape are written with
the same angle brackets, as fragments and as pages, whatever their texts, messages, titles and
values of attributes; and a value of an attribute stands between quotes, without a quote or an angle
bracket of its own. -/
theorem brackets_of_allSameShape {r s : Rendered} (same : AllSameShape r.nodes s.nodes) :
    brackets (fragment r) = brackets (fragment s) ∧ brackets (page r) = brackets (page s) ∧
      ∀ name value : String, value ≠ "" →
        attributeText name value = " " ++ name ++ "=\"" ++ escapeAttribute value ++ "\"" ∧
          ∀ c ∈ (escapeAttribute value).toList, c ≠ '"' ∧ c ≠ '<' ∧ c ≠ '>' := by
  have fragments : brackets (fragment r) = brackets (fragment s) := brackets_lines same
  refine ⟨fragments, brackets_page fragments, fun name value given => ⟨?_, ?_⟩⟩
  · rw [attributeText, if_neg (by simpa using given)]
  · exact fun c mem => of_mem_escapeAttribute mem

/-- A link, a text, a message and a title that all try to begin a tag. -/
theorem brackets_of_allSameShape_hostile :
    let hostile : Rendered := {
      nodes := [.element "a" [("class", ""), ("href", "\"><b>")] [.text "</a><i>"],
        .error "<s>" (some ⟨0, 3⟩)]
      metadata := some ⟨.frontMatter, [("title", .string "</title>")], ⟨0, 9⟩⟩
      failures := [] }
    let harmless : Rendered := {
      nodes := [.element "a" [("class", ""), ("href", "b")] [.text "i"], .error "s" none]
      metadata := some ⟨.frontMatter, [("title", .string "t")], ⟨0, 9⟩⟩
      failures := [] }
    AllSameShape hostile.nodes harmless.nodes ∧
      brackets (fragment hostile) = ['<', '>', '<', '>', '<', '>', '<', '>'] ∧
      brackets (page hostile) = brackets (page harmless) ∧
      ∀ c ∈ (escapeAttribute "\"><b>").toList, c ≠ '"' ∧ c ≠ '<' ∧ c ≠ '>' := by
  intro hostile harmless
  have same : AllSameShape hostile.nodes harmless.nodes := by
    refine .cons (.element ?_ (.cons .text .nil)) (.cons .error .nil)
    exact .cons ⟨rfl, by simp⟩ (.cons ⟨rfl, by simp⟩ .nil)
  obtain ⟨fragments, pages, values⟩ := brackets_of_allSameShape same
  have written : brackets (fragment harmless) = ['<', '>', '<', '>', '<', '>', '<', '>'] := by
    decide +kernel
  exact ⟨same, fragments.trans written, pages, (values "href" "\"><b>" (by simp)).2⟩

end Html
end Folio
