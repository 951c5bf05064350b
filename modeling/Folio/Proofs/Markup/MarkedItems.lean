import Folio.Proofs.Markup.FencedBodies
import Mathlib.Algebra.Group.Nat.Defs

/-!
# Lists of one line for each item

The plainest lists: each line is a mark, alone or with words after it. A mark alone begins a list, but does
not end a paragraph: a line that is nothing but a mark goes on with the item before it.

* `ListMark.ofLine?_markedLine`: a line with a mark, and `opening_markedLine`: whether it ends a
  paragraph;
* `Block.length_of_itemsFrom`: the lines that are more than a mark begin items, and the first one does;
* `Block.exists_itemsFrom_marked`: if all do, each line is an item with its text;
* `Document.parse_marked_iff`: the lists that are read as they are written.
-/

namespace Folio

open Text (IsWords)

/-! ### Lines with marks -/

/-- The mark of an item: a dash, or its number and a dot. -/
def markText (ordered : Bool) (k : Nat) : Text := if ordered then Nat.toDigits 10 k ++ ['.'] else ['-']

/-- A line with a mark, and with a space and a text if there is one. -/
def markedLine (ordered : Bool) (k : Nat) (t : Text) : Text :=
  markText ordered k ++ if t = [] then [] else ' ' :: t

/-- The mark of such a line as it is read. -/
def markOf (ordered : Bool) (k : Nat) (t : Text) : ListMark where
  ordered := ordered
  number := if ordered then some k else none
  content := (markText ordered k).length + if t = [] then 0 else 1

/-- The lines of a list, from a number on. -/
def markedLines (ordered : Bool) : Nat → List Text → List Text
  | _, [] => []
  | k, t :: ts => markedLine ordered k t :: markedLines ordered (k + 1) ts

/-- A document with one line for each item; the last one may have an ending or none. -/
def markedText (ordered : Bool) (ts : List Text) (e : LineEnding) : Text :=
  ['\n'].intercalate (markedLines ordered 1 ts) ++ e.text

/-- The item of such a line: nothing, or one paragraph with the text. -/
def markedItem (t : Text) : ListItem :=
  .mk (if t = [] then [] else [.paragraph [.text (String.ofList t)] ⟨0, 0⟩]) ⟨0, 0⟩

/-- The list with one item for each line. -/
def markedList (ordered : Bool) (ts : List Text) : Block :=
  .list ordered (if ordered then some 1 else none) true (ts.map markedItem) ⟨0, 0⟩

variable {ordered : Bool} {k : Nat} {t : Text} {c : Char}

theorem isDigit_of_mem_toDigits (mem : c ∈ Nat.toDigits 10 k) : c.isDigit = true :=
  Nat.isDigit_of_mem_toDigits (by decide) (by decide) mem

/-- A line with a mark starts with a digit or a dash. -/
theorem exists_markedLine (ordered : Bool) (k : Nat) (t : Text) :
    ∃ c rest, markedLine ordered k t = c :: rest ∧ Text.isBlankChar c = false ∧
      (c.isDigit = true ∨ ordered = false ∧ c = '-') := by
  cases ordered with
  | false => exact ⟨'-', _, rfl, rfl, .inr ⟨rfl, rfl⟩⟩
  | true =>
    obtain ⟨c, rest, digits⟩ := List.exists_cons_of_ne_nil (Nat.toDigits_ne_nil (n := k) (b := 10))
    have digit : c.isDigit = true := isDigit_of_mem_toDigits (digits ▸ List.mem_cons_self)
    have line : markedLine true k t = c :: (rest ++ ['.'] ++ if t = [] then [] else ' ' :: t) := by
      rw [markedLine, markText, if_pos rfl, digits, List.cons_append, List.cons_append]
    exact ⟨c, _, line, Text.isBlankChar_of_isDigit digit, .inl digit⟩

theorem bytes_markText (ordered : Bool) (k : Nat) :
    Text.bytes (markText ordered k) = (markText ordered k).length := by
  refine Text.bytes_eq_length fun c mem => ?_
  cases ordered with
  | false =>
    rw [show markText false k = ['-'] from rfl, List.mem_singleton] at mem
    rw [mem]
    rfl
  | true =>
    rcases List.mem_append.1 mem with digit | dot
    · exact ListMark.utf8Size_of_isDigit (isDigit_of_mem_toDigits digit)
    · rw [List.mem_singleton.1 dot]
      rfl

/-- The mark is read as what it says. -/
theorem bullet?_markText (short : ordered = true → k < 10 ^ 9) (rest : Text) :
    ListMark.bullet? (markText ordered k ++ rest) =
      some (if ordered then some k else none, (markText ordered k).length) := by
  cases ordered with
  | false => rfl
  | true =>
    have digits : ∀ c ∈ Nat.toDigits 10 k, c.isDigit = true := fun c mem => isDigit_of_mem_toDigits mem
    have run : (Nat.toDigits 10 k ++ '.' :: rest).takeWhile Char.isDigit = Nat.toDigits 10 k := by
      rw [List.takeWhile_append_of_pos digits, List.takeWhile_cons_of_neg (by decide), List.append_nil]
    have size : (Nat.toDigits 10 k).length ≤ 9 :=
      (Nat.length_toDigits_le_iff (by decide) (by decide)).2 (short rfl)
    have filled : (Nat.toDigits 10 k).isEmpty = false := by simp [Nat.toDigits_ne_nil]
    have value : ListMark.readDigits (Nat.toDigits 10 k) = k := Nat.ofDigitChars_ten_toDigits
    have parts : markText true k ++ rest = Nat.toDigits 10 k ++ '.' :: rest := by simp [markText]
    rw [parts]
    have first : ∀ {c after}, Nat.toDigits 10 k ++ '.' :: rest = c :: after → c.isDigit = true := by
      intro c after eq
      obtain ⟨d, ds, cons⟩ := List.exists_cons_of_ne_nil (Nat.toDigits_ne_nil (n := k) (b := 10))
      rw [cons] at eq
      rw [← (List.cons.inj eq).1]
      exact digits d (cons ▸ List.mem_cons_self)
    unfold ListMark.bullet?
    split
    · rename_i eq
      cases first eq
    · rename_i eq
      cases first eq
    · rename_i eq
      cases first eq
    · have long : ¬ 9 < (Nat.toDigits 10 k).length := Nat.not_lt_of_le size
      simp only [run, filled, long, decide_false, Bool.or_false, Bool.false_eq_true, if_false,
        List.drop_left, value]
      simp [markText]

theorem unindent?_markedLine (ordered : Bool) (k : Nat) (t : Text) :
    unindent? (markedLine ordered k t) = some (markedLine ordered k t) ∧
      indentation (markedLine ordered k t) = 0 := by
  obtain ⟨c, rest, line, visible, -⟩ := exists_markedLine ordered k t
  have unindented : ¬ isIndent c = true := by simp [Text.isIndent_of_visible visible]
  have flush : indentation (c :: rest) = 0 := by
    rw [indentation, List.takeWhile_cons_of_neg unindented]
    rfl
  rw [line]
  exact ⟨by rw [unindent?, flush, if_neg (by decide), List.dropWhile_cons_of_neg unindented], flush⟩

/-- A line with a mark is read as what it is. -/
theorem ListMark.ofLine?_markedLine (words : t.IsWords) (short : ordered = true → k < 10 ^ 9) :
    ofLine? (markedLine ordered k t) = some (markOf ordered k t) := by
  have some_iff : (if ordered then some k else none).isSome = ordered := by cases ordered <;> rfl
  rw [ofLine?, (unindent?_markedLine ordered k t).1, Option.bind_eq_bind, Option.bind_some, markedLine,
    bullet?_markText short, Option.bind_eq_bind, Option.bind_some]
  dsimp only
  rw [List.drop_left, some_iff, ← markedLine, (unindent?_markedLine ordered k t).2]
  by_cases empty : t = []
  · subst empty
    simp [markOf, markedLine, bytes_markText]
  · obtain ⟨c, u, rfl⟩ := List.exists_cons_of_ne_nil empty
    have letter : c.isAlpha = true := words.starts
    have indent : indentation (' ' :: c :: u) = 1 := by
      rw [indentation, List.takeWhile_cons_of_pos rfl, List.takeWhile_cons_of_neg]
      · rfl
      · rw [Text.isIndent_of_isAlpha letter]
        exact Bool.false_ne_true
    rw [if_neg (List.cons_ne_nil c u)]
    simp [markOf, indent]

theorem isThematicBreak_markedLine (words : t.IsWords) :
    isThematicBreak (markedLine ordered k t) = false := by
  obtain ⟨c, rest, line, visible, kind⟩ := exists_markedLine ordered k t
  rcases kind with digit | ⟨rfl, -⟩
  · refine isThematicBreak_eq_false (c := c) ?_ (Text.contains_eq_false digit (by decide))
    rw [line, Text.trimStart, List.dropWhile_cons_of_neg (by rw [visible]; exact Bool.false_ne_true)]
    rfl
  · by_cases empty : t = []
    · subst empty
      rfl
    · -- the text starts with a letter
      obtain ⟨d, u, rfl⟩ := List.exists_cons_of_ne_nil empty
      have letter : d.isAlpha = true := words.starts
      have other : d ≠ '-' := by
        rintro rfl
        cases letter
      show isThematicBreak ('-' :: ' ' :: d :: u) = false
      exact isThematicBreak_of_mixed rfl ⟨d, by simp, Text.isBlankChar_of_isAlpha letter, other⟩

/-- A line with a mark opens a list, and ends a paragraph if it is more than a mark. -/
theorem opening_markedLine (words : t.IsWords) (short : ordered = true → k < 10 ^ 9) :
    Block.opening (markedLine ordered k t) = .list (markOf ordered k t) ∧
      startsBlock (markedLine ordered k t) = decide (t ≠ []) := by
  obtain ⟨c, rest, line, visible, kind⟩ := exists_markedLine ordered k t
  have first : (Text.trimStart (markedLine ordered k t)).head? = some c := by
    rw [line, Text.trimStart, List.dropWhile_cons_of_neg (by rw [visible]; exact Bool.false_ne_true)]
    rfl
  have char : (c.isDigit || c == '-') = true := by
    rcases kind with digit | ⟨-, rfl⟩
    · rw [digit, Bool.true_or]
    · rfl
  have other : ∀ cs : List Char, cs.any (fun c => c.isDigit || c == '-') = false → cs.contains c = false :=
    fun cs none => Text.contains_eq_false (p := fun c => c.isDigit || c == '-') char none
  have fence := open?_eq_none first (other _ (by decide))
  have thematic : isThematicBreak (markedLine ordered k t) = false := isThematicBreak_markedLine words
  have list := ListMark.ofLine?_markedLine words short
  obtain ⟨heading, quote, -, -⟩ := marks_eq_none first (other _ (by decide))
  constructor
  · simp [Block.opening, fence, heading, thematic, quote, list]
  · rw [startsBlock_of_marks first fence thematic (other _ (by decide)), list, Option.any_some]
    by_cases empty : t = []
    · simp [markOf, markedLine, bytes_markText, empty]
    · obtain ⟨d, u, rfl⟩ := List.exists_cons_of_ne_nil empty
      have filled := d.utf8Size_pos
      have space : ' '.utf8Size = 1 := rfl
      simp [markOf, markedLine, bytes_markText, Text.bytes_append, Text.bytes_cons]
      omega

/-! ### Items -/

/-- A line of such a list. -/
def Line.IsMarked (ordered : Bool) (m : Line) : Prop :=
  ∃ k t, t.IsWords ∧ (ordered = true → k < 10 ^ 9) ∧ m.text = markedLine ordered k t

theorem exists_of_mem_markedLines {u : Text} {ts : List Text} (mem : u ∈ markedLines ordered k ts) :
    ∃ j t, t ∈ ts ∧ j < k + ts.length ∧ u = markedLine ordered j t := by
  induction ts generalizing k with
  | nil => cases mem
  | cons t ts ih =>
    rcases List.mem_cons.1 mem with rfl | mem
    · exact ⟨k, t, List.mem_cons_self, by rw [List.length_cons]; omega, rfl⟩
    · obtain ⟨j, t', among, lt, rfl⟩ := ih mem
      exact ⟨j, t', List.mem_cons_of_mem t among, by rw [List.length_cons]; omega, rfl⟩

theorem Line.isMarked_of_texts {ls : List Line} {ts : List Text}
    (texts : ls.map Line.text = markedLines ordered k ts)
    (words : ∀ t ∈ ts, t.IsWords) (short : ordered = true → k + ts.length ≤ 10 ^ 9) :
    ∀ m ∈ ls, m.IsMarked ordered := by
  intro m mem
  have among : m.text ∈ markedLines ordered k ts := texts ▸ List.mem_map_of_mem mem
  obtain ⟨j, t, mem, lt, text⟩ := exists_of_mem_markedLines among
  exact ⟨j, t, words t mem, fun numbered => Nat.lt_of_lt_of_le lt (short numbered), text⟩

/-- Lines that are more than marks end a paragraph. -/
theorem Line.starts_of_texts {ls : List Line} {ts : List Text}
    (texts : ls.map Line.text = markedLines ordered k ts) (words : ∀ t ∈ ts, t.IsWords)
    (short : ordered = true → k + ts.length ≤ 10 ^ 9) (filled : ∀ t ∈ ts, t ≠ []) :
    ∀ m ∈ ls, startsBlock m.text = true := by
  intro m mem
  have among : m.text ∈ markedLines ordered k ts := texts ▸ List.mem_map_of_mem mem
  obtain ⟨j, t, mem, lt, text⟩ := exists_of_mem_markedLines among
  have numbers : ordered = true → j < 10 ^ 9 := fun numbered => Nat.lt_of_lt_of_le lt (short numbered)
  rw [text, (opening_markedLine (words t mem) numbers).2, decide_eq_true (filled t mem)]

namespace Block

variable {inner : Inner} {r : Region} {source : Text} {item : ItemLines} {column stop resume : Nat}
  {l m : Line} {ls : List Line}

theorem itemMark?_markedLine (words : t.IsWords) (short : ordered = true → k < 10 ^ 9) :
    itemMark? ordered (markedLine ordered k t) = some (markOf ordered k t) := by
  rw [itemMark?, ListMark.ofLine?_markedLine words short, Option.filter_some,
    isThematicBreak_markedLine words]
  simp [markOf]

theorem itemMark?_of_isMarked (marked : m.IsMarked ordered) :
    ∃ mark, itemMark? ordered m.text = some mark := by
  obtain ⟨k, t, words, short, text⟩ := marked
  exact ⟨markOf ordered k t, by rw [text, itemMark?_markedLine words short]⟩

/-- An item takes a mark alone, for it goes on with a paragraph. -/
theorem takeLine?_of_isMarked (pos : 0 < column) (fresh : item.blanksAfter = false)
    (marked : m.IsMarked ordered) :
    takeLine? column item m = if startsBlock m.text then none else
      some { item with pieces := (m.start, m.stop) :: item.pieces, last := m, resume := m.next } := by
  obtain ⟨k, t, words, short, text⟩ := marked
  have filled := isBlank_of_listMark (ListMark.ofLine?_markedLine words short)
  have flush := (unindent?_markedLine ordered k t).2
  rw [takeLine?, text, filled, flush, fresh, if_neg Bool.false_ne_true, if_neg (Nat.not_le_of_lt pos)]
  cases startsBlock (markedLine ordered k t) <;> rfl

/-- An item takes the marks alone that follow it. -/
theorem rest_itemLines_of_isMarked (pos : 0 < column) (fresh : item.blanksAfter = false)
    (marked : ∀ m ∈ ls, m.IsMarked ordered) :
    (itemLines column item ls).rest = ls.dropWhile fun m => !startsBlock m.text := by
  induction ls generalizing item with
  | nil => rfl
  | cons m ls ih =>
    rw [List.forall_mem_cons] at marked
    rw [itemLines_cons, takeLine?_of_isMarked pos fresh marked.1]
    cases starts : startsBlock m.text with
    | true => rw [if_pos rfl, List.dropWhile_cons_of_neg (by rw [starts]; exact Bool.false_ne_true)]
    | false =>
      rw [if_neg Bool.false_ne_true, List.dropWhile_cons_of_pos (by rw [starts]; rfl)]
      exact ih fresh marked.2

/-- The item at a line takes the lines up to the next one that is more than a mark. -/
theorem exists_itemFrom_marked {mark : ListMark} (suffix : l :: ls <:+ Line.split source)
    (kind : ListMark.ofLine? l.text = some mark) (marked : ∀ m ∈ ls, m.IsMarked ordered) :
    ∃ chunk, ls = chunk ++ (itemFrom mark l ls).rest ∧
      chunk.filter (fun m => startsBlock m.text) = [] ∧
      (∀ m ∈ (itemFrom mark l ls).rest.head?, startsBlock m.text = true) ∧
      ∀ m ∈ (itemFrom mark l ls).rest, (itemFrom mark l ls).resume ≤ m.start := by
  obtain ⟨chunk, parts, takes⟩ := exists_itemFrom_takes mark l ls
  have later := (Line.next_of_getLast? (parts ▸ suffix)).2
  rw [← takes.resume] at later
  have left : (itemFrom mark l ls).rest = ls.dropWhile fun m => !startsBlock m.text :=
    rest_itemLines_of_isMarked (content_pos kind) rfl marked
  have taken : chunk = ls.takeWhile fun m => !startsBlock m.text := by
    refine List.append_cancel_right (parts.symm.trans ?_)
    rw [left, List.takeWhile_append_dropWhile]
  refine ⟨chunk, parts, ?_, ?_, later⟩
  · refine List.filter_eq_nil_iff.2 fun m mem => ?_
    rw [taken] at mem
    simpa using List.mem_takeWhile_imp mem
  · intro m first
    have starts := List.head?_dropWhile_not (fun m : Line => !startsBlock m.text) ls
    rw [← left, first] at starts
    simpa using starts

/-- **The number of items**: the first line begins one, and each line after it that is more than a mark. -/
theorem length_of_itemsFrom (suffix : l :: ls <:+ Line.split source)
    (marked : ∀ m ∈ l :: ls, m.IsMarked ordered) (reached : resume ≤ l.start) :
    Outcome (fun _ => True)
      (fun items => items.items.length = 1 + (ls.filter fun m => startsBlock m.text).length)
      (itemsFrom inner r ordered stop resume (l :: ls)) := by
  induction size : ls.length using Nat.strongRecOn generalizing l ls stop resume with
  | ind n ih =>
    subst size
    obtain ⟨mark, kind⟩ := itemMark?_of_isMarked (marked l List.mem_cons_self)
    rw [List.forall_mem_cons] at marked
    obtain ⟨chunk, parts, quiet, starts, later⟩ :=
      exists_itemFrom_marked suffix (Option.mem_filter_iff.1 kind).1 marked.2
    rw [itemsFrom_cons suffix reached kind]
    refine itemAt_ends.bind ?_
    rintro ⟨item, lines⟩ ⟨rfl, -⟩
    dsimp only
    generalize itemFrom mark l ls = lines at *
    generalize lines.rest = rest at *
    subst parts
    rw [List.filter_append, quiet, List.nil_append]
    cases rest with
    | nil => rfl
    | cons m rest =>
      have suffix' : m :: rest <:+ Line.split source := (List.suffix_append (l :: chunk) _).trans suffix
      have shorter : rest.length < (chunk ++ m :: rest).length := by
        rw [List.length_append, List.length_cons]
        omega
      refine (ih rest.length shorter suffix' (fun m mem => marked.2 m (List.mem_append_right chunk mem))
        (later m List.mem_cons_self) rfl).bind fun items counted => ?_
      have kept : (m :: rest).filter (fun m => startsBlock m.text) = m :: rest.filter _ :=
        List.filter_cons_of_pos (starts m rfl)
      show (item :: items.items).length = _
      rw [kept, List.length_cons, List.length_cons, counted, Nat.add_assoc]

/-- What is left of a line without its mark. -/
theorem dropBytes_markedLine (ordered : Bool) (k : Nat) (t : Text) :
    Text.dropBytes (markedLine ordered k t) (markOf ordered k t).content = t := by
  by_cases empty : t = []
  · have dropped := Text.dropBytes_append (markText ordered k) []
    rw [bytes_markText] at dropped
    rw [markedLine, markOf, if_pos empty, if_pos empty, Nat.add_zero, dropped, empty]
  · have dropped := Text.dropBytes_append (markText ordered k ++ [' ']) t
    rw [Text.bytes_append, bytes_markText, List.append_assoc] at dropped
    rw [markedLine, markOf, if_neg empty, if_neg empty]
    exact dropped

theorem exists_parse_words (levels : Nat) {content : Region} (text : content.text = t) (words : t.IsWords) :
    ∃ bs, Block.parse (levels + 1) [] content = .ok bs ∧
      (ListItem.mk bs ⟨0, 0⟩).spanless = markedItem t := by
  by_cases empty : t = []
  · have lines : (Line.split content.text).map Line.text = ([].map wordRow).map Prod.fst := by
      rw [text, empty]
      rfl
    obtain ⟨bs, read, contents⟩ := exists_parse_rows levels lines (rows_of_words nofun)
    exact ⟨bs, read, by rw [ListItem.spanless, contents, markedItem, if_pos empty]; rfl⟩
  · have eol : '\n' ∉ t := fun mem => by cases words.isWordChar _ mem
    have lines : (Line.split content.text).map Line.text = ([t].map wordRow).map Prod.fst := by
      rw [text, Line.split_of_eol_not_mem eol empty]
      rfl
    obtain ⟨bs, read, contents⟩ := exists_parse_rows levels lines
      (rows_of_words (List.forall_mem_singleton.2 words.isTail))
    have flush : body t = t := body_of_starts words.starts
    have paragraph : paragraphs [(wordRow t).2] = [.paragraph [.text (String.ofList t)] ⟨0, 0⟩] := by
      rw [wordRow, flush, texts, if_neg empty]
      rfl
    refine ⟨bs, read, ?_⟩
    rw [ListItem.spanless, contents, markedItem, if_neg empty, List.map_singleton, List.map_singleton,
      paragraph]

/-- An item of one line, if the next line begins another one. -/
theorem exists_itemAt_marked (levels : Nat) (mem : l ∈ r.lines) (words : t.IsWords)
    (short : ordered = true → k < 10 ^ 9) (text : l.text = markedLine ordered k t)
    (next : ∀ m ∈ ls.head?, m.IsMarked ordered ∧ startsBlock m.text = true) :
    ∃ li, itemAt (Block.parse (levels + 1) []) r (markOf ordered k t) l ls =
        .ok (li, { pieces := [(min (l.start + (markOf ordered k t).content) l.stop, l.stop)], last := l,
                   loose := false, blanksAfter := false, resume := l.next, rest := ls }) ∧
      li.spanless = markedItem t := by
  have kind : ListMark.ofLine? l.text = some (markOf ordered k t) := by
    rw [text, ListMark.ofLine?_markedLine words short]
  have boundary := ListMark.isBoundary_of_ofLine? kind
  have taken : itemFrom (markOf ordered k t) l ls =
      { pieces := [(min (l.start + (markOf ordered k t).content) l.stop, l.stop)], last := l
        loose := false, blanksAfter := false, resume := l.next, rest := ls } := by
    cases ls with
    | nil => rfl
    | cons m ls =>
      obtain ⟨marked, starts⟩ := next m rfl
      rw [itemFrom, itemLines_cons, takeLine?_of_isMarked (content_pos kind) rfl marked, if_pos starts]
  have cuts : ∀ c ∈ [l].map fun m => (m.start + (markOf ordered k t).content, m.stop),
      Text.IsCut r.text c.1 c.2 := List.forall_mem_singleton.2 (Line.isCut_stop mem boundary)
  obtain ⟨content, joined⟩ := gather_isOk cuts
  have rest := text_of_gather_lines (List.forall_mem_singleton.2 mem) (List.forall_mem_singleton.2 boundary)
    joined
  rw [List.map_singleton, List.intercalate_singleton, text, dropBytes_markedLine] at rest
  obtain ⟨bs, read, children⟩ := exists_parse_words levels rest words
  have gathered : itemContent r (markOf ordered k t) l ls = .ok content := by
    rw [itemContent, taken, Line.min_stop boundary, ← joined]
    rfl
  rw [itemAt_eq, gathered]
  dsimp only [bind, Except.bind]
  rw [read, taken]
  exact ⟨_, rfl, children⟩

/-- **Each line is an item**, if the lines after the first one are more than marks. -/
theorem exists_itemsFrom_marked (levels stop : Nat) {ts : List Text} (suffix : ls <:+ Line.split source)
    (texts : ls.map Line.text = markedLines ordered k ts) (words : ∀ t ∈ ts, t.IsWords)
    (short : ordered = true → k + ts.length ≤ 10 ^ 9) (filled : ∀ t ∈ ts.tail, t ≠ [])
    (reached : ∀ m ∈ ls, resume ≤ m.start) :
    ∃ items, itemsFrom (Block.parse (levels + 1) []) (Region.root source) ordered stop resume ls = .ok items ∧
      ListItem.allSpanless items.items = ts.map markedItem ∧ items.tight = true ∧
      resume ≤ items.resume ∧ ∀ m ∈ ls, m.start < items.resume := by
  induction ts generalizing ls k stop resume with
  | nil =>
    obtain rfl := List.map_eq_nil_iff.1 texts
    exact ⟨_, rfl, rfl, rfl, Nat.le_refl _, nofun⟩
  | cons t ts ih =>
    obtain ⟨l, ls, rfl, text, texts⟩ := List.map_eq_cons_iff.1 texts
    rw [List.forall_mem_cons] at words
    have first : ordered = true → k < 10 ^ 9 := fun numbered => by
      have := short numbered
      rw [List.length_cons] at this
      omega
    have rest : ordered = true → k + 1 + ts.length ≤ 10 ^ 9 := fun numbered => by
      have := short numbered
      rw [List.length_cons] at this
      omega
    have kind : itemMark? ordered l.text = some (markOf ordered k t) := by
      rw [text, itemMark?_markedLine words.1 first]
    have next : ∀ m ∈ ls.head?, m.IsMarked ordered ∧ startsBlock m.text = true := fun m first =>
      have mem := List.mem_of_mem_head? first
      ⟨Line.isMarked_of_texts texts words.2 rest m mem,
        Line.starts_of_texts texts words.2 rest filled m mem⟩
    have lines : (Region.root source).lines = Line.split source := by rw [Region.lines, Region.text_root]
    have mem : l ∈ Line.split source := suffix.subset List.mem_cons_self
    obtain ⟨li, read, children⟩ :=
      exists_itemAt_marked levels (lines ▸ mem) words.1 first text next
    have later := (Line.whole_of_suffix suffix).2.2
    obtain ⟨more, further, contents, tight, le, before⟩ := ih l.stop
      ((List.suffix_cons l ls).trans suffix) texts words.2 rest
      (fun u mem => filled u (List.mem_of_mem_tail mem)) later
    have start : l.start < more.resume := Nat.lt_of_lt_of_le (Line.start_lt_next mem) le
    rw [itemsFrom, if_neg (Nat.not_lt_of_le (reached l List.mem_cons_self)), kind]
    dsimp only
    rw [read]
    dsimp only [bind, Except.bind]
    rw [further]
    refine ⟨_, rfl, ?_, ?_, Nat.le_trans (reached l List.mem_cons_self) (Nat.le_of_lt start), ?_⟩
    · rw [ListItem.allSpanless, children, contents, List.map_cons]
    · rw [tight]
      rfl
    · exact List.forall_mem_cons.2 ⟨start, before⟩

end Block

/-! ### Documents -/

variable {ts : List Text} {e : LineEnding} {source : Text}

/-- The characters of the lines. -/
def isItemChar (c : Char) : Bool := c.isDigit || c == '.' || c == '-' || Text.isWordChar c

theorem isItemChar_of_mem (words : t.IsWords) (mem : c ∈ markedLine ordered k t) : isItemChar c = true := by
  rw [isItemChar]
  rcases List.mem_append.1 mem with mark | rest
  · cases ordered with
    | false =>
      rw [List.mem_singleton.1 mark]
      rfl
    | true =>
      rcases List.mem_append.1 mark with digit | dot
      · rw [isDigit_of_mem_toDigits digit]
        rfl
      · rw [List.mem_singleton.1 dot]
        rfl
  · split at rest
    · cases rest
    · have word : Text.isWordChar c = true := by
        rcases List.mem_cons.1 rest with rfl | mem
        · rfl
        · exact words.isWordChar c mem
      rw [word, Bool.or_true]

theorem isWhole_markedLine (words : t.IsWords) (e : LineEnding) :
    Line.IsWhole (markedLine ordered k t) e where
  eol := fun mem => by cases isItemChar_of_mem words mem
  ending := fun _ last => by cases isItemChar_of_mem words (List.mem_of_getLast? last)

theorem exists_markedLine_mem (ordered : Bool) (k : Nat) (mem : t ∈ ts) :
    ∃ j, j < k + ts.length ∧ markedLine ordered j t ∈ markedLines ordered k ts := by
  induction ts generalizing k with
  | nil => cases mem
  | cons u ts ih =>
    rw [List.length_cons, markedLines]
    rcases List.mem_cons.1 mem with rfl | mem
    · exact ⟨k, by omega, List.mem_cons_self⟩
    · obtain ⟨j, lt, among⟩ := ih (k + 1) mem
      exact ⟨j, by omega, List.mem_cons_of_mem _ among⟩

theorem length_markedLines (ordered : Bool) (k : Nat) (ts : List Text) :
    (markedLines ordered k ts).length = ts.length := by
  induction ts generalizing k with
  | nil => rfl
  | cons t ts ih => rw [markedLines, List.length_cons, ih, List.length_cons]

/-- If there are as many items as lines, then no line after the first one is a mark alone. -/
theorem Block.filled_of_itemsFrom {inner : Inner} {r : Region} {stop resume : Nat} {l : Line}
    {ls : List Line} {items : Items} (suffix : l :: ls <:+ Line.split source)
    (texts : (l :: ls).map Line.text = markedLines ordered k (t :: ts))
    (words : ∀ u ∈ t :: ts, u.IsWords) (short : ordered = true → k + (t :: ts).length ≤ 10 ^ 9)
    (reached : resume ≤ l.start) (read : itemsFrom inner r ordered stop resume (l :: ls) = .ok items)
    (size : items.items.length = (t :: ts).length) : ∀ u ∈ ts, u ≠ [] := by
  intro u mem
  have counted : Outcome _ _ (itemsFrom inner r ordered stop resume (l :: ls)) :=
    length_of_itemsFrom suffix (Line.isMarked_of_texts texts words short) reached
  rw [read] at counted
  have counted : items.items.length = 1 + (ls.filter fun m => startsBlock m.text).length := counted
  have later : ls.map Line.text = markedLines ordered (k + 1) ts := (List.cons.inj texts).2
  have lines : ls.length = ts.length := by
    rw [← List.length_map Line.text, later, length_markedLines]
  rw [List.length_cons] at size short
  have all : ∀ m ∈ ls, startsBlock m.text = true :=
    List.length_filter_eq_length_iff.1 (by omega)
  obtain ⟨j, lt, among⟩ := exists_markedLine_mem ordered (k + 1) mem
  rw [← later] at among
  obtain ⟨m, m_mem, m_text⟩ := List.mem_map.1 among
  have numbers : ordered = true → j < 10 ^ 9 := fun numbered => by
    have := short numbered
    omega
  have starts := all m m_mem
  rw [m_text, (opening_markedLine (words u (List.mem_cons_of_mem t mem)) numbers).2] at starts
  exact of_decide_eq_true starts

theorem map_text_split_markedText (ordered : Bool) (e : LineEnding) (words : ∀ t ∈ ts, t.IsWords)
    (filled : ts ≠ []) :
    (Line.split (markedText ordered ts e)).map Line.text = markedLines ordered 1 ts := by
  have whole : ∀ u ∈ markedLines ordered 1 ts, ∀ e, Line.IsWhole u e ∧ u ≠ [] := by
    intro u mem e
    obtain ⟨j, t, among, -, rfl⟩ := exists_of_mem_markedLines mem
    obtain ⟨c, rest, line, -⟩ := exists_markedLine ordered j t
    exact ⟨isWhole_markedLine (words t among) e, by rw [line]; exact List.cons_ne_nil c rest⟩
  cases lines : markedLines ordered 1 ts using List.reverseRecOn with
  | nil =>
    obtain ⟨t, ts, rfl⟩ := List.exists_cons_of_ne_nil filled
    cases lines
  | append_singleton us u =>
    rw [lines, List.forall_mem_append, List.forall_mem_singleton] at whole
    rw [markedText, lines]
    exact map_text_split_intercalate_ended (fun t mem => (whole.1 t mem .lf).1) (whole.2 e).1 (whole.2 e).2

theorem not_dashes_markedLine (ordered : Bool) (k : Nat) (t : Text) :
    ¬ "---".toList <+: markedLine ordered k t := by
  rintro ⟨rest, line⟩
  obtain ⟨c, rest', line', -, kind⟩ := exists_markedLine ordered k t
  rw [line'] at line
  rcases kind with digit | ⟨rfl, -⟩
  · rw [← (List.cons.inj line).1] at digit
    cases digit
  · rw [← line', markedLine] at line
    split at line <;> cases line

theorem scan_markedText (ordered : Bool) (e : LineEnding) (words : ∀ t ∈ ts, t.IsWords) (filled : ts ≠ []) :
    Declaration.scan (markedText ordered ts e) = [] := by
  have texts := map_text_split_markedText ordered e words filled
  have each : ∀ l ∈ Line.split (markedText ordered ts e), ∃ j t, t.IsWords ∧
      l.text = markedLine ordered j t := by
    intro l mem
    have among : l.text ∈ markedLines ordered 1 ts := texts ▸ List.mem_map_of_mem mem
    obtain ⟨j, t, mem, -, text⟩ := exists_of_mem_markedLines among
    exact ⟨j, t, words t mem, text⟩
  refine Declaration.scan_eq_nil_of_dashes (fun l mem c among => ?_) fun l first => ?_
  · obtain ⟨j, t, words, text⟩ := each l mem
    rw [text] at among
    exact Text.contains_eq_false (isItemChar_of_mem words among) (by decide)
  · obtain ⟨j, t, words, text⟩ := each l (List.mem_of_mem_head? first)
    rw [text]
    exact not_dashes_markedLine ordered j t

/-- The document is read to a list, and what comes after it. -/
theorem Document.parse_markedText (formats : Formats) {l : Line} {ls : List Line}
    (nothing : Declaration.scan source = []) (split : Line.split source = l :: ls)
    (words : t.IsWords) (short : ordered = true → k < 10 ^ 9) (text : l.text = markedLine ordered k t) :
    parse formats source = (do
      let items ← Block.itemsFrom (Block.parse innerNesting []) (Region.root source) ordered l.stop l.start (l :: ls)
      let more ← Block.blocksFrom (Block.parse innerNesting []) (Region.root source) [] items.resume ls
      return ofBlocks (.list ordered (if ordered then some k else none) items.tight items.items
        ((Region.root source).span l.start items.stop) :: more)) := by
  have opening := (opening_markedLine words short).1
  have blank := Block.isBlank_of_listMark (ListMark.ofLine?_markedLine words short)
  rw [← text] at opening blank
  rw [parse_of_scan_eq_nil nothing, Block.parse_root, split,
    Block.blocksFrom_cons (Nat.zero_le _) rfl blank, Block.blockAt_eq, opening]
  dsimp only
  rw [Block.listed]
  dsimp only [markOf]
  cases Block.itemsFrom (Block.parse innerNesting []) (Region.root source) ordered l.stop l.start (l :: ls) with
  | error halt => rfl
  | ok items =>
    dsimp only [bind, Except.bind, pure, Except.pure]
    cases Block.blocksFrom (Block.parse innerNesting []) (Region.root source) [] items.resume ls with
    | error halt => rfl
    | ok more => rfl

/-- **Each line with a mark is an item** exactly if no line after the first one is a mark alone. -/
theorem Document.parse_marked_iff (formats : Formats) (words : ∀ t ∈ ts, t.IsWords) (filled : ts ≠ [])
    (short : ordered = true → ts.length < 10 ^ 9) :
    (parse formats (markedText ordered ts e)).map spanless = .ok (ofBlocks [markedList ordered ts]) ↔
      ∀ t ∈ ts.tail, t ≠ [] := by
  have texts := map_text_split_markedText ordered e words filled
  have nothing := scan_markedText ordered e words filled
  obtain ⟨t, ts, rfl⟩ := List.exists_cons_of_ne_nil filled
  generalize markedText ordered (t :: ts) e = source at *
  obtain ⟨l, ls, split, text, -⟩ := List.map_eq_cons_iff.1 texts
  have suffix : l :: ls <:+ Line.split source := by rw [split]
  have first : ordered = true → 1 < 10 ^ 9 := fun _ => by decide
  have within : ordered = true → 1 + (t :: ts).length ≤ 10 ^ 9 := fun numbered => by
    have := short numbered
    omega
  rw [Document.parse_markedText formats nothing split (words t List.mem_cons_self) first text]
  constructor
  · intro read
    cases items_eq : Block.itemsFrom (Block.parse innerNesting []) (Region.root source) ordered l.stop l.start
        (l :: ls) with
    | error halt =>
      rw [items_eq] at read
      cases read
    | ok items =>
      rw [items_eq] at read
      dsimp only [bind, Except.bind] at read
      cases more_eq : Block.blocksFrom (Block.parse innerNesting []) (Region.root source) [] items.resume ls with
      | error halt =>
        rw [more_eq] at read
        cases read
      | ok more =>
        rw [more_eq] at read
        have blocks : Block.spanless _ :: Block.allSpanless more = [markedList ordered (t :: ts)] :=
          congrArg Document.blocks (Except.ok.inj read)
        have list := (List.cons.inj blocks).1
        rw [Block.spanless, markedList] at list
        injection list with _ _ _ contents
        have size : items.items.length = (t :: ts).length := by
          have lists := congrArg List.length contents
          rwa [ListItem.allSpanless_eq_map, List.length_map, List.length_map] at lists
        exact Block.filled_of_itemsFrom suffix (split ▸ texts) words within (Nat.le_refl _) items_eq size
  · intro starts
    obtain ⟨items, read, contents, tight, -, before⟩ :=
      Block.exists_itemsFrom_marked (innerNesting - 1) l.stop suffix (split ▸ texts) words within starts
        fun m mem => Line.start_le_of_mem suffix mem
    rw [show innerNesting = innerNesting - 1 + 1 from rfl, read]
    dsimp only [bind, Except.bind]
    rw [Block.blocksFrom_of_all_passed fun m mem => .inl (before m (List.mem_cons_of_mem l mem)), tight]
    refine congrArg Except.ok (congrArg ofBlocks ?_)
    show Block.spanless _ :: Block.allSpanless [] = _
    rw [Block.spanless, contents]
    rfl

theorem Document.parse_marked_emptyFirst :
    let formats : Formats := { json := fun _ => .ok .null, yaml := fun _ => .ok .null }
    let ts : List Text := [[], "b c".toList]
    ((∀ t ∈ ts, t.IsWords) ∧ ts ≠ [] ∧ (true = true → ts.length < 10 ^ 9) ∧ ∀ t ∈ ts.tail, t ≠ []) ∧
      markedText true ts .lf = "1.\n2. b c\n".toList ∧
      (parse formats (markedText true ts .lf)).map spanless = .ok (ofBlocks [.list true (some 1) true
        [.mk [] ⟨0, 0⟩, .mk [.paragraph [.text "b c"] ⟨0, 0⟩] ⟨0, 0⟩] ⟨0, 0⟩]) := by
  intro formats ts
  have words : ∀ t ∈ ts, t.IsWords := by decide +kernel
  have filled : ts ≠ [] := List.cons_ne_nil _ _
  have short : true = true → ts.length < 10 ^ 9 := fun _ => by decide
  have starts : ∀ t ∈ ts.tail, t ≠ [] := by decide
  exact ⟨⟨words, filled, short, starts⟩, by decide, (parse_marked_iff formats words filled short).2 starts⟩

/-- The second mark goes on with the first item, which holds no paragraph: it is a list in the item. -/
theorem Document.parse_twoDashes :
    let formats : Formats := { json := fun _ => .ok .null, yaml := fun _ => .ok .null }
    markedText false [[], []] .none = "-\n-".toList ∧
      parse formats "-\n-".toList = .ok (ofBlocks
        [.list false none true [.mk [.list false none true [.mk [] ⟨2, 3⟩] ⟨2, 3⟩] ⟨0, 3⟩] ⟨0, 3⟩]) :=
  ⟨by decide, rfl⟩

end Folio
