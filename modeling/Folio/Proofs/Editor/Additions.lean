import Folio.Editor.Buffer
import Folio.Proofs.Editor.BlockCommands

/-!
# What a command adds

A command only adds to a text, whatever selection it is given: the text is what remains of the new one
when the pieces that were put in are deleted. The selection it leaves can be stored as it is: it stays
on the characters that were selected, or it is a cursor behind the new piece.

* `Text.Leaves` says what remains when one or two parts of a text are deleted;
* `Insertion.Makes` is the edit that puts a piece or markers into a text, and `Insertion.Makes.adds` and
  `Insertion.Makes.placed` what holds of it;
* `Command.Puts` says what each command puts in, `Command.exists_makes_of_apply` that its edit is the one
  with it, and `Command.exists_apply_of_mem_toolbar` that those of the toolbar are never refused.
-/

namespace Folio

/-! ### Deleting -/

namespace Text

variable {s u v w p q : Text}

/-- The text without what lies between two offsets. -/
def without (s : Text) (start stop : Nat) : Text := takeBytes s start ++ dropBytes s stop

/-- What remains of a text when one part of it is deleted, or two parts in order. -/
def Leaves (s t : Text) : Prop :=
  (∃ start stop, s.IsCut start stop ∧ s.without start stop = t) ∨
    ∃ start stop start' stop', s.IsCut start stop ∧ s.IsCut start' stop' ∧ stop ≤ start' ∧
      (s.without start' stop').without start stop = t

@[simp] theorem bytes_reverse (s : Text) : bytes s.reverse = bytes s := by
  induction s with
  | nil => rfl
  | cons c s ih =>
    simp only [List.reverse_cons, bytes_append, bytes_cons, bytes_nil, ih]
    omega

theorem without_parts (u p v : Text) :
    (u ++ (p ++ v)).without (bytes u) (bytes u + bytes p) = u ++ v := by
  have rest := dropBytes_append (u ++ p) v
  rw [bytes_append, List.append_assoc] at rest
  rw [without, takeBytes_append, rest]

/-- A piece that was put in can be deleted. -/
theorem leaves_of_piece (u p v : Text) : Leaves (u ++ (p ++ v)) (u ++ v) :=
  .inl ⟨bytes u, bytes u + bytes p, isCut_of_parts u p v, without_parts u p v⟩

/-- Two pieces that were put in can be deleted. -/
theorem leaves_of_pieces (u p w q v : Text) :
    Leaves (u ++ (p ++ (w ++ (q ++ v)))) (u ++ (w ++ v)) := by
  have cut := isCut_of_parts (u ++ (p ++ w)) q v
  have deleted := without_parts (u ++ (p ++ w)) q v
  simp only [List.append_assoc] at cut deleted
  refine .inr ⟨bytes u, bytes u + bytes p, _, _, isCut_of_parts u p _, cut, ?_, ?_⟩
  · simp only [bytes_append]
    omega
  · rw [deleted, without_parts]

end Text

/-! ### Edits that add -/

namespace Edit

variable {edit : Edit} {text : Text} {selection : Selection}

/-- An edit adds to a text, and its selection is one of the new text. -/
structure Adds (text : Text) (edit : Edit) : Prop where
  leaves : edit.text.Leaves text
  fits : edit.selection.Fits edit.text

/-- The edit selects the characters that were selected. -/
def Keeps (text : Text) (selection : Selection) (edit : Edit) : Prop :=
  edit.selection.text edit.text = (selection.clamp text).text text

/-- The edit puts a piece in after the selection and its cursor is right behind the piece. -/
def Follows (text : Text) (selection : Selection) (edit : Edit) : Prop :=
  ∃ piece, edit.text = put text (selection.clamp text).stop piece ∧
    edit.selection = .cursor ((selection.clamp text).stop + Text.bytes piece)

/-- A buffer stores the selection of the edit as it is. -/
theorem Adds.stored (adds : Adds text edit) (b : Buffer) :
    (b.replace edit.text edit.selection).selection = edit.selection :=
  Selection.clamp_of_fits adds.fits

/-- A buffer that stores an edit which keeps the selected characters has them selected. -/
theorem Adds.selected_replace {b : Buffer} (adds : Adds b.text edit)
    (keeps : Keeps b.text selection edit) :
    (b.replace edit.text edit.selection).selected = (b.select selection).selected := by
  rw [Buffer.selected, adds.stored]
  exact keeps

/-! ### Edits in parts -/

/-- The edit whose text has three parts, with the second one selected; where that is empty, the
selection is a cursor. -/
def selecting (u w v : Text) : Edit where
  text := u ++ (w ++ v)
  selection := ⟨Text.bytes u, Text.bytes u + Text.bytes w⟩

variable {u w v : Text}

theorem selecting_fits (u w v : Text) : (selecting u w v).selection.Fits (selecting u w v).text :=
  Text.isCut_of_parts u w v

theorem selecting_keeps (parts : selection.Divides text u w v) (u' v' : Text) :
    Keeps text selection (selecting u' w v') := by
  obtain ⟨rfl, clamp⟩ := parts
  rw [Keeps, clamp, Selection.text_parts]
  exact Selection.text_parts u' w v'

/-- A piece behind the second of three parts, and the cursor behind it. -/
theorem selecting_adds (u w piece v : Text) :
    Adds (u ++ (w ++ v)) (selecting (u ++ w ++ piece) [] v) where
  leaves := by
    have leaves := Text.leaves_of_piece (u ++ w) piece v
    rwa [List.append_assoc u w v, ← List.append_assoc] at leaves
  fits := selecting_fits (u ++ w ++ piece) [] v

theorem insert_eq (piece : Text) (parts : selection.Divides text u w v) :
    insert piece text selection = selecting (u ++ w ++ piece) [] v := by
  obtain ⟨rfl, clamp⟩ := parts
  have put := put_append (u ++ w) v piece
  rw [Text.bytes_append, List.append_assoc u w v, ← List.append_assoc (u ++ w)] at put
  unfold insert
  dsimp only
  rw [clamp]
  dsimp only
  rw [put, ← Text.bytes_append, ← Text.bytes_append]
  rfl

theorem selecting_follows (parts : selection.Divides text u w v) (piece : Text) :
    Follows text selection (selecting (u ++ w ++ piece) [] v) := by
  rw [← insert_eq piece parts]
  exact ⟨piece, rfl, rfl⟩

end Edit

/-! ### What is put in -/

/-- What a command puts into a text. -/
inductive Insertion
  /-- Markers directly around the selection. -/
  | around (before after : Text)
  /-- A marker at the start of the line in which the selection starts. -/
  | atLine (marker : Text)
  /-- A piece directly behind the selection. -/
  | behind (piece : Text)
  /-- A piece behind the selection that has to start a line. -/
  | below (piece : Text)

namespace Insertion

/-- What comes after a text starts a line. -/
def StartsLine (s : Text) : Prop := s = [] ∨ s.getLast? = some '\n'

/-- The edit that an insertion makes of a text in three parts, the second of which is selected. -/
inductive Makes : Insertion → Text → Text → Text → Edit → Prop
  | around (before after u w v : Text) :
      Makes (.around before after) u w v (.selecting (u ++ before) w (after ++ v))
  | atLine (marker w v : Text) {above line : Text} (start : StartsLine above) (eol : '\n' ∉ line) :
      Makes (.atLine marker) (above ++ line) w v (.selecting (above ++ marker ++ line) w v)
  | behind (piece u w v : Text) :
      Makes (.behind piece) u w v (.selecting (u ++ w ++ piece) [] v)
  | below (piece v : Text) {u w : Text} (start : StartsLine (u ++ w)) :
      Makes (.below piece) u w v (.selecting (u ++ w ++ piece) [] v)
  | belowGap (piece v : Text) {u w : Text} (inside : ¬StartsLine (u ++ w)) :
      Makes (.below piece) u w v (.selecting (u ++ w ++ '\n' :: '\n' :: piece) [] v)

/-- Whether something is put in behind the selection only. -/
def isBehind : Insertion → Bool
  | around .. | atLine _ => false
  | behind _ | below _ => true

variable {i : Insertion} {text u w v : Text} {selection : Selection} {edit : Edit}

/-- Whatever is put in, it can be deleted, and the selection is one of the new text. -/
theorem Makes.adds (made : i.Makes u w v edit) : edit.Adds (u ++ (w ++ v)) := by
  cases made with
  | around before after =>
    refine ⟨?_, Edit.selecting_fits ..⟩
    simpa [Edit.selecting] using Text.leaves_of_pieces u before w after v
  | @atLine marker _ _ above line =>
    refine ⟨?_, Edit.selecting_fits ..⟩
    simpa [Edit.selecting] using Text.leaves_of_piece above marker (line ++ (w ++ v))
  | behind piece => exact Edit.selecting_adds u w piece v
  | below piece => exact Edit.selecting_adds u w piece v
  | belowGap piece => exact Edit.selecting_adds u w ('\n' :: '\n' :: piece) v

/-- Markers leave the selected characters selected, and a piece comes right behind them. -/
theorem Makes.placed (parts : selection.Divides text u w v) (made : i.Makes u w v edit) :
    if i.isBehind then edit.Follows text selection else edit.Keeps text selection := by
  cases made with
  | around before after => exact Edit.selecting_keeps parts (u ++ before) (after ++ v)
  | @atLine marker _ _ above line => exact Edit.selecting_keeps parts (above ++ marker ++ line) v
  | behind piece => exact Edit.selecting_follows parts piece
  | below piece => exact Edit.selecting_follows parts piece
  | belowGap piece => exact Edit.selecting_follows parts ('\n' :: '\n' :: piece)

end Insertion

/-! ### The three ways to insert -/

namespace Edit

variable {text u w v : Text} {selection : Selection}

theorem wrap_makes (before after : Text) (parts : selection.Divides text u w v) :
    (Insertion.around before after).Makes u w v (wrap before after text selection) := by
  obtain ⟨rfl, clamp⟩ := parts
  have clamped : wrap before after (u ++ (w ++ v)) selection =
      wrap before after (u ++ (w ++ v)) (selection.clamp (u ++ (w ++ v))) := by
    simp only [wrap, Selection.clamp_clamp]
  rw [clamped, clamp, wrap_parts]
  exact .around ..

/-- The start of a line is the end of the line feed before it. -/
theorem lineStart_parts (u v : Text) :
    ∃ above line, u = above ++ line ∧ Insertion.StartsLine above ∧ '\n' ∉ line ∧
      lineStart (u ++ v) (Text.bytes u) = Text.bytes above := by
  refine ⟨(u.reverse.dropWhile (· != '\n')).reverse, (u.reverse.takeWhile (· != '\n')).reverse,
    ?_, ?_, fun mem => ?_, ?_⟩
  · rw [← List.reverse_append, List.takeWhile_append_dropWhile, List.reverse_reverse]
  · cases rest : u.reverse.dropWhile (· != '\n') with
    | nil => exact .inl rfl
    | cons c cs =>
      have stop := List.head?_dropWhile_not (· != '\n') u.reverse
      rw [rest] at stop
      refine .inr ?_
      rw [List.getLast?_reverse]
      simpa using stop
  · have other := List.all_eq_true.1 List.all_takeWhile _ (List.mem_reverse.1 mem)
    simp at other
  · rw [lineStart, Text.takeBytes_append, Text.bytes_reverse]

theorem markLine_makes (marker : Text) (parts : selection.Divides text u w v) :
    (Insertion.atLine marker).Makes u w v (markLine marker text selection) := by
  obtain ⟨rfl, clamp⟩ := parts
  obtain ⟨above, line, rfl, start, eol, found⟩ := lineStart_parts u (w ++ v)
  have edited : markLine marker (above ++ line ++ (w ++ v)) selection =
      selecting (above ++ marker ++ line) w v := by
    unfold markLine selecting
    simp only [clamp, found, Selection.shift]
    have put := put_append above (line ++ (w ++ v)) marker
    rw [← List.append_assoc] at put
    rw [put]
    simp only [Text.bytes_append, List.append_assoc, Edit.mk.injEq, Selection.mk.injEq, true_and]
    omega
  rw [edited]
  exact .atLine marker w v start eol

theorem insert_makes (piece : Text) (parts : selection.Divides text u w v) :
    (Insertion.behind piece).Makes u w v (insert piece text selection) := by
  rw [insert_eq piece parts]
  exact .behind ..

theorem ownLine_makes (piece : Text) (parts : selection.Divides text u w v) :
    (Insertion.below piece).Makes u w v
      (insert (ownLine piece text selection) text selection) := by
  have upto : Text.takeBytes text (selection.clamp text).stop = u ++ w := by
    rw [parts.clamp, parts.parts, ← List.append_assoc]
    dsimp only
    rw [← Text.bytes_append, Text.takeBytes_append]
  have starts : ((u ++ w).isEmpty || Text.endsWith (u ++ w) '\n') = true ↔
      Insertion.StartsLine (u ++ w) := by
    rw [Insertion.StartsLine, Bool.or_eq_true, List.isEmpty_iff, Text.endsWith, beq_iff_eq]
  rw [insert_eq _ parts, ownLine, upto]
  by_cases start : Insertion.StartsLine (u ++ w)
  · rw [if_pos (starts.2 start)]
    exact .below piece v start
  · rw [if_neg (mt starts.1 start)]
    exact .belowGap piece v start

end Edit

/-! ### Commands -/

namespace Command

variable {caps : CapabilitySet} {command : Command} {text u w v : Text} {selection : Selection}
  {edit : Edit} {i : Insertion}

/-- Whether a command inserts a piece after the selection. The others put markers around it or at the
start of its line. -/
def inserts : Command → Bool
  | link | image | horizontalRule | widget _ => true
  | _ => false

/-- A heading of the toolbar has a level that there is. -/
theorem level_of_mem_toolbar {level : Nat} (listed : heading level ∈ toolbar caps) :
    1 ≤ level ∧ level ≤ 6 := by
  simp only [toolbar, List.mem_append, List.mem_cons, List.mem_map, List.not_mem_nil, heading.injEq,
    reduceCtorEq, or_false, false_or, and_false, exists_false, exists_eq_right] at listed
  omega

theorem mem_names_of_mem_toolbar {name : String} (listed : widget name ∈ toolbar caps) :
    name ∈ caps.names := by
  simpa [toolbar] using listed

/-- What each command puts in. A heading has as many signs as its level says, from one to six, and a
widget is put in as its template. -/
inductive Puts (caps : CapabilitySet) : Command → Insertion → Prop
  | bold : Puts caps bold (.around "**".toList "**".toList)
  | italic : Puts caps italic (.around "*".toList "*".toList)
  | strikethrough : Puts caps strikethrough (.around "~~".toList "~~".toList)
  | inlineCode : Puts caps inlineCode (.around "`".toList "`".toList)
  | codeBlock : Puts caps codeBlock (.around "```\n".toList "\n```\n".toList)
  | heading {level : Nat} (low : 1 ≤ level) (high : level ≤ 6) :
      Puts caps (heading level) (.atLine (List.replicate level '#' ++ [' ']))
  | quote : Puts caps quote (.atLine "> ".toList)
  | bulletList : Puts caps bulletList (.atLine "- ".toList)
  | numberedList : Puts caps numberedList (.atLine "1. ".toList)
  | link : Puts caps link (.behind "[link text](https://example.com)".toList)
  | image : Puts caps image (.behind "![alt text](/images/example.png)".toList)
  | horizontalRule : Puts caps horizontalRule (.below "---\n".toList)
  | widget {name : String} {w : Widget} (found : caps.get? name = some w) :
      Puts caps (widget name) (.below w.template.toList)

theorem Puts.isBehind_eq (puts : command.Puts caps i) : i.isBehind = command.inserts := by
  cases puts <;> rfl

/-- A command that puts something in is not refused, and makes the edit with it. -/
theorem Puts.exists_apply (puts : command.Puts caps i) (parts : selection.Divides text u w v) :
    ∃ edit, command.apply caps text selection = .ok edit ∧ i.Makes u w v edit := by
  cases puts with
  | bold | italic | strikethrough | inlineCode | codeBlock =>
    exact ⟨_, rfl, Edit.wrap_makes _ _ parts⟩
  | heading low high => exact ⟨_, if_pos (by simp [low, high]), Edit.markLine_makes _ parts⟩
  | quote | bulletList | numberedList => exact ⟨_, rfl, Edit.markLine_makes _ parts⟩
  | link | image => exact ⟨_, rfl, Edit.insert_makes _ parts⟩
  | horizontalRule => exact ⟨_, rfl, Edit.ownLine_makes _ parts⟩
  | @widget name w found =>
    refine ⟨_, ?_, Edit.ownLine_makes _ parts⟩
    show Edit.insertTemplate caps name text selection = _
    rw [Edit.insertTemplate, found]

/-- A command that is not refused puts something in. -/
theorem exists_puts_of_apply (applied : command.apply caps text selection = .ok edit) :
    ∃ i, command.Puts caps i := by
  cases command with
  | heading level =>
    simp only [apply] at applied
    split at applied
    · rename_i within
      rw [Bool.and_eq_true, decide_eq_true_eq, decide_eq_true_eq] at within
      exact ⟨_, .heading within.1 within.2⟩
    · cases applied
  | widget name =>
    simp only [apply, Edit.insertTemplate] at applied
    split at applied
    · cases applied
    · rename_i w found
      exact ⟨_, .widget found⟩
  | bold => exact ⟨_, .bold⟩
  | italic => exact ⟨_, .italic⟩
  | strikethrough => exact ⟨_, .strikethrough⟩
  | inlineCode => exact ⟨_, .inlineCode⟩
  | codeBlock => exact ⟨_, .codeBlock⟩
  | quote => exact ⟨_, .quote⟩
  | bulletList => exact ⟨_, .bulletList⟩
  | numberedList => exact ⟨_, .numberedList⟩
  | link => exact ⟨_, .link⟩
  | image => exact ⟨_, .image⟩
  | horizontalRule => exact ⟨_, .horizontalRule⟩

/-- **What a command makes of a text**: what it puts in says it all, wherever the selection is. -/
theorem exists_makes_of_apply (applied : command.apply caps text selection = .ok edit)
    (parts : selection.Divides text u w v) :
    ∃ i, command.Puts caps i ∧ i.Makes u w v edit := by
  obtain ⟨i, puts⟩ := exists_puts_of_apply applied
  obtain ⟨edit', applied', made⟩ := puts.exists_apply parts
  obtain rfl := Except.ok.inj (applied'.symm.trans applied)
  exact ⟨i, puts, made⟩

/-- A command of the toolbar puts something in. -/
theorem exists_puts_of_mem_toolbar (listed : command ∈ toolbar caps) : ∃ i, command.Puts caps i := by
  cases command with
  | heading level =>
    obtain ⟨low, high⟩ := level_of_mem_toolbar listed
    exact ⟨_, .heading low high⟩
  | widget name =>
    obtain ⟨w, found⟩ := Fields.exists_get?_of_mem_names (mem_names_of_mem_toolbar listed)
    exact ⟨_, .widget found⟩
  | _ => exact @exists_puts_of_apply caps _ [] (.cursor 0) _ rfl

/-- No command of the toolbar is refused. -/
theorem exists_apply_of_mem_toolbar (listed : command ∈ toolbar caps) (text : Text)
    (selection : Selection) : ∃ edit, command.apply caps text selection = .ok edit := by
  obtain ⟨i, puts⟩ := exists_puts_of_mem_toolbar listed
  obtain ⟨u, w, v, parts⟩ := selection.exists_divides text
  obtain ⟨edit, applied, -⟩ := puts.exists_apply parts
  exact ⟨edit, applied⟩

/-- What any command does, if it is not refused. -/
theorem adds_of_apply (applied : command.apply caps text selection = .ok edit) :
    edit.Adds text ∧
      if command.inserts then edit.Follows text selection else edit.Keeps text selection := by
  obtain ⟨u, w, v, parts⟩ := selection.exists_divides text
  obtain ⟨i, puts, made⟩ := exists_makes_of_apply applied parts
  have placed := made.placed parts
  rw [puts.isBehind_eq] at placed
  refine ⟨?_, placed⟩
  rw [parts.parts]
  exact made.adds

/-- Where a command puts markers in, a buffer has the same characters selected as before. -/
theorem selected_of_apply {b : Buffer} (applied : command.apply caps b.text selection = .ok edit)
    (marks : command.inserts = false) :
    (b.replace edit.text edit.selection).selected = (b.select selection).selected := by
  obtain ⟨adds, placed⟩ := adds_of_apply applied
  rw [marks] at placed
  exact adds.selected_replace placed

/-- **Commands only add.** Whatever text and selection a command is given, deleting one or two pieces of
the new text leaves the old one, and the new selection is one that a buffer stores as it is: it holds the
characters that were selected, or it is a cursor behind the piece that was put in. What is put in is the
command's own, around the selection, at the start of its line or behind it. The commands of the toolbar
are never refused. -/
theorem only_adds (caps : CapabilitySet) (command : Command) (text : Text) (selection : Selection) :
    (command ∈ toolbar caps → ∃ edit, command.apply caps text selection = .ok edit) ∧
      ∀ edit, command.apply caps text selection = .ok edit →
        edit.Adds text ∧
        (∀ b : Buffer, (b.replace edit.text edit.selection).selection = edit.selection) ∧
        (if command.inserts then edit.Follows text selection else edit.Keeps text selection) ∧
        ∃ i u w v, command.Puts caps i ∧ selection.Divides text u w v ∧ i.Makes u w v edit := by
  refine ⟨fun listed => exists_apply_of_mem_toolbar listed text selection, fun edit applied => ?_⟩
  obtain ⟨adds, placed⟩ := adds_of_apply applied
  obtain ⟨u, w, v, parts⟩ := selection.exists_divides text
  obtain ⟨i, puts, made⟩ := exists_makes_of_apply applied parts
  exact ⟨adds, adds.stored, placed, i, u, w, v, puts, parts, made⟩

/-- A selection that is the wrong way round, past the text at one end and inside a character at the
other. -/
theorem only_adds_reversed :
    bold ∈ toolbar .empty ∧
      bold.apply .empty "na\u00efve".toList ⟨99, 3⟩ = .ok ⟨"na**\u00efve**".toList, ⟨4, 8⟩⟩ ∧
      Edit.Adds "na\u00efve".toList ⟨"na**\u00efve**".toList, ⟨4, 8⟩⟩ ∧
      Edit.Keeps "na\u00efve".toList ⟨99, 3⟩ ⟨"na**\u00efve**".toList, ⟨4, 8⟩⟩ ∧
      ∃ edit, bold.apply .empty "na\u00efve".toList ⟨99, 3⟩ = .ok edit := by
  have listed : bold ∈ toolbar .empty := by simp [toolbar]
  have applied : bold.apply .empty "na\u00efve".toList ⟨99, 3⟩ =
      .ok ⟨"na**\u00efve**".toList, ⟨4, 8⟩⟩ := by decide
  obtain ⟨accepted, added⟩ := only_adds .empty bold "na\u00efve".toList ⟨99, 3⟩
  obtain ⟨adds, -, keeps, -⟩ := added _ applied
  exact ⟨listed, applied, adds, keeps, accepted listed⟩

end Command
end Folio
