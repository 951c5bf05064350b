import Folio.Markup.Document
import Folio.Markup.Region
import Folio.Markup.Token
import Folio.Text.Letter

/-!
# Inline content

The tokens of a paragraph or heading are read from left to right. What is open, from the innermost
outwards, is a stack of frames: each waits for the mark that ends it and holds the content that
came before it. A frame whose mark never comes turns into its opening mark as plain text, followed
by its content.

Content under construction is kept in reverse.
-/

namespace Folio

/-- The mark that ends an open frame. -/
inductive Stop
  | strong (underscore : Bool)
  | emphasis (underscore : Bool)
  | strikethrough
  | linkText
  deriving DecidableEq, Repr

namespace Stop

/-- The mark that ends what a token opens, when the token opens emphasis. -/
def ofToken? : Token → Option Stop
  | .doubleStar => some (.strong false)
  | .doubleUnderscore => some (.strong true)
  | .star => some (.emphasis false)
  | .underscore => some (.emphasis true)
  | .doubleTilde => some .strikethrough
  | _ => none

/-- Whether a token is the mark. -/
def isToken (stop : Stop) (token : Token) : Bool :=
  match stop with
  | .linkText => token == .linkTarget
  | _ => ofToken? token == some stop

end Stop

namespace Lexeme

/-- Whether a token is an underscore mark, which has no effect inside a word. -/
def isUnderscore (t : Lexeme) : Bool :=
  t.token == .underscore || t.token == .doubleUnderscore

/-- Whether a token may open emphasis: something other than white space follows. -/
def canOpen (t : Lexeme) : Bool :=
  t.after.any (!Text.isBlankChar ·) && !(t.isUnderscore && t.before.any Text.isLetter)

/-- Whether a token may close emphasis: something other than white space comes before. -/
def canClose (t : Lexeme) : Bool :=
  t.before.any (!Text.isBlankChar ·) && !(t.isUnderscore && t.after.any Text.isLetter)

/-- Whether a token ends a frame that waits for a mark. -/
def ends (stop : Stop) (t : Lexeme) : Bool :=
  stop.isToken t.token && (stop == .linkText || t.canClose)

/-- The `](` that ends a label, and the tokens after it, when `depth` brackets are open in the
label. -/
def linkTarget? : Nat → List Lexeme → Option (Lexeme × List Lexeme)
  | _, [] => none
  | depth, t :: ts =>
    match t.token, depth with
    | .bracket, _ => linkTarget? (depth + 1) ts
    | .imageOpen, _ => linkTarget? (depth + 1) ts
    | .closeBracket, 0 => none
    | .closeBracket, depth + 1 => linkTarget? depth ts
    | .linkTarget, 0 => some (t, ts)
    | .linkTarget, depth + 1 => linkTarget? depth ts
    | _, _ => linkTarget? depth ts

end Lexeme

namespace Inline

/-- Content in reverse order. -/
abbrev Reversed := List Inline

namespace Reversed

/-- Adds plain text, to the last piece of content if that is text. -/
def addText (out : Reversed) (s : Text) : Reversed :=
  if s.isEmpty then out
  else
    match out with
    | .text value :: rest => .text (value ++ String.ofList s) :: rest
    | _ => .text (String.ofList s) :: out

/-- Removes spaces and tabs from the end, if that is text. -/
def trimEnd (out : Reversed) : Reversed :=
  match out with
  | .text value :: rest =>
    let kept := Text.trimEndOf isIndent value.toList
    if kept.isEmpty then rest else .text (String.ofList kept) :: rest
  | _ => out

/-- Whether the content ends in text with two spaces. -/
def endsInTwoSpaces (out : Reversed) : Bool :=
  match out with
  | .text value :: _ => value.toList.reverse.take 2 == [' ', ' ']
  | _ => false

end Reversed

/-- Removes white space from the start, if that is text. -/
def trimStart (content : List Inline) : List Inline :=
  match content with
  | .text value :: rest =>
    let kept := Text.trimStart value.toList
    if kept.isEmpty then rest else .text (String.ofList kept) :: rest
  | _ => content

/-- What is open: the mark waited for, the opening mark's text, and the content before it. -/
structure Frame where
  stop : Stop
  opener : Text
  outer : Reversed

/-- Content and what is open around it, innermost first. -/
structure State where
  frames : List Frame
  out : Reversed

namespace State

/-- Adds content. -/
def add (st : State) (i : Inline) : State := { st with out := i :: st.out }

/-- Adds plain text. -/
def addText (st : State) (s : Text) : State := { st with out := st.out.addText s }

/-- Opens a frame. -/
def push (st : State) (stop : Stop) (opener : Text) : State :=
  { frames := { stop, opener, outer := st.out } :: st.frames, out := [] }

/-- All content, with every open frame turned into text. -/
def unwind (out : Reversed) : List Frame → Reversed
  | [] => out
  | f :: fs => unwind (out ++ f.outer.addText f.opener) fs

end State

/-- What ends a frame, as content. -/
def close (stop : Stop) (children : List Inline) : Inline :=
  match stop with
  | .strong _ => .strong children
  | .strikethrough => .strikethrough children
  | _ => .emphasis children

/-- The text of a code span: line feeds become spaces, and one space at each end is removed when
both are there. -/
def codeText (raw : Text) : String :=
  let s := raw.map fun c => if c == '\n' then ' ' else c
  let inner :=
    if 1 < s.length && s.head? == some ' ' && Text.endsWith s ' ' then (s.drop 1).dropLast else s
  String.ofList inner

/-- Whether a character is ASCII punctuation. -/
def isPunctuation (c : Char) : Bool :=
  let n := c.toNat
  (33 ≤ n && n ≤ 47) || (58 ≤ n && n ≤ 64) || (91 ≤ n && n ≤ 96) || (123 ≤ n && n ≤ 126)

/-- The tag of a widget in a region, its offsets mapped to the source. -/
def tagIn (r : Region) (tag : OpenTag) (start stop : Nat) : WidgetTag :=
  { name := tag.name
    props := tag.props.map fun p => { p with span := r.span p.span.start p.span.stop }
    span := r.span start stop }

/-- The destination after `](`, the token `target`: the text up to the next closing parenthesis,
and the offset past that. -/
def destination (r : Region) (target : Lexeme) (ts : List Lexeme) :
    Except SyntaxError (String × Nat) :=
  let inside := ts.takeWhile (·.token != .closeParen)
  match ts.drop inside.length with
  | close :: _ => .ok (String.ofList (Text.trim (Lexeme.join inside)), close.stop)
  | [] => .error { pos := r.toSource (target.start + 1), fault := .unclosedDelimiter '(' }

/-- Ends the frame `f` at the token `t` before the tokens `ts`; the result comes with the offset
where reading goes on. -/
def endFrame (r : Region) (f : Frame) (fs : List Frame) (out : Reversed) (t : Lexeme)
    (ts : List Lexeme) : Except SyntaxError (State × Nat) :=
  match f.stop with
  | .linkText => do
    let (href, resume) ← destination r t ts
    return ({ frames := fs, out := .link href out.reverse :: f.outer }, resume)
  | stop => .ok ({ frames := fs, out := close stop out.reverse :: f.outer }, t.stop)

/-- Takes the token `t`, which ends no frame, before the tokens `ts`; the result comes with the
offset where reading goes on. -/
def take (r : Region) (st : State) (t : Lexeme) (ts : List Lexeme) :
    Except SyntaxError (State × Nat) :=
  let plain : State × Nat := (st.addText t.literal, t.stop)
  match t.token with
  | .doubleStar | .doubleUnderscore | .star | .underscore | .doubleTilde =>
    match Stop.ofToken? t.token with
    | some stop =>
      if t.canOpen && ts.any fun u => stop.isToken u.token && u.canClose then
        .ok (st.push stop t.literal, t.stop)
      else .ok plain
    | none => .ok plain
  | .backticks _ =>
    let inside := ts.takeWhile (·.token != t.token)
    match ts.drop inside.length with
    | close :: _ => .ok (st.add (.code (codeText (Lexeme.join inside))), close.stop)
    | [] => .ok plain
  | .imageOpen =>
    match Lexeme.linkTarget? 0 ts with
    | some (target, rest) => do
      let (src, resume) ← destination r target rest
      let alt := ts.take (ts.length - (rest.length + 1))
      return (st.add (.image src (String.ofList (Lexeme.join alt))), resume)
    | none => .ok plain
  | .bracket =>
    match Lexeme.linkTarget? 0 ts with
    | some _ => .ok (st.push .linkText t.literal, t.stop)
    | none => .ok plain
  | .brace =>
    match Expression.read t.start (Lexeme.join (t :: ts)) with
    | .error e => .error (e.relocate r.toSource)
    | .ok e =>
      let stop := t.start + Text.bytes e
      .ok (st.add (.expression (Expression.source e) (r.span t.start stop)), stop)
  | .closeBrace => .error { pos := r.toSource t.start, fault := .unmatchedDelimiter '}' }
  | .widgetOpen =>
    match OpenTag.read t.start (Lexeme.join (t :: ts)) with
    | .error e => .error (e.relocate r.toSource)
    | .ok tag =>
      if tag.selfClosing then
        .ok (st.add (.widget (.mk (tagIn r tag t.start tag.stop) true [])), tag.stop)
      else
        .error {
          pos := r.toSource t.start
          fault := .invalid s!"inline widget <{tag.name}> must be self-closing" }
  | .hardBreak => .ok ({ st with out := .lineBreak :: st.out.trimEnd }, t.stop)
  | .newline =>
    let break_ := if st.out.endsInTwoSpaces then .lineBreak else .softBreak
    .ok ({ st with out := break_ :: st.out.trimEnd }, t.stop)
  | .escape =>
    if t.literal.all isPunctuation then .ok plain else .ok (st.addText t.text, t.stop)
  | .text | .punct | .closeBracket | .closeParen | .linkTarget =>
    .ok (st.addText t.text, t.stop)

/-- Reads tokens up to the end. What lies before `resume` has been read; a token that runs past it
is cut down to its tail, which is plain text. -/
def readFrom (r : Region) : State → Nat → List Lexeme → Except SyntaxError Reversed
  | st, _, [] => .ok (State.unwind st.out st.frames)
  | st, resume, t :: ts =>
    if t.stop ≤ resume then readFrom r st resume ts
    else if t.start < resume then
      readFrom r (st.addText (Text.dropBytes t.text (resume - t.start))) t.stop ts
    else
      let next :=
        match st.frames with
        | f :: fs => if t.ends f.stop then endFrame r f fs st.out t ts else take r st t ts
        | [] => take r st t ts
      match next with
      | .error e => .error e
      | .ok (st, resume) => readFrom r st resume ts

/-- The inline content of a region, without the white space at its ends. -/
def read (r : Region) : Except SyntaxError (List Inline) := do
  let out ← readFrom r { frames := [], out := [] } 0 (Lexeme.readAll r.text)
  return trimStart out.trimEnd.reverse

end Inline
end Folio
