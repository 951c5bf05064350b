import Folio.Proofs.History.Latest
import Folio.Proofs.Session.UndoRedo
import Mathlib.Data.List.SplitBy

/-!
# Typing in bursts

An author who only types makes bursts: inputs that change the text, each less than the quiet window
after the one before. The history gets the text at the end of each burst.

* `changes` are the inputs that change the text, `bursts` divides them, and `ends` are the texts at
  the ends of the bursts;
* `IsTyped` is the invariant of a session in which nothing but typing happens: the history was told
  the ends of all bursts, or of all but the last one while its window is running;
* `texts_of_bursts`: once the last window has ended, the history holds the latest of these texts.
-/

namespace Folio

/-- A window that still runs has not ended. -/
theorem Debounce.mem_clearIfDue {d : Debounce} {deadline now : Nat} :
    deadline ∈ (d.clearIfDue now).deadline ↔ deadline ∈ d.deadline ∧ now < deadline := by
  unfold clearIfDue
  by_cases due : d.isDue now = true
  · rw [if_pos due]
    refine ⟨nofun, fun ⟨running, early⟩ => ?_⟩
    rw [isDue, running] at due
    exact absurd (of_decide_eq_true due) (Nat.not_le_of_lt early)
  · rw [if_neg due]
    refine ⟨fun running => ⟨running, ?_⟩, And.left⟩
    rw [isDue, running] at due
    simpa using due

namespace Session

/-! ### Parts of a list -/

section Parts

open List

variable {α : Type*} {r : α → α → Bool} {l : List α} {a b : α}

/-- The last part of a list ends as the list does. -/
theorem exists_splitBy_eq_concat (r : α → α → Bool) (last : l.getLast? = some b) :
    ∃ front part, l.splitBy r = front ++ [part] ∧ part.getLast? = some b := by
  have filled : l.splitBy r ≠ [] := splitBy_ne_nil.2 (by rintro rfl; cases last)
  have parts := (dropLast_append_getLast filled).symm
  have nonempty : (l.splitBy r).getLast filled ≠ [] := ne_nil_of_mem_splitBy (getLast_mem filled)
  refine ⟨_, _, parts, ?_⟩
  have flat := flatten_splitBy r l
  rw [parts, flatten_append, flatten_singleton] at flat
  rwa [← flat, getLast?_append_of_ne_nil _ nonempty] at last

/-- An entry that goes with the last one belongs to its part. -/
theorem splitBy_concat {front : List (List α)} {part : List α}
    (parts : l.splitBy r = front ++ [part]) (last : part.getLast? = some b) (joined : r b a = true) :
    (l ++ [a]).splitBy r = front ++ [part ++ [a]] := by
  obtain ⟨flat, nonempty, chains, apart⟩ := splitBy_eq_iff.1 parts
  rw [splitBy_eq_iff]
  refine ⟨?_, ?_, ?_, ?_⟩
  · rw [flat, flatten_append, flatten_append, flatten_singleton, flatten_singleton, append_assoc]
  · rw [mem_append, not_or] at nonempty ⊢
    exact ⟨nonempty.1, by simp⟩
  · intro m mem
    rcases mem_append.1 mem with mem | mem
    · exact chains m (mem_append_left _ mem)
    · rw [mem_singleton.1 mem]
      refine IsChain.append (chains part (by simp)) (.singleton a) ?_
      intro x hx y hy
      rw [last, Option.mem_some] at hx
      rw [head?_cons, Option.mem_some] at hy
      rwa [← hx, ← hy]
  · -- what stands before the last part is apart from its first entry, which stays
    rw [isChain_append] at apart ⊢
    refine ⟨apart.1, .singleton _, ?_⟩
    intro x hx y hy
    rw [head?_cons, Option.mem_some] at hy
    obtain ⟨x_ne, y_ne, other⟩ := apart.2.2 x hx part rfl
    subst hy
    refine ⟨x_ne, by simp, ?_⟩
    rwa [head_append_of_ne_nil]

end Parts

/-! ### Bursts -/

/-- An input of an author: the text typed, the selection in it, and the time. -/
structure Keystroke where
  text : Text
  selection : Selection
  now : Nat
  deriving DecidableEq, Repr

/-- The inputs that change the text, which is `text` before the first. -/
def changes (text : Text) : List Keystroke → List Keystroke
  | [] => []
  | k :: ks => if k.text = text then changes text ks else k :: changes k.text ks

/-- Whether an input comes less than the window after another one. -/
def joins (window : Nat) (before after : Keystroke) : Bool := after.now < before.now + window

/-- The longest groups of successive inputs in which each comes less than the window after the one
before. -/
def bursts (window : Nat) (ks : List Keystroke) : List (List Keystroke) := ks.splitBy (joins window)

/-- The texts at the ends of the bursts. -/
def ends (window : Nat) (ks : List Keystroke) : List Text :=
  (bursts window ks).filterMap fun burst => burst.getLast?.map Keystroke.text

/-- The text after some inputs, which is `text` before the first. -/
def latest (text : Text) (ks : List Keystroke) : Text := (ks.getLast?.map Keystroke.text).getD text

variable {window room time : Nat} {text : Text} {k : Keystroke} {ks : List Keystroke}

theorem latest_cons (text : Text) (k : Keystroke) (ks : List Keystroke) :
    latest text (k :: ks) = latest k.text ks := by
  rw [latest, latest, List.getLast?_cons]
  cases ks.getLast? <;> rfl

/-- One input more is a change if its text is not the latest. -/
theorem changes_concat (text : Text) (ks : List Keystroke) (k : Keystroke) :
    changes text (ks ++ [k]) =
      if k.text = latest text (changes text ks) then changes text ks
      else changes text ks ++ [k] := by
  induction ks generalizing text with
  | nil => rfl
  | cons k' ks ih =>
    rw [List.cons_append, changes, changes]
    split
    · exact ih text
    · rw [ih, latest_cons]
      split <;> rfl

/-- The last burst ends in the latest text. -/
theorem ends_eq_concat {k : Keystroke} (last : ks.getLast? = some k) :
    ends window ks = (ends window ks).dropLast ++ [k.text] := by
  obtain ⟨front, part, parts, last'⟩ := exists_splitBy_eq_concat (joins window) last
  simp [ends, bursts, parts, last']

/-- A change that goes with the one before moves the end of the last burst. -/
theorem ends_concat_joined {k' : Keystroke} (last : ks.getLast? = some k')
    (joined : joins window k' k = true) :
    ends window (ks ++ [k]) = (ends window ks).dropLast ++ [k.text] := by
  obtain ⟨front, part, parts, last'⟩ := exists_splitBy_eq_concat (joins window) last
  simp [ends, bursts, parts, splitBy_concat parts last' joined, last']

/-- Any other change is a burst of its own. -/
theorem ends_concat_apart (apart : ∀ k' ∈ ks.getLast?, joins window k' k = false) :
    ends window (ks ++ [k]) = ends window ks ++ [k.text] := by
  rw [ends, bursts, List.splitBy_append_cons [] apart, List.filterMap_append]
  rfl

/-! ### What typing keeps -/

/-- The session after an input. -/
def type (s : Session) (k : Keystroke) : Session := s.input k.text k.selection k.now

/-- The session after some inputs. -/
def typeAll (s : Session) (ks : List Keystroke) : Session := ks.foldl type s

/-- A session with a window and with room for some states, in which nothing happened up to some time
but that the inputs `ks` changed the text, which was `text` before them: the history was told the
ends of their bursts, the last one only when its window had ended. -/
structure IsTyped (window room : Nat) (text : Text) (ks : List Keystroke) (time : Nat)
    (s : Session) : Prop where
  window_eq : s.typing.window = window
  text_eq : s.buffer.text = latest text ks
  idle : s.typing.deadline = none →
    s.history.Holds room (text :: ends window ks) ∧ ∀ k ∈ ks.getLast?, k.now + window ≤ time
  pending : ∀ deadline ∈ s.typing.deadline,
    s.history.Holds room (text :: (ends window ks).dropLast) ∧
      ∃ k ∈ ks.getLast?, k.now + window = deadline

namespace IsTyped

variable {s : Session} {now : Nat}

/-- A pause that is noticed closes the last burst. -/
theorem flushTyping (h : IsTyped window room text ks time s) (now : Nat) :
    IsTyped window room text ks (max time now) (s.flushTyping now).1 := by
  unfold Session.flushTyping
  split
  · rename_i due
    refine ⟨h.window_eq, h.text_eq, fun _ => ?_, nofun⟩
    obtain ⟨deadline, running, passed⟩ := (Option.any_eq_true _ _).1 due
    obtain ⟨holds, k, last, rfl⟩ := h.pending deadline running
    refine ⟨?_, fun k' last' => ?_⟩
    · have told := holds.record s.snapshot
      have text_eq : s.snapshot.text = k.text := by
        rw [snapshot, h.text_eq, latest, last]
        rfl
      rw [List.cons_append, text_eq, ← ends_eq_concat last] at told
      exact told
    · obtain rfl : k = k' := Option.mem_unique last last'
      exact Nat.le_trans (of_decide_eq_true passed) (Nat.le_max_right _ _)
  · refine ⟨h.window_eq, h.text_eq, fun none => ?_, h.pending⟩
    obtain ⟨holds, ended⟩ := h.idle none
    exact ⟨holds, fun k last => Nat.le_trans (ended k last) (Nat.le_max_left _ _)⟩

theorem replace_same (h : IsTyped window room text ks now s) (same : k.text = latest text ks) :
    IsTyped window room text ks now (s.replace k.text k.selection) where
  window_eq := by rw [replace_typing, h.window_eq]
  text_eq := by rw [replace_text, same]
  idle := by
    rw [replace_typing, replace_history]
    exact h.idle
  pending := by
    rw [replace_typing, replace_history]
    exact h.pending

/-- A change after a burst has been closed begins another, and any other belongs to it. -/
theorem replace_changed (h : IsTyped window room text ks k.now s)
    (early : ∀ deadline ∈ s.typing.deadline, k.now < deadline) :
    IsTyped window room text (ks ++ [k]) k.now
      { s.replace k.text k.selection with typing := s.typing.touch k.now } where
  window_eq := h.window_eq
  text_eq := by
    rw [latest, List.getLast?_concat]
    exact replace_text s k.text k.selection
  idle := nofun
  pending := by
    rintro _ ⟨⟩
    refine ⟨?_, k, List.getLast?_concat, by rw [h.window_eq]⟩
    rw [replace_history]
    cases running : s.typing.deadline with
    | none =>
      obtain ⟨holds, ended⟩ := h.idle running
      rw [ends_concat_apart, List.dropLast_concat]
      · exact holds
      · intro k' last
        have := ended k' last
        simpa [joins] using this
    | some deadline =>
      obtain ⟨holds, k', last, rfl⟩ := h.pending deadline running
      rw [ends_concat_joined last, List.dropLast_concat]
      · exact holds
      · have := early _ running
        simpa [joins] using this

theorem type (h : IsTyped window room text ks time s) (le : time ≤ k.now) :
    IsTyped window room text (if k.text = latest text ks then ks else ks ++ [k]) k.now (s.type k) := by
  have flushed := h.flushTyping k.now
  rw [Nat.max_eq_right le] at flushed
  unfold Session.type input
  simp only
  by_cases same : k.text = latest text ks
  · rw [if_pos same, if_neg (by simp [Buffer.differs, h.text_eq, same])]
    exact flushed.replace_same same
  · rw [if_neg same, if_pos (by simpa [Buffer.differs, h.text_eq] using same)]
    refine flushed.replace_changed fun deadline running => ?_
    rw [flushTyping_typing] at running
    exact (Debounce.mem_clearIfDue.1 running).2

/-- Inputs at times that never go back. -/
theorem typeAll (h : IsTyped window room text [] 0 s) (ordered : ks.Pairwise (·.now ≤ ·.now)) :
    IsTyped window room text (changes text ks) ((ks.getLast?.map Keystroke.now).getD 0)
      (s.typeAll ks) := by
  induction ks using List.reverseRecOn with
  | nil => exact h
  | append_singleton ks k ih =>
    rw [List.pairwise_append] at ordered
    obtain ⟨ordered, -, before⟩ := ordered
    have le : (ks.getLast?.map Keystroke.now).getD 0 ≤ k.now := by
      cases last : ks.getLast? with
      | none => exact Nat.zero_le _
      | some k' => exact before k' (List.mem_of_getLast? last) k List.mem_cons_self
    rw [changes_concat, List.getLast?_concat, Session.typeAll, List.foldl_append]
    exact (ih ordered).type le

end IsTyped

/-! ### Sessions that only see typing -/

/-- A session has just begun. -/
def Begins (config : EditorConfig) (s : Session) : Prop :=
  (∃ capabilities, newDocument config capabilities = .ok s) ∨
    ∃ documents target capabilities, load documents target config capabilities = .ok s

theorem Begins.isTyped {config : EditorConfig} {s : Session} (h : s.Begins config) :
    IsTyped config.typingCoalesceMs config.historyLimit s.buffer.text [] 0 s := by
  obtain ⟨limit, target, buffer, capabilities, rfl⟩ : 0 < config.historyLimit ∧
      ∃ target buffer capabilities, s = build target buffer config capabilities := by
    rcases h with ⟨capabilities, h⟩ | ⟨documents, target, capabilities, h⟩
    · obtain ⟨limit, target, buffer, -, eq⟩ := build_of_newDocument h
      exact ⟨limit, target, buffer, capabilities, eq⟩
    · obtain ⟨limit, target, buffer, -, eq⟩ := build_of_load h
      exact ⟨limit, target, buffer, capabilities, eq⟩
  let initial : Snapshot := { text := buffer.text, selection := buffer.selection }
  exact ⟨rfl, rfl, fun _ => ⟨History.Holds.start initial limit, nofun⟩, nofun⟩

/-- **Typing is recorded burst by burst.** In a session that has just begun there is nothing but
inputs, at times that never go back, and then a look at the clock that is not before the end of the
window: nothing typed is waiting any more, the newest state of the history is the current one, and
the texts in the history are the latest of these, as many as it has room for: the text that the
session began with and the text at the end of each burst, less each that equals the one before
it. -/
theorem texts_of_bursts {config : EditorConfig} {s : Session} (fresh : s.Begins config)
    (ordered : ks.Pairwise (·.now ≤ ·.now)) {now : Nat}
    (late : ∀ deadline ∈ (s.typeAll ks).typing.deadline, deadline ≤ now) :
    let typed := ((s.typeAll ks).flushTyping now).1
    let texts := s.buffer.text :: ends config.typingCoalesceMs (changes s.buffer.text ks)
    typed.history.texts = (texts.destutter (· ≠ ·)).rtake config.historyLimit ∧
      typed.history.cursor + 1 = typed.history.size ∧
      typed.typing.isPending = false := by
  intro typed texts
  have flushed := (fresh.isTyped.typeAll ordered).flushTyping now
  have idle : typed.typing.deadline = none := by
    refine Option.eq_none_iff_forall_not_mem.2 fun deadline running => ?_
    rw [flushTyping_typing] at running
    obtain ⟨waiting, after⟩ := Debounce.mem_clearIfDue.1 running
    exact Nat.not_le_of_gt after (late deadline waiting)
  obtain ⟨holds, -⟩ := flushed.idle idle
  exact ⟨holds.texts_eq, holds.newest, by rw [Debounce.isPending, idle]; rfl⟩

/-- The second burst ends where it began and adds nothing, and there is no room for what was before the
last two. -/
theorem texts_of_bursts_takenBack :
    ∃ s, Begins { historyLimit := 2, newDocumentTemplate := "" } s ∧
      let ks : List Keystroke := [⟨"h".toList, .cursor 1, 0⟩, ⟨"hi".toList, .cursor 2, 999⟩,
        ⟨"hi".toList, .cursor 0, 1500⟩, ⟨"h".toList, .cursor 1, 1999⟩, ⟨"hi".toList, .cursor 2, 2500⟩,
        ⟨"hi!".toList, .cursor 3, 3500⟩, ⟨"h".toList, .cursor 1, 4500⟩]
      ks.Pairwise (·.now ≤ ·.now) ∧
      (∀ deadline ∈ (s.typeAll ks).typing.deadline, deadline ≤ 5500) ∧
      ends 1000 (changes [] ks) = ["hi".toList, "hi".toList, "hi!".toList, "h".toList] ∧
      ((s.typeAll ks).flushTyping 5500).1.history.texts = ["hi!".toList, "h".toList] := by
  have begun : Begins { historyLimit := 2, newDocumentTemplate := "" } _ :=
    .inl ⟨.empty, rfl⟩
  refine ⟨_, begun, by decide, ?_, by decide, ?_⟩
  · rintro _ ⟨⟩
    decide
  · exact (texts_of_bursts begun (by decide) (by rintro _ ⟨⟩; decide)).1

end Session
end Folio
