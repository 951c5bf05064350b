import Folio.Json.Printer
import Folio.Proofs.Markup.Literals

/-!
# Compact texts in braces

A compact text is made for readers of its own format; here it is seen as what stands between the
braces of an expression. For values without doubles:

* `Json.isWritten_compact`: strings end and braces balance in it, and it has no control characters;
* `Json.isLiteral_compact`: in braces it is a literal;
* `Json.trim_compact`: it has no white space at its ends.
-/

namespace Folio

/-- A text is trimmed already if neither its first nor its last character is white space. -/
theorem Text.trim_eq_self {s : Text} (first : ∀ c ∈ s.head?, isBlankChar c = false)
    (last : ∀ c ∈ s.getLast?, isBlankChar c = false) : trim s = s := by
  have start : trimStart s = s := by
    cases s with
    | nil => rfl
    | cons c s => simp [trimStart, first c rfl]
  rw [trim, start, trimEnd, trimEndOf]
  cases back : s.reverse with
  | nil => simpa using back.symm
  | cons c r =>
    have here := last c (by rw [← List.head?_reverse, back]; rfl)
    rw [List.dropWhile_cons_of_neg (by simp [here]), ← back, List.reverse_reverse]

/-- A text between two characters that show is trimmed already. -/
theorem Text.trim_between {s : Text} {a b : Char} (first : isBlankChar a = false)
    (last : isBlankChar b = false) : trim (a :: (s ++ [b])) = a :: (s ++ [b]) := by
  refine trim_eq_self (by simpa using first) ?_
  rw [← List.cons_append, List.getLast?_concat]
  simpa using last

namespace Json

variable {c : Char} {s t : Text} {v : Json}

/-- A value without doubles. -/
inductive IsExact : Json → Prop
  | null : IsExact .null
  | bool (value : Bool) : IsExact (.bool value)
  | integer (value : Int) : IsExact (.integer value)
  | string (value : String) : IsExact (.string value)
  | array {items : List Json} (each : ∀ v ∈ items, IsExact v) : IsExact (.array items)
  | object {fields : List (String × Json)} (each : ∀ f ∈ fields, IsExact f.2) :
      IsExact (.object fields)

/-- A text that may stand in an expression on one line: it is balanced, and no control character is
in it. -/
structure IsWritten (t : Text) : Prop where
  balanced : Expression.Balanced t
  shown : ∀ c ∈ t, 0x20 ≤ c.toNat

/-! ### Parts of compact texts -/

/-- A character that stands for itself between braces. -/
def isBare (c : Char) : Bool :=
  0x20 ≤ c.toNat && c != '{' && c != '}' && !Expression.isQuote c

namespace IsWritten

theorem nil : IsWritten [] := ⟨.nil, by simp⟩

theorem append (hs : IsWritten s) (ht : IsWritten t) : IsWritten (s ++ t) where
  balanced := hs.balanced.append ht.balanced
  shown c mem := (List.mem_append.1 mem).elim (hs.shown c) (ht.shown c)

theorem cons (bare : isBare c) (ht : IsWritten t) : IsWritten (c :: t) := by
  simp only [isBare, Bool.and_eq_true, decide_eq_true_eq, bne_iff_ne, Bool.not_eq_true'] at bare
  obtain ⟨⟨⟨shown, opening⟩, closing⟩, quote⟩ := bare
  exact ⟨.plain opening closing quote ht.balanced, List.forall_mem_cons.2 ⟨shown, ht.shown⟩⟩

theorem of_bare (bare : ∀ c ∈ t, isBare c) : IsWritten t := by
  induction t with
  | nil => exact nil
  | cons c t ih =>
    obtain ⟨here, after⟩ := List.forall_mem_cons.1 bare
    exact cons here (ih after)

theorem braced (ht : IsWritten t) : IsWritten ('{' :: (t ++ ['}'])) where
  balanced := .braced ht.balanced .nil
  shown := by
    simp only [List.mem_cons, List.mem_append, List.not_mem_nil, or_false]
    rintro c (rfl | mem | rfl)
    exacts [by decide, ht.shown c mem, by decide]

theorem intercalate {ts : List Text} (each : ∀ t ∈ ts, IsWritten t) :
    IsWritten ([','].intercalate ts) := by
  induction ts with
  | nil => exact nil
  | cons t ts ih =>
    obtain ⟨here, after⟩ := List.forall_mem_cons.1 each
    cases ts with
    | nil => simpa using here
    | cons u ts =>
      rw [List.intercalate_cons_cons]
      exact (here.append (cons rfl nil)).append (ih after)

end IsWritten

/-! ### Strings -/

/-- A character that stands for itself inside quotes. -/
def IsPlainInside (c : Char) : Prop := c ≠ '\\' ∧ c ≠ '"' ∧ 0x20 ≤ c.toNat

theorem isPlainInside_of_mem_hexByte {n : Nat} (control : n < 0x20) :
    ∀ d ∈ hexByte n, IsPlainInside d := by
  have all : ∀ n < 0x20, (hexByte n).all
      (fun d => d != '\\' && d != '"' && decide (0x20 ≤ d.toNat)) = true := by decide
  intro d mem
  have plain := List.all_eq_true.1 (all n control) d mem
  simp only [Bool.and_eq_true, bne_iff_ne, decide_eq_true_eq] at plain
  exact ⟨plain.1.1, plain.1.2, plain.2⟩

/-- A character is written as itself, or as a backslash, a character after it, and some more that
stand for themselves. -/
theorem escapeChar_cases (c : Char) :
    (escapeChar c = [c] ∧ IsPlainInside c) ∨
      ∃ d more, escapeChar c = '\\' :: d :: more ∧ 0x20 ≤ d.toNat ∧ ∀ x ∈ more, IsPlainInside x := by
  by_cases quote : c = '"'
  · exact .inr ⟨'"', [], by simp [escapeChar, quote], by decide, nofun⟩
  by_cases backslash : c = '\\'
  · exact .inr ⟨'\\', [], by simp [escapeChar, backslash], by decide, nofun⟩
  by_cases control : c.toNat < 0x20
  · right
    have zero : IsPlainInside '0' := by refine ⟨?_, ?_, ?_⟩ <;> decide
    unfold escapeChar
    simp only [beq_iff_eq, quote, backslash, control, if_false, if_true]
    split_ifs
    all_goals try exact ⟨_, [], rfl, by decide, nofun⟩
    refine ⟨'u', '0' :: '0' :: hexByte c.toNat, rfl, by decide, ?_⟩
    simpa [zero] using isPlainInside_of_mem_hexByte control
  · have shown : ∀ d : Char, d.toNat < 0x20 → c ≠ d := by
      rintro d low rfl
      exact control low
    refine .inl ⟨?_, backslash, quote, by omega⟩
    simp [escapeChar, quote, backslash, control, shown '\n' (by decide), shown '\r' (by decide),
      shown '\t' (by decide), show c.toNat ≠ 0x08 by omega, show c.toNat ≠ 0x0C by omega]

/-- However a character is written, the string does not end with it. -/
theorem quoted_escapeChar (c : Char) (rest : Expression.Quoted '"' t) :
    Expression.Quoted '"' (escapeChar c ++ t) := by
  obtain ⟨written, backslash, quote, -⟩ | ⟨d, more, written, -, plain⟩ := escapeChar_cases c
  · rw [written]
    exact .plain backslash quote rest
  · rw [written]
    exact .escaped d (.append_plain (fun x mem => ⟨(plain x mem).1, (plain x mem).2.1⟩) rest)

theorem shown_escapeChar (c : Char) : ∀ d ∈ escapeChar c, 0x20 ≤ d.toNat := by
  obtain ⟨written, -, -, shown⟩ | ⟨d, more, written, shown, plain⟩ := escapeChar_cases c
  · simpa [written] using shown
  · rw [written]
    simp only [List.forall_mem_cons]
    exact ⟨by decide, shown, fun x mem => (plain x mem).2.2⟩

/-- A string in quotes. -/
theorem isWritten_quote (s : String) : IsWritten (quote s).toList := by
  have inside : Expression.Quoted '"' (s.toList.flatMap escapeChar ++ ['"']) := by
    induction s.toList with
    | nil => exact .close
    | cons c l ih =>
      rw [List.flatMap_cons, List.append_assoc]
      exact quoted_escapeChar c ih
  have whole := Expression.Balanced.quoted rfl inside .nil
  rw [quote, String.toList_ofList]
  refine ⟨by simpa using whole, ?_⟩
  simp only [List.mem_cons, List.mem_append, List.mem_flatMap, List.not_mem_nil, or_false]
  rintro d (rfl | ⟨c, -, mem⟩ | rfl)
  exacts [by decide, shown_escapeChar c d mem, by decide]

/-! ### Values -/

theorem compactItems_eq_map (items : List Json) : compactItems items = items.map compact := by
  induction items with
  | nil => rfl
  | cons v vs ih => rw [compactItems, ih, List.map_cons]

theorem compactFields_eq_map (fields : List (String × Json)) :
    compactFields fields = fields.map fun f => quote f.1 ++ ":" ++ compact f.2 := by
  induction fields with
  | nil => rfl
  | cons f fs ih => rw [compactFields, ih, List.map_cons]

theorem isBare_of_isDigit (digit : c.isDigit = true) : isBare c = true := by
  have bounds : 48 ≤ c.toNat ∧ c.toNat ≤ 57 := Char.isDigit_iff_toNat.1 digit
  have other : ∀ d : Char, d.isDigit = false → (c == d) = false := by
    intro d letter
    refine beq_false_of_ne ?_
    rintro rfl
    exact absurd digit (by simp [letter])
  simp [isBare, Expression.isQuote, bne, other, show 0x20 ≤ c.toNat by omega]

theorem mem_toString {n : Int} (mem : c ∈ (toString n).toList) : c = '-' ∨ c.isDigit = true := by
  rw [Int.toString_eq_repr, Int.repr_eq_if] at mem
  split at mem
  · rw [Nat.toList_repr] at mem
    exact .inr (Nat.isDigit_of_mem_toDigits (by decide) (by decide) mem)
  · rw [String.toList_append, List.mem_append, Nat.toList_repr] at mem
    obtain sign | digit := mem
    · exact .inl (by simpa using sign)
    · exact .inr (Nat.isDigit_of_mem_toDigits (by decide) (by decide) digit)

theorem isWritten_toString (n : Int) : IsWritten (toString n).toList := by
  refine .of_bare fun c mem => ?_
  obtain rfl | digit := mem_toString mem
  · rfl
  · exact isBare_of_isDigit digit

/-- The compact text of a value without doubles. The induction is on the value. -/
theorem isWritten_compact (exact_ : v.IsExact) : IsWritten v.compact.toList := by
  induction exact_ with
  | null => exact .of_bare (List.all_eq_true.1 (by decide))
  | bool value => cases value <;> exact .of_bare (List.all_eq_true.1 (by decide))
  | integer n => exact isWritten_toString n
  | string s => exact isWritten_quote s
  | @array items _ ih =>
    have each : ∀ t ∈ (items.map compact).map String.toList, IsWritten t := by
      simpa using ih
    have joined := (IsWritten.intercalate each).append (.cons (by decide : isBare ']') .nil)
    rw [compact, compactItems_eq_map, String.toList_append, String.toList_append,
      String.toList_intercalate]
    exact .cons (by decide : isBare '[') joined
  | @object fields _ ih =>
    have each : ∀ t ∈ (fields.map fun f => quote f.1 ++ ":" ++ compact f.2).map String.toList,
        IsWritten t := by
      simp only [List.map_map, List.mem_map, Function.comp_apply, String.toList_append]
      rintro _ ⟨f, mem, rfl⟩
      exact ((isWritten_quote f.1).append (.cons (by decide : isBare ':') .nil)).append (ih f mem)
    rw [compact, compactFields_eq_map, String.toList_append, String.toList_append,
      String.toList_intercalate]
    exact (IsWritten.intercalate each).braced

/-- In braces the compact text is a literal. -/
theorem isLiteral_compact (exact_ : v.IsExact) :
    Expression.IsLiteral ('{' :: (v.compact.toList ++ ['}'])) :=
  ⟨_, (isWritten_compact exact_).balanced, rfl⟩

theorem isBlankChar_of_mem_toString {n : Int} (mem : c ∈ (toString n).toList) :
    Text.isBlankChar c = false := by
  obtain rfl | digit := mem_toString mem
  · rfl
  · have bounds : 48 ≤ c.toNat ∧ c.toNat ≤ 57 := Char.isDigit_iff_toNat.1 digit
    exact Text.isBlankChar_of_toNat (by omega) (by omega)

/-- A compact text has no white space at its ends. -/
theorem trim_compact (exact_ : v.IsExact) : Text.trim v.compact.toList = v.compact.toList := by
  cases exact_ with
  | null => rfl
  | bool value => cases value <;> rfl
  | integer n =>
    have visible : ∀ c ∈ (toString n).toList, Text.isBlankChar c = false :=
      fun c mem => isBlankChar_of_mem_toString mem
    exact Text.trim_eq_self (fun c mem => visible c (List.mem_of_mem_head? mem))
      fun c mem => visible c (List.mem_of_mem_getLast? mem)
  | string s =>
    rw [compact, quote, String.toList_ofList]
    exact Text.trim_between rfl rfl
  | array each =>
    rw [compact, String.toList_append, String.toList_append]
    exact Text.trim_between (by decide : Text.isBlankChar '[' = false) rfl
  | object each =>
    rw [compact, String.toList_append, String.toList_append]
    exact Text.trim_between (by decide : Text.isBlankChar '{' = false) rfl

end Json
end Folio
