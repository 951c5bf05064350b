import Folio.Proofs.Markup.Prose

/-!
# Levels of nesting

The bound on nested containers only refuses texts: a text that is read with some number of levels is
read in the same way with more of them. Main statement: `Block.parse_shallower`.
-/

namespace Folio

/-- A reading fails because containers are nested too deeply, or it is the same as another one. -/
def Halt.Shallower {α : Type} (x y : Except Halt α) : Prop :=
  (∃ h, x = .error h ∧ h.TooDeep) ∨ x = y

namespace Halt.Shallower

variable {α β : Type} {x y : Except Halt α} {f g : α → Except Halt β}

theorem refl (x : Except Halt α) : Shallower x x := .inr rfl

theorem bind (h : Shallower x y) (next : ∀ a, Shallower (f a) (g a)) :
    Shallower (x >>= f) (y >>= g) := by
  rcases h with ⟨halt, rfl, deep⟩ | rfl
  · exact .inl ⟨halt, rfl, deep⟩
  · cases x with
    | error halt => exact .refl _
    | ok a => exact next a

end Halt.Shallower

namespace Block

variable {shallow deep : Inner} {r : Region} {l : Line} {ls : List Line}

section Containers

variable (h : ∀ r, Halt.Shallower (shallow r) (deep r))

include h

theorem quoted_shallower : Halt.Shallower (quoted shallow r l ls) (quoted deep r l ls) :=
  (Halt.Shallower.refl _).bind fun content => (h content).bind fun _ => .refl _

theorem itemAt_shallower (mark : ListMark) :
    Halt.Shallower (itemAt shallow r mark l ls) (itemAt deep r mark l ls) :=
  (Halt.Shallower.refl _).bind fun content => (h content).bind fun _ => .refl _

theorem itemsFrom_shallower (ordered : Bool) (stop resume : Nat) :
    Halt.Shallower (itemsFrom shallow r ordered stop resume ls)
      (itemsFrom deep r ordered stop resume ls) := by
  induction ls generalizing stop resume with
  | nil => exact .refl _
  | cons l ls ih =>
    rw [itemsFrom, itemsFrom]
    split
    · exact ih stop resume
    · split
      · exact .refl _
      · exact (itemAt_shallower h _).bind fun _ => (ih _ _).bind fun _ => .refl _

theorem listed_shallower (mark : ListMark) :
    Halt.Shallower (listed shallow r mark l ls) (listed deep r mark l ls) :=
  (itemsFrom_shallower h _ _ _).bind fun _ => .refl _

theorem bodyOf_shallower (at_ : Nat) (tag : OpenTag) (s : Text) :
    Halt.Shallower (bodyOf shallow r at_ tag s) (bodyOf deep r at_ tag s) := by
  unfold bodyOf
  split
  · exact .refl _
  · split
    · exact .refl _
    · exact (Halt.Shallower.refl _).bind fun content => (Halt.Shallower.refl _).bind fun body =>
        (h body).bind fun _ => .refl _

theorem widgetAt_shallower :
    Halt.Shallower (widgetAt shallow r l ls) (widgetAt deep r l ls) := by
  unfold widgetAt
  dsimp only
  split
  · exact .refl _
  · exact (bodyOf_shallower h _ _ _).bind fun _ => .refl _

theorem blockAt_shallower : Halt.Shallower (blockAt shallow r l ls) (blockAt deep r l ls) := by
  rw [blockAt_eq, blockAt_eq]
  cases opening l.text with
  | quote => exact quoted_shallower h
  | list mark => exact listed_shallower h mark
  | widget => exact widgetAt_shallower h
  | _ => exact .refl _

theorem blocksFrom_shallower (skip : List Declaration) (resume : Nat) :
    Halt.Shallower (blocksFrom shallow r skip resume ls) (blocksFrom deep r skip resume ls) := by
  induction ls generalizing resume with
  | nil => exact .refl _
  | cons l ls ih =>
    rw [blocksFrom, blocksFrom]
    split
    · exact ih resume
    · split
      · exact ih _
      · split
        · exact ih resume
        · exact (blockAt_shallower h).bind fun _ => (ih _).bind fun _ => .refl _

end Containers

/-- With fewer levels a region is nested too deeply, or it is read in the same way. -/
theorem parse_shallower {m n : Nat} (le : m ≤ n) (skip : List Declaration) (r : Region) :
    Halt.Shallower (parse m skip r) (parse n skip r) := by
  induction m generalizing n skip r with
  | zero => exact .inl ⟨_, rfl, _, rfl⟩
  | succ m ih =>
    obtain ⟨n, rfl⟩ := Nat.exists_eq_add_one_of_ne_zero (Nat.ne_of_gt (Nat.lt_of_lt_of_le (Nat.succ_pos m) le))
    exact blocksFrom_shallower (fun r => ih (Nat.le_of_succ_le_succ le) [] r) skip 0

end Block
end Folio
