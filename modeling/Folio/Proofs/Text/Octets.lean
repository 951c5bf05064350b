import Folio.Proofs.Text.Holds

/-!
# The UTF-8 form

`Text.octets` is the UTF-8 form of a text, one byte after another. It is as long as offsets count,
and what stands at an offset of the text has its own form there: `Text.getElem?_octets_of_holds`.
-/

namespace Folio.Text

variable {s w : Text} {pos k : Nat}

/-- The bytes of the UTF-8 form. -/
def octets (s : Text) : List UInt8 := s.flatMap String.utf8EncodeChar

/-- The bytes are those of the text as a string. -/
theorem toByteArray_ofList (s : Text) : (String.ofList s).toByteArray = s.octets.toByteArray :=
  String.toByteArray_ofList

@[simp] theorem octets_nil : octets [] = [] := rfl

@[simp] theorem octets_cons (c : Char) (s : Text) :
    octets (c :: s) = String.utf8EncodeChar c ++ octets s := rfl

@[simp] theorem octets_append (s t : Text) : octets (s ++ t) = octets s ++ octets t :=
  List.flatMap_append

@[simp] theorem length_octets (s : Text) : s.octets.length = bytes s := by
  induction s with
  | nil => rfl
  | cons c s ih => rw [octets_cons, List.length_append, String.length_utf8EncodeChar, ih, bytes_cons]

/-- What stands at an offset has its form there. -/
theorem getElem?_octets_of_holds (held : s.Holds pos w) (lt : k < bytes w) :
    s.octets[pos + k]? = w.octets[k]? := by
  obtain ⟨after, before, rfl, rfl⟩ := held
  rw [octets_append, octets_append, List.getElem?_append_right (by rw [length_octets]; omega),
    length_octets, Nat.add_sub_cancel_left, List.getElem?_append_left (by rwa [length_octets])]

/-- The byte of an ASCII character occurs in the form of no other character. -/
theorem toNat_of_mem_utf8EncodeChar {c : Char} {b : UInt8} (mem : b ∈ String.utf8EncodeChar c)
    (ascii : b.toNat < 128) : c.toNat = b.toNat := by
  unfold String.utf8EncodeChar at mem
  dsimp only at mem
  change c.val.toNat = b.toNat
  split at mem
  · rw [List.mem_singleton.1 mem, UInt8.toNat_ofNat']
    omega
  · -- the bytes of any other character have their highest bit set
    exfalso
    split at mem
    · simp only [List.mem_cons, List.not_mem_nil, or_false] at mem
      rcases mem with rfl | rfl <;> rw [UInt8.toNat_ofNat'] at ascii <;> omega
    · split at mem
      · simp only [List.mem_cons, List.not_mem_nil, or_false] at mem
        rcases mem with rfl | rfl | rfl <;> rw [UInt8.toNat_ofNat'] at ascii <;> omega
      · simp only [List.mem_cons, List.not_mem_nil, or_false] at mem
        rcases mem with rfl | rfl | rfl | rfl <;> rw [UInt8.toNat_ofNat'] at ascii <;> omega

end Folio.Text
