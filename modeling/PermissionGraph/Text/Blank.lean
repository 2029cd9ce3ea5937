/-!
# PermissionGraph.Text.Blank

Blank characters and what is done with them at the ends of a text. The blanks are the characters
with the Unicode property `White_Space`, twenty-five in number, which is more than `Char` itself
calls white space.
-/

namespace PermissionGraph
namespace Text

/-- Whether a character has the property `White_Space`. -/
def isBlank (c : Char) : Bool :=
  (0x9 ≤ c.val && c.val ≤ 0xd) || c.val == 0x20 || c.val == 0x85 || c.val == 0xa0
    || c.val == 0x1680 || (0x2000 ≤ c.val && c.val ≤ 0x200a) || c.val == 0x2028
    || c.val == 0x2029 || c.val == 0x202f || c.val == 0x205f || c.val == 0x3000

/-- Drops the blanks at both ends. -/
def trim (cs : List Char) : List Char :=
  ((cs.dropWhile isBlank).reverse.dropWhile isBlank).reverse

/-- The pieces between separators. A text without one is a single piece. -/
def fields (separator : Char) : List Char → List (List Char)
  | [] => [[]]
  | c :: cs =>
    if c = separator then [] :: fields separator cs
    else match fields separator cs with
      | [] => [[c]]
      | piece :: rest => (c :: piece) :: rest

theorem fields_ne_nil (separator : Char) (cs : List Char) : fields separator cs ≠ [] := by
  cases cs with
  | nil => simp [fields]
  | cons c cs => rw [fields]; repeat' split <;> simp

/-- Joining the pieces again gives the text: nothing but separators is lost. -/
theorem intercalate_fields (separator : Char) (cs : List Char) :
    [separator].intercalate (fields separator cs) = cs := by
  induction cs with
  | nil => rfl
  | cons c cs ih =>
    obtain ⟨piece, rest, hf⟩ := List.exists_cons_of_ne_nil (fields_ne_nil separator cs)
    rw [hf] at ih
    by_cases h : c = separator
    · subst h
      rw [List.intercalate] at ih
      simp [fields, hf, List.intercalate, ih]
    · cases rest <;> simp_all [fields, List.intercalate]

end Text
end PermissionGraph
