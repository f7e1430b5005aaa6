import Uniorm.Foundation.Text

/-! # Views of texts that are gone

A view that outlives the text it was taken of still has the length of that text.
What is read through it is not said: it is a parameter here, and may be the text
itself, another one, or bytes that spell no text.
-/
namespace Uniorm.Foundation

/-- What is read in the place of a text that is gone, where it spells a text. -/
class Dangling where
  bytes : List Char → Option (List Char)
  length_bytes : ∀ {gone seen}, bytes gone = some seen → seen.length = gone.length

namespace Dangling

/-- Every text is read as it was. -/
@[reducible] def intact : Dangling where
  bytes := some
  length_bytes := by
    rintro gone seen ⟨⟩
    rfl

@[reducible] def lost : Dangling where
  bytes _ := none
  length_bytes := by rintro gone seen ⟨⟩

/-- Short texts lie within their string object and stay; the storage of longer ones is freed. -/
@[reducible] def small : Dangling where
  bytes gone := if gone.length < 16 then some gone else none
  length_bytes := by
    intro gone seen h
    split_ifs at h
    obtain rfl := Option.some.inj h
    rfl

variable [Dangling]

/-- The text is read as it was. -/
def Kept (gone : List Char) : Prop := bytes gone = some gone

instance (gone : List Char) : Decidable (Kept gone) := inferInstanceAs (Decidable (_ = _))

def search (gone text : List Char) : Option (List Char × List Char) :=
  (bytes gone).bind fun seen => breakOn seen text

theorem search_of_kept {gone : List Char} (h : Kept gone) (text : List Char) :
    search gone text = breakOn gone text := by
  rw [search, h]
  rfl

theorem search_eq_some {gone text : List Char} {r : List Char × List Char}
    (h : search gone text = some r) : ∃ seen, bytes gone = some seen ∧
      seen.length = gone.length ∧ breakOn seen text = some r := by
  obtain ⟨seen, hseen, hr⟩ := Option.bind_eq_some_iff.mp h
  exact ⟨seen, hseen, length_bytes hseen, hr⟩

end Dangling

end Uniorm.Foundation
