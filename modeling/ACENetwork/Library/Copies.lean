import ACENetwork.Library.Text

/-!
# Copies into a message block

Texts are copied into the free space of a message block one behind the other. Where the space
does not suffice for one, neither it nor those behind it are copied.
-/
namespace ACENetwork.Library

def copies : ℕ → List Bytes → Bytes
  | _, [] => []
  | space, t :: ts => if t.length ≤ space then t ++ copies (space - t.length) ts else []

theorem copies_of_room {space : ℕ} {texts : List Bytes} (h : texts.flatten.length ≤ space) :
    copies space texts = texts.flatten := by
  induction texts generalizing space with
  | nil => rfl
  | cons t ts ih =>
    rw [List.flatten_cons, List.length_append] at h
    rw [copies, if_pos (by omega), ih (by omega), List.flatten_cons]

end ACENetwork.Library
