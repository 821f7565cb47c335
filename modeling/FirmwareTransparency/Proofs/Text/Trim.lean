import FirmwareTransparency.Text
import Mathlib.Data.List.TakeWhile

/-!
# Trimming

White space at both ends of a text is dropped, however much there is, and nothing behind the first
other character. Main statement: `trim_eq`.
-/

set_option autoImplicit false

namespace FirmwareTransparency.Text

variable {α : Type} {p : α → Bool} {front core back : List α}

/-- Dropping ends at the first element of a part without such elements, or goes on behind it if that
part is empty. -/
theorem dropWhile_around (hfront : ∀ a ∈ front, p a = true) (hcore : ∀ a ∈ core, p a = false)
    (hback : ∀ a ∈ back, p a = true) :
    (front ++ core ++ back).dropWhile p = core ++ if core = [] then [] else back := by
  rw [List.append_assoc, List.dropWhile_append_of_pos hfront]
  cases core with
  | nil => exact List.dropWhile_eq_nil_iff.2 hback
  | cons a core =>
    have ha : ¬p a = true := by simp [hcore a List.mem_cons_self]
    rw [List.cons_append, List.dropWhile_cons_of_neg ha, if_neg (List.cons_ne_nil a core),
      List.cons_append]

/-- Only white space around a text without any is dropped. -/
theorem trim_eq {text : String} {front core back : List Char}
    (hfront : ∀ c ∈ front, isWhiteSpace c = true) (hcore : ∀ c ∈ core, isWhiteSpace c = false)
    (hback : ∀ c ∈ back, isWhiteSpace c = true) (htext : text.toList = front ++ core ++ back) :
    trim text = String.ofList core := by
  rw [trim, htext, dropWhile_around hfront hcore hback]
  congr 1
  by_cases hnil : core = []
  · subst hnil
    rfl
  · have hreverse : (core ++ back).reverse = back.reverse ++ core.reverse ++ [] := by simp
    rw [if_neg hnil, hreverse, dropWhile_around]
    · simp
    · simpa using hback
    · simpa using hcore
    · exact List.forall_mem_nil _

end FirmwareTransparency.Text
