import OmniaJit.Data.Separator
import OmniaJit.Std.Pctx

/-! # The output of a `ctx` call

`ring:table` and `ring:concat` go through the slots from the first to the last, which is the order
of the pushes only until the ring wraps. What a `ctx` call returns or prints is read through them.
-/

namespace OmniaJit.Std

open OmniaJit.Data OmniaJit.Lua OmniaJit.Std.Ring

section Readers

variable {α : Type}

/-- The last `m` texts are a list that the rotation of a ring of size `m` leaves as it is. -/
def Unrotated (m : ℕ) (texts : List Text) : Prop :=
  (recent m texts).rotate (texts.length % m) = recent m texts

/-- Until the ring wraps, every list of texts is left as it is. -/
theorem unrotated_of_le {m : ℕ} {texts : List Text} (few : texts.length ≤ m) : Unrotated m texts := by
  rw [Unrotated, recent_of_le few]
  rcases Nat.lt_or_eq_of_le few with less | full
  · rw [Nat.mod_eq_of_lt less, List.rotate_length]
  · rw [full, Nat.mod_self, List.rotate_zero]

end Readers

section Call

variable {V : Type} (convert : SFormat → Value V → Except FormatError Text)

end Call

private def unused (_ : SFormat) (_ : Value Unit) : Except FormatError Text := .ok []

end OmniaJit.Std
