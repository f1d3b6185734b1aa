import Mathlib

/-!
# Memory Accesses that are Checked

A function that reads from a buffer gives a value, an error code of its own, or a fault: an
access outside of the buffer. In the source a fault is undefined behaviour; in a model it is a
third kind of result that a proof has to exclude.
-/

/-- Result of a function whose memory accesses are checked. -/
inductive Checked (α : Type)
  | ok (a : α)
  | err (code : ℤ)
  | fault
  deriving DecidableEq

namespace Checked

variable {α β : Type}

protected def bind : Checked α → (α → Checked β) → Checked β
  | ok a, f => f a
  | err e, _ => err e
  | fault, _ => fault

instance : Monad Checked where
  pure := ok
  bind := Checked.bind

@[simp] theorem ok_bind (a : α) (f : α → Checked β) : (ok a >>= f) = f a := rfl

@[simp] theorem err_bind (e : ℤ) (f : α → Checked β) : ((err e : Checked α) >>= f) = err e := rfl

/-- Byte at position `i` of a buffer. -/
def byteAt (bs : List UInt8) (i : ℕ) : Checked UInt8 := (bs[i]?).elim fault ok

theorem byteAt_of_drop {bs rest : List UInt8} {i : ℕ} {b : UInt8} (h : bs.drop i = b :: rest) :
    byteAt bs i = ok b := by
  have hi : bs[i]? = some b := by rw [← List.head?_drop, h, List.head?_cons]
  rw [byteAt, hi]
  rfl

end Checked
