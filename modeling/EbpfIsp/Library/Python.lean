import Mathlib.Tactic

/-! # Python programs that raise exceptions

An exception ends the function that raises it. A read behind the end of an
array of a C library is no exception; what it yields is undefined, so nothing
is said of a program after it.
-/

namespace EbpfIsp.Library

inductive PyError where
  | attributeError
  | indexError
  | nameError
  | typeError
  | valueError
  | zeroDivisionError
  | behindArray
  deriving DecidableEq

abbrev Py := Except PyError

variable {α β : Type}

theorem ok_bind (x : α) (f : α → Py β) : ((.ok x : Py α) >>= f) = f x := rfl

theorem error_bind (e : PyError) (f : α → Py β) : ((.error e : Py α) >>= f) = .error e := rfl

end EbpfIsp.Library
