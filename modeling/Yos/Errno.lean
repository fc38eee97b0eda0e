import Mathlib.Data.Int.Notation
import Mathlib.Data.Nat.Notation

/-!
# Error numbers

The bridges report an error either as a negated error number or through `yos_errno_neg`, which
stores the number for the guest and returns -1.
-/

namespace Yos

/-- The error numbers the modelled bridges use. -/
inductive Errno where
  | EBADF | ENOMEM | EFAULT | EINVAL | ENFILE | EMFILE | ENOSYS | ENOTDIR | ENOENT | ESRCH | E2BIG
  | ENOEXEC
deriving DecidableEq, Repr

/-- The number on a Linux host. -/
def Errno.number : Errno → ℕ
  | .ENOENT => 2
  | .ESRCH => 3
  | .E2BIG => 7
  | .ENOEXEC => 8
  | .EBADF => 9
  | .ENOMEM => 12
  | .EFAULT => 14
  | .ENOTDIR => 20
  | .EINVAL => 22
  | .ENFILE => 23
  | .EMFILE => 24
  | .ENOSYS => 38

/-- What a bridge returns: the value, and the error number it stored, if any. -/
structure Ret where
  value : ℤ
  errno : Option Errno
deriving DecidableEq, Repr

/-- `yos_errno_neg`. -/
def yosErrnoNeg (e : Errno) : Ret := ⟨-1, some e⟩

end Yos
