import Mathlib

/-!
# Error Numbers

The numbers of `errno.h` that the modelled functions return, negated, as their results.
-/

namespace TlZephyr

def EPERM : ℤ := 1
def ENOENT : ℤ := 2
def EINTR : ℤ := 4
def EIO : ℤ := 5
def EAGAIN : ℤ := 11
def ENOMEM : ℤ := 12
def EACCES : ℤ := 13
def EFAULT : ℤ := 14
def EEXIST : ℤ := 17
def EINVAL : ℤ := 22
def ENOSPC : ℤ := 28
def EPIPE : ℤ := 32
def ERANGE : ℤ := 34
def ENOMSG : ℤ := 35
def ENODATA : ℤ := 61
def EBADMSG : ℤ := 77
def ENOBUFS : ℤ := 105
def ETIMEDOUT : ℤ := 116
def EALREADY : ℤ := 120
def EMSGSIZE : ℤ := 122
def ENOTSUP : ℤ := 134
def EILSEQ : ℤ := 138
def EOVERFLOW : ℤ := 139
def ECANCELED : ℤ := 140

end TlZephyr
