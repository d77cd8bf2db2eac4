/-!
# Error numbers

The `errno` values that the modelled functions return, with the numbers Linux gives them on x86-64
(`errno.h` is not among the sources). A call that fails with `MakeError(e)` returns `.error e`
in the model; every module takes the values from here.
-/

namespace Junction

/-- `ENOENT`. -/
def ENOENT : Int := 2

/-- `EEXIST`. -/
def EEXIST : Int := 17

/-- `EINVAL`. -/
def EINVAL : Int := 22

/-- `ENOSPC`. -/
def ENOSPC : Int := 28

/-- `ENOSYS`. -/
def ENOSYS : Int := 38

/-- `ENOTCONN`. -/
def ENOTCONN : Int := 107

end Junction
