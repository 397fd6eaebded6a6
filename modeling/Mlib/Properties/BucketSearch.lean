import Mlib.Image.Failing
import Mlib.Image.Runs

/-! Searching a bucket: the binary search answers exactly when one of the indexes points to the
string, and what it answers is the address of that index, not of the string. -/
namespace Mlib
open Foundation
variable {env : Env} {e : Endian} {b : Nat} {I : Image} {s : Lib} {l u : List Record} {r : Record} {p : CStr}
  {kind : Call → Prop}

end Mlib
