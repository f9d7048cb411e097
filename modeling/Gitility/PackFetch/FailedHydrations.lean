import Gitility.PackFetch.ServedPacks

/-!
# What a failed hydration leaves

A hydration that fails has not touched what is served, keeps the pairs that it had brought to the disk before the
failing pack, and keeps every verified pair that stood there, unless the manifest lists the pair and gives it
other sizes, or the file system does not find and read it, or the opened store does not answer for its first
object.
-/

namespace Gitility.PackFetch

open Provider (Hashers)

variable {Local : Type} {hashers : Hashers} {hash : HashKind} {c : Circumstances Local} {s s' : Instance Local}
  {options : PackFetchOptions} {pid : ℕ} {e : Error} {entries : List (Bytes × Bytes × Bytes)}

section Calls

variable (hashers hash options pid)

end Calls

section Lost

variable {d : PackDescriptor} {pack index : Bytes}

/-- An instance whose destination has lost a pair. -/
def Instance.without (s : Instance Local) (id : Bytes) : Instance Local :=
  { s with
    verified := s.verified.erase id
    dir := Function.update (Function.update s.dir (packName id) none) (indexName id) none }

end Lost

/-! ### Calls that fail -/

/-- The error of a cancelled budget. -/
def cancelled : Error := .new .cancelled "operation cancelled"

/-- The ID of the blob `a`. -/
def letterBlob : Oid := ⟨.sha1, [0x2e, 0x65, 0xef, 0xe2, 0xa1, 0x45, 0xdd, 0xa7, 0xee, 0x51, 0xd1, 0x74, 0x12, 0x99, 0xf8, 0x48,
  0xe5, 0xbf, 0x75, 0x2e], rfl⟩

end Gitility.PackFetch
