import Edelib.Foundation.CString

/-! # Object paths -/
namespace Edelib.Edbus
open Foundation

def validElement (str : List UInt8) : Bool :=
  str.all (fun c => (65 ≤ c && c ≤ 90) || (97 ≤ c && c ≤ 122) || (48 ≤ c && c ≤ 57) || c == 95)

def hasTwoSlashes : List UInt8 → Bool
  | 47 :: 47 :: _ => true
  | _ :: str => hasTwoSlashes str
  | [] => false

/-- The tokens `strtok_r` finds between slashes: it skips the empty ones. -/
def tokens (str : List UInt8) : List (List UInt8) := (str.splitOn 47).filter (fun tok => !tok.isEmpty)

/-- The length is kept in 32 bits, and the byte before that place is tested for the slash that
ends no path. -/
def validPath (str : CString) : Bool :=
  let len := str.strlen % 4294967296
  if len = 0 then false
  else if str.bytes.head? ≠ some 47 ∨ str.bytes[len - 1]? = some 47 then false
  else if hasTwoSlashes str.bytes then false
  else (tokens str.bytes).all validElement

/-- The path of an `EdbusObjectPath` made from a string; of an invalid one it is empty. -/
def objectPath (str : CString) : CString := if validPath str then str else CString.empty

/-- `/`, the path made by default. -/
def rootPath : CString := CString.ofBuf [47]

/-- The copy constructor, which asserts that it copies a valid path. -/
def objectPathCopy (other : CString) : Option CString := if validPath other then some other else none

/-- `EdbusObjectPath::append`: a slash goes before the element, except after the root. -/
def objectPathAppend (val str : CString) : CString :=
  if !validElement str.bytes then val
  else if val.strlen ≠ 1 then val ++ rootPath ++ str
  else val ++ str

/-- `EdbusObjectPath::clear`. -/
def objectPathClear (val : CString) : CString :=
  if val.strlen = 1 ∧ val.bytes.head? = some 47 then val else rootPath

end Edelib.Edbus
