import Edelib.Text.String
import Edelib.Text.StrUtil

/-! # Strings are read, changed in place and put together

The loops go over the bytes of a block and not over those of the String only; where they come
to the end of the block they read outside of it.
-/
namespace Edelib.Text
open Foundation

def printfBuf : ℕ := 265

/-- What the functions of the C library find in a block, from an offset up to a terminator. -/
def textFrom (m : Memory) (a i : ℕ) : Except Fault CString :=
  match m.block a with
  | none => .error .freed
  | some b => if STERM ∈ b.data.drop i then .ok (CString.ofBuf (b.data.drop i)) else .error .outside

def bytesFrom (m : Memory) (a i : ℕ) : Except Fault (List UInt8) :=
  match m.block a with
  | none => .error .freed
  | some b => .ok (b.data.drop i)

def readFrom (m : Memory) (a i len : ℕ) : Except Fault (List UInt8) :=
  if len = 0 then .ok []
  else match m.block a with
    | none => .error .freed
    | some b => if i + len ≤ b.data.length then .ok ((b.data.drop i).take len) else .error .outside

/-! ## In place -/

def setAt (m : Memory) (d : StringData) (index : ℕ) (ch : UInt8) : Except Fault (Memory × StringData) :=
  if index < d.length then do
    let m ← m.write d.chars index [ch]
    pure (m,d)
  else .error .assertion

def replaceLoop (c1 c2 : UInt8) (length : ℕ) : List UInt8 → ℕ → Except Fault (List UInt8)
  | [],_ => .error .outside
  | p :: rest,i =>
    if p ≠ STERM ∧ i < length then do
      let rest ← replaceLoop c1 c2 length rest (i + 1)
      pure ((if p = c1 then c2 else p) :: rest)
    else pure (p :: rest)

def replace (m : Memory) (d : StringData) (c1 c2 : UInt8) : Except Fault (Memory × StringData) :=
  if d.length = 0 then pure (m,d)
  else if c1 ≠ STERM ∧ c2 ≠ STERM then
    if c1 = c2 then pure (m,d)
    else do
      let bytes ← bytesFrom m d.chars 0
      let bytes ← replaceLoop c1 c2 d.length bytes 0
      let m ← m.write d.chars 0 bytes
      pure (m,d)
  else .error .assertion

/-- `sdata->length = strlen(sdata->chars)`. -/
def StringData.setLength (d : StringData) (n : ℕ) : StringData :=
  match d with
  | nullData => nullData
  | own _ cap chars => own (sizeType n) cap chars

def trimBy (trim : List UInt8 → List UInt8) (m : Memory) (d : StringData) : Except Fault (Memory × StringData) :=
  if d.length ≠ 0 then do
    let str ← textFrom m d.chars 0
    let m ← m.write d.chars 0 (trim str.bytes ++ [STERM])
    let str ← textFrom m d.chars 0
    pure (m,d.setLength str.strlen)
  else pure (m,d)

def trimLeft (m : Memory) (d : StringData) : Except Fault (Memory × StringData) := trimBy StrUtil.strTrimleft m d

/-- `str_trimright` has the length of the text in an `int`; a negative one is an index before the
characters. -/
def intLength (m : Memory) (d : StringData) : Except Fault Unit :=
  if d.length ≠ 0 then do
    let str ← textFrom m d.chars 0
    if str.strlen < 2147483648 then pure () else .error .outside
  else pure ()

def trimRight (m : Memory) (d : StringData) : Except Fault (Memory × StringData) := do
  intLength m d
  trimBy StrUtil.strTrimright m d

def trim (m : Memory) (d : StringData) : Except Fault (Memory × StringData) := do
  intLength m d
  trimBy StrUtil.strTrim m d

/-- The formatted text is cut to the size of the buffer. -/
def printf (m : Memory) (d : StringData) (text : List UInt8) : Except Fault (Memory × StringData) :=
  assign m d (.text (text.take (printfBuf - 1)))

/-! ## Parts and positions -/

/-- `tmp.assign(data() + index, len)`; the buffer of `tmp` is its first. -/
def assignFrom (m : Memory) (d : StringData) (index len : ℕ) : Except Fault (Memory × StringData) :=
  if len < npos / 2 then do
    let (m,tmp) ← init m len len
    let bytes ← readFrom m d.chars index len
    let m ← m.write tmp.chars 0 bytes
    let m ← m.write tmp.chars len [STERM]
    pure (m,tmp)
  else .error .assertion

/-- The length is taken from the index as `size_type` numbers are. -/
def substr (m : Memory) (d : StringData) (index num : ℕ) : Except Fault (Memory × StringData) :=
  if num = npos then assignFrom m d index (sizeType (d.length + 4294967296 - index)) else assignFrom m d index num

def strstr (str : List UInt8) : List UInt8 → Option ℕ
  | [] => if str = [] then some 0 else none
  | c :: rest => if str <+: c :: rest then some 0 else (strstr str rest).map (· + 1)

def find (m : Memory) (d : StringData) (str : CString) (offset : ℕ) : Except Fault ℕ :=
  if offset ≥ d.length then pure npos
  else do
    let text ← textFrom m d.chars offset
    match strstr str.bytes text.bytes with
    | none => pure npos
    | some p => pure (sizeType (offset + p))

def findLoop (ch : UInt8) (offset length : ℕ) : List UInt8 → ℕ → Except Fault ℕ
  | [],_ => .error .outside
  | p :: rest,i =>
    if p ≠ STERM ∧ i < length then
      if p = ch then pure (sizeType (i + offset)) else findLoop ch offset length rest (i + 1)
    else pure npos

def findChar (m : Memory) (d : StringData) (ch : UInt8) (offset : ℕ) : Except Fault ℕ :=
  if offset ≥ d.length then pure npos
  else do
    let bytes ← bytesFrom m d.chars offset
    findLoop ch offset d.length bytes 0

/-! ## Two operands -/

/-- Two blocks are compared up to a difference or to a terminator in both. -/
def strcmp : List UInt8 → List UInt8 → Except Fault ℤ
  | [],_ => .error .outside
  | _,[] => .error .outside
  | a :: s,b :: t => if a ≠ b ∨ a = STERM then pure ((a.toNat : ℤ) - b.toNat) else strcmp s t

def compare (m : Memory) (str1 str2 : StringData) : Except Fault ℤ := do
  let s ← bytesFrom m str1.chars 0
  let t ← bytesFrom m str2.chars 0
  strcmp s t

/-- The strings are compared where the lengths are the same only. -/
def equal (m : Memory) (str1 str2 : StringData) : Except Fault Bool :=
  if str1.length = str2.length then do
    let c ← compare m str1 str2
    pure (decide (c = 0))
  else pure false

def notEqual (m : Memory) (str1 str2 : StringData) : Except Fault Bool := do
  let c ← compare m str1 str2
  pure (decide (c ≠ 0))

def greater (m : Memory) (str1 str2 : StringData) : Except Fault Bool := do
  let c ← compare m str1 str2
  pure (decide (c > 0))

def greaterEqual (m : Memory) (str1 str2 : StringData) : Except Fault Bool := do
  let c ← compare m str1 str2
  pure (decide (c ≥ 0))

def less (m : Memory) (str1 str2 : StringData) : Except Fault Bool := do
  let c ← compare m str1 str2
  pure (decide (c < 0))

def lessEqual (m : Memory) (str1 str2 : StringData) : Except Fault Bool := do
  let c ← compare m str1 str2
  pure (decide (c ≤ 0))

/-- Two `+=` on a temporary String, where the length that was computed is not 0. -/
def concat (m : Memory) (len : ℕ) (s1 s2 : Memory → StringData → Except Fault (Memory × StringData)) :
    Except Fault (Memory × StringData) :=
  if len ≠ 0 then do
    let (m,tmp) ← reserve m .nullData len
    let (m,tmp) ← s1 m tmp
    s2 m tmp
  else pure (m,.nullData)

def appendString (s : StringData) (m : Memory) (d : StringData) : Except Fault (Memory × StringData) :=
  appendLen m d (.chars s.chars) s.length

/-- The length of the first is taken twice. -/
def plus (m : Memory) (s1 s2 : StringData) : Except Fault (Memory × StringData) :=
  concat m (sizeType (s1.length + s1.length)) (appendString s1) (appendString s2)

def textPlus (m : Memory) (s1 : Source) (s2 : StringData) : Except Fault (Memory × StringData) := do
  let len ← s1.strlen m
  concat m (sizeType (sizeType len + s2.length)) (fun m tmp => append m tmp s1) (appendString s2)

def plusText (m : Memory) (s1 : StringData) (s2 : Source) : Except Fault (Memory × StringData) := do
  let len ← s2.strlen m
  concat m (sizeType (sizeType len + s1.length)) (appendString s1) (fun m tmp => append m tmp s2)

/-! ## Programs -/

/-- What a program does with Strings: also operations in place, and those that make a new String
of others. -/
inductive PublicAction
  | basic (a : StringAction)
  | setAt (i : ℕ) (index : BitVec 32) (ch : UInt8)
  | replace (i : ℕ) (c1 c2 : UInt8)
  | trimLeft (i : ℕ)
  | trimRight (i : ℕ)
  | trim (i : ℕ)
  | printf (i : ℕ) (text : List UInt8)
  | substr (t i : ℕ) (index num : BitVec 32)
  | plus (t i j : ℕ)
  | textPlus (t : ℕ) (str : CharsArg) (j : ℕ)
  | plusText (t i : ℕ) (str : CharsArg)

namespace StringState

def change (s : StringState) (i : ℕ) (f : Memory → StringData → Except Fault (Memory × StringData)) :
    Except Fault StringState := do
  let d ← s.data i
  let r ← f s.mem d
  pure (s.set i r)

end StringState

namespace PublicAction

/-- The String that `substr` or `+` gives lives at `t`. -/
def apply (s : StringState) : PublicAction → Except Fault StringState
  | basic a => a.apply s
  | setAt i index ch => s.change i (Text.setAt · · index.toNat ch)
  | replace i c1 c2 => s.change i (Text.replace · · c1 c2)
  | trimLeft i => s.change i Text.trimLeft
  | trimRight i => s.change i Text.trimRight
  | trim i => s.change i Text.trim
  | printf i text => s.change i (Text.printf · · text)
  | substr t i index num => do
    let d ← s.data i
    let r ← Text.substr s.mem d index.toNat num.toNat
    pure (s.set t r)
  | plus t i j => do
    let s1 ← s.data i
    let s2 ← s.data j
    let r ← Text.plus s.mem s1 s2
    pure (s.set t r)
  | textPlus t str j => do
    let s1 ← s.source str
    let s2 ← s.data j
    let r ← Text.textPlus s.mem s1 s2
    pure (s.set t r)
  | plusText t i str => do
    let s1 ← s.data i
    let s2 ← s.source str
    let r ← Text.plusText s.mem s1 s2
    pure (s.set t r)

def step (s : StringState) (a : PublicAction) : Option StringState := (apply s a).toOption

end PublicAction
end Edelib.Text
