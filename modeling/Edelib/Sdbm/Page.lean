import Edelib.Foundation.SlottedPage

/-! # Pages of the database

The page routines of sdbm. A page is an array of `short` and of bytes at once: a count, the offsets of the keys and of
their data, what is free, and the keys and data themselves, the first ones last. A page or a datum outside of it has no
result.
-/
namespace Edelib.Sdbm
open Foundation SlottedPage

def PBLKSIZ : ℕ := 1024

abbrev Datum := List UInt8

/-- A `char` is signed. -/
def sdbmHash (str : Datum) : BitVec 64 := str.foldl (fun n c => c.toBitVec.signExtend 64 + 65599 * n) 0

variable (o : ByteOrder)

def ino (pag : Page) (i : ℤ) : Option ℤ := if 0 ≤ i then word o pag i.toNat else none

def setIno (pag : Page) (i x : ℤ) : Option Page := if 0 ≤ i then setWord o pag i.toNat x else none

def endOfFree (pag : Page) (n : ℤ) : Option ℤ := if n > 0 then ino o pag n else some PBLKSIZ

def fitpair (pag : Page) (need : ℤ) : Option Bool := do
  let n ← ino o pag 0
  let off ← endOfFree o pag n
  let free := off - (n + 1) * 2
  some (decide (need + 2 * 2 ≤ free))

def putpair (pag : Page) (key val : Datum) : Option Page := do
  let n ← ino o pag 0
  let off ← endOfFree o pag n
  -- enter the key first
  let off := off - key.length
  let pag ← memcpy pag off key
  let pag ← setIno o pag (n + 1) off
  -- now the data
  let off := off - val.length
  let pag ← memcpy pag off val
  let pag ← setIno o pag (n + 2) off
  -- adjust item count
  let count ← ino o pag 0
  setIno o pag 0 (count + 2)

def seepairLoop (pag : Page) (key : Datum) : ℕ → ℤ → ℤ → Option ℤ
  | 0,_,_ => some 0
  | rounds + 1,i,off => do
    let at' ← ino o pag i
    let found ← (if (key.length : ℤ) = off - at' then (load pag at' key.length).map (· == key) else some false)
    if found then some i
    else do
      let off ← ino o pag (i + 1)
      seepairLoop pag key rounds (i + 2) off

/-- `i` is 1, 3 and so on below `n`. -/
def seepair (pag : Page) (n : ℤ) (key : Datum) : Option ℤ := seepairLoop o pag key (n / 2).toNat 1 PBLKSIZ

def getpair (pag : Page) (key : Datum) : Option (Option Datum) := do
  let n ← ino o pag 0
  if n = 0 then some none
  else do
    let i ← seepair o pag n key
    if i = 0 then some none
    else do
      let keyoff ← ino o pag i
      let datoff ← ino o pag (i + 1)
      let val ← load pag datoff (keyoff - datoff)
      some (some val)

def duppair (pag : Page) (key : Datum) : Option Bool := do
  let n ← ino o pag 0
  if n > 0 then do
    let i ← seepair o pag n key
    some (decide (i > 0))
  else some false

def getnkey (pag : Page) (num : ℤ) : Option (Option Datum) := do
  let num := num * 2 - 1
  let n ← ino o pag 0
  if n = 0 ∨ num > n then some none
  else do
    let off ← (if num > 1 then ino o pag (num - 1) else some PBLKSIZ)
    let keyoff ← ino o pag num
    let key ← load pag keyoff (off - keyoff)
    some (some key)

def shiftIno : ℕ → ℤ → ℤ → Page → Option Page
  | 0,_,_,pag => some pag
  | rounds + 1,i,zoo,pag => do
    let off ← ino o pag (i + 2)
    let pag ← setIno o pag i (off + zoo)
    shiftIno rounds (i + 1) zoo pag

/-- What is behind a deleted pair is moved onto it, and the offsets with it. -/
def closeUp (pag : Page) (n i : ℤ) : Option Page := do
  let dst ← (if i = 1 then some (PBLKSIZ : ℤ) else ino o pag (i - 1))
  let src ← ino o pag (i + 1)
  let last ← ino o pag n
  let m := src - last
  if m < 0 then none
  else do
    let pag ← moveDown m.toNat dst src pag
    shiftIno o (n - 1 - i).toNat i (dst - src) pag

def delpair (pag : Page) (key : Datum) : Option (Bool × Page) := do
  let n ← ino o pag 0
  if n = 0 then some (false,pag)
  else do
    let i ← seepair o pag n key
    if i = 0 then some (false,pag)
    else do
      -- the last entry is given up with the count alone
      let pag ← (if i < n - 1 then closeUp o pag n i else some pag)
      let count ← ino o pag 0
      let pag ← setIno o pag 0 (count - 2)
      some (true,pag)

def blank : Page := List.replicate PBLKSIZ 0

def splitLoop (cur : Page) (sbit : BitVec 64) : ℕ → ℤ → ℤ → Page → Page → Option (Page × Page)
  | 0,_,_,pag,new => some (pag,new)
  | rounds + 1,i,off,pag,new => do
    let keyoff ← ino o cur i
    let datoff ← ino o cur (i + 1)
    let key ← load cur keyoff (off - keyoff)
    let val ← load cur datoff (keyoff - datoff)
    -- select the page pointer (by looking at sbit) and insert
    if sdbmHash key &&& sbit ≠ 0 then do
      let new ← putpair o new key val
      splitLoop cur sbit rounds (i + 2) datoff pag new
    else do
      let pag ← putpair o pag key val
      splitLoop cur sbit rounds (i + 2) datoff pag new

def splpage (pag : Page) (sbit : BitVec 64) : Option (Page × Page) := do
  let n ← ino o pag 0
  splitLoop o pag sbit ((n + 1) / 2).toNat 1 PBLKSIZ blank blank

def chkLoop (pag : Page) : ℕ → ℤ → ℤ → Option Bool
  | 0,_,_ => some true
  | rounds + 1,i,off => do
    let keyoff ← ino o pag i
    if keyoff > off then some false
    else do
      let datoff ← ino o pag (i + 1)
      if datoff > off ∨ datoff > keyoff then some false else chkLoop pag rounds (i + 2) datoff

def chkpage (pag : Page) : Option Bool := do
  let n ← ino o pag 0
  if n < 0 ∨ n > PBLKSIZ / 2 then some false else chkLoop o pag ((n + 1) / 2).toNat 1 PBLKSIZ

/-! ## What a page holds -/

abbrev Pair := Datum × Datum

/-- The keys and data of a page; each datum is before its key, and the first pair is the last. -/
def packed : List Pair → List UInt8
  | [] => []
  | (key,val) :: pairs => packed pairs ++ (val ++ key)

def offsets : ℤ → List Pair → List ℤ
  | _,[] => []
  | off,(key,val) :: pairs =>
    (off - key.length) :: (off - key.length - val.length) :: offsets (off - key.length - val.length) pairs

structure Holds (pag : Page) (pairs : List Pair) : Prop where
  length : pag.length = PBLKSIZ
  laid : ∃ free, Laid o pag ((2 * pairs.length : ℤ) :: offsets PBLKSIZ pairs) free (packed pairs)

def cost (p : Pair) : ℕ := p.1.length + p.2.length + 4

def costs (pairs : List Pair) : ℕ := (pairs.map cost).sum

end Edelib.Sdbm
