import Edelib.Sdbm.Page

/-! # The database routines

The core routines of sdbm. The files are their blocks; what is behind the last block reads as nothing and leaves the
buffer as it is, and a hole reads as zeros. Reads and writes of the files succeed.
-/
namespace Edelib.Sdbm
open Foundation SlottedPage TextBlock

def DBLKSIZ : ℕ := 4096
def BYTESIZ : ℕ := 8
def PAIRMAX : ℕ := 1008
def SPLTMAX : ℕ := 10

structure SDBM where
  pagf : List Page
  dirf : List TextBlock.Block
  -- the offset of the page file, in blocks
  pagpos : ℕ
  rdonly : Bool
  ioerr : Bool
  -- size of dirfile in bits
  maxbno : ℕ
  -- current bit number, current hash mask
  curbit : ℕ
  hmask : BitVec 64
  -- current block and key for nextkey
  blkptr : ℕ
  keyptr : ℕ
  -- current page in pagbuf
  pagbno : ℤ
  pagbuf : Page
  -- current block in dirbuf
  dirbno : ℤ
  dirbuf : TextBlock.Block
deriving DecidableEq

/-- A block is written to a file; what is skipped becomes a hole. -/
def putBlock (hole : TextBlock.Block) (file : List TextBlock.Block) (b : ℕ) (block : TextBlock.Block) : List TextBlock.Block :=
  if b < file.length then file.set b block else file ++ (List.replicate (b - file.length) hole ++ [block])

def blankDir : TextBlock.Block := List.replicate DBLKSIZ 0

def sdbmPrep (pagf : List Page) (dirf : List TextBlock.Block) (rdonly : Bool) : SDBM where
  pagf := pagf
  dirf := dirf
  pagpos := 0
  rdonly := rdonly
  ioerr := false
  maxbno := dirf.length * DBLKSIZ * BYTESIZ
  curbit := 0
  hmask := 0
  blkptr := 0
  keyptr := 0
  pagbno := -1
  pagbuf := blank
  dirbno := if dirf = [] then 0 else -1
  dirbuf := blankDir

namespace SDBM

/-! ## The files -/

/-- A page is read from the offset, if there is one, and the answer is whether there was. -/
def readPage (db : SDBM) : Bool × SDBM :=
  match db.pagf[db.pagpos]? with
  | some page => (true,{ db with pagbuf := page, pagpos := db.pagpos + 1 })
  | none => (false,db)

def seek (db : SDBM) (b : ℕ) : SDBM := { db with pagpos := b }

def writePage (db : SDBM) (b : ℕ) (page : Page) : SDBM :=
  { db with pagf := putBlock blank db.pagf b page, pagpos := b + 1 }

def readDir (db : SDBM) (b : ℕ) : SDBM := { db with dirbuf := (db.dirf[b]?).getD db.dirbuf, dirbno := b }

def atDir (db : SDBM) (dirb : ℕ) : SDBM := if (dirb : ℤ) ≠ db.dirbno then db.readDir dirb else db

def getdbit (db : SDBM) (dbit : ℕ) : Bool × SDBM :=
  let c := dbit / BYTESIZ
  let db := db.atDir (c / DBLKSIZ)
  ((db.dirbuf.getD (c % DBLKSIZ) 0).toNat.testBit (dbit % BYTESIZ),db)

def grown (maxbno dbit : ℕ) : ℕ := if dbit ≥ maxbno then maxbno + DBLKSIZ * BYTESIZ else maxbno

def setdbit (db : SDBM) (dbit : ℕ) : SDBM :=
  let c := dbit / BYTESIZ
  let dirb := c / DBLKSIZ
  let db := db.atDir dirb
  let byte := UInt8.ofNat ((db.dirbuf.getD (c % DBLKSIZ) 0).toNat ||| 2 ^ (dbit % BYTESIZ))
  let dirbuf := db.dirbuf.set (c % DBLKSIZ) byte
  { db with
    dirbuf := dirbuf
    maxbno := grown db.maxbno dbit
    dirf := putBlock blankDir db.dirf dirb dirbuf }

end SDBM

/-! ## The trie -/

def mask (hbit : ℕ) : BitVec 64 := BitVec.ofNat 64 (2 ^ hbit - 1)

def nextBit (hash : BitVec 64) (hbit dbit : ℕ) : ℕ := 2 * dbit + (if hash.toNat.testBit hbit then 2 else 1)

def goesOn (db : SDBM) (dbit : ℕ) : Bool × SDBM := if dbit < db.maxbno then db.getdbit dbit else (false,db)

/-- The binary trie is traversed; below the last mask there is nothing. -/
def walk (hash : BitVec 64) : ℕ → ℕ → ℕ → SDBM → Option (ℕ × ℕ × SDBM)
  | 0,hbit,dbit,db =>
    let (more,db) := goesOn db dbit
    if more then none else some (hbit,dbit,db)
  | steps + 1,hbit,dbit,db =>
    let (more,db) := goesOn db dbit
    if more then walk hash steps (hbit + 1) (nextBit hash hbit dbit) db else some (hbit,dbit,db)

section Functions
variable (o : ByteOrder)

def getpage (db : SDBM) (hash : BitVec 64) : Option (Bool × SDBM) := do
  let (hbit,dbit,db) ← walk hash 31 0 0 db
  let db := { db with curbit := dbit, hmask := mask hbit }
  let pagb := (hash &&& db.hmask).toNat
  -- see if the block we need is already in memory
  if (pagb : ℤ) ≠ db.pagbno then
    let db := (db.seek pagb).readPage.2
    let ok ← chkpage o db.pagbuf
    if ok then some (true,{ db with pagbno := pagb }) else some (false,db)
  else some (true,db)

def sdbmFetch (db : SDBM) (key : Datum) : Option (Option Datum × SDBM) :=
  if key = [] then some (none,db)
  else do
    let (ok,db) ← getpage o db (sdbmHash key)
    if ok then do
      let val ← getpair o db.pagbuf key
      some (val,db)
    else some (none,{ db with ioerr := true })

def sdbmDelete (db : SDBM) (key : Datum) : Option (ℤ × SDBM) :=
  if key = [] then some (-1,db)
  else if db.rdonly then some (-1,db)
  else do
    let (ok,db) ← getpage o db (sdbmHash key)
    if ok then do
      let (deleted,pagbuf) ← delpair o db.pagbuf key
      if deleted then
        -- update the page file
        some (0,{ db with pagbuf := pagbuf }.writePage db.pagbno.toNat pagbuf)
      else some (-1,db)
    else some (-1,{ db with ioerr := true })

/-- The current page is split once: the page for the incoming pair becomes the current one, the other is written. -/
def splitPage (db : SDBM) (hash : BitVec 64) : Option SDBM := do
  let (pag,new) ← splpage o db.pagbuf (db.hmask + 1)
  let newp := ((hash &&& db.hmask) ||| (db.hmask + 1)).toNat
  let db := if hash &&& (db.hmask + 1) ≠ 0 then { db.writePage db.pagbno.toNat pag with pagbno := newp, pagbuf := new }
    else { db.writePage newp new with pagbuf := pag }
  some (db.setdbit db.curbit)

/-- `curbit` and `hmask` are updated as `getpage` would have done, and the current page is written out. -/
def descend (db : SDBM) (hash : BitVec 64) : SDBM :=
  let db := { db with
    curbit := 2 * db.curbit + (if hash &&& (db.hmask + 1) ≠ 0 then 2 else 1)
    hmask := db.hmask ||| (db.hmask + 1) }
  db.writePage db.pagbno.toNat db.pagbuf

def makroom (hash : BitVec 64) (need : ℤ) : ℕ → SDBM → Option (Bool × SDBM)
  | 0,db => some (false,db)
  | smax + 1,db => do
    let db ← splitPage o db hash
    -- see if we have enough room now
    let fits ← fitpair o db.pagbuf need
    if fits then some (true,db) else makroom hash need smax (descend db hash)

/-- A pair is put on the current page, or on the one that room was made on. -/
def enterPair (db : SDBM) (hash : BitVec 64) (key val : Datum) : Option (ℤ × SDBM) := do
  let need : ℤ := key.length + val.length
  -- if we do not have enough room, we have to split
  let fits ← fitpair o db.pagbuf need
  let (room,db) ← (if fits then some (true,db) else makroom o hash need SPLTMAX db)
  if room then do
    let pagbuf ← putpair o db.pagbuf key val
    some (0,{ db with pagbuf := pagbuf }.writePage db.pagbno.toNat pagbuf)
  else some (-1,{ db with ioerr := true })

def storePage (db : SDBM) (hash : BitVec 64) (key val : Datum) (replace : Bool) : Option (ℤ × SDBM) := do
  -- if we need to replace, delete the key/data pair first; if it is not there, ignore
  let (_,pagbuf) ← (if replace then delpair o db.pagbuf key else some (false,db.pagbuf))
  let dup ← (if replace then some false else duppair o pagbuf key)
  let db := { db with pagbuf := pagbuf }
  if dup then some (1,db) else enterPair o db hash key val

def sdbmStore (db : SDBM) (key val : Datum) (replace : Bool) : Option (ℤ × SDBM) :=
  if key = [] then some (-1,db)
  else if db.rdonly then some (-1,db)
  else if key.length + val.length > PAIRMAX then some (-1,db)
  else do
    let (ok,db) ← getpage o db (sdbmHash key)
    if ok then storePage o db (sdbmHash key) key val replace else some (-1,{ db with ioerr := true })

/-! ## The keys in turn -/

/-- A round of `getnext` finds a key of the page, or the page is followed by another, or it was the last. -/
def getnext : ℕ → SDBM → Option (Option Datum × SDBM)
  | 0,_ => none
  | rounds + 1,db => do
    let db := { db with keyptr := db.keyptr + 1 }
    let key ← getnkey o db.pagbuf db.keyptr
    if key.isSome then some (key,db)
    else do
      -- we either run out, or there is nothing on this page; try the next one
      let lost := db.pagbno ≠ db.blkptr
      let db := { db with keyptr := 0, blkptr := db.blkptr + 1 }
      let db := if lost then db.seek db.blkptr else db
      let db := { db with pagbno := db.blkptr }
      let (read,db) := db.readPage
      if read then do
        let ok ← chkpage o db.pagbuf
        if ok then getnext rounds db else some (none,{ db with ioerr := true })
      else some (none,{ db with ioerr := true })

/-- A block is read in every round but the last. -/
def sdbmNextkey (db : SDBM) : Option (Option Datum × SDBM) := getnext o (db.pagf.length + 2) db

def sdbmFirstkey (db : SDBM) : Option (Option Datum × SDBM) :=
  -- start at page 0
  let db := (db.seek 0).readPage.2
  sdbmNextkey o { db with pagbno := 0, blkptr := 0, keyptr := 0 }

end Functions
end Edelib.Sdbm
