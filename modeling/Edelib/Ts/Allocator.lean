import Edelib.Ts.Cells

/-! # Getting cells

What the interpreter calls to get cells. A cell is taken off the free list, after a collection or from a new segment if
the list is empty; what was taken is kept in a list of recent allocations. Where there is no memory the cell is the sink.
-/
namespace Edelib.Ts

namespace Cell

def setFlag (c : Cell) (type : SchemeType) (immutable atom : Bool) : Cell :=
  { c with type := type, isSyntax := false, immutable := immutable, atom := atom, mark := false }

end Cell

/-! ## Segments -/

/-- The new segment is moved down from the end, the last one first. -/
def placeSeg (newp : ℕ) : List ℕ → List ℕ
  | [] => [newp]
  | s :: rest => if s > newp then s :: placeSeg newp rest else newp :: s :: rest

def initCell (cells : Cells) (p : ℕ) : Cells := put cells p { (cells p).clear with cdr := p + 1, car := NIL }

def initSeg (cells : Cells) (newp : ℕ) : Cells := (List.range' newp CELL_SEGSIZE).foldl initCell cells

def freeBefore (cells : Cells) (newp : ℕ) : ℕ → ℕ → Option ℕ
  | 0,_ => none
  | steps + 1,p => if (cells p).cdr ≠ NIL ∧ newp > (cells p).cdr then freeBefore cells newp steps (cells p).cdr else some p

namespace Scheme

section Functions
-- the address of a new segment, if there is memory
variable (malloc : Scheme → Option ℕ)

/-- The cells of a segment are put on the free list, in address order. -/
def addSegment (sc : Scheme) (newp : ℕ) : Option Scheme :=
  let cells := initSeg sc.cells newp
  let last := newp + CELL_SEGSIZE - 1
  let sc := { sc with
    cellSeg := (placeSeg newp sc.cellSeg.reverse).reverse
    fcells := sc.fcells + CELL_SEGSIZE
    cells := cells }
  if sc.freeCell = NIL ∨ newp + CELL_SEGSIZE < sc.freeCell then
    some { sc with cells := put cells last { cells last with cdr := sc.freeCell }, freeCell := newp }
  else do
    let p ← freeBefore cells newp (sc.segCells.length + 1) sc.freeCell
    let cells := put cells last { cells last with cdr := (cells p).cdr }
    some { sc with cells := put cells p { cells p with cdr := newp } }

def allocCellseg : ℕ → Scheme → Option (ℕ × Scheme)
  | 0,sc => some (0,sc)
  | n + 1,sc =>
    if sc.cellSeg.length ≥ CELL_NSEGMENT then some (0,sc)
    else
      match malloc sc with
      | none => some (0,sc)
      | some newp => do
        let sc ← sc.addSegment newp
        let (k,sc) ← allocCellseg n sc
        some (k + 1,sc)

/-! ## One cell -/

def popCell (sc : Scheme) : ℕ × Scheme :=
  (sc.freeCell,{ sc with freeCell := (sc.cells sc.freeCell).cdr, fcells := sc.fcells - 1 })

def getCellSlow (sc : Scheme) (a b : ℕ) : Option (ℕ × Scheme) :=
  if sc.noMemory then some (sink,sc)
  else if sc.freeCell = NIL then do
    let minToBeRecovered : ℤ := (sc.cellSeg.length - 1) * 8
    let sc ← sc.gc a b
    if sc.fcells < minToBeRecovered ∨ sc.freeCell = NIL then do
      -- if only a few recovered, get more to avoid fruitless gc's
      let (k,sc) ← allocCellseg malloc 1 sc
      if k = 0 ∧ sc.freeCell = NIL then some (sink,{ sc with noMemory := true }) else some sc.popCell
    else some sc.popCell
  else some sc.popCell

def getCellX (sc : Scheme) (a b : ℕ) : Option (ℕ × Scheme) :=
  if sc.freeCell ≠ NIL then some sc.popCell else sc.getCellSlow malloc a b

/-- To retain recent allocs before interpreter knows about them. -/
def pushRecentAlloc (sc : Scheme) (recent extra : ℕ) : Option Scheme := do
  let (holder,sc) ← sc.getCellX malloc recent extra
  let cells := put sc.cells holder { (sc.cells holder).setFlag .pair true false with car := recent }
  let cells := put cells holder { cells holder with cdr := (cells sink).car }
  some { sc with cells := put cells sink { cells sink with car := holder } }

/-- The parameters are in the cell for now, so that they are not taken for garbage. -/
def getCell (sc : Scheme) (a b : ℕ) : Option (ℕ × Scheme) := do
  let (cell,sc) ← sc.getCellX malloc a b
  let sc := { sc with cells := put sc.cells cell { (sc.cells cell).setFlag .pair false false with car := a, cdr := b } }
  let sc ← sc.pushRecentAlloc malloc cell NIL
  some (cell,sc)

def cons (sc : Scheme) (a b : ℕ) (immutable : Bool) : Option (ℕ × Scheme) := do
  let (x,sc) ← sc.getCell malloc a b
  some (x,{ sc with cells := put sc.cells x { (sc.cells x).setFlag .pair immutable false with car := a, cdr := b } })

def mkAtom (sc : Scheme) (type : SchemeType) (ivalue : ℤ) (svalue : ℕ) : Option (ℕ × Scheme) := do
  let (x,sc) ← sc.getCell malloc NIL NIL
  some (x,{ sc with
    cells := put sc.cells x { (sc.cells x).setFlag type false true with ivalue := ivalue, svalue := svalue } })

def mkCharacter (sc : Scheme) (c : ℤ) : Option (ℕ × Scheme) := sc.mkAtom malloc .character c 0

def mkInteger (sc : Scheme) (n : ℤ) : Option (ℕ × Scheme) := sc.mkAtom malloc .number n 0

/-- The block is that of `store_string`. -/
def mkCountedString (sc : Scheme) (block : ℕ) : Option (ℕ × Scheme) := sc.mkAtom malloc .string 0 block

def mkPort (sc : Scheme) (p : ℕ) : Option (ℕ × Scheme) := sc.mkAtom malloc .port 0 p

/-! ## Consecutive cells -/

/-- As many as are needed, or one more, are counted at most. -/
def countLoop (cells : Cells) : ℕ → ℕ → ℕ → ℕ
  | 0,_,n => n
  | rounds + 1,x,n => if (cells x).cdr = x + 1 then countLoop cells rounds (x + 1) (n + 1) else n

def countConsecutiveCells (cells : Cells) (x needed : ℕ) : ℕ := countLoop cells needed x 1

def linkAt (sc : Scheme) : Option ℕ → ℕ
  | none => sc.freeCell
  | some q => (sc.cells q).cdr

def setLink (sc : Scheme) (x : ℕ) : Option ℕ → Scheme
  | none => { sc with freeCell := x }
  | some q => { sc with cells := put sc.cells q { sc.cells q with cdr := x } }

def findLoop (n : ℕ) : ℕ → Option ℕ → Scheme → Option (ℕ × Scheme)
  | 0,_,_ => none
  | steps + 1,pp,sc =>
    let x := sc.linkAt pp
    if x = NIL then some (NIL,sc)
    else
      let cnt := countConsecutiveCells sc.cells x n
      if cnt ≥ n then
        let sc := sc.setLink (sc.cells (x + n - 1)).cdr pp
        some (x,{ sc with fcells := sc.fcells - n })
      else findLoop n steps (some (x + cnt - 1)) sc

def findConsecutiveCells (sc : Scheme) (n : ℕ) : Option (ℕ × Scheme) := findLoop n (sc.segCells.length + 1) none sc

def getConsecutiveCells (sc : Scheme) (n : ℕ) : Option (ℕ × Scheme) :=
  if sc.noMemory then some (sink,sc)
  else do
    -- are there any cells available?
    let (x,sc) ← sc.findConsecutiveCells n
    if x ≠ NIL then some (x,sc)
    else do
      -- if not, try gc'ing some
      let sc ← sc.gc NIL NIL
      let (x,sc) ← sc.findConsecutiveCells n
      if x ≠ NIL then some (x,sc)
      else do
        -- if there still aren't, try getting more heap
        let (k,sc) ← allocCellseg malloc 1 sc
        if k = 0 then some (sink,{ sc with noMemory := true })
        else do
          let (x,sc) ← sc.findConsecutiveCells n
          if x ≠ NIL then some (x,sc) else some (sink,{ sc with noMemory := true })

def fillVector (cells : Cells) (vec obj : ℕ) : Cells :=
  (List.range' (vec + 1) (cells vec).elems).foldl
    (fun cells p => put cells p { (cells p).setFlag .pair true false with car := obj, cdr := obj }) cells

def getVectorObject (sc : Scheme) (len init : ℕ) : Option (ℕ × Scheme) := do
  let (vec,sc) ← sc.getConsecutiveCells malloc (len / 2 + len % 2 + 1)
  if sc.noMemory then some (sink,sc)
  else do
    -- record it as a vector so that gc understands it
    let cells := put sc.cells vec { (sc.cells vec).setFlag .vector false true with ivalue := len }
    let sc := { sc with cells := fillVector cells vec init }
    let sc ← sc.pushRecentAlloc malloc vec NIL
    some (vec,sc)

def mkVector (sc : Scheme) (len : ℕ) : Option (ℕ × Scheme) := sc.getVectorObject malloc len NIL

end Functions

/-! ## What the interpreter does with its cells -/

def setCar (sc : Scheme) (p q : ℕ) : Scheme := { sc with cells := put sc.cells p { sc.cells p with car := q } }

def setCdr (sc : Scheme) (p q : ℕ) : Scheme := { sc with cells := put sc.cells p { sc.cells p with cdr := q } }

def setVectorElem (sc : Scheme) (vec ielem a : ℕ) : Scheme :=
  if ielem % 2 = 0 then sc.setCar (vec + 1 + ielem / 2) a else sc.setCdr (vec + 1 + ielem / 2) a

/-- A pair is made a closure, a symbol, a promise or another thing that is not an atom. -/
def setType (sc : Scheme) (p : ℕ) (type : SchemeType) (immutable : Bool) : Scheme :=
  { sc with cells := put sc.cells p { sc.cells p with type := type, immutable := immutable } }

def okToFreelyGc (sc : Scheme) : Scheme := sc.setCar sink NIL

end Scheme

/-- What the interpreter points to from its registers. -/
structure Registers where
  oblist : ℕ
  globalEnv : ℕ
  args : ℕ
  envir : ℕ
  code : ℕ
  dump : ℕ
  value : ℕ
  inport : ℕ
  saveInport : ℕ
  outport : ℕ
  loadport : ℕ
  cNest : ℕ

def Registers.values (r : Registers) : List ℕ :=
  [r.oblist,r.globalEnv,r.args,r.envir,r.code,r.dump,r.value,r.inport,r.saveInport,r.outport,r.loadport,r.cNest]

def Scheme.load (sc : Scheme) (r : Registers) : Scheme :=
  { sc with
    oblist := r.oblist, globalEnv := r.globalEnv, args := r.args, envir := r.envir, code := r.code, dump := r.dump
    value := r.value, inport := r.inport, saveInport := r.saveInport, outport := r.outport, loadport := r.loadport
    cNest := r.cNest }

inductive Op where
  | cons (a b : ℕ) (immutable : Bool)
  | mkAtom (type : SchemeType) (ivalue : ℤ) (svalue : ℕ)
  | mkVector (len : ℕ)
  | setCar (p q : ℕ)
  | setCdr (p q : ℕ)
  | setVectorElem (vec ielem a : ℕ)
  | setType (p : ℕ) (type : SchemeType) (immutable : Bool)
  | load (r : Registers)
  | okToFreelyGc
  | gc (a b : ℕ)
  | allocCellseg (n : ℕ)

def Op.step (malloc : Scheme → Option ℕ) (sc : Scheme) : Op → Option (ℕ × Scheme)
  | .cons a b immutable => sc.cons malloc a b immutable
  | .mkAtom type ivalue svalue => sc.mkAtom malloc type ivalue svalue
  | .mkVector len => sc.mkVector malloc len
  | .setCar p q => some (NIL,sc.setCar p q)
  | .setCdr p q => some (NIL,sc.setCdr p q)
  | .setVectorElem vec ielem a => some (NIL,sc.setVectorElem vec ielem a)
  | .setType p type immutable => some (NIL,sc.setType p type immutable)
  | .load r => some (NIL,sc.load r)
  | .okToFreelyGc => some (NIL,sc.okToFreelyGc)
  | .gc a b => (sc.gc a b).map (fun sc => (NIL,sc))
  | .allocCellseg n => (Scheme.allocCellseg malloc n sc).map (fun r => (NIL,r.2))
end Edelib.Ts
