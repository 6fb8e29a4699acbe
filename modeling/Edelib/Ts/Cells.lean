import Mathlib.Algebra.Order.Ring.Int
import Mathlib.Data.List.Basic
import Mathlib.Logic.Function.Basic

/-! # The cells of the interpreter

The cells of TinyScheme and its garbage collector. A pointer is the address of a cell, and 0 is the null pointer; a few
cells are fields of the interpreter, the others are in segments. The links of an atom are not read.
-/
namespace Edelib.Ts

inductive SchemeType where
  | free
  | string
  | number
  | symbol
  | proc
  | pair
  | closure
  | continuation
  | foreign
  | character
  | port
  | vector
  | tMacro
  | promise
  | environment
deriving DecidableEq

structure Cell where
  type : SchemeType
  isSyntax : Bool
  immutable : Bool
  -- only for gc
  atom : Bool
  mark : Bool
  ivalue : ℤ
  -- the block of a string, or the port
  svalue : ℕ
  car : ℕ
  cdr : ℕ
deriving DecidableEq

abbrev Cells := ℕ → Cell

def NIL : ℕ := 1
def T : ℕ := 2
def F : ℕ := 3
def EOF_OBJ : ℕ := 4
def sink : ℕ := 5

def CELL_SEGSIZE : ℕ := 20000
def CELL_NSEGMENT : ℕ := 12

structure Scheme where
  cells : Cells
  -- in address order
  cellSeg : List ℕ
  freeCell : ℕ
  fcells : ℤ
  noMemory : Bool
  -- what was given back to the allocator when cells were finalized
  freed : List ℕ
  oblist : ℕ
  globalEnv : ℕ
  args : ℕ
  envir : ℕ
  code : ℕ
  -- the stack is a list in the cells
  dump : ℕ
  value : ℕ
  inport : ℕ
  saveInport : ℕ
  outport : ℕ
  loadport : ℕ
  cNest : ℕ

namespace Cell

def elems (c : Cell) : ℕ := (c.ivalue.tdiv 2 + c.ivalue.tmod 2).toNat

def inUse (c : Cell) : Bool := c.type ≠ .free || c.isSyntax || c.immutable || c.atom || c.mark

def clear (c : Cell) : Cell := { c with type := .free, isSyntax := false, immutable := false, atom := false, mark := false }

end Cell

/-! ## Marking -/

def put (cells : Cells) (p : ℕ) (c : Cell) : Cells := Function.update cells p c

def setMark (cells : Cells) (p : ℕ) : Cells := put cells p { cells p with mark := true }

def isMark (cells : Cells) (p : ℕ) : Bool := (cells p).mark

/-- The labels of the algorithm: a cell is marked and its `car` followed, its `cdr` is followed, and what was followed is
undone. -/
inductive Label where
  | e2
  | e5
  | e6

/-- The link-inversion algorithm. The way back is in the cells on it, and `t` is the last of them. -/
def markLoop : ℕ → Label → Cells → ℕ → ℕ → Option Cells
  | 0,_,_,_,_ => none
  | steps + 1,.e2,cells,t,p => do
    let cells := setMark cells p
    let cells ← (if (cells p).type = .vector then
      -- vector cells will be treated like ordinary cells
      (List.range' (p + 1) (cells p).elems).foldlM (fun cells e => markLoop steps .e2 cells 0 e) cells
      else some cells)
    if (cells p).atom then markLoop steps .e6 cells t p
    else
      -- down car
      let q := (cells p).car
      if q ≠ 0 ∧ isMark cells q = false then
        -- a note that we have moved car
        markLoop steps .e2 (put cells p { cells p with atom := true, car := t }) p q
      else markLoop steps .e5 cells t p
  | steps + 1,.e5,cells,t,p =>
    -- down cdr
    let q := (cells p).cdr
    if q ≠ 0 ∧ isMark cells q = false then markLoop steps .e2 (put cells p { cells p with cdr := t }) p q
    else markLoop steps .e6 cells t p
  | steps + 1,.e6,cells,t,p =>
    -- up
    if t = 0 then some cells
    else if (cells t).atom then
      markLoop steps .e5 (put cells t { cells t with atom := false, car := p }) (cells t).car t
    else markLoop steps .e6 (put cells t { cells t with cdr := p }) (cells t).cdr t

/-- There is no way back. -/
theorem markLoop_done (steps : ℕ) (cells : Cells) (p : ℕ) : markLoop (steps + 1) .e6 cells 0 p = some cells := by
  rw [markLoop,if_pos rfl]

def mark (steps : ℕ) (cells : Cells) (a : ℕ) : Option Cells := markLoop steps .e2 cells 0 a

/-! ## Garbage collection -/

namespace Scheme

def segCells (sc : Scheme) : List ℕ := sc.cellSeg.flatMap (fun s => List.range' s CELL_SEGSIZE)

/-- The system globals and current registers, and what the interpreter does not know about yet. -/
def registers (sc : Scheme) : List ℕ :=
  [sc.oblist,sc.globalEnv,sc.args,sc.envir,sc.code,sc.dump,sc.value,sc.inport,sc.saveInport,sc.outport,sc.loadport,
    (sc.cells sink).car,sc.cNest]

/-- Two variables are marked too. -/
def roots (sc : Scheme) (a b : ℕ) : List ℕ := sc.registers ++ [a,b]

/-- More steps than there are to make: a cell is met four times at most. -/
def markSteps (sc : Scheme) : ℕ := 4 * (sc.segCells.length + 4) + 4

/-- What is behind a string or a port is given back. -/
def finalizeCell (sc : Scheme) (a : ℕ) : Scheme :=
  if (sc.cells a).type = .string ∨ (sc.cells a).type = .port then { sc with freed := sc.freed ++ [(sc.cells a).svalue] }
  else sc

def sweepCell (sc : Scheme) (p : ℕ) : Scheme :=
  if isMark sc.cells p then { sc with cells := put sc.cells p { sc.cells p with mark := false } }
  else
    -- reclaim cell
    let sc := if (sc.cells p).inUse then
        let sc := finalizeCell sc p
        { sc with cells := put sc.cells p { (sc.cells p).clear with car := NIL } }
      else sc
    { sc with
      fcells := sc.fcells + 1
      cells := put sc.cells p { sc.cells p with cdr := sc.freeCell }
      freeCell := p }

def markAll (steps : ℕ) (cells : Cells) (roots : List ℕ) : Option Cells := roots.foldlM (mark steps) cells

/-- The cells are scanned downwards to build the free list in sorted order. -/
def sweep (sc : Scheme) : Scheme := sc.segCells.reverse.foldl sweepCell sc

/-- The parameters are marked. -/
def gc (sc : Scheme) (a b : ℕ) : Option Scheme := do
  let cells ← markAll sc.markSteps sc.cells (sc.roots a b)
  let cells := put cells NIL { cells NIL with mark := false }
  some (sweep { sc with cells := cells, fcells := 0, freeCell := NIL })

end Scheme
end Edelib.Ts
