import Edelib.Foundation.Bytes
import Edelib.Foundation.Transition
import Edelib.Process.Exec

/-! # Running a program without waiting for it

The caller forks a child, which forks the grandchild that executes the program. The
child reports the number of the grandchild over one pipe, and failures are reported over
another, which closes when the program is executed. The three take turns in any order; a
read gives some of the bytes that are there, and a signal may interrupt it.
-/
namespace Edelib.Run
open Foundation

structure AsyncEnv extends ExecEnv where
  cmd : CString
  order : ByteOrder
  pidPipe : Bool
  errPipe : Bool
  forked : Bool
  grandForked : Bool
  nullDev : Bool
  nullErrno : BitVec 32
  grandPid : BitVec 32
  interrupts : ℕ

def AsyncEnv.grandchild (env : AsyncEnv) : ChildEnd := execCmd env.toExecEnv env.cmd

inductive PipeEnd
  | pidRead
  | pidWrite
  | errRead
  | errWrite
deriving DecidableEq

/-! ## Reading numbers -/

/-- What `read_ints` has of its numbers; `errno` is not set back after an interrupt. -/
structure Reading where
  got : List UInt8
  eintr : Bool

def Reading.fresh : Reading := ⟨[],false⟩

def readChunk (request : ℕ) (pipe : List UInt8) (writer : Bool) (n : ℕ) : Option (List UInt8 × List UInt8) :=
  if request = 0 then some ([],pipe)
  else if pipe = [] then if writer then none else some ([],[])
  else if 0 < n ∧ n ≤ request ∧ n ≤ pipe.length then some (pipe.take n,pipe.drop n) else none

/-- What `read_ints` does with the bytes: it goes on, or ends with what it got. -/
def Reading.next (r : Reading) (chunk : List UInt8) : Reading ⊕ List UInt8 :=
  if r.eintr then .inl r
  else if chunk = [] ∨ 8 ≤ (r.got ++ chunk).length then .inr (r.got ++ chunk)
  else .inl ⟨r.got ++ chunk,false⟩

/-! ## The three processes -/

inductive ParentState
  | waiting
  | readingErr (r : Reading)
  | readingPid (r : Reading)
  | returned (ret : ℤ) (childPid : Option (BitVec 32))

inductive ChildState
  | forking
  | forkFailedPid
  | forkFailedErr
  | reporting
  | closing
  | exited
deriving DecidableEq

inductive GrandState
  | absent
  | opening
  | nullFailedPid
  | nullFailedErr
  | executing
  | execFailedCode
  | execFailedErrno
  | executed
  | exited
deriving DecidableEq

/-- The pipes with what is written and not read, and the ends that the caller has open. -/
structure AsyncState where
  parent : ParentState
  child : ChildState
  grand : GrandState
  pidPipe : List UInt8
  errPipe : List UInt8
  ends : List PipeEnd
  interrupts : ℕ

namespace AsyncState
variable (env : AsyncEnv)

/-- The call up to the first `waitpid`. -/
def start : AsyncState :=
  if env.pidPipe = false then ⟨.returned runPipeFailed none,.exited,.absent,[],[],[],env.interrupts⟩
  else if env.errPipe = false then
    ⟨.returned runPipeFailed none,.exited,.absent,[],[],[.pidRead,.pidWrite],env.interrupts⟩
  else if env.forked = false then
    ⟨.returned runForkFailed none,.exited,.absent,[],[],[.pidRead,.pidWrite,.errRead,.errWrite],env.interrupts⟩
  else ⟨.waiting,.forking,.absent,[],[],[.pidRead,.errRead],env.interrupts⟩

def pidWriter (t : AsyncState) : Bool := t.child ≠ .exited ∨ t.grand ≠ .absent ∧ t.grand ≠ .exited

def errWriter (t : AsyncState) : Bool :=
  t.child ≠ .exited ∨ t.grand ≠ .absent ∧ t.grand ≠ .executed ∧ t.grand ≠ .exited

def writePid (t : AsyncState) (val : BitVec 32) : AsyncState :=
  { t with pidPipe := t.pidPipe ++ env.order.bytes32 val }

def writeErr (t : AsyncState) (val : BitVec 32) : AsyncState :=
  { t with errPipe := t.errPipe ++ env.order.bytes32 val }

def word (got : List UInt8) (k : ℕ) : BitVec 32 := env.order.card32 ((got.drop (4 * k)).take 4)

def fail (t : AsyncState) (ret : ℤ) : AsyncState := { t with parent := .returned ret none, ends := [] }

def afterErr (t : AsyncState) (got : List UInt8) : AsyncState :=
  if got.length / 4 ≥ 2 then t.fail (convertFromErrno (word env got 1).toInt (word env got 0).toInt)
  else { t with parent := .readingPid .fresh }

def afterPid (t : AsyncState) (got : List UInt8) : AsyncState :=
  if got.length / 4 < 1 then t.fail runPipeFailed
  else { t with parent := .returned 0 (some (word env got 0)), ends := [] }

def stepParent (t : AsyncState) (n : ℕ) : Option AsyncState :=
  match t.parent with
  | .waiting => if t.child = .exited then some { t with parent := .readingErr .fresh } else none
  | .readingErr r => (readChunk (8 - r.got.length) t.errPipe t.errWriter n).map fun c =>
    match r.next c.1 with
    | .inl r' => { t with parent := .readingErr r', errPipe := c.2 }
    | .inr got => afterErr env { t with errPipe := c.2 } got
  | .readingPid r => (readChunk (4 - r.got.length) t.pidPipe t.pidWriter n).map fun c =>
    match r.next c.1 with
    | .inl r' => { t with parent := .readingPid r', pidPipe := c.2 }
    | .inr got => afterPid env { t with pidPipe := c.2 } got
  | .returned _ _ => none

def stepChild (t : AsyncState) : Option AsyncState :=
  match t.child with
  | .forking => if env.grandForked = true then some { t with child := .reporting, grand := .opening }
    else some { t with child := .forkFailedPid }
  | .forkFailedPid => some { writePid env t (-1) with child := .forkFailedErr }
  | .forkFailedErr => some { writeErr env t (.ofInt 32 runForkFailed) with child := .exited }
  | .reporting => some { writePid env t env.grandPid with child := .closing }
  | .closing => some { t with child := .exited }
  | .exited => none

def stepGrand (t : AsyncState) : Option AsyncState :=
  match t.grand with
  | .absent => none
  | .opening => if env.nullDev = true then some { t with grand := .executing }
    else some { t with grand := .nullFailedPid }
  | .nullFailedPid => some { writePid env t 0 with grand := .nullFailedErr }
  | .nullFailedErr => some { writeErr env t env.nullErrno with grand := .exited }
  | .executing => match env.grandchild with
    | .executed _ => some { t with grand := .executed }
    | .failed _ => some { t with grand := .execFailedCode }
    | .crashed => some { t with grand := .exited }
  | .execFailedCode => some { writeErr env t (.ofInt 32 runExecveFailed) with grand := .execFailedErrno }
  | .execFailedErrno => match env.grandchild with
    | .failed errno => some { writeErr env t (BitVec.ofNat 32 errno) with grand := .exited }
    | _ => none
  | .executed => none
  | .exited => none

def interrupt (t : AsyncState) : Option AsyncState :=
  if t.interrupts = 0 then none
  else match t.parent with
    | .readingErr r => some { t with parent := .readingErr { r with eintr := true }, interrupts := t.interrupts - 1 }
    | .readingPid r => some { t with parent := .readingPid { r with eintr := true }, interrupts := t.interrupts - 1 }
    | _ => none

end AsyncState
open AsyncState

inductive AsyncAction
  | parent (n : ℕ)
  | child
  | grandchild
  | interrupt

def AsyncAction.step (env : AsyncEnv) (t : AsyncState) : AsyncAction → Option AsyncState
  | parent n => t.stepParent env n
  | child => t.stepChild env
  | grandchild => t.stepGrand env
  | interrupt => t.interrupt

/-- A call that has returned tells whether the program was executed, and has closed its pipes if not. -/
def AsyncState.Reports (env : AsyncEnv) (t : AsyncState) : Prop :=
  ∀ ret childPid, t.parent = .returned ret childPid →
    (ret = 0 ↔ t.grand = .executed) ∧ (ret = 0 → childPid = some env.grandPid) ∧ (ret ≠ 0 → t.ends = [])

/-- In every order of steps the call returns, and reports what happened. -/
structure Correct (env : AsyncEnv) : Prop where
  reports : ∀ acts t, Transition.exec (AsyncAction.step env) (start env) acts = some t → t.Reports env
  ends : ∃ n, ∀ acts t, Transition.exec (AsyncAction.step env) (start env) acts = some t → acts.length ≤ n
  returns : ∀ acts t, Transition.exec (AsyncAction.step env) (start env) acts = some t →
    (∃ ret childPid, t.parent = .returned ret childPid) ∨ ∃ a t', AsyncAction.step env t a = some t'

/-- The first pipe fails; or nothing fails before `exec_cmd`, which has a program, and no signal comes. -/
def Undisturbed (env : AsyncEnv) : Prop :=
  env.pidPipe = false ∨ env.errPipe = true ∧ env.forked = true ∧ env.grandForked = true ∧ env.nullDev = true ∧
    cmdSplit env.cmd ≠ [] ∧ env.interrupts = 0

end Edelib.Run
