import Mathlib.Algebra.Order.Ring.Int
import Mathlib.Data.Fin.VecNotation
import Mathlib.Data.List.Basic

/-! # Descriptors that are listened to

The table of descriptors is a block of cells, of which a part may not be initialised. An
access outside of the block or of a descriptor set, and a read of a cell without content,
has no result. Allocation succeeds.
-/
namespace Edelib.Listener

def eventBit : Fin 3 → ℕ := ![0,2,3]

def mentions {w : ℕ} (events : BitVec w) (k : Fin 3) : Bool := events.getLsbD (eventBit k)

structure FD where
  fd : ℤ
  events : BitVec 16
  cb : ℕ
  arg : ℕ
deriving DecidableEq, Repr

def fdSetSize : ℕ := 1024

abbrev FdSets := Fin 3 → Fin fdSetSize → Bool

def slot (fd : ℤ) : Option (Fin fdSetSize) :=
  if h : 0 ≤ fd ∧ fd < fdSetSize then some ⟨fd.toNat,by omega⟩ else none

/-- `FD_SET` or `FD_CLR` in the sets of the events that the mask mentions. -/
def changeSets (v : Bool) (sets : FdSets) (fd : ℤ) (when : BitVec 32) : Option FdSets :=
  if ∃ k, mentions when k then
    (slot fd).map (fun a k b => if b = a ∧ mentions when k then v else sets k b)
  else some sets

structure Scan where
  fdtmp : FdSets
  i : ℕ
  inCallback : Bool

structure ListenerState where
  fdArray : List (Option FD)
  fdArraySize : ℕ
  nfds : ℕ
  maxfd : ℤ
  fdsets : FdSets
  scan : Option Scan

def ListenerState.initial : ListenerState where
  fdArray := []
  fdArraySize := 0
  nfds := 0
  maxfd := 0
  fdsets := fun _ _ => false
  scan := none

/-- The events that are left of an entry's when those of the mask are taken. -/
def eventsLeft (events : BitVec 16) (when : BitVec 32) : BitVec 32 := events.signExtend 32 &&& ~~~ when

def removeFrom (fd : ℤ) (when : BitVec 32) (e : FD) : Option FD :=
  if e.fd = fd then
    if eventsLeft e.events when = 0 then none else some { e with events := (eventsLeft e.events when).setWidth 16 }
  else some e

/-- The loop over the cells from `i` on; what is left is moved down to `j`. -/
def removeLoop (fd : ℤ) (when : BitVec 32) : ℕ → ℕ → ℕ → ℤ → List (Option FD) → Option (List (Option FD) × ℕ × ℤ)
  | 0,_,j,maxfd,cells => some (cells,j,maxfd)
  | n + 1,i,j,maxfd,cells =>
    match cells[i]? with
    | some (some e) =>
      match removeFrom fd when e with
      | none => removeLoop fd when n (i + 1) j maxfd cells
      | some e => removeLoop fd when n (i + 1) (j + 1) (max maxfd e.fd) ((cells.set i (some e)).set j (some e))
    | _ => none

def listenerRemoveFd (s : ListenerState) (fd : ℤ) (when : BitVec 32) : Option ListenerState := do
  let (cells,j,maxfd) ← removeLoop fd when s.fdArraySize 0 0 (-1) s.fdArray
  let fdsets ← changeSets false s.fdsets fd when
  some { s with fdArray := cells, fdArraySize := j, maxfd, fdsets }

/-- `malloc` or `realloc`: what a smaller block does not hold is lost, and what a larger one
holds in addition has no content. -/
def resize (cells : List (Option FD)) (size : ℕ) : List (Option FD) :=
  cells.take size ++ List.replicate (size - cells.length) none

def listenerAddFd (s : ListenerState) (fd : ℤ) (when : BitVec 32) (cb arg : ℕ) : Option ListenerState := do
  let s ← listenerRemoveFd s fd when
  let i := s.nfds
  let s := { s with nfds := s.nfds + 1 }
  let s := if i ≥ s.fdArraySize then
      { s with fdArraySize := 2 * s.fdArraySize + 1, fdArray := resize s.fdArray (2 * s.fdArraySize + 1) }
    else s
  if i < s.fdArray.length then do
    let fdsets ← changeSets true s.fdsets fd when
    some { s with fdArray := s.fdArray.set i (some ⟨fd,when.setWidth 16,cb,arg⟩), fdsets, maxfd := max s.maxfd fd }
  else none

def readyOf (sets : FdSets) (maxfd : ℤ) (ready : FdSets) : FdSets := fun k a =>
  sets k a && ready k a && decide ((a : ℤ) ≤ maxfd)

/-- `select` looks at as many descriptors as it is told, for which the sets must have place; it
leaves those that are ready, or fails. -/
def select (nfds : ℤ) (sets : FdSets) (ready : Option FdSets) : Option (Option FdSets) :=
  if nfds ≤ fdSetSize then some (ready.map (readyOf sets (nfds - 1))) else none

/-- The wait starts its loop unless `select` fails, or finds nothing. -/
def startWait (s : ListenerState) (ready : Option FdSets) : Option ListenerState :=
  (select (s.maxfd + 1) s.fdsets ready).map fun
    | none => s
    | some fdtmp => if ∃ k a, fdtmp k a then { s with scan := some ⟨fdtmp,0,false⟩ } else s

/-- An entry is called if the sets hold one of its events. -/
def calls (fdtmp : FdSets) (e : FD) : Option Bool :=
  (slot e.fd).map (fun a => decide (∃ k, fdtmp k a ∧ mentions e.events k))

def scanEntry (s : ListenerState) (sc : Scan) : Option (ListenerState × Option FD) :=
  if sc.i < s.fdArraySize then
    match s.fdArray[sc.i]? with
    | some (some e) => (calls sc.fdtmp e).map fun called =>
      if called then ({ s with scan := some { sc with inCallback := true } },some e)
      else ({ s with scan := some { sc with i := sc.i + 1 } },none)
    | _ => none
  else some ({ s with scan := none },none)

/-! ## The loop that takes events away -/

def Filled (cells : List (Option FD)) (entries : List FD) : Prop := cells.take entries.length = entries.map some

theorem Filled.length_le {cells : List (Option FD)} {entries : List FD} (h : Filled cells entries) :
    entries.length ≤ cells.length := by
  have hlen := congrArg List.length h
  rw [List.length_take,List.length_map] at hlen
  omega

def highest (maxfd : ℤ) (entries : List FD) : ℤ := entries.foldl (fun m e => max m e.fd) maxfd

theorem removeLoop_spec (fd : ℤ) (when : BitVec 32) {cells : List (Option FD)} {done rest : List FD} {i : ℕ}
    (maxfd : ℤ) (hdone : Filled cells done) (hi : done.length ≤ i)
    (hrest : (cells.drop i).take rest.length = rest.map some) :
    ∃ cells', removeLoop fd when rest.length i done.length maxfd cells =
        some (cells',(done ++ rest.filterMap (removeFrom fd when)).length,
          highest maxfd (rest.filterMap (removeFrom fd when))) ∧
      cells'.length = cells.length ∧ Filled cells' (done ++ rest.filterMap (removeFrom fd when)) := by
  induction rest generalizing done i maxfd cells with
  | nil =>
    rw [List.filterMap_nil,List.append_nil]
    exact ⟨cells,rfl,rfl,hdone⟩
  | cons e rest ih =>
    have hcell : cells[i]? = some (some e) := by
      have hhead := congrArg (fun l => l[0]?) hrest
      simpa using hhead
    have hlt : i < cells.length := (List.getElem?_eq_some_iff.mp hcell).1
    have htail : (cells.drop (i + 1)).take rest.length = rest.map some := by
      have hdrop := hrest
      rw [List.drop_eq_getElem_cons hlt,List.length_cons,List.take_succ_cons,List.map_cons] at hdrop
      exact (List.cons.inj hdrop).2
    rw [List.length_cons,removeLoop,hcell]
    dsimp only
    cases hkept : removeFrom fd when e with
    | none =>
      rw [List.filterMap_cons_none hkept]
      exact ih maxfd hdone (Nat.le_succ_of_le hi) htail
    | some e' =>
      rw [List.filterMap_cons_some hkept]
      have hfilled : Filled ((cells.set i (some e')).set done.length (some e')) (done ++ [e']) := by
        have hj : done.length < (cells.set i (some e')).length := by
          rw [List.length_set]
          omega
        rw [Filled,List.length_append,List.length_singleton,List.map_append,← hdone,
          List.take_add_one,List.take_set_of_le (Nat.le_refl _),List.take_set_of_le hi,List.getElem?_set_self hj]
        rfl
      have hlen : (done ++ [e']).length = done.length + 1 := by simp
      have hafter : (((cells.set i (some e')).set done.length (some e')).drop (i + 1)).take rest.length =
          rest.map some := by
        rw [List.drop_set_of_lt (Nat.lt_succ_of_le hi),List.drop_set_of_lt (Nat.lt_succ_self i),htail]
      obtain ⟨cells',heq,hlength,hcells'⟩ := ih (max maxfd e'.fd) hfilled (by omega) hafter
      rw [hlen,List.append_assoc] at heq
      rw [List.append_assoc] at hcells'
      exact ⟨cells',heq,by simpa using hlength,hcells'⟩

/-- In a table whose entries all have content the loop leaves what is left of each. -/
theorem listenerRemoveFd_spec {s : ListenerState} {entries : List FD} (fd : ℤ) (when : BitVec 32)
    (hsize : s.fdArraySize = entries.length) (hfilled : Filled s.fdArray entries) :
    ∃ cells, cells.length = s.fdArray.length ∧ Filled cells (entries.filterMap (removeFrom fd when)) ∧
      listenerRemoveFd s fd when = (changeSets false s.fdsets fd when).map (fun fdsets =>
        { s with
          fdArray := cells
          fdArraySize := (entries.filterMap (removeFrom fd when)).length
          maxfd := highest (-1) (entries.filterMap (removeFrom fd when))
          fdsets }) := by
  obtain ⟨cells,heq,hlen,hcells⟩ := @removeLoop_spec fd when s.fdArray [] entries 0 (-1) rfl (Nat.le_refl 0)
    (by rw [List.drop_zero]; exact hfilled)
  refine ⟨cells,hlen,hcells,?_⟩
  rw [List.length_nil,← hsize,List.nil_append] at heq
  rw [listenerRemoveFd,heq]
  cases changeSets false s.fdsets fd when <;> rfl

end Edelib.Listener
