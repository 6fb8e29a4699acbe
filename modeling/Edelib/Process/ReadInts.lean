import Edelib.Foundation.Bytes
import Edelib.Process.Exec

/-! # Numbers in a pipe

A number is written with as many calls of `write` as it takes, and numbers are read until there are eight bytes or
nothing more comes. What a `read` returns is kept as an unsigned number, and `errno` is looked at whether the call
failed or not.
-/
namespace Edelib.Run
open Foundation

def eintr : ℕ := 4

/-- What a call of `write` does. -/
inductive Write
  | wrote (count : ℕ)
  | failed (errno : ℕ)

/-- What a call of `read` does; one that does not fail leaves an `errno` too. -/
inductive Read
  | given (count errno : ℕ)
  | failed (errno : ℕ)

/-! ## Writing -/

/-- What `write_int` puts into the pipe, and whether it returns after these calls. -/
def writeInt : List Write → List UInt8 → List UInt8 × Bool
  | _, [] => ([],true)
  | [], _ :: _ => ([],false)
  | .failed errno :: writes, buf@(_ :: _) => if errno ≠ eintr then ([],true) else writeInt writes buf
  | .wrote count :: writes, buf@(_ :: _) =>
    let (put,returned) := writeInt writes (buf.drop count)
    (buf.take count ++ put,returned)

def writeInts (order : ByteOrder) : List (BitVec 32 × List Write) → List UInt8
  | [] => []
  | (val,writes) :: calls =>
    let (put,returned) := writeInt writes (order.bytes32 val)
    if returned then put ++ writeInts order calls else put

/-! ## Reading -/

structure IntReader where
  bytes : BitVec 32
  buf : List UInt8
  rest : List UInt8

namespace IntReader

def intRead (s : IntReader) : ℕ := s.bytes.toNat / 4

def fill (s : IntReader) (count : ℕ) : IntReader :=
  { s with
    buf := s.buf.take s.bytes.toNat ++ s.rest.take count ++ s.buf.drop (s.bytes.toNat + count)
    rest := s.rest.drop count }

def after (s : IntReader) (part : BitVec 32) : IntReader ⊕ Bool × IntReader :=
  if part > 0 then
    let s := { s with bytes := s.bytes + part }
    if s.bytes ≥ 8 then .inr (true,s) else .inl s
  else if part = 0 then .inr (true,s)
  else .inr (false,s)

/-- A call of `read` for a number of bytes. It gives none only at the end of the pipe or where none are asked for. -/
def Possible (s : IntReader) (request count : ℕ) : Prop :=
  count ≤ request ∧ count ≤ s.rest.length ∧ (count = 0 → request = 0 ∨ s.rest = [])

instance (s : IntReader) (request count : ℕ) : Decidable (s.Possible request count) :=
  inferInstanceAs (Decidable (_ ∧ _ ∧ _))

/-- A round of the inner loop; there is none for a `read` that is not possible. -/
def step (bufsz : ℕ) (s : IntReader) : Read → Option (IntReader ⊕ Bool × IntReader)
  | .failed errno => some (if errno ≠ eintr then s.after (-1) else .inl s)
  | .given count errno =>
    if s.Possible (4 * bufsz - s.bytes.toNat) count then
      some (if errno ≠ eintr then (s.fill count).after (.ofNat 32 count) else .inl (s.fill count))
    else none

/-- The state after some calls of `read`, or the result if the last of them ends the loop. -/
def run (bufsz : ℕ) : IntReader → List Read → Option (IntReader ⊕ Bool × IntReader)
  | s, [] => some (.inl s)
  | s, r :: reads => (s.step bufsz r).bind (fun
    | .inl s => s.run bufsz reads
    | .inr result => if reads = [] then some (.inr result) else none)

end IntReader

/-- `read_ints` from a pipe with some bytes to a buffer; the bytes end with the pipe. -/
def readInts (bufsz : ℕ) (buf pipe : List UInt8) (reads : List Read) : Option (IntReader ⊕ Bool × IntReader) :=
  IntReader.run bufsz ⟨0,buf,pipe⟩ reads

/-! ## What is received -/

def intBytes (order : ByteOrder) (vals : List (BitVec 32)) : List UInt8 := vals.flatMap order.bytes32

/-- `read_ints` fails if a `read` did; otherwise it has the complete numbers up to its limit or the end of the pipe,
they are those that were written, and what was taken from the pipe is in the buffer. -/
structure Intact (order : ByteOrder) (bufsz : ℕ) (vals : List (BitVec 32)) (pipe : List UInt8) (reads : List Read)
    (ret : Bool) (s : IntReader) : Prop where
  fails : ret = false ↔ ∃ errno, .failed errno ∈ reads ∧ errno ≠ eintr
  count : ret = true → s.intRead = min bufsz (pipe.length / 4)
  ints : ret = true → s.buf.take (4 * s.intRead) = intBytes order (vals.take s.intRead)
  kept : ret = true → s.buf.take s.bytes.toNat ++ s.rest = pipe

def firstReads (reads : ℕ → Read) (k : ℕ) : List Read := (List.range k).map reads

/-- `read_ints` comes to that call of `read`, after which numbers of calls, and is still in its loop. -/
def InLoop (bufsz : ℕ) (buf pipe : List UInt8) (reads : ℕ → Read) (k : ℕ) : Prop :=
  ∃ s, readInts bufsz buf pipe (firstReads reads k) = some (.inl s)

def Answered (bufsz : ℕ) (buf pipe : List UInt8) (reads : ℕ → Read) : Prop :=
  ∀ k s, readInts bufsz buf pipe (firstReads reads k) = some (.inl s) → ∃ next, s.step bufsz (reads k) = some next

/-- `read_ints` returns, and the numbers are intact. -/
def Received (order : ByteOrder) (bufsz : ℕ) (buf : List UInt8) (vals : List (BitVec 32)) (pipe : List UInt8)
    (reads : ℕ → Read) : Prop :=
  ∃ k ret s, readInts bufsz buf pipe (firstReads reads k) = some (.inr (ret,s)) ∧
    Intact order bufsz vals pipe (firstReads reads k) ret s

/-- A call that fails was interrupted, and one that gives bytes does not leave `EINTR`. -/
def Harmless : Read → Prop
  | .failed errno => errno = eintr
  | .given count errno => 0 < count → errno ≠ eintr

instance : DecidablePred Harmless
  | .failed errno => inferInstanceAs (Decidable (errno = eintr))
  | .given count errno => inferInstanceAs (Decidable (0 < count → errno ≠ eintr))

/-- A call that neither fails by an interruption nor leaves `EINTR`: the inner loop ends with it. -/
def Leaves : Read → Bool
  | .failed errno => decide (errno ≠ eintr)
  | .given _ errno => decide (errno ≠ eintr)

/-- Every call that is made is harmless, and it or a later one leaves the inner loop. -/
def Quiet (bufsz : ℕ) (buf pipe : List UInt8) (reads : ℕ → Read) : Prop :=
  ∀ k, InLoop bufsz buf pipe reads k → Harmless (reads k) ∧ ∃ m, k ≤ m ∧ Leaves (reads m) = true

/-- The complete numbers in the pipe, up to the limit, are the first that were written. -/
def Aligned (order : ByteOrder) (bufsz : ℕ) (vals : List (BitVec 32)) (pipe : List UInt8) : Prop :=
  pipe.take (4 * min bufsz (pipe.length / 4)) = intBytes order (vals.take (min bufsz (pipe.length / 4)))

/-! ## Rounds -/

namespace IntReader
variable {bufsz count errno : ℕ} {s s' : IntReader} {ret : Bool} {reads : List Read} {part : BitVec 32}

/-- The result is never `false`: an unsigned number is positive or zero. -/
theorem after_ret (h : s.after part = .inr (ret,s')) : ret = true := by
  rw [after] at h
  by_cases hpos : part > 0
  · rw [if_pos hpos] at h
    dsimp only at h
    split_ifs at h
    cases h
    rfl
  · have hzero : part = 0 := by
      have hnot : ¬ 0 < part.toNat := hpos
      exact BitVec.eq_of_toNat_eq (Nat.le_zero.mp (Nat.not_lt.mp hnot))
    rw [if_neg hpos,if_pos hzero] at h
    cases h
    rfl

theorem run_snoc {r : Read} (s : IntReader) : s.run bufsz (reads ++ [r]) =
    (s.run bufsz reads).bind (fun
      | .inl s => s.step bufsz r
      | .inr _ => none) := by
  induction reads generalizing s with
  | nil =>
    change (s.step bufsz r).bind _ = s.step bufsz r
    cases s.step bufsz r with
    | none => rfl
    | some next => cases next <;> rfl
  | cons r' reads ih =>
    rw [List.cons_append,run,run]
    cases s.step bufsz r' with
    | none => rfl
    | some next =>
      cases next with
      | inl s' => exact ih s'
      | inr result => cases reads <;> rfl

/-- The call that ends the loop leaves the inner one. -/
theorem leaves_of_step {r : Read} {result : Bool × IntReader} (h : s.step bufsz r = some (.inr result)) :
    Leaves r = true := by
  cases r with
  | failed errno =>
    rw [step] at h
    split_ifs at h with herrno
    · exact decide_eq_true herrno
    · cases h
  | given count errno =>
    rw [step] at h
    split_ifs at h with hp herrno
    · exact decide_eq_true herrno
    · cases h

theorem step_ret {r : Read} (h : s.step bufsz r = some (.inr (ret,s'))) : ret = true := by
  cases r with
  | failed errno =>
    rw [step] at h
    split_ifs at h
    · exact after_ret (Option.some.inj h)
    · cases h
  | given count errno =>
    rw [step] at h
    split_ifs at h
    · exact after_ret (Option.some.inj h)
    · cases h

theorem run_ret (h : s.run bufsz reads = some (.inr (ret,s'))) : ret = true := by
  induction reads generalizing s with
  | nil => cases h
  | cons r reads ih =>
    obtain ⟨next,hstep,hnext⟩ := Option.bind_eq_some_iff.mp h
    cases next with
    | inl next => exact ih hnext
    | inr result =>
      dsimp only at hnext
      split_ifs at hnext
      rw [Option.some.inj hnext] at hstep
      exact step_ret hstep

/-- What is in the buffer is inside of it, and the buffer is not longer than eight bytes. -/
structure Room (bufsz : ℕ) (s : IntReader) : Prop where
  short : bufsz ≤ 2
  buf : s.buf.length = 4 * bufsz
  bytes : s.bytes.toNat ≤ 4 * bufsz

theorem Room.possible (h : Room bufsz s) (hp : s.Possible (4 * bufsz - s.bytes.toNat) count) :
    s.bytes.toNat + count ≤ 4 * bufsz := by
  have hroom := h.bytes
  have hcount := hp.1
  omega

theorem Room.length_fill (h : Room bufsz s) (hp : s.Possible (4 * bufsz - s.bytes.toNat) count) :
    (s.fill count).buf.length = 4 * bufsz := by
  have hsum := h.possible hp
  have hbuf := h.buf
  have hrest := hp.2.1
  rw [fill,List.length_append,List.length_append,List.length_take,List.length_take,List.length_drop]
  omega

theorem Room.toNat_add (h : Room bufsz s) (hp : s.Possible (4 * bufsz - s.bytes.toNat) count) :
    (s.bytes + BitVec.ofNat 32 count).toNat = s.bytes.toNat + count := by
  have hsum := h.possible hp
  have hshort := h.short
  rw [BitVec.toNat_add,BitVec.toNat_ofNat]
  omega

def take (s : IntReader) (count : ℕ) : IntReader :=
  { s.fill count with bytes := s.bytes + .ofNat 32 count }

theorem Room.fill (h : Room bufsz s) (hp : s.Possible (4 * bufsz - s.bytes.toNat) count) : Room bufsz (s.fill count) :=
  ⟨h.short,h.length_fill hp,h.bytes⟩

theorem Room.take (h : Room bufsz s) (hp : s.Possible (4 * bufsz - s.bytes.toNat) count) : Room bufsz (s.take count) :=
  ⟨h.short,h.length_fill hp,(h.toNat_add hp).trans_le (h.possible hp)⟩

/-- What a round does where no `read` fails for another reason than an interruption. -/
theorem step_cases {r : Read} {next : IntReader ⊕ Bool × IntReader} (h : Room bufsz s)
    (hr : ∀ errno, r = .failed errno → errno = eintr) (hstep : s.step bufsz r = some next) :
    (r = .failed eintr ∧ next = .inl s) ∨
    ∃ count errno, r = .given count errno ∧ s.Possible (4 * bufsz - s.bytes.toNat) count ∧
      ((errno = eintr ∧ next = .inl (s.fill count)) ∨
      (errno ≠ eintr ∧ 0 < count ∧ (s.take count).bytes.toNat < 8 ∧ next = .inl (s.take count)) ∨
      (errno ≠ eintr ∧ 0 < count ∧ 8 ≤ (s.take count).bytes.toNat ∧ next = .inr (true,s.take count)) ∨
      (errno ≠ eintr ∧ count = 0 ∧ next = .inr (true,s.fill 0))) := by
  cases r with
  | failed errno =>
    obtain rfl := hr errno rfl
    rw [step,if_neg (not_not.mpr rfl)] at hstep
    exact .inl ⟨rfl,(Option.some.inj hstep).symm⟩
  | given count errno =>
    right
    rw [step] at hstep
    split_ifs at hstep with hp herrno
    · refine ⟨count,errno,rfl,hp,.inr ?_⟩
      have hsum := h.possible hp
      have hshort := h.short
      have hcount : (BitVec.ofNat 32 count).toNat = count := by
        rw [BitVec.toNat_ofNat]
        omega
      obtain rfl := Option.some.inj hstep
      by_cases hpos : 0 < count
      · have hgt : BitVec.ofNat 32 count > 0 := by
          change 0 < (BitVec.ofNat 32 count).toNat
          omega
        rw [after,if_pos hgt]
        by_cases hlast : 8 ≤ (s.take count).bytes.toNat
        · exact .inr (.inl ⟨herrno,hpos,hlast,if_pos hlast⟩)
        · exact .inl ⟨herrno,hpos,by omega,if_neg hlast⟩
      · obtain rfl : count = 0 := by omega
        exact .inr (.inr ⟨herrno,rfl,rfl⟩)
    · refine ⟨count,errno,rfl,hp,.inl ⟨not_not.mp herrno,(Option.some.inj hstep).symm⟩⟩

/-! ## Runs -/

def lost : Read → ℕ
  | .failed _ => 0
  | .given count errno => if errno = eintr then count else 0

theorem length_rest (hp : s.Possible (4 * bufsz - s.bytes.toNat) count) :
    count + (s.fill count).rest.length = s.rest.length := by
  have hcount := hp.2.1
  rw [fill,List.length_drop]
  omega

/-- Where none fails, what was taken from the pipe is counted or lost. -/
theorem run_length (h : Room bufsz s) (hr : ∀ errno, .failed errno ∈ reads → errno = eintr)
    (hrun : s.run bufsz reads = some (.inr (ret,s'))) :
    s'.bytes.toNat + s'.rest.length + (reads.map lost).sum = s.bytes.toNat + s.rest.length := by
  induction reads generalizing s with
  | nil => cases hrun
  | cons r reads ih =>
    obtain ⟨next,hstep,hnext⟩ := Option.bind_eq_some_iff.mp hrun
    have hr' : ∀ errno, .failed errno ∈ reads → errno = eintr := fun e he => hr e (List.mem_cons_of_mem _ he)
    rw [List.map_cons,List.sum_cons]
    obtain ⟨rfl,rfl⟩ | ⟨count,errno,rfl,hp,hcases⟩ :=
      step_cases h (fun e he => hr e (by rw [he]; exact List.mem_cons_self)) hstep
    · have hrest := ih h hr' hnext
      rw [lost]
      omega
    · have hlength := length_rest hp
      have hbytes := h.toNat_add hp
      obtain ⟨rfl,rfl⟩ | ⟨herrno,hpos,hshort,rfl⟩ | ⟨herrno,hpos,hlong,rfl⟩ | ⟨herrno,rfl,rfl⟩ := hcases
      · have hrest := ih (h.fill hp) hr' hnext
        have hsame : (s.fill count).bytes = s.bytes := rfl
        rw [hsame] at hrest
        rw [lost,if_pos rfl]
        omega
      · have hrest := ih (h.take hp) hr' hnext
        have hsame : (s.take count).rest = (s.fill count).rest := rfl
        have hadd : (s.take count).bytes.toNat = s.bytes.toNat + count := hbytes
        rw [hsame] at hrest
        rw [lost,if_neg herrno]
        omega
      all_goals
        dsimp only at hnext
        split_ifs at hnext with hnil
        cases hnext
        rw [hnil,lost,if_neg herrno,List.map_nil,List.sum_nil]
      · change (s.bytes + BitVec.ofNat 32 count).toNat + (s.fill count).rest.length + _ = _
        omega
      · change s.bytes.toNat + (s.fill 0).rest.length + _ = _
        omega

def Kept (pipe : List UInt8) (s : IntReader) : Prop := s.buf.take s.bytes.toNat ++ s.rest = pipe

variable {pipe : List UInt8}

theorem fill_zero (s : IntReader) : s.fill 0 = s := by
  rw [fill,List.take_zero,List.append_nil,Nat.add_zero,List.take_append_drop,List.drop_zero]

theorem Kept.take (hkept : s.Kept pipe) (h : Room bufsz s) (hp : s.Possible (4 * bufsz - s.bytes.toNat) count) :
    (s.take count).Kept pipe := by
  have hbytes : (s.take count).bytes.toNat = s.bytes.toNat + count := h.toNat_add hp
  have hbuf : (s.take count).buf = (s.buf.take s.bytes.toNat ++ s.rest.take count) ++ s.buf.drop (s.bytes.toNat + count) := rfl
  have hlength : (s.buf.take s.bytes.toNat ++ s.rest.take count).length = s.bytes.toNat + count := by
    have hroom := h.buf
    have hle := h.bytes
    have hrest := hp.2.1
    rw [List.length_append,List.length_take,List.length_take]
    omega
  have hrest : (s.take count).rest = s.rest.drop count := rfl
  rw [Kept,hbytes,hbuf,List.take_left' hlength,hrest,List.append_assoc,List.take_append_drop]
  exact hkept

theorem Kept.length (hkept : s.Kept pipe) (h : Room bufsz s) : s.bytes.toNat + s.rest.length = pipe.length := by
  have hlength := congrArg List.length hkept
  have hroom := h.buf
  have hle := h.bytes
  rw [List.length_append,List.length_take] at hlength
  omega

/-- A harmless call is taken back, or takes its bytes to the next round or out of the loop. -/
theorem step_cases_of_harmless {r : Read} {next : IntReader ⊕ Bool × IntReader} (h : Room bufsz s) (hr : Harmless r)
    (hstep : s.step bufsz r = some next) :
    (Leaves r = false ∧ next = .inl s) ∨
    ∃ count errno, r = .given count errno ∧ errno ≠ eintr ∧ s.Possible (4 * bufsz - s.bytes.toNat) count ∧
      ((0 < count ∧ (s.take count).bytes.toNat < 8 ∧ next = .inl (s.take count)) ∨
      (0 < count ∧ 8 ≤ (s.take count).bytes.toNat ∧ next = .inr (true,s.take count)) ∨
      (count = 0 ∧ next = .inr (true,s))) := by
  have hfailed : ∀ errno, r = .failed errno → errno = eintr := by
    rintro errno rfl
    exact hr
  obtain ⟨rfl,rfl⟩ | ⟨count,errno,rfl,hp,hcases⟩ := step_cases h hfailed hstep
  · exact .inl ⟨by decide,rfl⟩
  · obtain ⟨rfl,rfl⟩ | ⟨herrno,hpos,hshort,rfl⟩ | ⟨herrno,hpos,hlong,rfl⟩ | ⟨herrno,rfl,rfl⟩ := hcases
    · obtain rfl : count = 0 := Nat.eq_zero_of_not_pos (fun hpos => hr hpos rfl)
      exact .inl ⟨by rw [Leaves]; decide,by rw [fill_zero]⟩
    · exact .inr ⟨count,errno,rfl,herrno,hp,.inl ⟨hpos,hshort,rfl⟩⟩
    · exact .inr ⟨count,errno,rfl,herrno,hp,.inr (.inl ⟨hpos,hlong,rfl⟩)⟩
    · exact .inr ⟨0,errno,rfl,herrno,hp,.inr (.inr ⟨rfl,by rw [fill_zero]⟩)⟩

/-- Harmless calls keep what they take, and the loop ends at the limit or at the end of the pipe. -/
theorem run_kept (h : Room bufsz s) (hkept : s.Kept pipe) (hr : ∀ r ∈ reads, Harmless r)
    (hrun : s.run bufsz reads = some (.inr (ret,s'))) :
    Room bufsz s' ∧ s'.Kept pipe ∧ s'.bytes.toNat = min (4 * bufsz) pipe.length := by
  induction reads generalizing s with
  | nil => cases hrun
  | cons r reads ih =>
    obtain ⟨next,hstep,hnext⟩ := Option.bind_eq_some_iff.mp hrun
    obtain ⟨hharmless,hr'⟩ := List.forall_mem_cons.mp hr
    obtain ⟨-,rfl⟩ | ⟨count,errno,rfl,herrno,hp,hcases⟩ := step_cases_of_harmless h hharmless hstep
    · exact ih h hkept hr' hnext
    · obtain ⟨hpos,hshort,rfl⟩ | ⟨hpos,hlong,rfl⟩ | ⟨rfl,rfl⟩ := hcases
      · exact ih (h.take hp) (hkept.take h hp) hr' hnext
      all_goals
        dsimp only at hnext
        split_ifs at hnext with hnil
        cases hnext
      · have hroom := (h.take hp).bytes
        have hlength := (hkept.take h hp).length (h.take hp)
        have hshort := h.short
        exact ⟨h.take hp,hkept.take h hp,by omega⟩
      · have hlength := hkept.length h
        have hroom := h.bytes
        refine ⟨h,hkept,?_⟩
        obtain hrequest | hrest := hp.2.2 rfl
        · omega
        · rw [hrest,List.length_nil] at hlength
          omega

/-- While the loop goes on there is a byte for each such call. -/
theorem run_goes_on (h : Room bufsz s) (hr : ∀ r ∈ reads, Harmless r) (hstart : s.bytes.toNat < 8)
    (hrun : s.run bufsz reads = some (.inl s')) : s.bytes.toNat + reads.countP Leaves < 8 := by
  induction reads generalizing s with
  | nil => simpa using hstart
  | cons r reads ih =>
    obtain ⟨next,hstep,hnext⟩ := Option.bind_eq_some_iff.mp hrun
    obtain ⟨hharmless,hr'⟩ := List.forall_mem_cons.mp hr
    obtain ⟨hleaves,rfl⟩ | ⟨count,errno,rfl,herrno,hp,hcases⟩ := step_cases_of_harmless h hharmless hstep
    · rw [List.countP_cons_of_neg (Bool.not_eq_true _ ▸ hleaves)]
      exact ih h hr' hstart hnext
    · obtain ⟨hpos,hshort,rfl⟩ | ⟨hpos,hlong,rfl⟩ | ⟨rfl,rfl⟩ := hcases
      · have hrest := ih (h.take hp) hr' hshort hnext
        have hbytes : (s.take count).bytes.toNat = s.bytes.toNat + count := h.toNat_add hp
        rw [List.countP_cons_of_pos (by rw [Leaves]; exact decide_eq_true herrno)]
        omega
      all_goals
        dsimp only at hnext
        split_ifs at hnext
        cases hnext

end IntReader

/-! ## What is written -/

section Written
variable {order : ByteOrder} {writes : List Write} {buf : List UInt8} {calls : List (BitVec 32 × List Write)}

/-- A call of `write_int` that does not fail puts the first of its bytes into the pipe, and all if it returns. -/
theorem writeInt_put (h : ∀ errno, .failed errno ∈ writes → errno = eintr) :
    ∃ rest, (writeInt writes buf).1 ++ rest = buf ∧ ((writeInt writes buf).2 = true → rest = []) := by
  induction writes generalizing buf with
  | nil =>
    cases buf with
    | nil => exact ⟨[],rfl,fun _ => rfl⟩
    | cons b buf => exact ⟨b :: buf,rfl,fun hf => absurd hf Bool.false_ne_true⟩
  | cons w writes ih =>
    have h' : ∀ errno, .failed errno ∈ writes → errno = eintr := fun e he => h e (List.mem_cons_of_mem _ he)
    cases buf with
    | nil => exact ⟨[],rfl,fun _ => rfl⟩
    | cons b buf =>
      cases w with
      | failed errno =>
        rw [writeInt,if_neg (not_not.mpr (h errno List.mem_cons_self))]
        exact ih h'
      | wrote count =>
        obtain ⟨rest,hput,hreturned⟩ := @ih ((b :: buf).drop count) h'
        refine ⟨rest,?_,hreturned⟩
        rw [writeInt]
        dsimp only
        rw [List.append_assoc,hput,List.take_append_drop]

theorem writeInts_begins (h : ∀ c ∈ calls, ∀ errno, .failed errno ∈ c.2 → errno = eintr) :
    writeInts order calls <+: intBytes order (calls.map Prod.fst) := by
  induction calls with
  | nil => exact List.prefix_rfl
  | cons call calls ih =>
    obtain ⟨hcall,hcalls⟩ := List.forall_mem_cons.mp h
    obtain ⟨val,writes⟩ := call
    obtain ⟨rest,hput,hreturned⟩ := @writeInt_put writes (order.bytes32 val) hcall
    rw [writeInts,List.map_cons,intBytes,List.flatMap_cons]
    dsimp only
    split_ifs with hret
    · rw [hreturned hret,List.append_nil] at hput
      rw [hput]
      exact (List.prefix_append_right_inj _).mpr (ih hcalls)
    · refine ⟨rest ++ calls.flatMap (fun c => order.bytes32 c.1),?_⟩
      rw [← List.append_assoc,hput,List.flatMap_map]

theorem length_intBytes (order : ByteOrder) (vals : List (BitVec 32)) :
    (intBytes order vals).length = 4 * vals.length := by
  induction vals with
  | nil => rfl
  | cons val vals ih =>
    have hval : (order.bytes32 val).length = 4 := by
      cases order <;> rfl
    rw [intBytes,List.flatMap_cons,List.length_append,hval,List.length_cons]
    rw [intBytes] at ih
    omega

/-- The first numbers are in the first bytes. -/
theorem take_intBytes {vals : List (BitVec 32)} {k : ℕ} (h : k ≤ vals.length) :
    (intBytes order vals).take (4 * k) = intBytes order (vals.take k) := by
  have hsplit : intBytes order vals = intBytes order (vals.take k) ++ intBytes order (vals.drop k) := by
    rw [intBytes,intBytes,intBytes,← List.flatMap_append,List.take_append_drop]
  have hlength : (intBytes order (vals.take k)).length = 4 * k := by
    rw [length_intBytes,List.length_take,Nat.min_eq_left h]
  rw [hsplit,List.take_left' hlength]

/-- Where no call of `write_int` fails the pipe is aligned. -/
theorem aligned_of_writes (bufsz : ℕ) (h : ∀ c ∈ calls, ∀ errno, .failed errno ∈ c.2 → errno = eintr) :
    Aligned order bufsz (calls.map Prod.fst) (writeInts order calls) := by
  obtain ⟨rest,hrest⟩ := @writeInts_begins order calls h
  have hlength := congrArg List.length hrest
  rw [List.length_append,length_intBytes] at hlength
  rw [Aligned,← take_intBytes (by omega),← hrest,List.take_append_of_le_length (by omega)]

end Written

/-! ## Numbers that are received -/

section Received
variable {order : ByteOrder} {bufsz : ℕ} {vals : List (BitVec 32)} {buf pipe : List UInt8} {reads : List Read}
  {ret : Bool} {s : IntReader}

theorem room_start (hsz : bufsz = 1 ∨ bufsz = 2) (hbuf : buf.length = 4 * bufsz) :
    IntReader.Room bufsz ⟨0,buf,pipe⟩ := by
  refine ⟨by omega,hbuf,?_⟩
  change 0 ≤ _
  omega

/-- A call that returns gives what was written if and only if its reads are harmless and the pipe is aligned. -/
theorem intact_iff (hsz : bufsz = 1 ∨ bufsz = 2) (hbuf : buf.length = 4 * bufsz)
    (h : readInts bufsz buf pipe reads = some (.inr (ret,s))) :
    Intact order bufsz vals pipe reads ret s ↔ (∀ r ∈ reads, Harmless r) ∧ Aligned order bufsz vals pipe := by
  have hroom := @room_start bufsz buf pipe hsz hbuf
  obtain rfl := IntReader.run_ret h
  constructor
  · rintro ⟨hfails,hcount,hints,hkept⟩
    have hnone : ∀ errno, .failed errno ∈ reads → errno = eintr := by
      intro errno hmem
      by_contra herrno
      exact Bool.false_ne_true (hfails.mpr ⟨errno,hmem,herrno⟩).symm
    have hlength := IntReader.run_length hroom hnone h
    have hpipe := congrArg List.length (hkept rfl)
    rw [List.length_append,List.length_take] at hpipe
    change s.bytes.toNat + s.rest.length + _ = 0 + pipe.length at hlength
    have hlost : (reads.map IntReader.lost).sum = 0 := by omega
    constructor
    · intro r hr
      cases r with
      | failed errno => exact hnone errno hr
      | given count errno =>
        rintro hpos rfl
        have hzero := List.sum_eq_zero_iff_forall_eq_nat.mp hlost _ (List.mem_map_of_mem hr)
        rw [IntReader.lost,if_pos rfl] at hzero
        omega
    · have hk := hcount rfl
      have hint := hints rfl
      have hbytes : 4 * s.intRead ≤ s.bytes.toNat := Nat.mul_div_le s.bytes.toNat 4
      rw [Aligned,← hk,← hint]
      conv_lhs => rw [← hkept rfl]
      rw [List.take_append_of_le_length (by rw [List.length_take]; omega),List.take_take,Nat.min_eq_left hbytes]
  · rintro ⟨hharmless,haligned⟩
    obtain ⟨hroom',hkept,hbytes⟩ := IntReader.run_kept hroom (List.nil_append pipe) hharmless h
    have hk : s.intRead = min bufsz (pipe.length / 4) := by
      rw [IntReader.intRead,hbytes]
      omega
    refine ⟨?_,fun _ => hk,fun _ => ?_,fun _ => hkept⟩
    · refine iff_of_false (Bool.false_ne_true ∘ Eq.symm) ?_
      rintro ⟨errno,hmem,herrno⟩
      exact herrno (hharmless _ hmem)
    · have hle : 4 * s.intRead ≤ s.bytes.toNat := Nat.mul_div_le s.bytes.toNat 4
      have hbuf' := hroom'.buf
      have hlimit := hroom'.bytes
      rw [Aligned,← hk] at haligned
      rw [← haligned]
      conv_rhs => rw [← hkept]
      rw [List.take_append_of_le_length (by rw [List.length_take]; omega),List.take_take,Nat.min_eq_left hle]

end Received

/-! ## The call as a whole -/

section Whole
variable {order : ByteOrder} {bufsz k : ℕ} {vals : List (BitVec 32)} {buf pipe : List UInt8} {reads : ℕ → Read}

theorem firstReads_succ (reads : ℕ → Read) (k : ℕ) : firstReads reads (k + 1) = firstReads reads k ++ [reads k] := by
  rw [firstReads,List.range_succ,List.map_append]
  rfl

theorem readInts_succ : readInts bufsz buf pipe (firstReads reads (k + 1)) =
    (readInts bufsz buf pipe (firstReads reads k)).bind (fun
      | .inl s => s.step bufsz (reads k)
      | .inr _ => none) := by
  rw [firstReads_succ]
  exact IntReader.run_snoc _

/-- A call of `read` is made while none before it has ended the loop. -/
theorem inLoop_of_le {j : ℕ} (hle : j ≤ k) (h : InLoop bufsz buf pipe reads k) : InLoop bufsz buf pipe reads j := by
  induction k with
  | zero => exact Nat.le_zero.mp hle ▸ h
  | succ k ih =>
    rcases Nat.lt_or_eq_of_le hle with hlt | rfl
    · refine ih (Nat.le_of_lt_succ hlt) ?_
      obtain ⟨s,hs⟩ := h
      rw [readInts_succ] at hs
      obtain ⟨next,hnext,hstep⟩ := Option.bind_eq_some_iff.mp hs
      cases next with
      | inl s' => exact ⟨s',hnext⟩
      | inr result => cases hstep
    · exact h

/-- The calls before the one that ends the loop are made. -/
theorem inLoop_of_result {j : ℕ} {result : Bool × IntReader}
    (h : readInts bufsz buf pipe (firstReads reads k) = some (.inr result)) (hj : j < k) :
    InLoop bufsz buf pipe reads j ∧ Leaves (reads (k - 1)) = true := by
  obtain ⟨k,rfl⟩ : ∃ n, k = n + 1 := ⟨k - 1,by omega⟩
  rw [readInts_succ] at h
  obtain ⟨next,hnext,hstep⟩ := Option.bind_eq_some_iff.mp h
  cases next with
  | inl s => exact ⟨inLoop_of_le (Nat.le_of_lt_succ hj) ⟨s,hnext⟩,IntReader.leaves_of_step hstep⟩
  | inr result => cases hstep

theorem mem_firstReads {r : Read} : r ∈ firstReads reads k ↔ ∃ j, j < k ∧ reads j = r := by
  simp [firstReads]

/-- Calls that go on to leave the inner loop do so any number of times. -/
theorem exists_countP_leaves (h : ∀ k, ∃ m, k ≤ m ∧ Leaves (reads m) = true) (n : ℕ) :
    ∃ k, n ≤ (firstReads reads k).countP Leaves := by
  induction n with
  | zero => exact ⟨0,Nat.zero_le _⟩
  | succ n ih =>
    obtain ⟨k,hk⟩ := ih
    obtain ⟨m,hle,hm⟩ := h k
    refine ⟨m + 1,?_⟩
    have hmore : (firstReads reads k).countP Leaves ≤ (firstReads reads m).countP Leaves :=
      ((List.range_sublist.mpr hle).map reads).countP_le
    rw [firstReads_succ,List.countP_append,List.countP_cons_of_pos hm]
    omega

/-- The loop is left by the eighth harmless call that leaves the inner one. -/
theorem returns_of_quiet (hsz : bufsz = 1 ∨ bufsz = 2) (hbuf : buf.length = 4 * bufsz)
    (hanswered : Answered bufsz buf pipe reads) (hquiet : Quiet bufsz buf pipe reads) :
    ∃ k result, readInts bufsz buf pipe (firstReads reads k) = some (.inr result) := by
  by_contra hnever
  have hloop : ∀ k, InLoop bufsz buf pipe reads k := by
    intro k
    induction k with
    | zero => exact ⟨_,rfl⟩
    | succ k ih =>
      obtain ⟨s,hs⟩ := ih
      obtain ⟨next,hnext⟩ := hanswered k s hs
      have hstep : readInts bufsz buf pipe (firstReads reads (k + 1)) = some next := by
        rw [readInts_succ,hs]
        exact hnext
      cases next with
      | inl s' => exact ⟨s',hstep⟩
      | inr result => exact absurd ⟨k + 1,result,hstep⟩ hnever
  obtain ⟨k,hk⟩ := exists_countP_leaves (fun k => (hquiet k (hloop k)).2) 8
  obtain ⟨s,hs⟩ := hloop k
  have hharmless : ∀ r ∈ firstReads reads k, Harmless r := by
    intro r hr
    obtain ⟨j,-,rfl⟩ := mem_firstReads.mp hr
    exact (hquiet j (hloop j)).1
  have hgoes := IntReader.run_goes_on (room_start hsz hbuf) hharmless (Nat.succ_pos 7) hs
  change 0 + _ < 8 at hgoes
  omega

theorem received_iff (hsz : bufsz = 1 ∨ bufsz = 2) (hbuf : buf.length = 4 * bufsz)
    (hanswered : Answered bufsz buf pipe reads) :
    Received order bufsz buf vals pipe reads ↔ Quiet bufsz buf pipe reads ∧ Aligned order bufsz vals pipe := by
  constructor
  · rintro ⟨k,ret,s,hresult,hintact⟩
    obtain ⟨hharmless,haligned⟩ := (intact_iff hsz hbuf hresult).mp hintact
    refine ⟨fun j hj => ?_,haligned⟩
    have hlt : j < k := by
      by_contra hle
      obtain ⟨s',hs'⟩ := inLoop_of_le (Nat.not_lt.mp hle) hj
      rw [hresult] at hs'
      cases hs'
    exact ⟨hharmless _ (mem_firstReads.mpr ⟨j,hlt,rfl⟩),k - 1,by omega,(inLoop_of_result hresult hlt).2⟩
  · rintro ⟨hquiet,haligned⟩
    obtain ⟨k,⟨ret,s⟩,hresult⟩ := returns_of_quiet hsz hbuf hanswered hquiet
    refine ⟨k,ret,s,hresult,(intact_iff hsz hbuf hresult).mpr ⟨fun r hr => ?_,haligned⟩⟩
    obtain ⟨j,hj,rfl⟩ := mem_firstReads.mp hr
    exact (hquiet j (inLoop_of_result hresult hj).1).1

end Whole

/-- The call returns, and numbers are received as they were written, if and only if no `read` that is made fails but
by an interruption, none that gives bytes leaves `EINTR`, not all calls from some time on are interrupted or leave
`EINTR`, and the pipe is aligned, as it is where no `write` fails but by an interruption. -/
theorem readInts_iff (order : ByteOrder) (bufsz : ℕ) (hsz : bufsz = 1 ∨ bufsz = 2) (buf : List UInt8)
    (hbuf : buf.length = 4 * bufsz) (calls : List (BitVec 32 × List Write)) (reads : ℕ → Read)
    (hanswered : Answered bufsz buf (writeInts order calls) reads) :
    (Received order bufsz buf (calls.map Prod.fst) (writeInts order calls) reads ↔
      Quiet bufsz buf (writeInts order calls) reads ∧
        Aligned order bufsz (calls.map Prod.fst) (writeInts order calls)) ∧
    ((∀ c ∈ calls, ∀ errno, .failed errno ∈ c.2 → errno = eintr) →
      Aligned order bufsz (calls.map Prod.fst) (writeInts order calls)) :=
  ⟨received_iff hsz hbuf hanswered,aligned_of_writes bufsz⟩

/-- An interrupted call, one that gives a number, and the end of the pipe. -/
def sampleReads : ℕ → Read
  | 0 => .failed 4
  | 1 => .given 4 0
  | _ => .given 0 0

theorem sampleReads_inLoop {k : ℕ} (h : InLoop 1 [0,0,0,0] [7,0,0,0] sampleReads k) : k < 3 := by
  by_contra hle
  obtain ⟨s,hs⟩ := inLoop_of_le (Nat.not_lt.mp hle) h
  cases hs

theorem readInts_iff_one : Received .lsbFirst 1 [0,0,0,0] [7] [7,0,0,0] sampleReads := by
  refine (readInts_iff .lsbFirst 1 (.inl rfl) [0,0,0,0] rfl [(7,[.wrote 4])] sampleReads ?_).1.mpr ⟨?_,rfl⟩
  · intro k s hs
    have hk := sampleReads_inLoop ⟨s,hs⟩
    obtain rfl | rfl | rfl : k = 0 ∨ k = 1 ∨ k = 2 := by omega
    all_goals
      cases hs
      exact ⟨_,rfl⟩
  · intro k hloop
    have hk := sampleReads_inLoop hloop
    refine ⟨?_,2,by omega,rfl⟩
    obtain rfl | rfl | rfl : k = 0 ∨ k = 1 ∨ k = 2 := by omega
    all_goals decide

/-- Where the first `read` fails with another error the call does not say so. -/
theorem not_readInts : ¬ ∀ (order : ByteOrder) (bufsz : ℕ), (bufsz = 1 ∨ bufsz = 2) → ∀ buf : List UInt8,
    buf.length = 4 * bufsz → ∀ (calls : List (BitVec 32 × List Write)) (reads : ℕ → Read),
    Answered bufsz buf (writeInts order calls) reads →
      Received order bufsz buf (calls.map Prod.fst) (writeInts order calls) reads := by
  intro h
  have hanswered : Answered 1 [0,0,0,0] (writeInts .lsbFirst [(7,[.wrote 4])]) (fun _ => .failed 5) :=
    fun _ _ _ => ⟨_,rfl⟩
  obtain ⟨k,ret,s,hresult,hintact⟩ := h .lsbFirst 1 (.inl rfl) [0,0,0,0] rfl _ _ hanswered
  cases k with
  | zero => cases hresult
  | succ k =>
    have hfails := hintact.fails.mpr ⟨5,mem_firstReads.mpr ⟨0,Nat.succ_pos k,rfl⟩,by decide⟩
    have hret := IntReader.run_ret hresult
    exact Bool.false_ne_true (hfails.symm.trans hret)

end Edelib.Run
