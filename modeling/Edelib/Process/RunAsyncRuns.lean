import Edelib.Process.RunAsync

/-! # What a call without waiting reports

As long as nothing is disturbed the first pipe holds the number of the grandchild alone, and
the second nothing or two numbers. Every other call goes wrong in one order of steps at least.
-/
namespace Edelib.Run
open Foundation AsyncState
variable {env : AsyncEnv}

theorem execCmd_eq_crashed {env : ExecEnv} {cmd : CString} : execCmd env cmd = .crashed ↔ cmdSplit cmd = [] := by
  have hsearch : ∀ (args names : List CString) (errno : ℕ), searchPath env args errno names ≠ .crashed := by
    intro args names
    induction names with
    | nil => exact fun _ => ChildEnd.noConfusion
    | cons name names ih =>
      intro errno
      unfold searchPath
      cases execFile env name args with
      | ok o => exact ChildEnd.noConfusion
      | error e =>
        dsimp only
        split_ifs
        · exact ih _
        · exact ChildEnd.noConfusion
  unfold execCmd
  cases hsplit : cmdSplit cmd with
  | nil => exact iff_of_true rfl rfl
  | cons program args =>
    refine iff_of_false ?_ (List.cons_ne_nil _ _)
    dsimp only
    split_ifs
    · cases execFile env program (program :: args) with
      | ok o => exact ChildEnd.noConfusion
      | error e => exact ChildEnd.noConfusion
    · exact hsearch _ _ _

theorem convertFromErrno_ne_zero {e fallback : ℤ} (h : fallback ≠ 0) : convertFromErrno e fallback ≠ 0 := by
  unfold convertFromErrno runNotExec runNotFound runNoAccess
  split_ifs
  · decide
  · decide
  · decide
  · exact h

/-! ## The invariant -/

def errWritten (env : AsyncEnv) : GrandState → List UInt8
  | .execFailedErrno => env.order.bytes32 (.ofInt 32 runExecveFailed)
  | .exited => match env.grandchild with
    | .failed errno => env.order.bytes32 (.ofInt 32 runExecveFailed) ++ env.order.bytes32 (BitVec.ofNat 32 errno)
    | _ => []
  | _ => []

def GrandOk (env : AsyncEnv) (child : ChildState) : GrandState → Prop
  | .absent => child = .forking
  | .opening => child ≠ .forking
  | .executing => child ≠ .forking
  | .nullFailedPid => False
  | .nullFailedErr => False
  | .executed => child ≠ .forking ∧ ∃ o, env.grandchild = .executed o
  | .execFailedCode => child ≠ .forking ∧ ∃ errno, env.grandchild = .failed errno
  | .execFailedErrno => child ≠ .forking ∧ ∃ errno, env.grandchild = .failed errno
  | .exited => child ≠ .forking ∧ ∃ errno, env.grandchild = .failed errno

def pidWritten (env : AsyncEnv) : ChildState → List UInt8
  | .closing => env.order.bytes32 env.grandPid
  | .exited => env.order.bytes32 env.grandPid
  | _ => []

def ParentOk (env : AsyncEnv) (t : AsyncState) : ParentState → Prop
  | .waiting => t.pidPipe = pidWritten env t.child ∧ t.errPipe = errWritten env t.grand
  | .readingErr r => t.child = .exited ∧ t.pidPipe = pidWritten env t.child ∧ r.eintr = false ∧ r.got.length < 8 ∧
      r.got ++ t.errPipe = errWritten env t.grand
  | .readingPid r => t.child = .exited ∧ t.grand = .executed ∧ r.eintr = false ∧
      r.got ++ t.pidPipe = pidWritten env t.child
  | .returned ret childPid => t.child = .exited ∧ (t.grand = .executed ∧ ret = 0 ∧ childPid = some env.grandPid ∨
      t.grand = .exited ∧ ret ≠ 0 ∧ t.ends = [])

structure Orderly (env : AsyncEnv) (t : AsyncState) : Prop where
  interrupts : t.interrupts = 0
  child : t.child ≠ .forkFailedPid ∧ t.child ≠ .forkFailedErr
  grand : GrandOk env t.child t.grand
  parent : ParentOk env t t.parent

/-- Nothing fails before `exec_cmd`, which has a program, and no signal comes. -/
structure Calm (env : AsyncEnv) : Prop where
  pidPipe : env.pidPipe = true
  errPipe : env.errPipe = true
  forked : env.forked = true
  grandForked : env.grandForked = true
  nullDev : env.nullDev = true
  grandchild : env.grandchild ≠ .crashed
  interrupts : env.interrupts = 0

theorem start_calm (h : Calm env) :
    start env = ⟨.waiting,.forking,.absent,[],[],[.pidRead,.errRead],env.interrupts⟩ := by
  unfold start
  rw [if_neg (by rw [h.pidPipe]; decide),if_neg (by rw [h.errPipe]; decide),if_neg (by rw [h.forked]; decide)]

theorem orderly_start (h : Calm env) : Orderly env (start env) := by
  rw [start_calm h]
  exact ⟨h.interrupts,⟨ChildState.noConfusion,ChildState.noConfusion⟩,rfl,rfl,rfl⟩

theorem grandOk_of_ne {child child' : ChildState} {grand : GrandState} (h : GrandOk env child grand)
    (hchild : child ≠ .forking) (hchild' : child' ≠ .forking) : GrandOk env child' grand := by
  cases grand with
  | absent => exact absurd h hchild
  | opening => exact hchild'
  | executing => exact hchild'
  | nullFailedPid => exact h
  | nullFailedErr => exact h
  | executed => exact ⟨hchild',h.2⟩
  | execFailedCode => exact ⟨hchild',h.2⟩
  | execFailedErrno => exact ⟨hchild',h.2⟩
  | exited => exact ⟨hchild',h.2⟩

theorem grand_eq_absent {grand : GrandState} (h : GrandOk env .forking grand) : grand = .absent := by
  cases grand with
  | absent => rfl
  | opening => exact absurd rfl h
  | executing => exact absurd rfl h
  | nullFailedPid => exact absurd h id
  | nullFailedErr => exact absurd h id
  | executed => exact absurd rfl h.1
  | execFailedCode => exact absurd rfl h.1
  | execFailedErrno => exact absurd rfl h.1
  | exited => exact absurd rfl h.1

theorem Orderly.waiting {t : AsyncState} (h : Orderly env t) (hchild : t.child ≠ .exited) :
    t.parent = .waiting ∧ t.pidPipe = pidWritten env t.child ∧ t.errPipe = errWritten env t.grand := by
  have hparent := h.parent
  cases hp : t.parent with
  | waiting =>
    rw [hp] at hparent
    exact ⟨rfl,hparent⟩
  | readingErr r =>
    rw [hp] at hparent
    exact absurd hparent.1 hchild
  | readingPid r =>
    rw [hp] at hparent
    exact absurd hparent.1 hchild
  | returned ret childPid =>
    rw [hp] at hparent
    exact absurd hparent.1 hchild

/-- What the child does when nothing disturbs it. -/
theorem stepChild_cases (hcalm : Calm env) {t t' : AsyncState} (h : Orderly env t) (hstep : t.stepChild env = some t') :
    t.child = .forking ∧ t.grand = .absent ∧ t' = { t with child := .reporting, grand := .opening } ∨
    t.child = .reporting ∧ t' = { writePid env t env.grandPid with child := .closing } ∨
    t.child = .closing ∧ t' = { t with child := .exited } := by
  have hgrand := h.grand
  unfold stepChild at hstep
  cases hc : t.child with
  | forking =>
    rw [hc] at hstep hgrand
    dsimp only at hstep
    rw [if_pos hcalm.grandForked] at hstep
    exact Or.inl ⟨rfl,grand_eq_absent hgrand,(Option.some.inj hstep).symm⟩
  | forkFailedPid => exact absurd hc h.child.1
  | forkFailedErr => exact absurd hc h.child.2
  | reporting =>
    rw [hc] at hstep
    exact Or.inr (Or.inl ⟨rfl,(Option.some.inj hstep).symm⟩)
  | closing =>
    rw [hc] at hstep
    exact Or.inr (Or.inr ⟨rfl,(Option.some.inj hstep).symm⟩)
  | exited =>
    rw [hc] at hstep
    cases hstep

theorem orderly_child (hcalm : Calm env) {t t' : AsyncState} (h : Orderly env t) (hstep : t.stepChild env = some t') :
    Orderly env t' := by
  have hgrand := h.grand
  obtain ⟨hc,habsent,rfl⟩ | ⟨hc,rfl⟩ | ⟨hc,rfl⟩ := stepChild_cases hcalm h hstep
  · obtain ⟨hparent,hpid,herr⟩ := h.waiting (by rw [hc]; decide)
    rw [hc] at hpid
    rw [habsent] at herr
    refine ⟨h.interrupts,⟨ChildState.noConfusion,ChildState.noConfusion⟩,ChildState.noConfusion,?_⟩
    dsimp only
    rw [hparent]
    exact ⟨hpid,herr⟩
  · obtain ⟨hparent,hpid,herr⟩ := h.waiting (by rw [hc]; decide)
    rw [hc] at hgrand hpid
    refine ⟨h.interrupts,⟨ChildState.noConfusion,ChildState.noConfusion⟩,
      grandOk_of_ne hgrand ChildState.noConfusion ChildState.noConfusion,?_⟩
    dsimp only [writePid]
    rw [hparent]
    exact ⟨congrArg (fun l => l ++ env.order.bytes32 env.grandPid) hpid,herr⟩
  · obtain ⟨hparent,hpid,herr⟩ := h.waiting (by rw [hc]; decide)
    rw [hc] at hgrand hpid
    refine ⟨h.interrupts,⟨ChildState.noConfusion,ChildState.noConfusion⟩,
      grandOk_of_ne hgrand ChildState.noConfusion ChildState.noConfusion,?_⟩
    dsimp only
    rw [hparent]
    exact ⟨hpid,herr⟩

/-- What the grandchild writes gets into the second pipe, whether or not it is read yet. -/
theorem parentOk_grand {t : AsyncState} (h : Orderly env t) {grand : GrandState} {written : List UInt8}
    (hrunning : t.grand ≠ .executed ∧ t.grand ≠ .exited)
    (hwritten : errWritten env grand = errWritten env t.grand ++ written) :
    ParentOk env { t with grand, errPipe := t.errPipe ++ written } t.parent := by
  have hparent := h.parent
  cases hp : t.parent with
  | waiting =>
    rw [hp] at hparent
    exact ⟨hparent.1,by rw [hwritten,← hparent.2]⟩
  | readingErr r =>
    rw [hp] at hparent
    obtain ⟨hchild,hpid,heintr,hlen,hgot⟩ := hparent
    exact ⟨hchild,hpid,heintr,hlen,by rw [hwritten,← hgot,List.append_assoc]⟩
  | readingPid r =>
    rw [hp] at hparent
    exact absurd hparent.2.1 hrunning.1
  | returned ret childPid =>
    rw [hp] at hparent
    rcases hparent.2 with hdone | hdone
    · exact absurd hdone.1 hrunning.1
    · exact absurd hdone.1 hrunning.2

theorem orderly_quiet {t : AsyncState} (h : Orderly env t) {grand : GrandState}
    (hrunning : t.grand ≠ .executed ∧ t.grand ≠ .exited) (hgrand : GrandOk env t.child grand)
    (hwritten : errWritten env grand = errWritten env t.grand) : Orderly env { t with grand } := by
  have hparent := parentOk_grand h hrunning (hwritten.trans (List.append_nil _).symm)
  rw [List.append_nil] at hparent
  exact ⟨h.interrupts,h.child,hgrand,hparent⟩

/-- What the grandchild does when nothing disturbs it. -/
theorem stepGrand_cases (hcalm : Calm env) {t t' : AsyncState} (h : Orderly env t) (hstep : t.stepGrand env = some t') :
    t.grand = .opening ∧ t' = { t with grand := .executing } ∨
    t.grand = .executing ∧ (∃ o, env.grandchild = .executed o) ∧ t' = { t with grand := .executed } ∨
    t.grand = .executing ∧ (∃ errno, env.grandchild = .failed errno) ∧ t' = { t with grand := .execFailedCode } ∨
    t.grand = .execFailedCode ∧ t' = { writeErr env t (.ofInt 32 runExecveFailed) with grand := .execFailedErrno } ∨
    t.grand = .execFailedErrno ∧ ∃ errno, env.grandchild = .failed errno ∧
      t' = { writeErr env t (BitVec.ofNat 32 errno) with grand := .exited } := by
  have hgrand := h.grand
  unfold stepGrand at hstep
  cases hg : t.grand with
  | opening =>
    rw [hg] at hstep
    dsimp only at hstep
    rw [if_pos hcalm.nullDev] at hstep
    exact Or.inl ⟨rfl,(Option.some.inj hstep).symm⟩
  | executing =>
    rw [hg] at hstep
    dsimp only at hstep
    cases he : env.grandchild with
    | executed o =>
      rw [he] at hstep
      exact Or.inr (Or.inl ⟨rfl,⟨o,rfl⟩,(Option.some.inj hstep).symm⟩)
    | failed errno =>
      rw [he] at hstep
      exact Or.inr (Or.inr (Or.inl ⟨rfl,⟨errno,rfl⟩,(Option.some.inj hstep).symm⟩))
    | crashed => exact absurd he hcalm.grandchild
  | execFailedCode =>
    rw [hg] at hstep
    exact Or.inr (Or.inr (Or.inr (Or.inl ⟨rfl,(Option.some.inj hstep).symm⟩)))
  | execFailedErrno =>
    rw [hg] at hstep hgrand
    obtain ⟨-,errno,he⟩ := hgrand
    dsimp only at hstep
    rw [he] at hstep
    exact Or.inr (Or.inr (Or.inr (Or.inr ⟨rfl,errno,he,(Option.some.inj hstep).symm⟩)))
  | nullFailedPid =>
    rw [hg] at hgrand
    exact absurd hgrand id
  | nullFailedErr =>
    rw [hg] at hgrand
    exact absurd hgrand id
  | absent =>
    rw [hg] at hstep
    cases hstep
  | executed =>
    rw [hg] at hstep
    cases hstep
  | exited =>
    rw [hg] at hstep
    cases hstep

theorem orderly_grand (hcalm : Calm env) {t t' : AsyncState} (h : Orderly env t) (hstep : t.stepGrand env = some t') :
    Orderly env t' := by
  have hgrand := h.grand
  obtain ⟨hg,rfl⟩ | ⟨hg,⟨o,he⟩,rfl⟩ | ⟨hg,⟨errno,he⟩,rfl⟩ | ⟨hg,rfl⟩ | ⟨hg,errno,he,rfl⟩ :=
    stepGrand_cases hcalm h hstep
  · rw [hg] at hgrand
    exact orderly_quiet h (by rw [hg]; decide) hgrand (by rw [hg]; rfl)
  · rw [hg] at hgrand
    exact orderly_quiet h (by rw [hg]; decide) ⟨hgrand,o,he⟩ (by rw [hg]; rfl)
  · rw [hg] at hgrand
    exact orderly_quiet h (by rw [hg]; decide) ⟨hgrand,errno,he⟩ (by rw [hg]; rfl)
  · rw [hg] at hgrand
    exact ⟨h.interrupts,h.child,hgrand,parentOk_grand h (by rw [hg]; decide) (by rw [hg]; rfl)⟩
  · rw [hg] at hgrand
    refine ⟨h.interrupts,h.child,hgrand,parentOk_grand h (by rw [hg]; decide) ?_⟩
    rw [hg]
    simp only [errWritten,he]

/-! ## Reads -/

/-- A read gives nothing at the end or if nothing is asked for, and bytes from the pipe otherwise. -/
theorem readChunk_eq_some {request n : ℕ} {pipe : List UInt8} {writer : Bool} {c : List UInt8 × List UInt8}
    (h : readChunk request pipe writer n = some c) :
    c.1 = [] ∧ c.2 = pipe ∧ (request = 0 ∨ pipe = [] ∧ writer = false) ∨
      c.1 ≠ [] ∧ c.1 ++ c.2 = pipe ∧ c.1.length ≤ request := by
  unfold readChunk at h
  split_ifs at h with hrequest hpipe hwriter hn
  · obtain rfl := Option.some.inj h
    exact Or.inl ⟨rfl,rfl,Or.inl hrequest⟩
  · obtain rfl := Option.some.inj h
    exact Or.inl ⟨rfl,hpipe.symm,Or.inr ⟨hpipe,by simpa using hwriter⟩⟩
  · obtain rfl := Option.some.inj h
    refine Or.inr ⟨fun hnil => ?_,List.take_append_drop n pipe,?_⟩
    · have hlen := congrArg List.length hnil
      rw [List.length_take,List.length_nil] at hlen
      omega
    · rw [List.length_take]
      omega

theorem readChunk_append {request n : ℕ} {pipe : List UInt8} {writer : Bool} {c : List UInt8 × List UInt8}
    (h : readChunk request pipe writer n = some c) : c.1 ++ c.2 = pipe := by
  rcases readChunk_eq_some h with ⟨hnil,hpipe,-⟩ | ⟨-,hpipe,-⟩
  · rw [hnil,hpipe,List.nil_append]
  · exact hpipe

/-- Without an interrupt a reading goes on with more, or ends with what it has. -/
theorem next_eq {r : Reading} (h : r.eintr = false) (chunk : List UInt8) :
    r.next chunk = if chunk = [] ∨ 8 ≤ (r.got ++ chunk).length then .inr (r.got ++ chunk)
      else .inl ⟨r.got ++ chunk,false⟩ := by
  rw [Reading.next,if_neg (by rw [h]; decide)]

theorem word_zero (env : AsyncEnv) (x : BitVec 32) (rest : List UInt8) :
    word env (env.order.bytes32 x ++ rest) 0 = x := by
  rw [word,Nat.mul_zero,List.drop_zero,List.take_left' (ByteOrder.length_bytes32 _ _),ByteOrder.card32_bytes32]

/-- The numbers of a failure are complete when the grandchild is gone. -/
theorem errWritten_of_failed {errno : ℕ} (h : env.grandchild = .failed errno) :
    errWritten env .exited =
      env.order.bytes32 (.ofInt 32 runExecveFailed) ++ env.order.bytes32 (BitVec.ofNat 32 errno) := by
  simp only [errWritten,h]

theorem length_errWritten_of_ne (env : AsyncEnv) {grand : GrandState} (h : grand ≠ .exited) :
    (errWritten env grand).length ≤ 4 := by
  cases grand with
  | execFailedErrno => rw [errWritten,ByteOrder.length_bytes32]
  | exited => exact absurd rfl h
  | absent => exact Nat.zero_le _
  | opening => exact Nat.zero_le _
  | nullFailedPid => exact Nat.zero_le _
  | nullFailedErr => exact Nat.zero_le _
  | executing => exact Nat.zero_le _
  | execFailedCode => exact Nat.zero_le _
  | executed => exact Nat.zero_le _

/-- The end of the second pipe comes with both numbers, or with none if the program was executed. -/
theorem orderly_afterErr {t : AsyncState} (h : Orderly env t) (hchild : t.child = .exited)
    (hpid : t.pidPipe = pidWritten env t.child) {got rest : List UInt8} (hgot : got ++ rest = errWritten env t.grand)
    (hend : got.length = 8 ∨ t.grand = .executed) : Orderly env (afterErr env { t with errPipe := rest } got) := by
  have hgrand := h.grand
  by_cases hexited : t.grand = .exited
  · rw [hexited] at hgrand hgot hend
    obtain ⟨-,errno,he⟩ := hgrand
    have hlen : got.length = 8 := hend.resolve_right GrandState.noConfusion
    rw [errWritten_of_failed he] at hgot
    have hall : got = env.order.bytes32 (.ofInt 32 runExecveFailed) ++ env.order.bytes32 (BitVec.ofNat 32 errno) :=
      (List.append_inj (hgot.trans (List.append_nil _).symm) (by simp [hlen])).1
    have hfail : afterErr env { t with errPipe := rest } got =
        AsyncState.fail { t with errPipe := rest } (convertFromErrno (word env got 1).toInt runExecveFailed) := by
      rw [afterErr,if_pos (by omega)]
      congr 2
      rw [hall,word_zero]
      rfl
    rw [hfail]
    exact ⟨h.interrupts,h.child,h.grand,hchild,Or.inr ⟨hexited,convertFromErrno_ne_zero (by decide),rfl⟩⟩
  · have hle := length_errWritten_of_ne env hexited
    rw [← hgot,List.length_append] at hle
    have hexecuted : t.grand = .executed := hend.resolve_left (by omega)
    have hread : afterErr env { t with errPipe := rest } got =
        { t with errPipe := rest, parent := .readingPid .fresh } := if_neg (by omega)
    rw [hread]
    exact ⟨h.interrupts,h.child,h.grand,hchild,hexecuted,rfl,hpid⟩

theorem grand_of_errWriter {t : AsyncState} (h : t.errWriter = false) :
    t.grand = .absent ∨ t.grand = .executed ∨ t.grand = .exited := by
  by_contra hnot
  simp only [not_or] at hnot
  rw [errWriter,decide_eq_false_iff_not] at h
  exact h (Or.inr hnot)

theorem orderly_readingErr {t t' : AsyncState} {n : ℕ} {r : Reading} (h : Orderly env t) (hp : t.parent = .readingErr r)
    (hstep : t.stepParent env n = some t') : Orderly env t' := by
  have hparent := h.parent
  rw [hp] at hparent
  obtain ⟨hchild,hpid,heintr,hlen,hgot⟩ := hparent
  rw [stepParent,hp] at hstep
  obtain ⟨c,hc,rfl⟩ := Option.map_eq_some_iff.mp hstep
  rw [next_eq heintr]
  have hall : (r.got ++ c.1) ++ c.2 = errWritten env t.grand := by
    rw [List.append_assoc,readChunk_append hc,hgot]
  split_ifs with hlast
  · refine orderly_afterErr h hchild hpid hall ?_
    rcases readChunk_eq_some hc with ⟨hnil,hpipe,hrequest | ⟨hempty,hwriter⟩⟩ | ⟨hne,-,hle⟩
    · omega
    · -- the grandchild is gone, and if it had failed both numbers would have been read
      rcases grand_of_errWriter hwriter with habsent | hexecuted | hexited
      · have hgrand := h.grand
        rw [habsent] at hgrand
        exact absurd (hchild.symm.trans hgrand) ChildState.noConfusion
      · exact Or.inr hexecuted
      · have hgrand := h.grand
        rw [hexited] at hgrand
        obtain ⟨-,errno,he⟩ := hgrand
        rw [hnil,hpipe,hempty,List.append_nil,List.append_nil,hexited,errWritten_of_failed he] at hall
        rw [hall,List.length_append,ByteOrder.length_bytes32,ByteOrder.length_bytes32] at hlen
        omega
    · refine Or.inl (Nat.le_antisymm ?_ (hlast.resolve_left hne))
      rw [List.length_append]
      omega
  · obtain ⟨-,hshort⟩ := not_or.mp hlast
    exact ⟨h.interrupts,h.child,h.grand,hchild,hpid,rfl,Nat.lt_of_not_le hshort,hall⟩

/-- The number of the program is read, which the child has written whole. -/
theorem orderly_readingPid {t t' : AsyncState} {n : ℕ} (h : Orderly env t) {r : Reading}
    (hp : t.parent = .readingPid r) (hstep : t.stepParent env n = some t') : Orderly env t' := by
  have hparent := h.parent
  rw [hp] at hparent
  obtain ⟨hchild,hexecuted,heintr,hgot⟩ := hparent
  rw [stepParent,hp] at hstep
  obtain ⟨c,hc,rfl⟩ := Option.map_eq_some_iff.mp hstep
  rw [next_eq heintr]
  rw [hchild] at hgot
  have hall : (r.got ++ c.1) ++ c.2 = env.order.bytes32 env.grandPid := by
    rw [List.append_assoc,readChunk_append hc,hgot]
    rfl
  have hlen := congrArg List.length hall
  rw [List.length_append,ByteOrder.length_bytes32] at hlen
  split_ifs with hlast
  · have hnil : c.1 = [] := hlast.resolve_right (by omega)
    have hrest : c.2 = [] := by
      rcases readChunk_eq_some hc with ⟨-,hpipe,hrequest | ⟨hempty,-⟩⟩ | ⟨hne,-⟩
      · rw [hnil,List.append_nil] at hlen
        exact List.length_eq_zero_iff.mp (by omega)
      · rw [hpipe,hempty]
      · exact absurd hnil hne
    have hpid : word env (r.got ++ c.1) 0 = env.grandPid := by
      rw [← word_zero env env.grandPid [],← hall,hrest,List.append_nil,List.append_nil]
    have hreturn : afterPid env { t with parent := .readingPid r, pidPipe := c.2 } (r.got ++ c.1) =
        { t with pidPipe := c.2, parent := .returned 0 (some env.grandPid), ends := [] } := by
      rw [afterPid,if_neg (by rw [hrest,List.length_nil] at hlen; omega),hpid]
    dsimp only
    rw [hreturn]
    exact ⟨h.interrupts,h.child,h.grand,hchild,Or.inl ⟨hexecuted,rfl,rfl⟩⟩
  · refine ⟨h.interrupts,h.child,h.grand,hchild,hexecuted,rfl,?_⟩
    dsimp only
    rw [hchild]
    exact hall

theorem orderly_parent {t t' : AsyncState} {n : ℕ} (h : Orderly env t) (hstep : t.stepParent env n = some t') :
    Orderly env t' := by
  cases hp : t.parent with
  | waiting =>
    have hparent := h.parent
    rw [hp] at hparent
    rw [stepParent,hp] at hstep
    dsimp only at hstep
    split_ifs at hstep with hchild
    obtain rfl := Option.some.inj hstep
    exact ⟨h.interrupts,h.child,h.grand,hchild,hparent.1,rfl,by decide,hparent.2⟩
  | readingErr r => exact orderly_readingErr h hp hstep
  | readingPid r => exact orderly_readingPid h hp hstep
  | returned ret childPid =>
    rw [stepParent,hp] at hstep
    cases hstep

theorem orderly_step (hcalm : Calm env) {t t' : AsyncState} {a : AsyncAction} (h : Orderly env t)
    (hstep : a.step env t = some t') : Orderly env t' := by
  cases a with
  | parent n => exact orderly_parent h hstep
  | child => exact orderly_child hcalm h hstep
  | grandchild => exact orderly_grand hcalm h hstep
  | interrupt =>
    rw [AsyncAction.step,AsyncState.interrupt,if_pos h.interrupts] at hstep
    cases hstep

/-! ## The end of a run -/

def parentLeft : ParentState → ℕ
  | .waiting => 20
  | .readingErr r => 8 + (8 - r.got.length)
  | .readingPid r => 1 + (4 - r.got.length)
  | .returned _ _ => 0

def childLeft : ChildState → ℕ
  | .forking => 10
  | .reporting => 2
  | .closing => 1
  | _ => 0

def grandLeft : GrandState → ℕ
  | .opening => 4
  | .executing => 3
  | .execFailedCode => 2
  | .execFailedErrno => 1
  | _ => 0

def stepsLeft (t : AsyncState) : ℕ := parentLeft t.parent + childLeft t.child + grandLeft t.grand

theorem afterErr_eq (env : AsyncEnv) (t : AsyncState) (got : List UInt8) :
    ∃ p ends, afterErr env t got = { t with parent := p, ends := ends } ∧ parentLeft p ≤ 5 := by
  unfold afterErr
  split_ifs
  · exact ⟨_,[],rfl,Nat.zero_le _⟩
  · exact ⟨.readingPid .fresh,t.ends,rfl,by decide⟩

theorem afterPid_eq (env : AsyncEnv) (t : AsyncState) (got : List UInt8) :
    ∃ ret childPid ends, afterPid env t got = { t with parent := .returned ret childPid, ends := ends } := by
  unfold afterPid
  split_ifs
  · exact ⟨_,none,[],rfl⟩
  · exact ⟨0,_,[],rfl⟩

theorem length_lt_of_next {r : Reading} {request n : ℕ} {pipe : List UInt8} {writer : Bool}
    {c : List UInt8 × List UInt8} (hc : readChunk request pipe writer n = some c)
    (hnext : ¬ (c.1 = [] ∨ 8 ≤ (r.got ++ c.1).length)) :
    r.got.length < (r.got ++ c.1).length ∧ (r.got ++ c.1).length ≤ r.got.length + request := by
  obtain ⟨hne,-⟩ := not_or.mp hnext
  have hpos := List.length_pos_iff.mpr hne
  rw [List.length_append]
  rcases readChunk_eq_some hc with ⟨hnil,-⟩ | ⟨-,-,hle⟩
  · exact absurd hnil hne
  · omega

theorem stepsLeft_parent {t t' : AsyncState} {n : ℕ} (h : Orderly env t) (hstep : t.stepParent env n = some t') :
    stepsLeft t' < stepsLeft t := by
  have hparent := h.parent
  unfold stepsLeft
  unfold stepParent at hstep
  cases hp : t.parent with
  | waiting =>
    rw [hp] at hstep
    dsimp only at hstep
    split_ifs at hstep
    obtain rfl := Option.some.inj hstep
    dsimp only [parentLeft,Reading.fresh,List.length_nil]
    omega
  | readingErr r =>
    rw [hp] at hparent hstep
    obtain ⟨-,-,heintr,hlen,-⟩ := hparent
    obtain ⟨c,hc,rfl⟩ := Option.map_eq_some_iff.mp hstep
    rw [next_eq heintr]
    split_ifs with hlast
    · dsimp only
      rw [← hp]
      obtain ⟨p,ends,heq,hle⟩ := afterErr_eq env { t with errPipe := c.2 } (r.got ++ c.1)
      have hleft : parentLeft (.readingErr r) = 8 + (8 - r.got.length) := rfl
      rw [heq,hp,hleft]
      dsimp only
      omega
    · have hmore := length_lt_of_next hc hlast
      obtain ⟨-,hshort⟩ := not_or.mp hlast
      dsimp only [parentLeft]
      omega
  | readingPid r =>
    rw [hp] at hparent hstep
    obtain ⟨-,-,heintr,-⟩ := hparent
    obtain ⟨c,hc,rfl⟩ := Option.map_eq_some_iff.mp hstep
    rw [next_eq heintr]
    split_ifs with hlast
    · dsimp only
      rw [← hp]
      obtain ⟨ret,childPid,ends,heq⟩ := afterPid_eq env { t with pidPipe := c.2 } (r.got ++ c.1)
      rw [heq]
      dsimp only
      rw [hp]
      dsimp only [parentLeft]
      omega
    · have hmore := length_lt_of_next hc hlast
      dsimp only [parentLeft]
      omega
  | returned ret childPid =>
    rw [hp] at hstep
    cases hstep

theorem stepsLeft_child {t t' : AsyncState} (hcalm : Calm env) (h : Orderly env t) (hstep : t.stepChild env = some t') :
    stepsLeft t' < stepsLeft t := by
  unfold stepsLeft
  obtain ⟨hc,habsent,rfl⟩ | ⟨hc,rfl⟩ | ⟨hc,rfl⟩ := stepChild_cases hcalm h hstep
  · rw [hc,habsent]
    dsimp only [childLeft,grandLeft]
    omega
  · rw [hc]
    dsimp only [childLeft,writePid]
    omega
  · rw [hc]
    dsimp only [childLeft]
    omega

theorem stepsLeft_grand {t t' : AsyncState} (hcalm : Calm env) (h : Orderly env t) (hstep : t.stepGrand env = some t') :
    stepsLeft t' < stepsLeft t := by
  unfold stepsLeft
  obtain ⟨hg,rfl⟩ | ⟨hg,-,rfl⟩ | ⟨hg,-,rfl⟩ | ⟨hg,rfl⟩ | ⟨hg,-,-,rfl⟩ := stepGrand_cases hcalm h hstep
  · rw [hg]
    dsimp only [grandLeft]
    omega
  · rw [hg]
    dsimp only [grandLeft]
    omega
  · rw [hg]
    dsimp only [grandLeft]
    omega
  · rw [hg]
    dsimp only [grandLeft,writeErr]
    omega
  · rw [hg]
    dsimp only [grandLeft,writeErr]
    omega

theorem stepsLeft_lt (hcalm : Calm env) {t t' : AsyncState} {a : AsyncAction} (h : Orderly env t)
    (hstep : a.step env t = some t') : stepsLeft t' < stepsLeft t := by
  cases a with
  | parent n => exact stepsLeft_parent h hstep
  | child => exact stepsLeft_child hcalm h hstep
  | grandchild => exact stepsLeft_grand hcalm h hstep
  | interrupt =>
    rw [AsyncAction.step,AsyncState.interrupt,if_pos h.interrupts] at hstep
    cases hstep

theorem child_progress (env : AsyncEnv) {t : AsyncState} (h : t.child ≠ .exited) : ∃ t', t.stepChild env = some t' := by
  unfold stepChild
  cases hc : t.child with
  | forking =>
    dsimp only
    split_ifs
    · exact ⟨_,rfl⟩
    · exact ⟨_,rfl⟩
  | forkFailedPid => exact ⟨_,rfl⟩
  | forkFailedErr => exact ⟨_,rfl⟩
  | reporting => exact ⟨_,rfl⟩
  | closing => exact ⟨_,rfl⟩
  | exited => exact absurd hc h

theorem executing_progress (hcalm : Calm env) {t : AsyncState} (h : t.grand = .executing) :
    ∃ a t', AsyncAction.step env t a = some t' := by
  refine ⟨.grandchild,?_⟩
  rw [AsyncAction.step,stepGrand,h]
  cases he : env.grandchild with
  | executed o => exact ⟨_,rfl⟩
  | failed errno => exact ⟨_,rfl⟩
  | crashed => exact absurd he hcalm.grandchild

/-- A read goes on when nothing is asked for, when there are bytes, and at the end. -/
theorem exists_readChunk {request : ℕ} {pipe : List UInt8} {writer : Bool}
    (h : request = 0 ∨ pipe ≠ [] ∨ writer = false) : ∃ n c, readChunk request pipe writer n = some c := by
  by_cases hrequest : request = 0
  · exact ⟨0,([],pipe),if_pos hrequest⟩
  · by_cases hpipe : pipe = []
    · have hwriter := (h.resolve_left hrequest).resolve_left (not_not_intro hpipe)
      refine ⟨0,([],[]),?_⟩
      rw [readChunk,if_neg hrequest,if_pos hpipe,if_neg (by rw [hwriter]; decide)]
    · refine ⟨1,(pipe.take 1,pipe.drop 1),?_⟩
      have hlen := List.length_pos_iff.mpr hpipe
      rw [readChunk,if_neg hrequest,if_neg hpipe,if_pos ⟨by decide,by omega,by omega⟩]

/-- When the other two are gone, or the program runs, the caller has something to read. -/
theorem parent_progress {t : AsyncState} (h : Orderly env t) (hchild : t.child = .exited)
    (hgrand : t.grand = .executed ∨ t.grand = .exited)
    (hnot : ¬ ∃ ret childPid, t.parent = .returned ret childPid) : ∃ a t', AsyncAction.step env t a = some t' := by
  have hparent := h.parent
  cases hp : t.parent with
  | waiting => exact ⟨.parent 0,_,by rw [AsyncAction.step,stepParent,hp]; exact if_pos hchild⟩
  | readingErr r =>
    have hwriter : t.errWriter = false := by
      rw [errWriter,decide_eq_false_iff_not]
      rintro (hne | ⟨-,hexecuted,hexited⟩)
      · exact hne hchild
      · exact hgrand.elim hexecuted hexited
    obtain ⟨n,c,hc⟩ := exists_readChunk (Or.inr (Or.inr hwriter))
    refine ⟨.parent n,Option.isSome_iff_exists.mp ?_⟩
    rw [AsyncAction.step,stepParent,hp]
    dsimp only
    rw [Option.isSome_map,hc]
    rfl
  | readingPid r =>
    rw [hp] at hparent
    obtain ⟨-,-,-,hgot⟩ := hparent
    have hlen := congrArg List.length hgot
    rw [List.length_append,hchild,pidWritten,ByteOrder.length_bytes32] at hlen
    have hready : 4 - r.got.length = 0 ∨ t.pidPipe ≠ [] ∨ t.pidWriter = false := by
      by_cases hfull : 4 - r.got.length = 0
      · exact Or.inl hfull
      · refine Or.inr (Or.inl (List.length_pos_iff.mp (by omega)))
    obtain ⟨n,c,hc⟩ := exists_readChunk hready
    refine ⟨.parent n,Option.isSome_iff_exists.mp ?_⟩
    rw [AsyncAction.step,stepParent,hp]
    dsimp only
    rw [Option.isSome_map,hc]
    rfl
  | returned ret childPid => exact absurd ⟨ret,childPid,hp⟩ hnot

/-- A call that has not returned goes on: the processes that still run take steps, and then the
caller has something to read. -/
theorem orderly_progress (hcalm : Calm env) {t : AsyncState} (h : Orderly env t) :
    (∃ ret childPid, t.parent = .returned ret childPid) ∨ ∃ a t', AsyncAction.step env t a = some t' := by
  rw [or_iff_not_imp_left]
  intro hnot
  by_cases hchild : t.child = .exited
  · have hgrand := h.grand
    rw [hchild] at hgrand
    cases hg : t.grand with
    | absent =>
      rw [hg] at hgrand
      exact ChildState.noConfusion hgrand
    | opening => exact ⟨.grandchild,_,by rw [AsyncAction.step,stepGrand,hg]; exact if_pos hcalm.nullDev⟩
    | nullFailedPid =>
      rw [hg] at hgrand
      exact absurd hgrand id
    | nullFailedErr =>
      rw [hg] at hgrand
      exact absurd hgrand id
    | executing => exact executing_progress hcalm hg
    | execFailedCode => exact ⟨.grandchild,_,by rw [AsyncAction.step,stepGrand,hg]⟩
    | execFailedErrno =>
      rw [hg] at hgrand
      obtain ⟨-,errno,he⟩ := hgrand
      refine ⟨.grandchild,Option.isSome_iff_exists.mp ?_⟩
      rw [AsyncAction.step,stepGrand,hg]
      dsimp only
      rw [he]
      rfl
    | executed => exact parent_progress h hchild (by rw [hg]; decide) hnot
    | exited => exact parent_progress h hchild (by rw [hg]; decide) hnot
  · obtain ⟨t',ht'⟩ := child_progress env hchild
    exact ⟨.child,t',ht'⟩

theorem Orderly.reports {t : AsyncState} (h : Orderly env t) : t.Reports env := by
  intro ret childPid hreturned
  have hparent := h.parent
  rw [hreturned] at hparent
  rcases hparent.2 with ⟨hexecuted,hret,hpid⟩ | ⟨hexited,hret,hends⟩
  · exact ⟨iff_of_true hret hexecuted,fun _ => hpid,fun hne => absurd hret hne⟩
  · refine ⟨iff_of_false hret ?_,fun hzero => absurd hzero hret,fun _ => hends⟩
    rw [hexited]
    exact GrandState.noConfusion

theorem orderly_exec (hcalm : Calm env) {acts : List AsyncAction} {t : AsyncState}
    (hrun : Transition.exec (AsyncAction.step env) (start env) acts = some t) : Orderly env t := by
  refine Transition.exec_invariant (C := fun _ _ => True) (I := fun _ t => Orderly env t) (orderly_start hcalm)
    (fun _ _ _ _ _ h _ hstep => orderly_step hcalm h hstep) (fun _ _ _ _ _ _ => True.intro) hrun

theorem correct_of_calm (hcalm : Calm env) : Correct env where
  reports := fun _ _ hrun => (orderly_exec hcalm hrun).reports
  ends := ⟨stepsLeft (start env),fun _ _ hrun => Transition.exec_length_le (I := Orderly env)
    (fun _ _ _ h hstep => ⟨orderly_step hcalm h hstep,stepsLeft_lt hcalm h hstep⟩) (orderly_start hcalm) hrun⟩
  returns := fun _ _ hrun => orderly_progress hcalm (orderly_exec hcalm hrun)

end Edelib.Run
