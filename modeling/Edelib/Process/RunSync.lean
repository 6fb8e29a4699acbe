import Edelib.Process.Exec
import Mathlib.Data.Fintype.Basic
import Mathlib.Data.Nat.Bitwise

/-! # Running a program until it ends

The end of a child is packed into a status word, which the parent takes apart again. If
`/dev/null` cannot be opened, the child returns from the call too.
-/
namespace Edelib.Run
open Foundation

/-! ## The status word -/

def Outcome.status : Outcome → ℕ
  | .exited status => status.val <<< 8
  | .killed sig core => sig.val ||| (if core then 0x80 else 0)

def ChildEnd.status : ChildEnd → ℕ
  | .executed o => o.status
  | .failed errno => (errno % 256) <<< 8
  | .crashed => Outcome.status (.killed ⟨11,by decide⟩ true)

def wifexited (status : ℕ) : Bool := status &&& 0x7f = 0

def wexitstatus (status : ℕ) : ℕ := (status >>> 8) &&& 0xff

def wifsignaled (status : ℕ) : Bool := status &&& 0x7f ≠ 0 ∧ status &&& 0x7f ≠ 0x7f

def wtermsig (status : ℕ) : ℕ := status &&& 0x7f

def resultOf (status : ℕ) : ℤ :=
  if wifexited status = false then wexitstatus status
  else if wifsignaled status = true then wtermsig status
  else convertFromErrno (wexitstatus status) (wexitstatus status)

/-! ## The call -/

structure SyncEnv extends ExecEnv where
  forked : Bool
  nullDev : Bool
  waited : Bool
  afterReturn : Outcome

inductive Process
  | caller
  | child
deriving DecidableEq

def waitFor (s : SyncEnv) (status : ℕ) : ℤ := if s.waited then resultOf status else runWaitpidFailed

def forkChildSync (s : SyncEnv) (cmd : CString) : List (Process × ℤ) :=
  if s.forked = false then [(.caller,runForkFailed)]
  else if s.nullDev = false then [(.child,runForkFailed),(.caller,waitFor s s.afterReturn.status)]
  else [(.caller,waitFor s (execCmd s.toExecEnv cmd).status)]

/-- `CMD_BUFSZ` -/
def cmdBufsz : ℕ := 128

def command (text : CString) : CString :=
  ⟨text.bytes.take (cmdBufsz - 1),fun h => text.nulFree (List.mem_of_mem_take h)⟩

def runSync (s : SyncEnv) (text : CString) : List (Process × ℤ) := forkChildSync s (command text)

/-! ## What the result tells -/

def reasons : List (ℤ × Fin 256) := [(runNotFound,2),(runNotExec,8),(runNoAccess,13)]

/-- Zero is for the success of a program, and a reason is one of `execv`. -/
structure Tells (env : ExecEnv) (cmd : CString) (ret : ℤ) : Prop where
  success : ret = 0 ↔ execCmd env cmd = .executed (.exited 0)
  reason : ∀ r ∈ reasons, ret = r.1 → FailedFor env cmd r.2

/-- Zero is for the success of a program, and a reason is one of `execv` or an exit status. -/
structure TellsStatus (env : ExecEnv) (cmd : CString) (ret : ℤ) : Prop where
  success : ret = 0 ↔ execCmd env cmd = .executed (.exited 0)
  reason : ∀ r ∈ reasons, ret = r.1 → FailedFor env cmd r.2 ∨ execCmd env cmd = .executed (.exited r.2)

inductive Ordinary (env : ExecEnv) (cmd : CString) : Prop
  | executed (status : Fin 256) (h : execCmd env cmd = .executed (.exited status))
  | failed (errno : ℕ) (h : execCmd env cmd = .failed errno) (htried : tried env cmd ≠ [])

theorem resultOf_exited (status : Fin 256) :
    resultOf (Outcome.exited status).status = convertFromErrno status status := by
  revert status
  decide +kernel

theorem convertFromErrno_eq_zero (status : Fin 256) : convertFromErrno status status = 0 ↔ status = 0 := by
  revert status
  decide +kernel

/-- Only the number of the reason is taken for it. -/
theorem convertFromErrno_reason (status : Fin 256) :
    ∀ r ∈ reasons, convertFromErrno status status = r.1 → status = r.2 := by
  revert status
  decide +kernel

theorem tells_exited {env : ExecEnv} {cmd : CString} {status : Fin 256}
    (h : execCmd env cmd = .executed (.exited status)) :
    TellsStatus env cmd (convertFromErrno status status) := by
  refine ⟨?_,fun r hr hret => Or.inr ?_⟩
  · rw [convertFromErrno_eq_zero,h,ChildEnd.executed.injEq,Outcome.exited.injEq]
  · rw [h,convertFromErrno_reason status r hr hret]

theorem tells_failed {env : ExecEnv} {cmd : CString} {errno : ℕ} (h : FailedFor env cmd errno) :
    TellsStatus env cmd (resultOf (ChildEnd.failed errno).status) := by
  obtain ⟨hend,file,hfile,args,⟨e,hpos,hlt⟩,hexec,rfl⟩ := h
  have hstatus : (ChildEnd.failed e).status = (Outcome.exited ⟨e,hlt⟩).status := by
    rw [ChildEnd.status,Nat.mod_eq_of_lt hlt]
    rfl
  rw [hstatus,resultOf_exited]
  refine ⟨?_,fun r hr hret => Or.inl ?_⟩
  · rw [convertFromErrno_eq_zero,hend]
    refine iff_of_false (fun hzero => ?_) ChildEnd.noConfusion
    have hval := congrArg Fin.val hzero
    dsimp only [Fin.val_zero] at hval
    omega
  · have hval := congrArg Fin.val (convertFromErrno_reason ⟨e,hlt⟩ r hr hret)
    exact hval ▸ ⟨hend,file,hfile,args,⟨e,hpos,hlt⟩,hexec,rfl⟩

/-- Where `/dev/null` can be opened only the caller returns; a call that cannot fork or wait says so, and
otherwise the result of a program that ends by itself, or is tried in vain, tells what happened. -/
theorem run_sync_tells (s : SyncEnv) (text : CString) (hnull : s.nullDev = true) :
    ∃ ret, runSync s text = [(.caller,ret)] ∧
      (s.forked = false → ret = runForkFailed) ∧
      (s.forked = true → s.waited = false → ret = runWaitpidFailed) ∧
      (s.forked = true → s.waited = true → Ordinary s.toExecEnv (command text) →
        TellsStatus s.toExecEnv (command text) ret) := by
  cases hforked : s.forked with
  | false =>
    refine ⟨runForkFailed,by rw [runSync,forkChildSync,if_pos hforked],fun _ => rfl,?_,?_⟩
    · exact fun h => Bool.noConfusion h
    · exact fun h => Bool.noConfusion h
  | true =>
    have hrun : runSync s text = [(.caller,waitFor s (execCmd s.toExecEnv (command text)).status)] := by
      rw [runSync,forkChildSync,if_neg (by rw [hforked]; decide),if_neg (by rw [hnull]; decide)]
    refine ⟨_,hrun,fun h => Bool.noConfusion h,fun _ hwaited => ?_,fun _ hwaited hordinary => ?_⟩
    · rw [waitFor,hwaited]
      rfl
    · rw [waitFor,if_pos hwaited]
      cases hordinary with
      | executed status h =>
        rw [h,ChildEnd.status,resultOf_exited]
        exact tells_exited h
      | failed errno h htried =>
        rw [h]
        exact tells_failed (failedFor_of_tried h htried)

def tarEnv : SyncEnv where
  path := none
  errno := 0
  execv := fun _ _ => .ok (.exited 2)
  forked := true
  nullDev := true
  waited := true
  afterReturn := .exited 0

def tar : CString := ⟨[116,97,114],by decide⟩

theorem run_sync_tells_tar : ∃ ret, runSync tarEnv tar = [(.caller,ret)] ∧
    TellsStatus tarEnv.toExecEnv (command tar) ret := by
  obtain ⟨ret,hrun,-,-,htells⟩ := run_sync_tells tarEnv tar rfl
  exact ⟨ret,hrun,htells rfl rfl (.executed 2 rfl)⟩

/-- Its status is taken for the number of a program that is not found. -/
theorem run_sync_not_tells : ¬ ∃ ret, runSync tarEnv tar = [(.caller,ret)] ∧
    Tells tarEnv.toExecEnv (command tar) ret := by
  rintro ⟨ret,hrun,htells⟩
  have hend : execCmd tarEnv.toExecEnv (command tar) = .executed (.exited 2) := rfl
  have hret : ret = runNotFound := by
    rw [runSync,forkChildSync,if_neg (by decide),if_neg (by decide),hend,ChildEnd.status,waitFor,
      if_pos (show tarEnv.waited = true from rfl),
      resultOf_exited] at hrun
    exact (Prod.mk.inj (List.cons.inj hrun).1).2.symm
  obtain ⟨hfailed,-⟩ := htells.reason (runNotFound,2) List.mem_cons_self hret
  rw [hend] at hfailed
  cases hfailed

end Edelib.Run
