import Edelib.Foundation.CString
import Edelib.Foundation.Separated

/-! # Programs that are executed

A command is split into words, and its program is executed directly, through the shell,
or from one of the directories of `PATH`. If `execv` succeeds the program ends later;
otherwise there is an error number. Allocation succeeds.
-/
namespace Edelib.Run
open Foundation

def runNotFound : ℤ := 65535
def runNotExec : ℤ := 65533
def runForkFailed : ℤ := 65532
def runWaitpidFailed : ℤ := 65531
def runExecveFailed : ℤ := 65530
def runPipeFailed : ℤ := 65529
def runNoAccess : ℤ := 65528

def enoent : ℤ := 2
def enoexec : ℤ := 8
def eacces : ℤ := 13
def enotdir : ℤ := 20

def convertFromErrno (e fallback : ℤ) : ℤ :=
  if e = enoexec then runNotExec else if e = enoent then runNotFound else if e = eacces then runNoAccess else fallback

abbrev Errno := {e : ℕ // 0 < e ∧ e < 256}

abbrev Signal := {n : ℕ // 0 < n ∧ n < 127}

inductive Outcome
  | exited (status : Fin 256)
  | killed (sig : Signal) (core : Bool)

/-- What `exec_cmd` meets: `PATH`, an error number from before, and the programs. -/
structure ExecEnv where
  path : Option CString
  errno : ℕ
  execv : CString → List CString → Except Errno Outcome

/-- The end of a child that calls `exec_cmd`. Without any word it reads a null pointer. -/
inductive ChildEnd
  | executed (o : Outcome)
  | failed (errno : ℕ)
  | crashed

def binSh : CString := ⟨[47,98,105,110,47,115,104],by decide⟩

/-- `/bin:/usr/bin:.` -/
def defaultPath : CString := ⟨[47,98,105,110,58,47,117,115,114,47,98,105,110,58,46],by decide⟩

def cmdSplit (cmd : CString) : List CString := (Separated.tokens 32 cmd.bytes).map CString.ofBuf

/-- `PATH_MAX` -/
def pathMax : ℕ := 4096

def candidates (env : ExecEnv) (program : CString) : List CString :=
  if 47 ∈ program.bytes then [program]
  else (Separated.tokens 58 (env.path.getD defaultPath).bytes).map
    (fun t => CString.ofBuf ((t ++ 47 :: program.bytes).take (pathMax - 1)))

def execFile (env : ExecEnv) (program : CString) (args : List CString) : Except Errno Outcome :=
  match env.execv program args with
  | .ok o => .ok o
  | .error e => if (e.val : ℤ) = enoexec then env.execv binSh (binSh :: program :: args.tail) else .error e

def searchPath (env : ExecEnv) (args : List CString) : ℕ → List CString → ChildEnd
  | errno,[] => .failed errno
  | _,name :: names =>
    match execFile env name args with
    | .ok o => .executed o
    | .error e => if (e.val : ℤ) = eacces ∨ (e.val : ℤ) = enoent ∨ (e.val : ℤ) = enotdir then
        searchPath env args e names else .failed e

def execCmd (env : ExecEnv) (cmd : CString) : ChildEnd :=
  match cmdSplit cmd with
  | [] => .crashed
  | program :: args =>
    if 47 ∈ program.bytes then
      match execFile env program (program :: args) with
      | .ok o => .executed o
      | .error e => .failed e
    else searchPath env (program :: args) env.errno (candidates env program)

def tried (env : ExecEnv) (cmd : CString) : List CString :=
  match cmdSplit cmd with
  | [] => []
  | program :: _ => candidates env program

/-- The last attempt of a command that could not be executed failed with this number. -/
def FailedFor (env : ExecEnv) (cmd : CString) (errno : ℕ) : Prop :=
  execCmd env cmd = .failed errno ∧ ∃ file ∈ binSh :: tried env cmd, ∃ args e,
    env.execv file args = .error e ∧ e.val = errno

theorem execFile_error {env : ExecEnv} {program : CString} {args : List CString} {e : Errno}
    (h : execFile env program args = .error e) :
    ∃ file ∈ [binSh,program], ∃ args', env.execv file args' = .error e := by
  unfold execFile at h
  cases hexec : env.execv program args with
  | ok o =>
    rw [hexec] at h
    cases h
  | error e' =>
    rw [hexec] at h
    dsimp only at h
    split_ifs at h
    · exact ⟨binSh,List.mem_cons_self,_,h⟩
    · obtain rfl := Except.error.inj h
      exact ⟨program,List.mem_cons_of_mem _ (List.mem_singleton_self _),args,hexec⟩

/-- Where there is a name to try, what is reported is the error of an attempt. -/
theorem searchPath_failed {env : ExecEnv} {args names : List CString} {errno errno' : ℕ} (hnames : names ≠ [])
    (h : searchPath env args errno names = .failed errno') :
    ∃ file ∈ binSh :: names, ∃ args' e, env.execv file args' = .error e ∧ e.val = errno' := by
  induction names generalizing errno with
  | nil => exact absurd rfl hnames
  | cons name names ih =>
    unfold searchPath at h
    cases hexec : execFile env name args with
    | ok o =>
      rw [hexec] at h
      cases h
    | error e =>
      rw [hexec] at h
      obtain ⟨file,hfile,args',hfailed⟩ := execFile_error hexec
      have hmem : file ∈ binSh :: name :: names := by
        rcases List.mem_cons.mp hfile with rfl | hfile
        · exact List.mem_cons_self
        · rw [List.mem_singleton.mp hfile]
          exact List.mem_cons_of_mem _ List.mem_cons_self
      dsimp only at h
      split_ifs at h with hnext
      · cases names with
        | nil => exact ⟨file,hmem,args',e,hfailed,ChildEnd.failed.inj h⟩
        | cons name' names =>
          obtain ⟨file',hfile',hrest⟩ := ih (List.cons_ne_nil _ _) h
          refine ⟨file',?_,hrest⟩
          rcases List.mem_cons.mp hfile' with rfl | hfile'
          · exact List.mem_cons_self
          · exact List.mem_cons_of_mem _ (List.mem_cons_of_mem _ hfile')
      · exact ⟨file,hmem,args',e,hfailed,ChildEnd.failed.inj h⟩

theorem failedFor_of_tried {env : ExecEnv} {cmd : CString} {errno : ℕ} (h : execCmd env cmd = .failed errno)
    (htried : tried env cmd ≠ []) : FailedFor env cmd errno := by
  refine ⟨h,?_⟩
  unfold tried at htried ⊢
  unfold execCmd at h
  cases hsplit : cmdSplit cmd with
  | nil =>
    rw [hsplit] at h
    cases h
  | cons program args =>
    rw [hsplit] at h htried
    dsimp only at h htried ⊢
    by_cases hslash : 47 ∈ program.bytes
    · rw [if_pos hslash] at h
      rw [candidates,if_pos hslash]
      cases hexec : execFile env program (program :: args) with
      | ok o =>
        rw [hexec] at h
        cases h
      | error e =>
        rw [hexec] at h
        obtain ⟨file,hfile,args',hfailed⟩ := execFile_error hexec
        exact ⟨file,hfile,args',e,hfailed,ChildEnd.failed.inj h⟩
    · rw [if_neg hslash] at h
      exact searchPath_failed htried h

end Edelib.Run
