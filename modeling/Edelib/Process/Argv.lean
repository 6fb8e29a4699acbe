import Edelib.Process.RunSync
import Mathlib.Data.List.ReduceOption

/-! # The arguments of a program

A command is formatted in a buffer, and its words become an array that grows before a word is stored, but not before
its end. The array for the shell has two bytes more than the words take, not two places.
-/
namespace Edelib.Run
open Foundation

/-- An index outside of an array, or a null pointer that is read. -/
inductive ArgvFault
  | outside | null
deriving DecidableEq

abbrev Argv := List (Option CString)

def store (sz : ℕ) (arr : Argv) (p : Option CString) : Except ArgvFault Argv :=
  if arr.length < sz then .ok (arr ++ [p]) else .error .outside

def splitLoop : List CString → ℕ → Argv → Except ArgvFault (ℕ × Argv)
  | [], sz, arr => .ok (sz,arr)
  | p :: ps, sz, arr => do
    let sz := if arr.length ≥ sz then sz * 2 else sz
    let arr ← store sz arr (some p)
    splitLoop ps sz arr

def splitArgv (cmd : CString) : Except ArgvFault (Argv × ℕ) := do
  let (sz,arr) ← splitLoop (cmdSplit cmd) 10 []
  let args ← store sz arr none
  pure (args,arr.length)

/-- The array of `exec_cmd_via_shell`, of `sizeof(char*) * count + 2` bytes. -/
def shellArgv (program : CString) (args : Argv) (count : ℕ) : Except ArgvFault Argv := do
  let sz := (8 * count + 2) / 8
  let arr ← store sz [] (some binSh)
  let arr ← store sz arr (some program)
  let arr ← (args.tail.takeWhile Option.isSome).foldlM (store sz) arr
  store sz arr none

/-- A call of `execv`, which is made by `exec_cmd` or by `exec_cmd_via_shell`. -/
structure ExecCall where
  shell : Bool
  file : CString
  argv : Argv

/-- The calls of `execv`, and a result if there is no fault. -/
abbrev Traced (α : Type) := List ExecCall × Except ArgvFault α

section Trace
variable (env : ExecEnv) (args : Argv) (count : ℕ)

/-- A program is executed, or the shell with it. -/
def attempt (name : CString) : Traced (Except Errno Outcome) :=
  match env.execv name args.reduceOption with
  | .ok o => ([⟨false,name,args⟩],.ok (.ok o))
  | .error e =>
    if (e.val : ℤ) = enoexec then
      match shellArgv name args count with
      | .error fault => ([⟨false,name,args⟩],.error fault)
      | .ok argv => ([⟨false,name,args⟩,⟨true,binSh,argv⟩],.ok (env.execv binSh argv.reduceOption))
    else ([⟨false,name,args⟩],.ok (.error e))

def Skips (e : Errno) : Prop := (e.val : ℤ) = eacces ∨ (e.val : ℤ) = enoent ∨ (e.val : ℤ) = enotdir

instance (e : Errno) : Decidable (Skips e) := inferInstanceAs (Decidable (_ ∨ _ ∨ _))

def tracePath : ℕ → List CString → Traced ChildEnd
  | errno, [] => ([],.ok (.failed errno))
  | _, name :: names =>
    match attempt env args count name with
    | (calls,.error fault) => (calls,.error fault)
    | (calls,.ok (.ok o)) => (calls,.ok (.executed o))
    | (calls,.ok (.error e)) =>
      if Skips e then
        let (more,result) := tracePath e names
        (calls ++ more,result)
      else (calls,.ok (.failed e))

end Trace

def traceCmd (env : ExecEnv) (cmd : CString) : Traced ChildEnd :=
  match splitArgv cmd with
  | .error fault => ([],.error fault)
  | .ok (args,count) =>
    match args with
    | some program :: _ =>
      if 47 ∈ program.bytes then
        match attempt env args count program with
        | (calls,.error fault) => (calls,.error fault)
        | (calls,.ok (.ok o)) => (calls,.ok (.executed o))
        | (calls,.ok (.error e)) => (calls,.ok (.failed e))
      else tracePath env args count env.errno (candidates env program)
    | _ => ([],.error .null)

def traceRun (env : ExecEnv) (text : CString) : Traced ChildEnd := traceCmd env (command text)

/-! ## What is executed -/

def ended (args : List CString) : Argv := args.map some ++ [none]

def wordArgv (text : CString) : Argv := ended (cmdSplit text)

/-- There is no fault, and every program is executed with the words of the whole text, or the shell with it. -/
structure Faithful (env : ExecEnv) (text : CString) : Prop where
  noFault : ∃ result, (traceRun env text).2 = .ok result
  words : ∀ call ∈ (traceRun env text).1, call.shell = false → call.argv = wordArgv text
  shells : ∀ call ∈ (traceRun env text).1, call.shell = true → call.file = binSh ∧
    ∃ name ∈ tried env (command text), call.argv = some binSh :: some name :: (wordArgv text).tail

/-- No attempt that is made fails with `ENOEXEC`. -/
def Direct (env : ExecEnv) (args : List CString) : List CString → Prop
  | [] => True
  | name :: names => ∀ e, env.execv name args = .error e → (e.val : ℤ) ≠ enoexec ∧ (Skips e → Direct env args names)

/-- There is a word in what is formatted, the words do not fill the array, no attempt falls back to the shell, and
what is not formatted is blank unless nothing is tried. -/
structure Executable (env : ExecEnv) (text : CString) : Prop where
  word : cmdSplit (command text) ≠ []
  room : ∀ k, (cmdSplit (command text)).length ≠ 10 * 2 ^ k
  direct : Direct env (cmdSplit (command text)) (tried env (command text))
  whole : tried env (command text) = [] ∨ ∀ c ∈ text.bytes.drop (cmdBufsz - 1), c = 32

/-! ## Arrays -/

theorem store_eq_ok {sz : ℕ} {arr arr' : Argv} {p : Option CString} :
    store sz arr p = .ok arr' ↔ arr.length < sz ∧ arr ++ [p] = arr' := by
  rw [store]
  split_ifs with h
  · rw [Except.ok.injEq,and_iff_right h]
  · exact iff_of_false (fun heq => by cases heq) (fun hand => h hand.1)

/-- The array has room for the words; it has doubled only where it was full. -/
theorem splitLoop_eq {ps : List CString} {arr : Argv} {k : ℕ} (hle : arr.length ≤ 10 * 2 ^ k)
    (hfull : k = 0 ∨ 10 * 2 ^ (k - 1) < arr.length) :
    ∃ k', splitLoop ps (10 * 2 ^ k) arr = .ok (10 * 2 ^ k',arr ++ ps.map some) ∧
      (arr ++ ps.map some).length ≤ 10 * 2 ^ k' ∧ (k' = 0 ∨ 10 * 2 ^ (k' - 1) < (arr ++ ps.map some).length) := by
  induction ps generalizing arr k with
  | nil =>
    rw [List.map_nil,List.append_nil]
    exact ⟨k,rfl,hle,hfull⟩
  | cons p ps ih =>
    have hsplit : arr ++ (p :: ps).map some = (arr ++ [some p]) ++ ps.map some := by
      rw [List.map_cons,List.append_assoc,List.singleton_append]
    have hlength : (arr ++ [some p]).length = arr.length + 1 := by
      rw [List.length_append,List.length_singleton]
    rw [hsplit,splitLoop]
    by_cases hgrow : arr.length ≥ 10 * 2 ^ k
    · have hpow : 10 * 2 ^ k * 2 = 10 * 2 ^ (k + 1) := by
        rw [Nat.pow_succ,Nat.mul_assoc]
      have hpos : 0 < 2 ^ k := Nat.two_pow_pos k
      have hstore : store (10 * 2 ^ (k + 1)) arr (some p) = .ok (arr ++ [some p]) := store_eq_ok.mpr ⟨by omega,rfl⟩
      simp only [if_pos hgrow,hpow,hstore]
      exact ih (by omega) (.inr (by rw [Nat.add_sub_cancel]; omega))
    · have hstore : store (10 * 2 ^ k) arr (some p) = .ok (arr ++ [some p]) := store_eq_ok.mpr ⟨by omega,rfl⟩
      simp only [if_neg hgrow,hstore]
      exact ih (by omega) (hfull.imp_right (fun h => by omega))

theorem bind_eq_ok {α β : Type} {x : Except ArgvFault α} {f : α → Except ArgvFault β} {b : β} :
    x.bind f = .ok b ↔ ∃ a, x = .ok a ∧ f a = .ok b := by
  cases x with
  | error fault => exact iff_of_false (fun h => by cases h) (fun ⟨_,h,_⟩ => by cases h)
  | ok a => exact ⟨fun h => ⟨a,rfl,h⟩,fun ⟨_,ha,h⟩ => by cases ha; exact h⟩

/-- The words are stored; whether the end is depends on the size that is reached. -/
theorem splitArgv_eq (cmd : CString) : ∃ k, splitArgv cmd =
      (store (10 * 2 ^ k) ((cmdSplit cmd).map some) none).bind (fun args => .ok (args,(cmdSplit cmd).length)) ∧
    (cmdSplit cmd).length ≤ 10 * 2 ^ k ∧ (k = 0 ∨ 10 * 2 ^ (k - 1) < (cmdSplit cmd).length) := by
  obtain ⟨k,hloop,hle,hfull⟩ := @splitLoop_eq (cmdSplit cmd) [] 0 (Nat.zero_le _) (.inl rfl)
  have hten : 10 * 2 ^ 0 = 10 := rfl
  have hlength : ((cmdSplit cmd).map some).length = (cmdSplit cmd).length := List.length_map _
  rw [List.nil_append,hten] at hloop
  rw [List.nil_append,hlength] at hle hfull
  refine ⟨k,?_,hle,hfull⟩
  rw [splitArgv,hloop,← hlength]
  rfl

/-- An array is full where the number of words is one of its sizes. -/
theorem splitArgv_ne_ok {cmd : CString} {j : ℕ} (hj : (cmdSplit cmd).length = 10 * 2 ^ j) (r : Argv × ℕ) :
    splitArgv cmd ≠ .ok r := by
  obtain ⟨k,heq,hle,hfull⟩ := splitArgv_eq cmd
  rw [heq]
  intro h
  obtain ⟨args,hstore,-⟩ := bind_eq_ok.mp h
  have hlt := (store_eq_ok.mp hstore).1
  rw [List.length_map] at hlt
  rw [hj] at hle hfull hlt
  have hle' : j ≤ k := (Nat.pow_le_pow_iff_right (by decide)).mp (Nat.le_of_mul_le_mul_left hle (by decide))
  have hne : j ≠ k := fun heq => Nat.lt_irrefl _ (heq ▸ hlt)
  obtain rfl | hprev := hfull
  · omega
  · have hlt' : k - 1 < j := (Nat.pow_lt_pow_iff_right (by decide)).mp (Nat.lt_of_mul_lt_mul_left hprev)
    omega

theorem splitArgv_ok {cmd : CString} (h : ∀ k, (cmdSplit cmd).length ≠ 10 * 2 ^ k) :
    splitArgv cmd = .ok (wordArgv cmd,(cmdSplit cmd).length) := by
  obtain ⟨k,heq,hle,-⟩ := splitArgv_eq cmd
  have hlt : ((cmdSplit cmd).map some).length < 10 * 2 ^ k := by
    rw [List.length_map]
    exact lt_of_le_of_ne hle (h k)
  rw [heq,store,if_pos hlt]
  rfl

theorem length_stored {sz : ℕ} {ps arr arr' : Argv} (h : ps.foldlM (store sz) arr = .ok arr') :
    arr'.length = arr.length + ps.length := by
  induction ps generalizing arr with
  | nil =>
    cases h
    rfl
  | cons p ps ih =>
    obtain ⟨next,hstore,hrest⟩ := bind_eq_ok.mp h
    rw [ih hrest,← (store_eq_ok.mp hstore).2,List.length_append,List.length_singleton,List.length_cons]
    omega

/-- The array for the shell has no room for what is stored in it. -/
theorem shellArgv_ne_ok {program : CString} {args : List CString} (hargs : args ≠ []) (argv : Argv) :
    shellArgv program (ended args) args.length ≠ .ok argv := by
  intro h
  obtain ⟨arr₁,h₁,h⟩ := bind_eq_ok.mp h
  obtain ⟨arr₂,h₂,h⟩ := bind_eq_ok.mp h
  obtain ⟨arr₃,h₃,h⟩ := bind_eq_ok.mp h
  have hrest : ((ended args).tail.takeWhile Option.isSome).length = args.length - 1 := by
    cases args with
    | nil => exact absurd rfl hargs
    | cons program args => simp [ended]
  have hlength₁ := congrArg List.length (store_eq_ok.mp h₁).2
  have hlength₂ := congrArg List.length (store_eq_ok.mp h₂).2
  have hlength₃ := length_stored h₃
  have hlast := (store_eq_ok.mp h).1
  have hpos := List.length_pos_iff.mpr hargs
  rw [List.length_append,List.length_singleton] at hlength₁ hlength₂
  rw [List.length_nil] at hlength₁
  omega

/-! ## Attempts -/

section Attempts
variable {env : ExecEnv} {args : List CString} {name : CString} {names : List CString} {errno : ℕ}

theorem reduceOption_ended (args : List CString) : (ended args).reduceOption = args := by
  have hsome : (args.map some).reduceOption = args := by
    rw [List.reduceOption,List.filterMap_map]
    exact List.filterMap_some
  rw [ended,List.reduceOption_append,hsome]
  exact List.append_nil _

/-- An attempt that does not fall back is one call. -/
theorem attempt_direct (h : ∀ e, env.execv name args = .error e → (e.val : ℤ) ≠ enoexec) :
    attempt env (ended args) args.length name = ([⟨false,name,ended args⟩],.ok (env.execv name args)) := by
  rw [attempt,reduceOption_ended]
  cases hexec : env.execv name args with
  | ok o => rfl
  | error e => exact if_neg (h e hexec)

/-- One that does ends in a fault. -/
theorem attempt_shell (hargs : args ≠ []) {e : Errno} (hexec : env.execv name args = .error e)
    (h : (e.val : ℤ) = enoexec) : ∃ fault, (attempt env (ended args) args.length name).2 = .error fault := by
  rw [attempt,reduceOption_ended,hexec]
  dsimp only
  rw [if_pos h]
  cases hshell : shellArgv name (ended args) args.length with
  | error fault => exact ⟨fault,rfl⟩
  | ok argv => exact absurd hshell (shellArgv_ne_ok hargs argv)

/-- Where no attempt falls back there is a result, and each call has the arguments. -/
theorem tracePath_direct (h : Direct env args names) :
    (∃ result, (tracePath env (ended args) args.length errno names).2 = .ok result) ∧
      ∀ call ∈ (tracePath env (ended args) args.length errno names).1, call.shell = false ∧ call.argv = ended args := by
  induction names generalizing errno with
  | nil => exact ⟨⟨_,rfl⟩,fun call hcall => absurd hcall List.not_mem_nil⟩
  | cons name names ih =>
    rw [tracePath,attempt_direct (fun e he => (h e he).1)]
    cases hexec : env.execv name args with
    | ok o =>
      refine ⟨⟨_,rfl⟩,fun call hcall => ?_⟩
      rw [List.mem_singleton.mp hcall]
      exact ⟨rfl,rfl⟩
    | error e =>
      dsimp only
      split_ifs with hskips
      · obtain ⟨hresult,hcalls⟩ := @ih e ((h e hexec).2 hskips)
        refine ⟨hresult,fun call hcall => ?_⟩
        obtain rfl | hcall := List.mem_cons.mp hcall
        · exact ⟨rfl,rfl⟩
        · exact hcalls call hcall
      · refine ⟨⟨_,rfl⟩,fun call hcall => ?_⟩
        rw [List.mem_singleton.mp hcall]
        exact ⟨rfl,rfl⟩

theorem direct_of_tracePath (hargs : args ≠ []) {result : ChildEnd}
    (h : (tracePath env (ended args) args.length errno names).2 = .ok result) : Direct env args names := by
  induction names generalizing errno with
  | nil => trivial
  | cons name names ih =>
    intro e hexec
    by_cases hnoexec : (e.val : ℤ) = enoexec
    · obtain ⟨fault,hfault⟩ := attempt_shell hargs hexec hnoexec
      rw [tracePath] at h
      obtain ⟨⟨calls,r⟩,hattempt⟩ : ∃ t, t = attempt env (ended args) args.length name := ⟨_,rfl⟩
      rw [← hattempt] at hfault h
      obtain rfl : r = .error fault := hfault
      cases h
    · refine ⟨hnoexec,fun hskips => ?_⟩
      rw [tracePath,attempt_direct (fun e' he' => by rw [hexec] at he'; cases he'; exact hnoexec),hexec] at h
      dsimp only at h
      rw [if_pos hskips] at h
      exact ih h

/-- The first attempt is made. -/
theorem tracePath_calls (h : Direct env args names) (hnames : names ≠ []) :
    ∃ call ∈ (tracePath env (ended args) args.length errno names).1, call.shell = false ∧ call.argv = ended args := by
  cases names with
  | nil => exact absurd rfl hnames
  | cons name names =>
    refine ⟨⟨false,name,ended args⟩,?_,rfl,rfl⟩
    rw [tracePath,attempt_direct (fun e he => (h e he).1)]
    cases hexec : env.execv name args with
    | ok o => exact List.mem_cons_self
    | error e =>
      dsimp only
      split_ifs
      · exact List.mem_cons_self
      · exact List.mem_cons_self

end Attempts

/-! ## Commands -/

section Commands
variable {env : ExecEnv} {cmd : CString}

/-- A program with a path is tried like one that is found in a single directory. -/
theorem traceCmd_eq (hword : cmdSplit cmd ≠ []) (hroom : ∀ k, (cmdSplit cmd).length ≠ 10 * 2 ^ k) :
    traceCmd env cmd = tracePath env (wordArgv cmd) (cmdSplit cmd).length env.errno (tried env cmd) := by
  rw [traceCmd,splitArgv_ok hroom,tried,wordArgv]
  cases hsplit : cmdSplit cmd with
  | nil => exact absurd hsplit hword
  | cons program args =>
    rw [ended,List.map_cons,List.cons_append]
    dsimp only
    split_ifs with hslash
    · rw [candidates,if_pos hslash,tracePath]
      obtain ⟨⟨calls,r⟩,hattempt⟩ : ∃ t, t = attempt env (some program :: (args.map some ++ [none]))
        (program :: args).length program := ⟨_,rfl⟩
      rw [← hattempt]
      cases r with
      | error fault => rfl
      | ok r =>
        cases r with
        | ok o => rfl
        | error e =>
          dsimp only
          rw [tracePath,List.append_nil,ite_self]
    · rfl

theorem traceCmd_wordless (h : cmdSplit cmd = []) : (traceCmd env cmd).2 = .error .null := by
  have hroom : ∀ k, (cmdSplit cmd).length ≠ 10 * 2 ^ k := by
    intro k
    have hpos : 0 < 2 ^ k := Nat.two_pow_pos k
    rw [h,List.length_nil]
    omega
  rw [traceCmd,splitArgv_ok hroom,wordArgv,h]
  rfl

theorem bytes_cmdSplit (cmd : CString) : (cmdSplit cmd).map CString.bytes = Separated.tokens 32 cmd.bytes := by
  rw [cmdSplit,List.map_map]
  refine (List.map_congr_left (fun tok htok => ?_)).trans (List.map_id _)
  have hfree : (0 : UInt8) ∉ tok := by
    intro hzero
    have hmem : (0 : UInt8) ∈ (Separated.tokens 32 cmd.bytes).flatten := List.mem_flatten.mpr ⟨tok,htok,hzero⟩
    rw [Separated.flatten_tokens] at hmem
    exact cmd.nulFree (List.mem_of_mem_filter hmem)
  exact congrArg CString.bytes (CString.ofBuf_eq hfree)

theorem cmdSplit_command {text : CString} :
    cmdSplit (command text) = cmdSplit text ↔ ∀ c ∈ text.bytes.drop (cmdBufsz - 1), c = 32 := by
  have hinj : Function.Injective CString.bytes := fun s t h => CString.ext h
  rw [← (List.map_injective_iff.mpr hinj).eq_iff,bytes_cmdSplit,bytes_cmdSplit,
    ← Separated.tokens_append_iff 32 (text.bytes.take (cmdBufsz - 1)),List.take_append_drop,eq_comm]
  rfl

theorem ended_injective {args args' : List CString} : ended args = ended args' ↔ args = args' := by
  rw [ended,ended,List.append_left_inj,(List.map_injective_iff.mpr (Option.some_injective CString)).eq_iff]

end Commands

/-- The words of a command are executed without a fault if and only if it is executable. -/
theorem faithful_iff (env : ExecEnv) (text : CString) : Faithful env text ↔ Executable env text := by
  constructor
  · rintro ⟨⟨result,hresult⟩,hwords,-⟩
    have hword : cmdSplit (command text) ≠ [] := by
      intro hnil
      rw [traceRun,traceCmd_wordless hnil] at hresult
      cases hresult
    have hroom : ∀ k, (cmdSplit (command text)).length ≠ 10 * 2 ^ k := by
      intro k hk
      have hne := splitArgv_ne_ok hk
      rw [traceRun,traceCmd] at hresult
      cases hsplit : splitArgv (command text) with
      | error fault =>
        rw [hsplit] at hresult
        cases hresult
      | ok r => exact hne r hsplit
    rw [traceRun,traceCmd_eq hword hroom] at hresult hwords
    have hdirect := direct_of_tracePath hword hresult
    refine ⟨hword,hroom,hdirect,or_iff_not_imp_left.mpr (fun htried => ?_)⟩
    obtain ⟨call,hcall,hshell,hargv⟩ := @tracePath_calls env _ _ env.errno hdirect htried
    exact cmdSplit_command.mp (ended_injective.mp (hargv.symm.trans (hwords call hcall hshell)))
  · rintro ⟨hword,hroom,hdirect,hwhole⟩
    obtain ⟨hresult,hcalls⟩ := @tracePath_direct env _ _ env.errno hdirect
    rw [← wordArgv,← traceCmd_eq hword hroom] at hresult hcalls
    refine ⟨hresult,fun call hcall _ => ?_,fun call hcall hshell => ?_⟩
    · obtain htried | hblank := hwhole
      · rw [traceRun,traceCmd_eq hword hroom,htried] at hcall
        exact absurd hcall List.not_mem_nil
      · rw [(hcalls call hcall).2,wordArgv,wordArgv,cmdSplit_command.mpr hblank]
    · exact absurd ((hcalls call hcall).1.symm.trans hshell) Bool.false_ne_true

/-- A command without a word reads a null pointer. -/
theorem not_faithful : ¬ ∀ (env : ExecEnv) (text : CString), Faithful env text := by
  intro h
  obtain ⟨result,hresult⟩ := (h ⟨none,0,fun _ _ => .ok (.exited 0)⟩ CString.empty).noFault
  rw [traceRun,traceCmd_wordless (by decide)] at hresult
  cases hresult

end Edelib.Run
