import Edelib.Process.RunAsyncRuns

/-! # Calls that go wrong

The caller leaves its pipes open, takes a failure that is told with one number for none, or
reads on for ever after a signal.
-/
namespace Edelib.Run
open Foundation AsyncState
variable {env : AsyncEnv}

/-- Two ways to leave the call early: the pipes that were opened stay open. -/
theorem not_correct_of_ends {ret : ℤ} {t : AsyncState} (hstart : start env = t)
    (hparent : t.parent = .returned ret none) (hret : ret ≠ 0) (hends : t.ends ≠ []) : ¬ Correct env := by
  intro h
  have hreports := h.reports [] t (by rw [hstart]; rfl)
  exact hends ((hreports ret none hparent).2.2 hret)

theorem not_correct_of_errPipe (hpid : env.pidPipe ≠ false) (herr : env.errPipe = false) : ¬ Correct env := by
  refine not_correct_of_ends (by rw [start,if_neg hpid,if_pos herr]) rfl ?_ (List.cons_ne_nil _ _)
  decide

theorem not_correct_of_forked (hpid : env.pidPipe ≠ false) (herr : env.errPipe ≠ false) (hfork : env.forked = false) :
    ¬ Correct env := by
  refine not_correct_of_ends (by rw [start,if_neg hpid,if_neg herr,if_pos hfork]) rfl ?_ (List.cons_ne_nil _ _)
  decide

/-! ## A failure taken for none -/

theorem next_fresh {chunk : List UInt8} (hne : chunk ≠ []) (hlen : chunk.length < 8) :
    Reading.fresh.next chunk = .inl ⟨chunk,false⟩ := by
  have hnext := next_eq (r := .fresh) rfl chunk
  rw [Reading.fresh,List.nil_append,if_neg (not_or_intro hne (Nat.not_le_of_lt hlen))] at hnext
  exact hnext

theorem step_readErr (env : AsyncEnv) {t : AsyncState} {r : Reading} {n : ℕ} {c : List UInt8 × List UInt8}
    (hparent : t.parent = .readingErr r) (hc : readChunk (8 - r.got.length) t.errPipe t.errWriter n = some c) :
    AsyncAction.step env t (.parent n) = match r.next c.1 with
      | .inl r' => some { t with parent := .readingErr r', errPipe := c.2 }
      | .inr got => some (afterErr env { t with errPipe := c.2 } got) := by
  rw [AsyncAction.step,stepParent]
  simp only [hparent,hc,Option.map_some]
  cases r.next c.1 with
  | inl r' => rfl
  | inr got => rfl

theorem step_readPid (env : AsyncEnv) {t : AsyncState} {r : Reading} {n : ℕ} {c : List UInt8 × List UInt8}
    (hparent : t.parent = .readingPid r) (hc : readChunk (4 - r.got.length) t.pidPipe t.pidWriter n = some c) :
    AsyncAction.step env t (.parent n) = match r.next c.1 with
      | .inl r' => some { t with parent := .readingPid r', pidPipe := c.2 }
      | .inr got => some (afterPid env { t with pidPipe := c.2 } got) := by
  rw [AsyncAction.step,stepParent]
  simp only [hparent,hc,Option.map_some]
  cases r.next c.1 with
  | inl r' => rfl
  | inr got => rfl

/-- Fewer than two numbers in the second pipe are no failure to the caller. -/
theorem exec_readEnd (env : AsyncEnv) {t : AsyncState} {got : List UInt8} (hparent : t.parent = .readingErr ⟨got,false⟩)
    (hwriter : t.errWriter = false) (hempty : t.errPipe = []) (hlen : got.length < 8) :
    AsyncAction.step env t (.parent 0) = some { t with parent := .readingPid .fresh } := by
  have hc : readChunk (8 - got.length) t.errPipe t.errWriter 0 = some ([],[]) := by
    rw [readChunk,if_neg (by omega),if_pos hempty,if_neg (by rw [hwriter]; decide)]
  have hnext : Reading.next ⟨got,false⟩ [] = .inr got := by
    rw [next_eq rfl,if_pos (Or.inl rfl),List.append_nil]
  rw [step_readErr env hparent hc]
  simp only [hnext]
  rw [← hempty,afterErr,if_neg (by omega)]

theorem exec_readErr (env : AsyncEnv) {t : AsyncState} (hparent : t.parent = .waiting) (hchild : t.child = .exited)
    (hwriter : t.errWriter = false) (hlen : t.errPipe.length < 8) :
    ∃ acts, Transition.exec (AsyncAction.step env) t acts =
      some { t with parent := .readingPid .fresh, errPipe := [] } := by
  have hwait : AsyncAction.step env t (.parent 0) = some { t with parent := .readingErr .fresh } := by
    rw [AsyncAction.step,stepParent,hparent]
    exact if_pos hchild
  by_cases hempty : t.errPipe = []
  · refine ⟨[.parent 0,.parent 0],?_⟩
    have hread := exec_readEnd env (t := { t with parent := .readingErr .fresh }) rfl hwriter hempty (by decide)
    simp only [Transition.exec,List.foldlM_cons,List.foldlM_nil,hwait,hread,Option.bind_eq_bind,Option.bind_some]
    rw [← hempty]
    rfl
  · refine ⟨[.parent 0,.parent t.errPipe.length,.parent 0],?_⟩
    have hpos := List.length_pos_iff.mpr hempty
    have hc : readChunk 8 t.errPipe t.errWriter t.errPipe.length = some (t.errPipe,[]) := by
      rw [readChunk,if_neg (by decide),if_neg hempty,if_pos ⟨hpos,hlen.le,le_rfl⟩,List.take_length,List.drop_length]
    have hnext := next_fresh hempty hlen
    have hbytes := step_readErr env (t := { t with parent := .readingErr .fresh }) rfl hc
    simp only [hnext] at hbytes
    have hread := exec_readEnd env (t := { t with parent := .readingErr ⟨t.errPipe,false⟩, errPipe := [] })
      rfl hwriter rfl hlen
    simp only [Transition.exec,List.foldlM_cons,List.foldlM_nil,hwait,hbytes,hread,Option.bind_eq_bind,
      Option.bind_some]
    rfl

/-- The caller takes the first four bytes of the first pipe for the number of the program. -/
theorem exec_readPid (env : AsyncEnv) {t : AsyncState} (hparent : t.parent = .readingPid .fresh)
    (hlen : 4 ≤ t.pidPipe.length) :
    ∃ acts t' childPid, Transition.exec (AsyncAction.step env) t acts = some t' ∧
      t'.parent = .returned 0 childPid ∧ t'.grand = t.grand := by
  have htake : (t.pidPipe.take 4).length = 4 := List.length_take_of_le hlen
  have hne : t.pidPipe ≠ [] := List.length_pos_iff.mp (by omega)
  have hc : readChunk 4 t.pidPipe t.pidWriter 4 = some (t.pidPipe.take 4,t.pidPipe.drop 4) := by
    rw [readChunk,if_neg (by decide),if_neg hne,if_pos ⟨by decide,le_rfl,hlen⟩]
  have hfour : t.pidPipe.take 4 ≠ [] := List.length_pos_iff.mp (by omega)
  have hnext := next_fresh hfour (by omega)
  have hfirst := step_readPid env hparent hc
  simp only [hnext] at hfirst
  have hc' : readChunk (4 - (t.pidPipe.take 4).length) (t.pidPipe.drop 4) t.pidWriter 0 = some ([],t.pidPipe.drop 4) :=
    if_pos (by omega)
  have hnext' : Reading.next ⟨t.pidPipe.take 4,false⟩ [] = .inr (t.pidPipe.take 4) := by
    rw [next_eq rfl,if_pos (Or.inl rfl),List.append_nil]
  have hlast := step_readPid env
    (t := { t with parent := .readingPid ⟨t.pidPipe.take 4,false⟩, pidPipe := t.pidPipe.drop 4 }) rfl hc'
  simp only [hnext'] at hlast
  rw [afterPid,if_neg (by omega)] at hlast
  refine ⟨[.parent 4,.parent 0],{ t with
    parent := .returned 0 (some (word env (t.pidPipe.take 4) 0)), pidPipe := t.pidPipe.drop 4, ends := [] },_,
    ?_,rfl,rfl⟩
  simp only [Transition.exec,List.foldlM_cons,List.foldlM_nil,hfirst,hlast,Option.bind_eq_bind,Option.bind_some]
  rfl

/-- Where all of this happened before the program was executed, the caller reports that it was. -/
theorem not_correct_of_silent {acts : List AsyncAction} {t : AsyncState}
    (hrun : Transition.exec (AsyncAction.step env) (start env) acts = some t) (hparent : t.parent = .waiting)
    (hchild : t.child = .exited) (hwriter : t.errWriter = false) (herr : t.errPipe.length < 8)
    (hpid : 4 ≤ t.pidPipe.length) (hgrand : t.grand ≠ .executed) : ¬ Correct env := by
  intro h
  obtain ⟨acts₁,hrun₁⟩ := exec_readErr env hparent hchild hwriter herr
  obtain ⟨acts₂,t',childPid,hrun₂,hreturned,hgrand'⟩ := exec_readPid env
    (t := { t with parent := .readingPid .fresh, errPipe := [] }) rfl hpid
  have hreports := h.reports (acts ++ acts₁ ++ acts₂) t' (by
    rw [Transition.exec_append,Transition.exec_append,hrun,Option.bind_some,hrun₁,Option.bind_some,hrun₂])
  have hexecuted := (hreports 0 childPid hreturned).1.mp rfl
  exact hgrand (hgrand'.symm.trans hexecuted)

theorem start_forked (hpid : env.pidPipe ≠ false) (herr : env.errPipe ≠ false) (hfork : env.forked ≠ false) :
    start env = ⟨.waiting,.forking,.absent,[],[],[.pidRead,.errRead],env.interrupts⟩ := by
  rw [start,if_neg hpid,if_neg herr,if_neg hfork]

/-- The child says that it could not fork with one number, and the caller takes it for none. -/
theorem not_correct_of_grandForked
    (hstart : start env = ⟨.waiting,.forking,.absent,[],[],[.pidRead,.errRead],env.interrupts⟩)
    (hgrand : env.grandForked = false) : ¬ Correct env := by
  have hrun : Transition.exec (AsyncAction.step env) (start env) [.child,.child,.child] =
      some ⟨.waiting,.exited,.absent,env.order.bytes32 (-1),env.order.bytes32 (.ofInt 32 runForkFailed),
        [.pidRead,.errRead],env.interrupts⟩ := by
    rw [hstart]
    simp [Transition.exec,AsyncAction.step,stepChild,hgrand,writePid,writeErr]
  refine not_correct_of_silent hrun rfl rfl rfl ?_ ?_ GrandState.noConfusion
  · rw [ByteOrder.length_bytes32]
    decide
  · rw [ByteOrder.length_bytes32]

theorem exec_forked (hstart : start env = ⟨.waiting,.forking,.absent,[],[],[.pidRead,.errRead],env.interrupts⟩)
    (hgrand : env.grandForked ≠ false) : Transition.exec (AsyncAction.step env) (start env) [.child,.child,.child] =
      some ⟨.waiting,.exited,.opening,env.order.bytes32 env.grandPid,[],[.pidRead,.errRead],env.interrupts⟩ := by
  rw [hstart]
  simp [Transition.exec,AsyncAction.step,stepChild,hgrand,writePid]

/-- So does the grandchild when it cannot open the device. -/
theorem not_correct_of_nullDev
    (hstart : start env = ⟨.waiting,.forking,.absent,[],[],[.pidRead,.errRead],env.interrupts⟩)
    (hgrand : env.grandForked ≠ false) (hnull : env.nullDev = false) : ¬ Correct env := by
  have hrun : Transition.exec (AsyncAction.step env) (start env)
      ([.child,.child,.child] ++ [.grandchild,.grandchild,.grandchild]) =
      some ⟨.waiting,.exited,.exited,env.order.bytes32 env.grandPid ++ env.order.bytes32 0,
        env.order.bytes32 env.nullErrno,[.pidRead,.errRead],env.interrupts⟩ := by
    rw [Transition.exec_append,exec_forked hstart hgrand]
    simp [Transition.exec,AsyncAction.step,stepGrand,hnull,writePid,writeErr]
  refine not_correct_of_silent hrun rfl rfl rfl ?_ ?_ GrandState.noConfusion
  · rw [ByteOrder.length_bytes32]
    decide
  · rw [List.length_append,ByteOrder.length_bytes32]
    exact Nat.le_add_right _ _

/-- Without a program the grandchild says nothing. -/
theorem not_correct_of_crashed
    (hstart : start env = ⟨.waiting,.forking,.absent,[],[],[.pidRead,.errRead],env.interrupts⟩)
    (hgrand : env.grandForked ≠ false) (hnull : env.nullDev ≠ false) (hcrashed : env.grandchild = .crashed) :
    ¬ Correct env := by
  have hrun : Transition.exec (AsyncAction.step env) (start env) ([.child,.child,.child] ++ [.grandchild,.grandchild]) =
      some ⟨.waiting,.exited,.exited,env.order.bytes32 env.grandPid,[],[.pidRead,.errRead],env.interrupts⟩ := by
    rw [Transition.exec_append,exec_forked hstart hgrand]
    simp [Transition.exec,AsyncAction.step,stepGrand,hnull,hcrashed]
  refine not_correct_of_silent hrun rfl rfl rfl (Nat.zero_lt_succ 7) ?_ GrandState.noConfusion
  rw [ByteOrder.length_bytes32]

/-! ## Reading for ever -/

/-- A reading that was interrupted forgets what it reads. -/
theorem step_spin {t : AsyncState} (hparent : t.parent = .readingErr ⟨[],true⟩) (hempty : t.errPipe = [])
    (hwriter : t.errWriter = false) : AsyncAction.step env t (.parent 0) = some t := by
  have hc : readChunk (8 - (⟨[],true⟩ : Reading).got.length) t.errPipe t.errWriter 0 = some ([],[]) := by
    rw [readChunk,if_neg (by decide),if_pos hempty,if_neg (by rw [hwriter]; decide)]
  rw [step_readErr env hparent hc]
  simp only [Reading.next,if_true]
  rw [← hparent,← hempty]

theorem not_correct_of_spin {acts : List AsyncAction} {t : AsyncState} {a : AsyncAction}
    (hrun : Transition.exec (AsyncAction.step env) (start env) acts = some t)
    (hspin : AsyncAction.step env t a = some t) : ¬ Correct env := by
  intro h
  obtain ⟨n,hn⟩ := h.ends
  have hlen := hn (acts ++ List.replicate (n + 1) a) t (by
    rw [Transition.exec_append,hrun,Option.bind_some,Transition.exec_replicate _ hspin])
  rw [List.length_append,List.length_replicate] at hlen
  omega

/-- A signal comes when the grandchild has written all that it writes. -/
theorem not_correct_of_interrupted {acts : List AsyncAction} {t : AsyncState}
    (hrun : Transition.exec (AsyncAction.step env) (start env) acts = some t) (hparent : t.parent = .waiting)
    (hchild : t.child = .exited) (hwriter : t.errWriter = false) (herr : t.errPipe.length ≤ 8)
    (hinterrupts : t.interrupts ≠ 0) : ¬ Correct env := by
  have hread : Transition.exec (AsyncAction.step env) t [.parent 0,.interrupt] =
      some { t with parent := .readingErr ⟨[],true⟩, interrupts := t.interrupts - 1 } := by
    simp [Transition.exec,AsyncAction.step,stepParent,AsyncState.interrupt,hparent,hchild,hinterrupts,Reading.fresh]
  have hread' : Transition.exec (AsyncAction.step env) (start env) (acts ++ [.parent 0,.interrupt]) =
      some { t with parent := .readingErr ⟨[],true⟩, interrupts := t.interrupts - 1 } := by
    rw [Transition.exec_append,hrun,Option.bind_some,hread]
  by_cases hempty : t.errPipe = []
  · exact not_correct_of_spin hread' (step_spin rfl hempty hwriter)
  · -- the numbers are read and forgotten first
    have hpos := List.length_pos_iff.mpr hempty
    have hc : readChunk (8 - (⟨[],true⟩ : Reading).got.length) t.errPipe t.errWriter t.errPipe.length =
        some (t.errPipe,[]) := by
      rw [readChunk,if_neg (by decide),if_neg hempty,if_pos ⟨hpos,herr,le_rfl⟩,List.take_length,List.drop_length]
    have hdrop := step_readErr env
      (t := { t with parent := .readingErr ⟨[],true⟩, interrupts := t.interrupts - 1 }) rfl hc
    simp only [Reading.next,if_true] at hdrop
    have hdropped := Transition.exec_snoc (AsyncAction.step env) (start env) (acts ++ [.parent 0,.interrupt])
      (.parent t.errPipe.length)
    rw [hread',Option.bind_some,hdrop] at hdropped
    exact not_correct_of_spin hdropped (step_spin rfl rfl hwriter)

theorem not_correct_of_interrupts
    (hstart : start env = ⟨.waiting,.forking,.absent,[],[],[.pidRead,.errRead],env.interrupts⟩)
    (hgrand : env.grandForked ≠ false) (hnull : env.nullDev ≠ false) (hinterrupts : env.interrupts ≠ 0) :
    ¬ Correct env := by
  cases he : env.grandchild with
  | executed o =>
    have hrun : Transition.exec (AsyncAction.step env) (start env)
        ([.child,.child,.child] ++ [.grandchild,.grandchild]) =
        some ⟨.waiting,.exited,.executed,env.order.bytes32 env.grandPid,[],[.pidRead,.errRead],env.interrupts⟩ := by
      rw [Transition.exec_append,exec_forked hstart hgrand]
      simp [Transition.exec,AsyncAction.step,stepGrand,hnull,he]
    exact not_correct_of_interrupted hrun rfl rfl rfl (Nat.zero_le 8) hinterrupts
  | failed errno =>
    have hrun : Transition.exec (AsyncAction.step env) (start env)
        ([.child,.child,.child] ++ [.grandchild,.grandchild,.grandchild,.grandchild]) =
        some ⟨.waiting,.exited,.exited,env.order.bytes32 env.grandPid,
          env.order.bytes32 (.ofInt 32 runExecveFailed) ++ env.order.bytes32 (BitVec.ofNat 32 errno),
          [.pidRead,.errRead],env.interrupts⟩ := by
      rw [Transition.exec_append,exec_forked hstart hgrand]
      simp [Transition.exec,AsyncAction.step,stepGrand,hnull,he,writeErr]
    refine not_correct_of_interrupted hrun rfl rfl rfl ?_ hinterrupts
    rw [List.length_append,ByteOrder.length_bytes32,ByteOrder.length_bytes32]
  | crashed => exact not_correct_of_crashed hstart hgrand hnull he

/-! ## The calls that are right -/

theorem correct_of_pidPipe (h : env.pidPipe = false) : Correct env := by
  have hstart : start env = ⟨.returned runPipeFailed none,.exited,.absent,[],[],[],env.interrupts⟩ := if_pos h
  have hstuck : ∀ a, AsyncAction.step env (start env) a = none := by
    rw [hstart]
    intro a
    cases a with
    | parent n => rfl
    | child => rfl
    | grandchild => rfl
    | interrupt =>
      rw [AsyncAction.step,AsyncState.interrupt]
      split_ifs
      · rfl
      · rfl
  have hnone : ∀ acts t, Transition.exec (AsyncAction.step env) (start env) acts = some t →
      acts = [] ∧ t = start env := by
    intro acts t hrun
    cases acts with
    | nil => exact ⟨rfl,(Option.some.inj hrun).symm⟩
    | cons a acts =>
      rw [Transition.exec,List.foldlM_cons,hstuck a] at hrun
      cases hrun
  refine ⟨fun acts t hrun => ?_,⟨0,fun acts t hrun => ?_⟩,fun acts t hrun => ?_⟩
  · obtain ⟨-,rfl⟩ := hnone acts t hrun
    rw [hstart]
    rintro ret childPid hreturned
    obtain ⟨rfl,rfl⟩ := ParentState.returned.inj hreturned
    exact ⟨iff_of_false (by decide) GrandState.noConfusion,fun hzero => absurd hzero (by decide),fun _ => rfl⟩
  · rw [(hnone acts t hrun).1,List.length_nil]
  · obtain ⟨-,rfl⟩ := hnone acts t hrun
    rw [hstart]
    exact Or.inl ⟨_,_,rfl⟩

/-- In every order of steps the call returns and tells whether the program was executed, if and
only if it opens nothing or is not disturbed. -/
theorem run_async_correct_iff (env : AsyncEnv) : Correct env ↔ Undisturbed env := by
  constructor
  · intro h
    rw [Undisturbed,or_iff_not_imp_left]
    intro hpid
    have herr : env.errPipe ≠ false := fun herr => not_correct_of_errPipe hpid herr h
    have hfork : env.forked ≠ false := fun hfork => not_correct_of_forked hpid herr hfork h
    have hstart := start_forked hpid herr hfork
    have hgrand : env.grandForked ≠ false := fun hgrand => not_correct_of_grandForked hstart hgrand h
    have hnull : env.nullDev ≠ false := fun hnull => not_correct_of_nullDev hstart hgrand hnull h
    refine ⟨Bool.eq_true_of_not_eq_false herr,Bool.eq_true_of_not_eq_false hfork,Bool.eq_true_of_not_eq_false hgrand,
      Bool.eq_true_of_not_eq_false hnull,fun hempty => ?_,?_⟩
    · exact not_correct_of_crashed hstart hgrand hnull (execCmd_eq_crashed.mpr hempty) h
    · by_contra hinterrupts
      exact not_correct_of_interrupts hstart hgrand hnull hinterrupts h
  · rintro (hpid | ⟨herr,hfork,hgrand,hnull,hcmd,hinterrupts⟩)
    · exact correct_of_pidPipe hpid
    · by_cases hpid : env.pidPipe = false
      · exact correct_of_pidPipe hpid
      · exact correct_of_calm ⟨Bool.eq_true_of_not_eq_false hpid,herr,hfork,hgrand,hnull,
          fun hcrashed => hcmd (execCmd_eq_crashed.mp hcrashed),hinterrupts⟩

def unforkedEnv : AsyncEnv where
  path := none
  errno := 0
  execv := fun _ _ => .ok (.exited ⟨0,by decide⟩)
  cmd := ⟨[108,115],by decide⟩
  order := .lsbFirst
  pidPipe := true
  errPipe := true
  forked := true
  grandForked := false
  nullDev := true
  nullErrno := 0
  grandPid := 100
  interrupts := 0

theorem run_async_not_correct : ¬ Correct unforkedEnv := not_correct_of_grandForked rfl rfl

end Edelib.Run
