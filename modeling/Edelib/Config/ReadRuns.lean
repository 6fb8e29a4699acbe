import Edelib.Config.Reads

/-! # Runs of reads

Two configurations with the same sections whose lookups find the same answer every read
alike, and go on doing so after the same read. A read leaves the configuration so unless it
writes a value in lower case, or moves the pointer to the section found last between sections
of which one can be mistaken for an earlier one.
-/
namespace Edelib
open Foundation StrUtil Remembered

namespace Config

def Alone (c : Config) (i : ℕ) : Prop :=
  ∀ n ∈ c.names.take i, ∀ n' ∈ c.names[i]?, accepted n n' = false ∧ accepted n' n = false

instance (c : Config) (i : ℕ) : Decidable (c.Alone i) :=
  inferInstanceAs (Decidable (∀ n ∈ c.names.take i, ∀ n' ∈ c.names[i]?, accepted n n' = false ∧ accepted n' n = false))

/-- Two names that are accepted for one query begin alike, so one is accepted for the other. -/
theorem Alone.unshadowed {c : Config} {i : ℕ} (h : c.Alone i) : Unshadowed accepted c.names i := by
  intro j hj n n' q hn hn' hq
  by_contra hq'
  obtain ⟨hhash,hpre⟩ := accepted_iff.mp hq
  obtain ⟨hhash',hpre'⟩ := accepted_iff.mp (by simpa using hq')
  have hmem : n ∈ c.names.take i := List.mem_take_iff_getElem.mpr (by
    obtain ⟨hlt,rfl⟩ := List.getElem?_eq_some_iff.mp hn
    exact ⟨j,by omega,rfl⟩)
  obtain ⟨hno,hno'⟩ := h n hmem n' hn'
  rcases List.prefix_or_prefix_of_prefix hpre hpre' with hp | hp
  · have hacc := accepted_iff.mpr ⟨hhash'.symm.trans hhash,hp⟩
    rw [hno] at hacc
    cases hacc
  · have hacc := accepted_iff.mpr ⟨hhash.symm.trans hhash',hp⟩
    rw [hno'] at hacc
    cases hacc

/-! ## Configurations that answer alike -/

structure SameLookups (c c' : Config) : Prop where
  sections : c'.sectionList = c.sectionList
  lookups : ∀ sect, lookup accepted c'.names c'.cached sect = lookup accepted c.names c.cached sect

theorem SameLookups.refl (c : Config) : SameLookups c c := ⟨rfl,fun _ => rfl⟩

theorem SameLookups.symm {c c' : Config} (h : SameLookups c c') : SameLookups c' c :=
  ⟨h.sections.symm,fun sect => (h.lookups sect).symm⟩

theorem SameLookups.trans {c c' c'' : Config} (h : SameLookups c c') (h' : SameLookups c' c'') : SameLookups c c'' :=
  ⟨h'.sections.trans h.sections,fun sect => (h'.lookups sect).trans (h.lookups sect)⟩

theorem SameLookups.names {c c' : Config} (h : SameLookups c c') : c'.names = c.names := by
  unfold Config.names
  rw [h.sections]

theorem SameLookups.foundSection {c c' : Config} (h : SameLookups c c') (sect : CString) :
    c'.foundSection sect = c.foundSection sect := by
  simp only [Config.foundSection,findSection_eq,h.sections,h.lookups]

section Calls
variable {D F : Type} {atof : CString → D} {narrow : D → F} {c c' : Config}

theorem ReadCall.leaves_sname (call : ReadCall D F) (cs : ConfigSection) : (call.leaves cs).sname = cs.sname := by
  cases call <;> simp [leaves]

theorem ReadCall.state_names (call : ReadCall D F) (c : Config) : (call.state atof narrow c).names = c.names := by
  unfold names
  rw [(call.run_state atof narrow c).2]
  cases lookup accepted c.names c.cached call.sect with
  | none => rfl
  | some i => exact KeyedList.map_modify ConfigSection.sname c.sectionList i call.leaves_sname

theorem SameLookups.answer (h : SameLookups c c') (call : ReadCall D F) :
    (call.run atof narrow c').1 = (call.run atof narrow c).1 := by
  have hvalue : c'.foundValue call.sect = c.foundValue call.sect := by
    funext key
    rw [foundValue,foundValue,h.foundSection]
  rw [call.run_answer,call.run_answer,h.foundSection,hvalue]

theorem SameLookups.state (h : SameLookups c c') (call : ReadCall D F) :
    SameLookups (call.state atof narrow c) (call.state atof narrow c') := by
  obtain ⟨hcached,hsections⟩ := call.run_state atof narrow c
  obtain ⟨hcached',hsections'⟩ := call.run_state atof narrow c'
  refine ⟨?_,fun sect => ?_⟩
  · rw [hsections,hsections',h.lookups,h.sections]
  · rw [call.state_names,call.state_names,hcached,hcached',h.names]
    exact lookup_remember_congr (fun q => h.names ▸ h.lookups q) call.sect sect

/-! ## Calls that change nothing -/

/-- A `bool` is read from a value that has no capitals. -/
def ReadCall.FindsNoCapitals (c : Config) : ReadCall D F → Prop
  | bool sect key _ => ∀ e ∈ (c.getEntry sect key).1.toOption, ¬ HasCapitals e.value
  | _ => True

/-- If another section is remembered after the lookup, neither of the two has one before it
that could be mistaken for it. -/
def CacheMovesAlone (c : Config) (sect : CString) : Prop :=
  ∀ i ∈ (c.findSection sect).1, c.cached ≠ some i → c.Alone i ∧ ∀ j ∈ c.cached, c.Alone j

def ReadCall.Harmless (c : Config) (call : ReadCall D F) : Prop :=
  call.FindsNoCapitals c ∧ c.CacheMovesAlone call.sect

instance (c : Config) (call : ReadCall D F) : Decidable (call.FindsNoCapitals c) := by
  cases call <;> (unfold ReadCall.FindsNoCapitals; infer_instance)

instance (c : Config) (sect : CString) : Decidable (c.CacheMovesAlone sect) :=
  inferInstanceAs (Decidable (∀ i ∈ (c.findSection sect).1, c.cached ≠ some i → c.Alone i ∧ ∀ j ∈ c.cached, c.Alone j))

instance (c : Config) (call : ReadCall D F) : Decidable (call.Harmless c) :=
  inferInstanceAs (Decidable (call.FindsNoCapitals c ∧ c.CacheMovesAlone call.sect))

/-- A call that finds no capitals to lower leaves the sections. -/
theorem ReadCall.FindsNoCapitals.sections {call : ReadCall D F} (h : call.FindsNoCapitals c) :
    (call.state atof narrow c).sectionList = c.sectionList := by
  rw [(call.run_state atof narrow c).2]
  cases hl : lookup accepted c.names c.cached call.sect with
  | none => rfl
  | some i =>
    refine KeyedList.modify_fixed (fun cs hcs => ?_)
    cases call with
    | bool sect key deflt =>
      refine cs.writeValue_fixed (fun e he => lowered_of_not_hasCapitals (h e ?_))
      have hl' : lookup accepted c.names c.cached sect = some i := hl
      rw [getEntry_found,Config.foundSection,findSection_eq,hl',Option.bind_some,hcs]
      exact he
    | _ => rfl

theorem ReadCall.Harmless.sameLookups {call : ReadCall D F} (h : call.Harmless c) :
    SameLookups c (call.state atof narrow c) := by
  refine ⟨h.1.sections,fun sect => ?_⟩
  rw [call.state_names,(call.run_state atof narrow c).1]
  refine lookup_remember (fun i hi hne => ?_) sect
  obtain ⟨hnew,hold⟩ := h.2 i (by rw [findSection_eq]; exact hi) hne
  exact ⟨hnew.unshadowed,fun j hj => (hold j hj).unshadowed⟩

end Calls

/-! ## Runs -/

variable {D F : Type}

def readStep (atof : CString → D) (narrow : D → F) (c : Config) (call : ReadCall D F) : Option Config :=
  some (call.state atof narrow c)

/-- The sections and the bytes that `save` writes are unchanged, and every read answers as
it would have at the start. -/
structure ReadsUnchanged (atof : CString → D) (narrow : D → F) (c c' : Config) : Prop where
  sections : c'.sectionList = c.sectionList
  saved : c'.save = c.save
  answers : ∀ call : ReadCall D F, (call.run atof narrow c').1 = (call.run atof narrow c).1

def ReadsChangeNothing (atof : CString → D) (narrow : D → F) (c : Config) (calls : List (ReadCall D F)) : Prop :=
  ∀ done c', done <+: calls → Transition.exec (readStep atof narrow) c done = some c' → ReadsUnchanged atof narrow c c'

/-- Along a run of harmless calls, nothing changes. -/
theorem reads_unchanged (atof : CString → D) (narrow : D → F) (c : Config) (calls : List (ReadCall D F))
    (h : Transition.Along (readStep atof narrow) (fun c call => call.Harmless c) c calls) :
    ReadsChangeNothing atof narrow c calls := by
  rintro done c' ⟨rest,rfl⟩ hrun
  have hsame : SameLookups c c' := by
    refine Transition.exec_invariant (I := fun _ c' => SameLookups c c') (SameLookups.refl c) ?_ h.of_append hrun
    rintro acts call c₁ c₂ - hc₁ hcall hstep
    cases hstep
    exact hc₁.trans hcall.sameLookups
  refine ⟨hsame.sections,?_,hsame.answer⟩
  rw [save,hsame.sections]
  rfl

/-- Reads of a number, of a `bool` in lower case and of a section that is not there. -/
theorem reads_unchanged_lower_case :
    ReadsChangeNothing (fun _ => ()) (fun _ : Unit => ())
      (run [⟨CString.ofBuf [83],CString.ofBuf [75],CString.ofBuf [116,114,117,101]⟩,
        ⟨CString.ofBuf [83],CString.ofBuf [76],CString.ofBuf [55]⟩])
      [.bool (CString.ofBuf [83]) (CString.ofBuf [75]) false,.int (CString.ofBuf [83]) (CString.ofBuf [76]) 0,
        .exist (CString.ofBuf [84])] :=
  reads_unchanged _ _ _ _ (by decide +kernel)

/-- The value `True` read as a `bool` is saved as `true`. -/
theorem not_readsUnchanged_capital :
    ¬ ReadsUnchanged (D := Unit) (F := Unit) (fun _ => ()) (fun _ => ())
      (run [⟨CString.ofBuf [83],CString.ofBuf [75],CString.ofBuf [84,114,117,101]⟩])
      ((ReadCall.bool (CString.ofBuf [83]) (CString.ofBuf [75]) false).state (fun _ => ()) (fun _ : Unit => ())
        (run [⟨CString.ofBuf [83],CString.ofBuf [75],CString.ofBuf [84,114,117,101]⟩])) := by
  intro h
  have hsaved := h.saved
  revert hsaved
  decide +kernel

/-- `Key` is a prefix of `KeyCorwWg` with the same hash: once the section `Key` was looked up,
the other one, which stands before it, is not found any more. -/
theorem not_readsUnchanged_cached :
    ¬ ReadsUnchanged (D := Unit) (F := Unit) (fun _ => ()) (fun _ => ())
      (run [⟨CString.ofBuf [75,101,121,67,111,114,119,87,103],CString.ofBuf [75],CString.ofBuf [49]⟩,
        ⟨CString.ofBuf [75,101,121],CString.ofBuf [76],CString.ofBuf [50]⟩])
      ((ReadCall.exist (CString.ofBuf [75,101,121])).state (fun _ => ()) (fun _ : Unit => ())
        (run [⟨CString.ofBuf [75,101,121,67,111,114,119,87,103],CString.ofBuf [75],CString.ofBuf [49]⟩,
          ⟨CString.ofBuf [75,101,121],CString.ofBuf [76],CString.ofBuf [50]⟩])) := by
  intro h
  have hanswer := h.answers (ReadCall.keyExist (CString.ofBuf [75,101,121,67,111,114,119,87,103]) (CString.ofBuf [75]))
  simp only [ReadCall.run,Prod.map_fst,ReadAnswer.flag.injEq] at hanswer
  revert hanswer
  decide +kernel

end Config
end Edelib
