import Edelib.Resource.Resource
import Edelib.Config.Updates

/-! # Merging the settings of the system and of the user

`load` drops a file with a bad line, and a line that no newline ends is not read. What the user's
file gave there is lost when the changed settings are saved over it, unless it was set again.
-/
namespace Edelib
open Foundation Config KeyedList

def Config.ReadCall.keys {D F : Type} : ReadCall D F → List CString
  | exist _ => []
  | getLocalized (some lang) _ key _ =>
    if DefaultLocale lang then [key] else (localeCodes lang).map (localizedName key)
  | keyExist _ key | int _ key _ | bool _ key _ | double _ key _ | long _ key _ | float _ key _ | char _ key _
  | get _ key _ | getLocalized none _ key _ | getAllocated _ key => [key]

def ResourceSet.asSet : ResourceSet → SetCall
  | .set sect key value => ⟨sect,key,value⟩
  | .setLocalized lang sect key value => ⟨sect,localizedKey lang key,value⟩

namespace Resource

/-! ## What the files give -/

def lastEntry (f : List UInt8) : List SetCall :=
  if (splitLines f).2 = [] then [] else lineEntry (currentSection none (splitLines f).1) (splitLines f).2

def givenIn (f : List UInt8) : List SetCall := fileEntries none (splitLines f).1 ++ lastEntry f

def fileValue (file : Option (List UInt8)) (s k : CString) : Option CString :=
  file.bind (fun f => lastSet (givenIn f) s k)

def heldBy (f : List UInt8) (s k : CString) : Option CString :=
  (Config.empty.load f).bind (fun res => res.2.value s k)

/-- Whatever a file gives in a line that `load` does not take over meets the condition: all
lines if one is bad, or else a last one without newline that changes a value. -/
def Covered (file : Option (List UInt8)) (P : CString → CString → Prop) : Prop :=
  ∀ f ∈ file,
    (firstBad false (splitLines f).1 ≠ none → ∀ e ∈ givenIn f, P e.sect e.key) ∧
      (firstBad false (splitLines f).1 = none → ∀ e ∈ lastEntry f,
        P e.sect e.key ∨ lastSet (fileEntries none (splitLines f).1) e.sect e.key = some e.value)

/-- What is lost of the user's file is set again, and what is lost of the system's is in the
user's settings. -/
structure MergeSafe (sysFile userFile : Option (List UInt8)) (sets : List SetCall) : Prop where
  user : Covered userFile (fun s k => (lastSet sets s k).isSome = true)
  sys : Covered sysFile (fun s k => ((lastSet sets s k).or (fileValue userFile s k)).isSome = true)

/-! ## Names -/

def fileSects (file : Option (List UInt8)) : List CString := file.elim [] (fun f => sectionNames (splitLines f).1)

def fileGives (file : Option (List UInt8)) : List SetCall := file.elim [] givenIn

def allSects (sysFile userFile : Option (List UInt8)) (sets : List SetCall) : List CString :=
  fileSects userFile ++ sets.map SetCall.sect ++ fileSects sysFile

def allEntries (sysFile userFile : Option (List UInt8)) (sets : List SetCall) : List SetCall :=
  fileGives userFile ++ sets ++ fileGives sysFile

/-- No two distinct names of the files and of the sets are identified by the lookups. -/
structure NamesTold (sysFile userFile : Option (List UInt8)) (sets : List SetCall) : Prop where
  sects : ∀ s ∈ allSects sysFile userFile sets, ∀ s' ∈ allSects sysFile userFile sets, s ≠ s' →
    accepted s s' = false
  keys : ∀ e ∈ allEntries sysFile userFile sets, ∀ e' ∈ allEntries sysFile userFile sets,
    e.sect = e'.sect → e.key ≠ e'.key → accepted e.key e'.key = false

/-! ## What is promised -/

/-- After the sets, the saved file holds the values set, and the values that the old file gave
for other names; and a resource loaded then gets them, or the values of the system's file. -/
def MergesAndPreserves {D F : Type} (atof : CString → D) (narrow : D → F) (sysFile userFile : Option (List UInt8))
    (sets : List SetCall) (r : Resource) : Prop :=
  ∃ f r', r.save = some f ∧
    (∀ s k, heldBy f s k = (lastSet sets s k).or (fileValue userFile s k)) ∧
    load sysFile (some f) = some (true,r') ∧
    ∀ g : ResourceGet D F, g.rt = .userFirst →
      (∀ k ∈ g.call.keys,
        Told (allSects sysFile userFile sets) (allEntries sysFile userFile sets) g.call.sect k) →
      (r'.fetch atof narrow g).1 = g.call.ofValue atof narrow
        ((g.call.pick (heldBy f g.call.sect)).or (g.call.pick (fileValue sysFile g.call.sect)))

/-! ## Loading -/

def taken (file : Option (List UInt8)) (s k : CString) : Option CString :=
  file.bind (fun f =>
    if firstBad false (splitLines f).1 = none then lastSet (fileEntries none (splitLines f).1) s k else none)

theorem lastEntry_cases (f : List UInt8) : lastEntry f = [] ∨ ∃ e, lastEntry f = [e] := by
  unfold lastEntry lineEntry
  split_ifs
  · exact Or.inl rfl
  · split
    · exact Or.inr ⟨_,rfl⟩
    · exact Or.inl rfl

/-- The condition says that nothing else is lost. -/
theorem covered_iff (file : Option (List UInt8)) (P : CString → CString → Prop) :
    Covered file P ↔ ∀ s k, ¬ P s k → taken file s k = fileValue file s k := by
  cases file with
  | none => simp [Covered,taken,fileValue]
  | some f =>
    simp only [Covered,Option.mem_def,Option.some.injEq,forall_eq',taken,fileValue,Option.bind_some]
    by_cases hbad : firstBad false (splitLines f).1 = none
    · simp only [hbad,ne_eq,not_true_eq_false,false_implies,forall_const,true_and,↓reduceIte]
      rcases lastEntry_cases f with hlast | ⟨e,hlast⟩
      · simp [givenIn,hlast]
      · simp only [givenIn,hlast,List.mem_singleton,forall_eq,lastSet_snoc]
        constructor
        · intro h s k hp
          split_ifs with hsk
          · obtain ⟨rfl,rfl⟩ := hsk
            exact h.resolve_left hp
          · rfl
        · intro h
          by_cases hp : P e.sect e.key
          · exact Or.inl hp
          · have he := h e.sect e.key hp
            rw [if_pos ⟨rfl,rfl⟩] at he
            exact Or.inr he
    · simp only [hbad,ne_eq,not_false_eq_true,forall_const,false_implies,and_true,↓reduceIte]
      constructor
      · intro h s k hp
        cases hs : lastSet (givenIn f) s k with
        | none => rfl
        | some v =>
          have hsome : (lastSet (givenIn f) s k).isSome = true := by rw [hs]; rfl
          obtain ⟨e,he,rfl,rfl⟩ := (lastSet_isSome _ s k).mp hsome
          exact absurd (h e he) hp
      · intro h e he
        by_contra hp
        have hsome := (lastSet_isSome (givenIn f) e.sect e.key).mpr ⟨e,he,rfl,rfl⟩
        rw [← h e.sect e.key hp] at hsome
        cases hsome

/-- A file that could be loaded gives the values that are taken over, a bad one none. -/
theorem loadConf_spec {file : Option (List UInt8)} {conf : Option Config} (h : loadConf file = some conf)
    (hapart : ∀ f ∈ file, NamesApart (splitLines f).1) :
    (∀ c ∈ conf, c.Valid ∧ NamedBy (fileSects file) (fileGives file) c) ∧
      ∀ s k, conf.bind (fun c => c.value s k) = taken file s k := by
  cases file with
  | none =>
    cases h
    simp [taken]
  | some f =>
    obtain ⟨⟨status,c⟩,hload,hconf⟩ := Option.map_eq_some_iff.mp h
    have hvalid : c.Valid := valid_load hload
    rw [load_eq] at hload
    split_ifs at hload
    cases hload
    cases hbad : firstBad false (splitLines f).1 with
    | none =>
      have hgood := readLines_good Config.empty (hapart f rfl) hbad
      have hcontent := hgood.content
      rw [hgood.status] at hconf
      cases hconf
      have hsub : fileEntries none (splitLines f).1 ⊆ givenIn f := List.subset_append_left _ _
      refine ⟨?_,fun s k => ?_⟩
      · rintro c ⟨⟩
        exact ⟨hvalid,hcontent.namedBy.mono (List.Subset.refl _) hsub⟩
      · simp only [Option.bind_some,taken,hbad,↓reduceIte]
        exact hcontent.value s k
    | some res =>
      rw [(readLines_bad Config.empty (hapart f rfl) hbad).1] at hconf
      cases hconf
      simp [taken,hbad]

/-! ## Gets -/

section Gets
variable {D F : Type} {atof : CString → D} {narrow : D → F}

theorem ofValue_found {call : ReadCall D F} (h : call.isGet = true) (v : Option CString) :
    (call.ofValue atof narrow v).found = v.isSome := by
  cases call with
  | exist sect => simp [ReadCall.isGet] at h
  | keyExist sect key => simp [ReadCall.isGet] at h
  | getLocalized lang sect key size => cases lang <;> cases v <;> rfl
  | _ => cases v <;> rfl

theorem ofValue_none {call : ReadCall D F} (h : call.isGet = true) : call.ofValue atof narrow none = call.notFound := by
  cases call with
  | exist sect => simp [ReadCall.isGet] at h
  | keyExist sect key => simp [ReadCall.isGet] at h
  | getLocalized lang sect key size => cases lang <;> rfl
  | _ => rfl

theorem get_answer {call : ReadCall D F} (h : call.isGet = true) (c : Config) :
    (call.run atof narrow c).1 = call.ofValue atof narrow (call.pick (c.foundValue call.sect)) := by
  rw [call.run_answer]
  cases call with
  | exist sect => simp [ReadCall.isGet] at h
  | _ => rfl

theorem pick_congr {value value' : CString → Option CString} (call : ReadCall D F)
    (h : ∀ k ∈ call.keys, value k = value' k) : call.pick value = call.pick value' := by
  cases call with
  | exist sect => rfl
  | getLocalized lang sect key size =>
    cases lang with
    | none => exact h key (by simp [ReadCall.keys])
    | some lang =>
      by_cases hd : DefaultLocale lang
      · simpa [ReadCall.pick,hd] using h key (by simp [ReadCall.keys,hd])
      · simp only [ReadCall.pick,hd,↓reduceIte]
        simp only [ReadCall.keys,hd,↓reduceIte,List.forall_mem_map] at h
        generalize localeCodes lang = codes at h
        induction codes with
        | nil => rfl
        | cons code codes ih =>
          rw [List.forall_mem_cons] at h
          rw [List.findSome?_cons,List.findSome?_cons,h.1,ih h.2]
  | _ => exact h _ (by simp [ReadCall.keys])

theorem pick_eq_none {value : CString → Option CString} (call : ReadCall D F) :
    call.pick value = none ↔ ∀ k ∈ call.keys, value k = none := by
  cases call with
  | exist sect => simp [ReadCall.pick,ReadCall.keys]
  | getLocalized lang sect key size =>
    cases lang with
    | none => simp [ReadCall.pick,ReadCall.keys]
    | some lang => by_cases hd : DefaultLocale lang <;> simp [ReadCall.pick,ReadCall.keys,hd]
  | _ => simp [ReadCall.pick,ReadCall.keys]

/-- A get that asks the user's configuration first: the value found there, or else in the system's. -/
theorem fetch_userFirst (r : Resource) {g : ResourceGet D F} (hrt : g.rt = .userFirst) :
    (r.fetch atof narrow g).1 = g.call.ofValue atof narrow
      ((r.userConf.bind (fun c => g.call.pick (c.foundValue g.call.sect))).or
        (r.sysConf.bind (fun c => g.call.pick (c.foundValue g.call.sect)))) := by
  have hnone := @ofValue_none D F atof narrow g.call g.isGet
  have hfound := @ofValue_found D F atof narrow g.call g.isGet
  have hanswer := @get_answer D F atof narrow g.call g.isGet
  have huser : (r.fromUser atof narrow g.call).1 = g.call.ofValue atof narrow
      (r.userConf.bind (fun c => g.call.pick (c.foundValue g.call.sect))) := by
    unfold fromUser
    cases r.userConf with
    | none => exact hnone.symm
    | some c => exact hanswer c
  have hsys : ∀ r' : Resource, r'.sysConf = r.sysConf → (r'.fromSys atof narrow g.call).1 =
      g.call.ofValue atof narrow (r.sysConf.bind (fun c => g.call.pick (c.foundValue g.call.sect))) := by
    rintro r' hr'
    unfold fromSys
    rw [hr']
    cases r.sysConf with
    | none => exact hnone.symm
    | some c => exact hanswer c
  have hkeep := fromUser_sysConf atof narrow r g.call
  unfold fetch
  simp only [hrt,huser,hsys _ hkeep,hfound]
  cases hu : r.userConf.bind (fun c => g.call.pick (c.foundValue g.call.sect)) with
  | some v => simp
  | none =>
    cases hv : r.sysConf.bind (fun c => g.call.pick (c.foundValue g.call.sect)) with
    | some v => simp
    | none => simp [hnone]

end Gets

/-! ## Setting and saving -/

theorem storeIn_eq (c : Config) (s : ResourceSet) : storeIn c s = c.set s.asSet.sect s.asSet.key s.asSet.value := by
  cases s <;> rfl

/-- A set makes a configuration of the user, and all of them change it. -/
theorem storeAll_userConf (r : Resource) {sets : List ResourceSet} (h : sets ≠ []) :
    (r.storeAll sets).userConf = some ((r.userConf.getD Config.empty).setAll (sets.map ResourceSet.asSet)) := by
  have hloaded : ∀ (sets : List ResourceSet) (r : Resource) (c : Config), r.userConf = some c →
      (r.storeAll sets).userConf = some (c.setAll (sets.map ResourceSet.asSet)) := by
    intro sets
    induction sets with
    | nil => exact fun r c hc => hc
    | cons s sets ih =>
      intro r c hc
      refine ih (r.store s) _ ?_
      simp [store,hc,storeIn_eq]
  cases sets with
  | nil => exact absurd rfl h
  | cons s sets =>
    refine hloaded sets (r.store s) _ ?_
    simp [store,storeIn_eq]

section Names
variable {sysFile userFile : Option (List UInt8)} {sets : List SetCall}

theorem givenIn_sect {f : List UInt8} {e : SetCall} (h : e ∈ givenIn f) :
    e.sect ∈ sectionNames (splitLines f).1 := by
  rcases List.mem_append.mp h with h | h
  · exact fileEntries_sect h
  · unfold lastEntry lineEntry at h
    split_ifs at h
    · simp at h
    · split at h
      · rename_i hsect
        rw [List.mem_singleton.mp h]
        exact currentSection_mem hsect
      · simp at h

theorem fileGives_sect {file : Option (List UInt8)} {e : SetCall} (h : e ∈ fileGives file) :
    e.sect ∈ fileSects file := by
  cases file with
  | none => simp [fileGives] at h
  | some f => exact givenIn_sect h

theorem allEntries_sect {e : SetCall} (h : e ∈ allEntries sysFile userFile sets) :
    e.sect ∈ allSects sysFile userFile sets := by
  simp only [allEntries,allSects,List.mem_append] at h ⊢
  rcases h with (h | h) | h
  · exact Or.inl (Or.inl (fileGives_sect h))
  · exact Or.inl (Or.inr (List.mem_map_of_mem h))
  · exact Or.inr (fileGives_sect h)

theorem NamesTold.told (h : NamesTold sysFile userFile sets) {e : SetCall}
    (he : e ∈ allEntries sysFile userFile sets) :
    Told (allSects sysFile userFile sets) (allEntries sysFile userFile sets) e.sect e.key :=
  ⟨fun s' hs' hne => h.sects s' hs' e.sect (allEntries_sect he) hne,
    fun e' he' hsect hkey => h.keys e' he' e he hsect hkey⟩

theorem NamesTold.apart (h : NamesTold sysFile userFile sets) {f : List UInt8} (hf : f ∈ userFile ∨ f ∈ sysFile) :
    NamesApart (splitLines f).1 := by
  have hsects : ∀ s ∈ sectionNames (splitLines f).1, s ∈ allSects sysFile userFile sets := by
    intro s hs
    rcases hf with rfl | rfl <;> simp [allSects,fileSects,hs]
  have hentries : ∀ e ∈ fileEntries none (splitLines f).1, e ∈ allEntries sysFile userFile sets := by
    intro e he
    rcases hf with rfl | rfl <;> simp [allEntries,fileGives,givenIn,he]
  exact ⟨fun s hs s' hs' => h.sects s (hsects s hs) s' (hsects s' hs'),
    fun e he e' he' => h.keys e (hentries e he) e' (hentries e' he')⟩

theorem NamesTold.told_of_fileValue (h : NamesTold sysFile userFile sets) {s k v : CString}
    (hv : fileValue sysFile s k = some v) :
    Told (allSects sysFile userFile sets) (allEntries sysFile userFile sets) s k := by
  obtain ⟨f,rfl,hlast⟩ := Option.bind_eq_some_iff.mp hv
  have hsome : (lastSet (givenIn f) s k).isSome = true := by rw [hlast]; rfl
  obtain ⟨e,he,rfl,rfl⟩ := (lastSet_isSome _ s k).mp hsome
  exact h.told (by simp [allEntries,fileGives,he])

end Names

theorem taken_of_fileValue_none {file : Option (List UInt8)} {s k : CString} (h : fileValue file s k = none) :
    taken file s k = none := by
  cases file with
  | none => rfl
  | some f =>
    simp only [taken,Option.bind_some]
    split_ifs
    · have hno : ¬ (lastSet (givenIn f) s k).isSome = true := by
        simp only [fileValue,Option.bind_some] at h
        simp [h]
      rw [lastSet_isSome] at hno
      rw [← Option.not_isSome_iff_eq_none,lastSet_isSome]
      rintro ⟨e,he,hsk⟩
      exact hno ⟨e,List.mem_append_left _ he,hsk⟩
    · rfl

/-! ## What a save and a load keep -/

section Merged
variable {D F : Type} {sysFile userFile : Option (List UInt8)} {r : Resource} {sets : List ResourceSet}

/-- After the sets and a save, the user's file holds what was set and what had been taken over of
the old file; a resource loaded then gets it, or what is taken over of the system's. -/
theorem merged (atof : CString → D) (narrow : D → F)
    (hload : load sysFile userFile = some (true,r)) (hsets : sets ≠ [])
    (hnames : NamesTold sysFile userFile (sets.map ResourceSet.asSet))
    (hsaves : ∀ c ∈ (r.storeAll sets).userConf, RoundTrips c) :
    ∃ f r', (r.storeAll sets).save = some f ∧
      (∀ s k, heldBy f s k = (lastSet (sets.map ResourceSet.asSet) s k).or (taken userFile s k)) ∧
      load sysFile (some f) = some (true,r') ∧
      ∀ g : ResourceGet D F, g.rt = .userFirst →
        (∀ k ∈ g.call.keys, Told (allSects sysFile userFile (sets.map ResourceSet.asSet))
          (allEntries sysFile userFile (sets.map ResourceSet.asSet)) g.call.sect k) →
        (r'.fetch atof narrow g).1 = g.call.ofValue atof narrow
          ((g.call.pick (heldBy f g.call.sect)).or (g.call.pick (taken sysFile g.call.sect))) := by
  have huserConf := storeAll_userConf r hsets
  obtain ⟨sys,user⟩ := r
  unfold load at hload
  cases hsys : loadConf sysFile with
  | none => simp [hsys] at hload
  | some sys' =>
  cases huser : loadConf userFile with
  | none => simp [hsys,huser] at hload
  | some user' =>
  simp only [hsys,huser,Option.some.injEq,Prod.mk.injEq,Resource.mk.injEq] at hload
  obtain ⟨-,rfl,rfl⟩ := hload
  obtain ⟨husers,htaken⟩ := loadConf_spec huser (fun f hf => hnames.apart (Or.inl hf))
  obtain ⟨hsyss,htakenSys⟩ := loadConf_spec hsys (fun f hf => hnames.apart (Or.inr hf))
  simp only at huserConf
  -- the configuration that the sets start from
  have hstart : (user'.getD Config.empty).Valid ∧
      NamedBy (allSects sysFile userFile (sets.map ResourceSet.asSet))
        (allEntries sysFile userFile (sets.map ResourceSet.asSet)) (user'.getD Config.empty) := by
    cases user' with
    | none => exact ⟨valid_empty,namedBy_empty⟩
    | some c =>
      obtain ⟨hvalid,hnamed⟩ := husers c rfl
      exact ⟨hvalid,hnamed.mono (by simp [allSects]) (by simp [allEntries])⟩
  have hstartValue : ∀ s k, (user'.getD Config.empty).value s k = taken userFile s k := by
    intro s k
    rw [← htaken]
    cases user' <;> rfl
  -- the configuration that is saved, and what it is loaded as
  have hset : ∀ call ∈ sets.map ResourceSet.asSet,
      call.sect ∈ allSects sysFile userFile (sets.map ResourceSet.asSet) ∧
        call ∈ allEntries sysFile userFile (sets.map ResourceSet.asSet) ∧
        Told (allSects sysFile userFile (sets.map ResourceSet.asSet))
          (allEntries sysFile userFile (sets.map ResourceSet.asSet)) call.sect call.key := by
    intro call hcall
    have hmem : call ∈ allEntries sysFile userFile (sets.map ResourceSet.asSet) := by simp [allEntries,hcall]
    exact ⟨allEntries_sect hmem,hmem,hnames.told hmem⟩
  obtain ⟨hvalid,hnamed,hvalue⟩ := setAll_spec hstart.1 hstart.2 hset
  generalize hconf : (user'.getD Config.empty).setAll (sets.map ResourceSet.asSet) = c at hvalid hnamed hvalue huserConf
  obtain ⟨c',hc',hsections⟩ := hsaves c huserConf Config.empty
  have hvalid' : c'.Valid := valid_load hc'
  have hheld : ∀ s k, heldBy (Config.save c) s k = c'.value s k := by
    intro s k
    simp [heldBy,hc']
  have hkept : ∀ s k, c'.value s k = c.value s k := by
    intro s k
    simp only [Config.value,hsections]
  refine ⟨Config.save c,⟨sys',some c'⟩,by simp [save,huserConf],fun s k => ?_,?_,fun g hrt htold => ?_⟩
  · rw [hheld,hkept,hvalue,hstartValue]
  · have hfile : loadConf (some (Config.save c)) = some (some c') := by simp [loadConf,hc']
    simp [load,hsys,hfile]
  · rw [fetch_userFirst _ hrt]
    congr 2
    · refine pick_congr g.call (fun k hk => ?_)
      rw [hheld]
      exact foundValue_eq hvalid' (hnamed.congr hsections) (htold k hk)
    · cases sys' with
      | none =>
        have hnone : taken sysFile g.call.sect = fun _ => none := funext (fun k => (htakenSys _ k).symm)
        rw [hnone]
        exact ((pick_eq_none g.call).mpr (fun k _ => rfl)).symm
      | some c₂ =>
        obtain ⟨hvalid₂,hnamed₂⟩ := hsyss c₂ rfl
        refine pick_congr g.call (fun k hk => ?_)
        rw [← htakenSys]
        exact foundValue_eq hvalid₂ (hnamed₂.mono (by simp [allSects]) (by simp [allEntries])) (htold k hk)

/-- What the user set, and what the old files give, is kept, if and only if each value that a
file gives and `load` does not take over is set again, or is one of the system's that the user's
settings replace. -/
theorem mergesAndPreserves_iff (atof : CString → D) (narrow : D → F)
    (hload : load sysFile userFile = some (true,r)) (hsets : sets ≠ [])
    (hnames : NamesTold sysFile userFile (sets.map ResourceSet.asSet))
    (hsaves : ∀ c ∈ (r.storeAll sets).userConf, RoundTrips c) :
    MergesAndPreserves atof narrow sysFile userFile (sets.map ResourceSet.asSet) (r.storeAll sets) ↔
      MergeSafe sysFile userFile (sets.map ResourceSet.asSet) := by
  obtain ⟨f,r',hsave,hheld,hload',hget⟩ := merged atof narrow hload hsets hnames hsaves
  unfold MergesAndPreserves
  constructor
  · rintro ⟨f',r'',hsave',hheld',hload'',hget'⟩
    obtain rfl : f = f' := Option.some.inj (hsave.symm.trans hsave')
    obtain rfl : r' = r'' := (Prod.mk.inj (Option.some.inj (hload'.symm.trans hload''))).2
    have huser : ∀ s k, ¬ (lastSet (sets.map ResourceSet.asSet) s k).isSome = true →
        taken userFile s k = fileValue userFile s k := by
      intro s k hno
      have hsame := (hheld s k).symm.trans (hheld' s k)
      rwa [Option.not_isSome_iff_eq_none.mp hno,Option.none_or,Option.none_or] at hsame
    refine ⟨(covered_iff _ _).mpr huser,(covered_iff _ _).mpr (fun s k hno => ?_)⟩
    cases hv : fileValue sysFile s k with
    | none => exact taken_of_fileValue_none hv
    | some v =>
      -- a get into a buffer with room for the value that the system's file gives tells whether it was taken over
      have htold := hnames.told_of_fileValue hv
      have hkeys : ∀ k' ∈ [k], Told (allSects sysFile userFile (sets.map ResourceSet.asSet))
          (allEntries sysFile userFile (sets.map ResourceSet.asSet)) s k' := by simpa using htold
      have hnone : heldBy f s k = none := by
        rw [hheld']
        exact Option.not_isSome_iff_eq_none.mp hno
      have hsame : ∀ size, (taken sysFile s k).map (fun v => bufferOf v size) = some (bufferOf v size) := by
        intro size
        have hanswer := (hget ⟨.get s k size,rfl,.userFirst⟩ rfl hkeys).symm.trans
          (hget' ⟨.get s k size,rfl,.userFirst⟩ rfl hkeys)
        simpa [ReadCall.ofValue,ReadCall.pick,ReadCall.sect,hnone,hv] using hanswer
      obtain ⟨w,hw,-⟩ := Option.map_eq_some_iff.mp (hsame 0)
      have hbuf := hsame (v.strlen + w.strlen + 1)
      rw [hw,Option.map_some] at hbuf
      have htext := congrArg CString.ofBuf (Option.some.inj hbuf)
      rw [ofBuf_bufferOf_fits (by omega),ofBuf_bufferOf_fits (by omega)] at htext
      rw [hw,htext]
  · intro hsafe
    have huser := (covered_iff _ _).mp hsafe.user
    have hsys := (covered_iff _ _).mp hsafe.sys
    have hheld' : ∀ s k, heldBy f s k = (lastSet (sets.map ResourceSet.asSet) s k).or (fileValue userFile s k) := by
      intro s k
      rw [hheld]
      cases hl : lastSet (sets.map ResourceSet.asSet) s k with
      | some v => rfl
      | none => rw [huser s k (by simp [hl])]
    refine ⟨f,r',hsave,hheld',hload',fun g hrt htold => ?_⟩
    rw [hget g hrt htold]
    cases hp : g.call.pick (heldBy f g.call.sect) with
    | some v => rfl
    | none =>
      -- the user has none of the values asked for, so the system's were all taken over
      have hsame : g.call.pick (taken sysFile g.call.sect) = g.call.pick (fileValue sysFile g.call.sect) := by
        refine pick_congr g.call (fun k hk => hsys g.call.sect k ?_)
        rw [← hheld',(pick_eq_none g.call).mp hp k hk]
        simp
      rw [hsame]

instance (file : Option (List UInt8)) (P : CString → CString → Prop) [DecidableRel P] :
    Decidable (Covered file P) :=
  inferInstanceAs (Decidable (∀ f ∈ file, _ ∧ _))

instance (sysFile userFile : Option (List UInt8)) (sets : List SetCall) : Decidable (MergeSafe sysFile userFile sets) :=
  decidable_of_iff (Covered userFile (fun s k => (lastSet sets s k).isSome = true) ∧
      Covered sysFile (fun s k => ((lastSet sets s k).or (fileValue userFile s k)).isSome = true))
    ⟨fun ⟨h,h'⟩ => ⟨h,h'⟩,fun ⟨h,h'⟩ => ⟨h,h'⟩⟩

instance (sysFile userFile : Option (List UInt8)) (sets : List SetCall) : Decidable (NamesTold sysFile userFile sets) :=
  decidable_of_iff
    ((∀ s ∈ allSects sysFile userFile sets, ∀ s' ∈ allSects sysFile userFile sets, s ≠ s' →
        accepted s s' = false) ∧
      ∀ e ∈ allEntries sysFile userFile sets, ∀ e' ∈ allEntries sysFile userFile sets,
        e.sect = e'.sect → e.key ≠ e'.key → accepted e.key e'.key = false)
    ⟨fun ⟨h,h'⟩ => ⟨h,h'⟩,fun ⟨h,h'⟩ => ⟨h,h'⟩⟩

/-! ## Two files -/

/-- A file whose lines fit their buffers is loaded, and kept if no line was bad. -/
theorem loadConf_eq {f : List UInt8}
    (h : Readable f) :
    loadConf (some f) = some (if (readLines Config.empty.loadStart (splitLines f).1).status then
      some (readLines Config.empty.loadStart (splitLines f).1).config else none) := by
  change Option.map _ (Config.empty.load f) = _
  rw [load_eq,if_pos h,Option.map_some]

def sampleSys : List UInt8 := [91,71,93,10,97,61,51,10]

def sampleUser : List UInt8 := [91,71,93,10,97,61,52,10,98,61,53,10]

def sampleSet : ResourceSet := .set (CString.ofBuf [71]) (CString.ofBuf [97]) (CString.ofBuf [54])

theorem mergesAndPreserves_both_loaded :
    ∃ r, load (some sampleSys) (some sampleUser) = some (true,r) ∧
      MergesAndPreserves (fun _ => ()) (fun _ : Unit => ()) (some sampleSys) (some sampleUser) [sampleSet.asSet]
        (r.storeAll [sampleSet]) := by
  have hload : load (some sampleSys) (some sampleUser) =
      some (true,⟨some (readLines Config.empty.loadStart (splitLines sampleSys).1).config,
        some (readLines Config.empty.loadStart (splitLines sampleUser).1).config⟩) := by
    unfold load
    rw [loadConf_eq (by decide +kernel),loadConf_eq (by decide +kernel),if_pos (by decide +kernel),
      if_pos (by decide +kernel)]
    rfl
  refine ⟨_,hload,?_⟩
  refine (@mergesAndPreserves_iff Unit Unit _ _ _ [sampleSet] _ _ hload (by simp) (by decide +kernel) ?_).mpr
    (by decide +kernel)
  intro c hc
  rw [storeAll_userConf _ (by simp)] at hc
  cases hc
  exact (roundTrips_iff_linesFit (by decide +kernel)).mpr (by decide +kernel)

/-- A last line without delimiter makes `load` drop what the user's file gives, and `b` is lost. -/
theorem not_mergesAndPreserves_bad_line :
    ∃ r, load (some sampleSys) (some (sampleUser ++ [120,10])) = some (true,r) ∧
      NamesTold (some sampleSys) (some (sampleUser ++ [120,10])) [sampleSet.asSet] ∧
      (∀ c ∈ (r.storeAll [sampleSet]).userConf, RoundTrips c) ∧
      ¬ MergesAndPreserves (fun _ => ()) (fun _ : Unit => ()) (some sampleSys) (some (sampleUser ++ [120,10]))
        [sampleSet.asSet] (r.storeAll [sampleSet]) := by
  have hload : load (some sampleSys) (some (sampleUser ++ [120,10])) =
      some (true,⟨some (readLines Config.empty.loadStart (splitLines sampleSys).1).config,none⟩) := by
    unfold load
    rw [loadConf_eq (by decide +kernel),loadConf_eq (by decide +kernel),if_pos (by decide +kernel),
      if_neg (by decide +kernel)]
    rfl
  have hnames : NamesTold (some sampleSys) (some (sampleUser ++ [120,10])) [sampleSet.asSet] := by decide +kernel
  have hsaves : ∀ c ∈ (Resource.storeAll
      ⟨some (readLines Config.empty.loadStart (splitLines sampleSys).1).config,none⟩
      [sampleSet]).userConf, RoundTrips c := by
    intro c hc
    rw [storeAll_userConf _ (by simp)] at hc
    cases hc
    exact (roundTrips_iff_linesFit (by decide +kernel)).mpr (by decide +kernel)
  refine ⟨_,hload,hnames,hsaves,?_⟩
  rintro ⟨f,-,hsave,hheld,-⟩
  obtain ⟨f',-,hsave',hheld',-⟩ :=
    @merged Unit Unit _ _ _ [sampleSet] (fun _ => ()) (fun _ => ()) hload (by simp) hnames hsaves
  obtain rfl : f = f' := Option.some.inj (hsave.symm.trans hsave')
  have hb := (hheld (CString.ofBuf [71]) (CString.ofBuf [98])).symm.trans
    (hheld' (CString.ofBuf [71]) (CString.ofBuf [98]))
  revert hb
  decide +kernel

end Merged

end Resource
end Edelib
