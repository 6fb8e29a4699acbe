import Edelib.Config.Grammar
import Edelib.Config.Reads

/-! # What a configuration file says

A file gives its sections in the order of their first lines, and to each section the keys of
its data lines, each with its last value. That is what `load` stores, up to the first bad line.
-/
namespace Edelib
open Foundation StrUtil KeyedList

def lineSection (l : List UInt8) : Option CString :=
  match lineKind l with
  | .sectionLine sect => sect
  | _ => none

def lineEntry (sect : Option CString) (l : List UInt8) : List SetCall :=
  match lineKind l,sect with
  | .dataLine (some (key,value)),some sect => [⟨sect,key,value⟩]
  | _, _ => []

def sectionNames (lines : List (List UInt8)) : List CString := lines.filterMap lineSection

def currentSection (sect : Option CString) (lines : List (List UInt8)) : Option CString :=
  lines.foldl (fun sect l => (lineSection l).or sect) sect

def fileEntries : Option CString → List (List UInt8) → List SetCall
  | _, [] => []
  | sect, l :: lines => lineEntry sect l ++ fileEntries ((lineSection l).or sect) lines

theorem fileEntries_append (sect : Option CString) (lines lines' : List (List UInt8)) :
    fileEntries sect (lines ++ lines') = fileEntries sect lines ++ fileEntries (currentSection sect lines) lines' := by
  induction lines generalizing sect with
  | nil => rfl
  | cons l lines ih => simp [fileEntries,currentSection,ih]

theorem fileEntries_snoc (sect : Option CString) (lines : List (List UInt8)) (l : List UInt8) :
    fileEntries sect (lines ++ [l]) = fileEntries sect lines ++ lineEntry (currentSection sect lines) l := by
  simp [fileEntries_append,fileEntries]

theorem currentSection_snoc (sect : Option CString) (lines : List (List UInt8)) (l : List UInt8) :
    currentSection sect (lines ++ [l]) = (lineSection l).or (currentSection sect lines) := by
  simp [currentSection]

theorem sectionNames_append (lines lines' : List (List UInt8)) :
    sectionNames (lines ++ lines') = sectionNames lines ++ sectionNames lines' := List.filterMap_append

theorem sectionNames_snoc (lines : List (List UInt8)) (l : List UInt8) :
    sectionNames (lines ++ [l]) = sectionNames lines ++ (lineSection l).toList := by
  cases h : lineSection l <;> simp [sectionNames,h]

theorem currentSection_mem {lines : List (List UInt8)} {s : CString} (h : currentSection none lines = some s) :
    s ∈ sectionNames lines := by
  induction lines using List.reverseRecOn with
  | nil => simp [currentSection] at h
  | append_singleton lines l ih =>
    rw [currentSection_snoc] at h
    rw [sectionNames_snoc]
    cases hl : lineSection l with
    | none =>
      rw [hl,Option.none_or] at h
      exact List.mem_append_left _ (ih h)
    | some s' =>
      rw [hl,Option.some_or] at h
      cases h
      simp

theorem fileEntries_sect {lines : List (List UInt8)} {e : SetCall} (h : e ∈ fileEntries none lines) :
    e.sect ∈ sectionNames lines := by
  induction lines using List.reverseRecOn with
  | nil => simp [fileEntries] at h
  | append_singleton lines l ih =>
    rw [fileEntries_snoc] at h
    rw [sectionNames_snoc]
    refine List.mem_append_left _ ?_
    rcases List.mem_append.mp h with h | h
    · exact ih h
    · cases hs : currentSection none lines with
      | none =>
        rw [hs] at h
        unfold lineEntry at h
        split at h <;> simp_all
      | some s =>
        rw [hs] at h
        have he : e.sect = s := by
          unfold lineEntry at h
          split at h
          · rename_i heq
            cases heq
            rw [List.mem_singleton.mp h]
          · simp at h
        exact he ▸ currentSection_mem hs

structure NamesApart (lines : List (List UInt8)) : Prop where
  sections : ∀ s ∈ sectionNames lines, ∀ s' ∈ sectionNames lines, s ≠ s' → accepted s s' = false
  keys : ∀ e ∈ fileEntries none lines, ∀ e' ∈ fileEntries none lines, e.sect = e'.sect → e.key ≠ e'.key →
    accepted e.key e'.key = false

instance (lines : List (List UInt8)) : Decidable (NamesApart lines) :=
  decidable_of_iff
    ((∀ s ∈ sectionNames lines, ∀ s' ∈ sectionNames lines, s ≠ s' → accepted s s' = false) ∧
      ∀ e ∈ fileEntries none lines, ∀ e' ∈ fileEntries none lines, e.sect = e'.sect → e.key ≠ e'.key →
        accepted e.key e'.key = false)
    ⟨fun ⟨h,h'⟩ => ⟨h,h'⟩,fun ⟨h,h'⟩ => ⟨h,h'⟩⟩

theorem NamesApart.of_append {lines lines' : List (List UInt8)} (h : NamesApart (lines ++ lines')) :
    NamesApart lines := by
  have hs : ∀ s ∈ sectionNames lines, s ∈ sectionNames (lines ++ lines') := by
    intro s hs
    rw [sectionNames_append]
    exact List.mem_append_left _ hs
  have he : ∀ e ∈ fileEntries none lines, e ∈ fileEntries none (lines ++ lines') := by
    intro e he
    rw [fileEntries_append]
    exact List.mem_append_left _ he
  exact ⟨fun s h1 s' h2 => h.sections s (hs s h1) s' (hs s' h2),fun e h1 e' h2 => h.keys e (he e h1) e' (he e' h2)⟩

namespace Config

/-- The sections in the order of their first lines, their keys in the order of the first data
lines for them, each with the value of the last. -/
structure ContentOf (c : Config) (lines : List (List UInt8)) : Prop where
  sections : c.names = (sectionNames lines).eraseDups
  keys : ∀ cs ∈ c.sectionList, cs.entryList.map ConfigEntry.key =
    (((fileEntries none lines).filter (fun e => decide (e.sect = cs.sname))).map SetCall.key).eraseDups
  values : ∀ cs ∈ c.sectionList, ∀ key, cs.value key = lastSet (fileEntries none lines) cs.sname key

/-! ## What one line adds -/

theorem contentOf_nil : ContentOf empty [] := ⟨rfl,by simp [empty],by simp [empty]⟩

theorem ContentOf.congr {c c' : Config} {lines lines' : List (List UInt8)} (h : ContentOf c lines)
    (hsections : c'.sectionList = c.sectionList) (hnames : sectionNames lines' = sectionNames lines)
    (hentries : fileEntries none lines' = fileEntries none lines) : ContentOf c' lines' := by
  refine ⟨?_,fun cs hcs => ?_,fun cs hcs key => ?_⟩
  · rw [names,hsections,hnames]
    exact h.sections
  · rw [hsections] at hcs
    rw [hentries]
    exact h.keys cs hcs
  · rw [hsections] at hcs
    rw [hentries]
    exact h.values cs hcs key

theorem ContentOf.mem_sectionNames {c : Config} {lines : List (List UInt8)} (h : ContentOf c lines) {cs : ConfigSection}
    (hcs : cs ∈ c.sectionList) : cs.sname ∈ sectionNames lines := by
  have hmem : cs.sname ∈ c.names := List.mem_map_of_mem hcs
  rw [h.sections] at hmem
  exact List.mem_eraseDups.mp hmem

theorem ContentOf.findSection {c : Config} {lines : List (List UInt8)} (hc : c.Valid) (h : ContentOf c lines)
    {s : CString} (hs : ∀ s' ∈ sectionNames lines, s' ≠ s → accepted s' s = false) :
    (c.findSection s).1 = position ConfigSection.sname s c.sectionList := by
  refine (findSection_eq_position_iff hc s).mpr (fun cs hcs => ?_)
  have hne : cs.sname ≠ s := by simpa using List.mem_takeWhile_imp hcs
  have hmem := List.takeWhile_subset _ hcs
  refine hs cs.sname (h.mem_sectionNames ?_) hne
  rcases List.mem_append.mp hmem with hmem | hmem
  · obtain ⟨i,-,hi⟩ := Option.bind_eq_some_iff.mp (Option.mem_toList.mp hmem)
    exact List.mem_of_getElem? hi
  · exact hmem

/-- A section line adds its section, unless there is one of that name. -/
theorem ContentOf.addSection {c : Config} {lines : List (List UInt8)} (hc : c.Valid) (h : ContentOf c lines)
    {l : List UInt8} {s : CString} (hl : lineKind l = .sectionLine (some s))
    (hs : ∀ s' ∈ sectionNames lines, s' ≠ s → accepted s' s = false) :
    ContentOf (c.addSection s).2 (lines ++ [l]) ∧
      ∃ cs, (c.addSection s).2.sectionList[(c.addSection s).1]? = some cs ∧ cs.sname = s := by
  have hfind := h.findSection hc hs
  have hsection : lineSection l = some s := by simp [lineSection,hl]
  have hnames : sectionNames (lines ++ [l]) = sectionNames lines ++ [s] := by simp [sectionNames_snoc,hsection]
  have hentries : fileEntries none (lines ++ [l]) = fileEntries none lines := by
    simp [fileEntries_snoc,lineEntry,hl]
  obtain ⟨p,hp,-⟩ := c.findSection_state s
  unfold Config.addSection
  cases hf : c.findSection s with
  | mk found c' =>
    simp only [hf] at hp hfind
    subst hp
    cases found with
    | some i =>
      obtain ⟨cs,hcs,hname⟩ := key_of_position ConfigSection.sname hfind.symm
      refine ⟨⟨?_,?_,?_⟩,cs,hcs,hname⟩
      · have hmem : s ∈ sectionNames lines := hname ▸ h.mem_sectionNames (List.mem_of_getElem? hcs)
        rw [hnames,eraseDups_snoc,if_pos hmem]
        exact h.sections
      · rw [hentries]
        exact h.keys
      · rw [hentries]
        exact h.values
    | none =>
      have hnew : ∀ cs ∈ c.sectionList, cs.sname ≠ s := (position_eq_none ConfigSection.sname).mp hfind.symm
      have hnot : s ∉ sectionNames lines := by
        intro hmem
        rw [← List.mem_eraseDups,← h.sections] at hmem
        obtain ⟨cs,hcs,hname⟩ := List.mem_map.mp hmem
        exact hnew cs hcs hname
      have hnone : ∀ e ∈ fileEntries none lines, e.sect ≠ s := fun e he hse => hnot (hse ▸ fileEntries_sect he)
      refine ⟨⟨?_,?_,?_⟩,ConfigSection.new s,by simp,rfl⟩
      · rw [hnames,eraseDups_snoc,if_neg hnot,← h.sections]
        simp [names,ConfigSection.new]
      · intro cs hcs
        rw [hentries]
        rcases List.mem_append.mp hcs with hcs | hcs
        · exact h.keys cs hcs
        · rw [List.mem_singleton.mp hcs]
          have hfilter : (fileEntries none lines).filter (fun e => decide (e.sect = s)) = [] := by simpa using hnone
          have hname : (ConfigSection.new s).sname = s := rfl
          rw [hname,hfilter]
          rfl
      · intro cs hcs key
        rw [hentries]
        rcases List.mem_append.mp hcs with hcs | hcs
        · exact h.values cs hcs key
        · rw [List.mem_singleton.mp hcs,ConfigSection.value_new]
          cases hlast : lastSet (fileEntries none lines) s key with
          | none => exact hlast.symm
          | some v =>
            have hsome : (lastSet (fileEntries none lines) s key).isSome = true := by rw [hlast]; rfl
            obtain ⟨e,he,hse,-⟩ := (lastSet_isSome _ s key).mp hsome
            exact absurd hse (hnone e he)

/-- A data line adds its entry to the current section, or changes the value of its key there. -/
theorem ContentOf.addEntry {c : Config} {lines : List (List UInt8)} (hc : c.Valid) (h : ContentOf c lines)
    {l : List UInt8} {key value s : CString} (hl : lineKind l = .dataLine (some (key,value)))
    (hcur : currentSection none lines = some s) {i : ℕ} {cs : ConfigSection} (hi : c.sectionList[i]? = some cs)
    (hname : cs.sname = s)
    (hkeys : ∀ e ∈ fileEntries none lines, e.sect = s → e.key ≠ key → accepted e.key key = false) :
    ContentOf { c with sectionList := c.sectionList.modify i (fun cs => cs.addEntry key value) } (lines ++ [l]) := by
  have hsection : lineSection l = none := by simp [lineSection,hl]
  have hnames : sectionNames (lines ++ [l]) = sectionNames lines := by simp [sectionNames_snoc,hsection]
  have hentries : fileEntries none (lines ++ [l]) = fileEntries none lines ++ [⟨s,key,value⟩] := by
    simp [fileEntries_snoc,lineEntry,hl,hcur]
  have hmem : cs ∈ c.sectionList := List.mem_of_getElem? hi
  have hclear : cs.KeyClear key := by
    intro e he
    have hne : e.key ≠ key := by simpa using List.mem_takeWhile_imp he
    have hkey : e.key ∈ cs.entryList.map ConfigEntry.key := List.mem_map_of_mem (List.takeWhile_subset _ he)
    rw [h.keys cs hmem,List.mem_eraseDups] at hkey
    obtain ⟨e',he',hkey⟩ := List.mem_map.mp hkey
    obtain ⟨he',hsect⟩ := List.mem_filter.mp he'
    rw [← hkey] at hne
    have hacc := hkeys e' he' (by simpa [hname] using hsect) hne
    rwa [hkey] at hacc
  -- the changed section, or another one, whose name is different
  have hcases : ∀ cs' ∈ c.sectionList.modify i (fun cs => cs.addEntry key value),
      cs' = cs.addEntry key value ∨ cs' ∈ c.sectionList ∧ cs'.sname ≠ s := by
    intro cs' hcs'
    obtain ⟨j,hj⟩ := List.mem_iff_getElem?.mp hcs'
    rw [List.getElem?_modify] at hj
    by_cases hij : i = j
    · subst hij
      rw [hi] at hj
      exact Or.inl (by simpa using hj.symm)
    · have hj' : c.sectionList[j]? = some cs' := by simpa [hij] using hj
      refine Or.inr ⟨List.mem_of_getElem? hj',fun hsame => hij ?_⟩
      have hpos := position_of_getElem? ConfigSection.sname hc.names hi hname
      rw [position_of_getElem? ConfigSection.sname hc.names hj' hsame] at hpos
      exact (Option.some.inj hpos).symm
  refine ⟨?_,fun cs' hcs' => ?_,fun cs' hcs' key' => ?_⟩
  · rw [hnames,← h.sections]
    exact map_modify ConfigSection.sname c.sectionList i (fun cs => cs.addEntry_sname key value)
  · rw [hentries,List.filter_append,List.map_append]
    rcases hcases cs' hcs' with rfl | ⟨hold,hne⟩
    · have hnew : ([⟨s,key,value⟩] : List SetCall).filter (fun e => decide (e.sect = s)) = [⟨s,key,value⟩] := by simp
      rw [ConfigSection.addEntry_keys hclear,ConfigSection.addEntry_sname,hname,hnew,h.keys cs hmem,hname,
        List.map_singleton,eraseDups_snoc]
      simp only [List.mem_eraseDups]
    · have hnew : ([⟨s,key,value⟩] : List SetCall).filter (fun e => decide (e.sect = cs'.sname)) = [] := by
        simpa using hne.symm
      rw [hnew,List.map_nil,List.append_nil]
      exact h.keys cs' hold
  · rw [hentries,lastSet_snoc]
    rcases hcases cs' hcs' with rfl | ⟨hold,hne⟩
    · rw [ConfigSection.value_addEntry hclear,ConfigSection.addEntry_sname,h.values cs hmem]
      simp [hname]
    · rw [if_neg (fun he => hne he.1)]
      exact h.values cs' hold key'

/-! ## Reading to the first bad line -/

/-- The number of lines before the first bad one, and what is wrong with it. -/
def firstBad : Bool → List (List UInt8) → Option (ℕ × ConfigErrors)
  | _, [] => none
  | found, l :: lines =>
    match badLine found l with
    | some e => some (0,e)
    | none => (firstBad (found || isSectionLine l) lines).map (fun r => (r.1 + 1,r.2))

structure ReadSo (st : LoadState) (lines : List (List UInt8)) : Prop where
  status : st.status = true
  errcode : st.config.errcode = .success
  linenum : st.config.linenum = BitVec.ofNat 32 lines.length
  valid : st.config.Valid
  ready : st.Ready
  content : ContentOf st.config lines
  current : ∀ i, st.tsect = some i →
    ∃ cs, st.config.sectionList[i]? = some cs ∧ currentSection none lines = some cs.sname

theorem readSo_start (c : Config) : ReadSo c.loadStart [] where
  status := rfl
  errcode := rfl
  linenum := rfl
  valid := valid_empty
  ready := fun h => Bool.noConfusion h
  content := contentOf_nil
  current := fun i h => by cases h

theorem addSection_counters (c : Config) (s : CString) :
    (c.addSection s).2.errcode = c.errcode ∧ (c.addSection s).2.linenum = c.linenum := by
  obtain ⟨p,hp,-⟩ := c.findSection_state s
  unfold Config.addSection
  cases hf : c.findSection s with
  | mk found c' =>
    simp only [hf] at hp
    subst hp
    cases found <;> exact ⟨rfl,rfl⟩

theorem ofNat_succ (n : ℕ) : BitVec.ofNat 32 n + 1 = BitVec.ofNat 32 (n + 1) := (BitVec.ofNat_add n 1).symm

/-- A line that is not bad keeps the invariant of the loop. -/
theorem ReadSo.lineStep {st : LoadState} {lines : List (List UInt8)} (h : ReadSo st lines) {l : List UInt8}
    (hgood : badLine st.sectFound l = none) (hapart : NamesApart (lines ++ [l])) :
    ReadSo (lineStep st l).1 (lines ++ [l]) := by
  obtain ⟨-,hmore,hnext⟩ := lineStep_spec h.ready l
  have hready := (hnext (hmore.mpr hgood)).2
  have hlen : st.config.linenum + 1 = BitVec.ofNat 32 (lines ++ [l]).length := by
    rw [h.linenum,List.length_append,List.length_singleton]
    exact ofNat_succ _
  have hvalid : { st.config with linenum := st.config.linenum + 1 }.Valid :=
    ⟨h.valid.names,h.valid.keys,h.valid.cached_lt⟩
  have hcontent : ContentOf { st.config with linenum := st.config.linenum + 1 } lines := h.content.congr rfl rfl rfl
  unfold Config.lineStep at hready ⊢
  unfold badLine at hgood
  cases hk : lineKind l with
  | blank =>
    simp only [hk] at hready ⊢
    have hsection : lineSection l = none := by simp [lineSection,hk]
    have hentries : lineEntry (currentSection none lines) l = [] := by simp [lineEntry,hk]
    refine ⟨h.status,h.errcode,hlen,hvalid,hready,?_,fun i hi => ?_⟩
    · refine h.content.congr rfl ?_ ?_
      · simp [sectionNames_snoc,hsection]
      · simp [fileEntries_snoc,hentries]
    · rw [currentSection_snoc,hsection,Option.none_or]
      exact h.current i hi
  | sectionLine name =>
    cases name with
    | none => simp [hk] at hgood
    | some s =>
      simp only [hk] at hready ⊢
      have hsection : lineSection l = some s := by simp [lineSection,hk]
      have hnames : ∀ s' ∈ sectionNames lines, s' ≠ s → accepted s' s = false := by
        intro s' hs' hne
        refine hapart.sections s' ?_ s ?_ hne <;> simp [sectionNames_snoc,hsection,hs']
      obtain ⟨hnew,cs,hcs,hname⟩ := hcontent.addSection hvalid hk hnames
      obtain ⟨herr,hnum⟩ := addSection_counters { st.config with linenum := st.config.linenum + 1 } s
      refine ⟨h.status,herr.trans h.errcode,hnum.trans hlen,valid_addSection hvalid s,hready,hnew,fun i hi => ?_⟩
      obtain rfl := Option.some.inj hi
      exact ⟨cs,hcs,by rw [currentSection_snoc,hsection,hname,Option.some_or]⟩
  | dataLine entry =>
    have hfound : st.sectFound = true := by
      by_contra hf
      have hf : st.sectFound = false := by simpa using hf
      simp [hk,hf] at hgood
    cases entry with
    | none => simp [hk,hfound] at hgood
    | some kv =>
      obtain ⟨key,value⟩ := kv
      obtain ⟨i,hi⟩ := Option.isSome_iff_exists.mp (h.ready hfound)
      obtain ⟨cs,hcs,hcur⟩ := h.current i hi
      have hsection : lineSection l = none := by simp [lineSection,hk]
      have hkeys : ∀ e ∈ fileEntries none lines, e.sect = cs.sname → e.key ≠ key → accepted e.key key = false := by
        intro e he hsect hne
        refine hapart.keys e ?_ ⟨cs.sname,key,value⟩ ?_ hsect hne <;> simp [fileEntries_snoc,lineEntry,hk,hcur,he]
      have hnew := hcontent.addEntry hvalid hk hcur hcs rfl hkeys
      have hvalid' := hvalid.addEntryAt i key value
      simp only [hk,hfound,Bool.true_eq_false,↓reduceIte,hi,Option.elim_some] at hready ⊢
      refine ⟨h.status,h.errcode,hlen,hvalid',hready,hnew,fun j hj => ?_⟩
      obtain rfl := Option.some.inj hj
      refine ⟨cs.addEntry key value,by simp [hcs],?_⟩
      rw [currentSection_snoc,hsection,Option.none_or,hcur,ConfigSection.addEntry_sname]

/-- A bad line ends the loop with its number and its code, and stores nothing. -/
theorem lineStep_bad {st : LoadState} {l : List UInt8} {e : ConfigErrors} (h : badLine st.sectFound l = some e) :
    (lineStep st l).1.status = false ∧ (lineStep st l).1.config.errcode = e ∧
      (lineStep st l).1.config.linenum = st.config.linenum + 1 ∧
      (lineStep st l).1.config.sectionList = st.config.sectionList := by
  unfold badLine at h
  unfold lineStep
  cases hk : lineKind l with
  | blank => simp [hk] at h
  | sectionLine name =>
    cases name with
    | none =>
      simp only [hk] at h
      cases h
      exact ⟨rfl,rfl,rfl,rfl⟩
    | some s => simp [hk] at h
  | dataLine entry =>
    cases hf : st.sectFound with
    | false =>
      simp only [hk,hf,↓reduceIte] at h
      cases h
      simp [LoadState.failWith]
    | true =>
      cases entry with
      | none =>
        simp only [hk,hf] at h
        cases h
        simp [LoadState.failWith]
      | some kv => simp [hk,hf] at h

/-- The loop stores the lines before the first bad one, and reports that one. -/
theorem readLines_spec {st : LoadState} {lines : List (List UInt8)} (h : ReadSo st lines) (todo : List (List UInt8))
    (hapart : NamesApart (lines ++ todo)) :
    (firstBad st.sectFound todo = none → ReadSo (readLines st todo) (lines ++ todo)) ∧
      ∀ i e, firstBad st.sectFound todo = some (i,e) →
        (readLines st todo).status = false ∧ (readLines st todo).config.errcode = e ∧
          (readLines st todo).config.linenum = BitVec.ofNat 32 (lines.length + i + 1) ∧
          ContentOf (readLines st todo).config (lines ++ todo.take i) := by
  induction todo generalizing st lines with
  | nil => simpa [firstBad,readLines] using h
  | cons l todo ih =>
    have hgrown : ReadSo { st with buflen := growTo st.buflen (l.length + 1) } lines :=
      ⟨h.status,h.errcode,h.linenum,h.valid,h.ready,h.content,h.current⟩
    obtain ⟨-,hmore,hnext⟩ := lineStep_spec hgrown.ready l
    have hsplit : lines ++ l :: todo = lines ++ [l] ++ todo := by simp
    rw [firstBad,readLines]
    cases hbad : badLine st.sectFound l with
    | some e =>
      obtain ⟨hstatus,herr,hnum,hsections⟩ :=
        @lineStep_bad { st with buflen := growTo st.buflen (l.length + 1) } l e hbad
      have hstop : (lineStep { st with buflen := growTo st.buflen (l.length + 1) } l).2 = false := by
        by_contra hgo
        have hgood := hmore.mp (by simpa using hgo)
        rw [hbad] at hgood
        cases hgood
      simp only [hstop]
      refine ⟨fun hnone => by simp at hnone,fun i e' hsome => ?_⟩
      cases hsome
      refine ⟨hstatus,herr,hnum.trans ((congrArg (· + 1) h.linenum).trans (ofNat_succ _)),?_⟩
      simpa using h.content.congr hsections rfl rfl
    | none =>
      have hgo := hmore.mpr hbad
      obtain ⟨hfound,-⟩ := hnext hgo
      have hline := hgrown.lineStep hbad (NamesApart.of_append (hsplit ▸ hapart))
      obtain ⟨hall,hfirst⟩ := ih hline (hsplit ▸ hapart)
      rw [hfound] at hall hfirst
      simp only [hgo,↓reduceIte,hsplit]
      refine ⟨fun hnone => hall (by simpa using hnone),fun i e hsome => ?_⟩
      obtain ⟨⟨j,e'⟩,hrest,heq⟩ := Option.map_eq_some_iff.mp hsome
      cases heq
      obtain ⟨hstatus,herr,hnum,hcontent⟩ := hfirst j e' hrest
      refine ⟨hstatus,herr,?_,?_⟩
      · have hlen : (lines ++ [l]).length + j + 1 = lines.length + (j + 1) + 1 := by
          rw [List.length_append,List.length_singleton]
          omega
        rw [hnum,hlen]
      · simpa using hcontent

/-! ## Files with short names -/

def ShortTexts (l : List UInt8) : Prop :=
  match lineText l with
  | [] => True
  | c :: text =>
    if c = comment then True
    else if c = sectOpen then sectClose ∈ text → (sectionText text).length < esectMax
    else kvDelim ∈ c :: text → (before kvDelim (c :: text)).length < ekeyMax

/-- The text of a section line without closing bracket is shorter than the section buffer. -/
def ShortUnclosed (l : List UInt8) : Prop :=
  match lineText l with
  | [] => True
  | c :: text => c = sectOpen → sectClose ∉ text → (sectionText text).length < esectMax

instance (l : List UInt8) : Decidable (ShortTexts l) :=
  decidable_of_iff (lineText l = [] ∨
    if (lineText l).head? = some comment then True
    else if (lineText l).head? = some sectOpen then
      sectClose ∈ (lineText l).tail → (sectionText (lineText l).tail).length < esectMax
    else kvDelim ∈ lineText l → (before kvDelim (lineText l)).length < ekeyMax)
    (by unfold ShortTexts; cases lineText l <;> simp)

instance (l : List UInt8) : Decidable (ShortUnclosed l) :=
  decidable_of_iff ((lineText l).head? = some sectOpen → sectClose ∉ (lineText l).tail →
    (sectionText (lineText l).tail).length < esectMax)
    (by unfold ShortUnclosed; cases lineText l <;> simp)

theorem roomFor_iff {l : List UInt8} (h : ShortTexts l) (found : Bool) : RoomFor found l ↔ ShortUnclosed l := by
  unfold ShortTexts at h
  unfold RoomFor ShortUnclosed
  cases hl : lineText l with
  | nil => simp
  | cons c text =>
    simp only [hl] at h
    by_cases hc : c = comment
    · simp [hc,show (comment = sectOpen) = False by decide]
    · rw [if_neg hc] at h
      by_cases ho : c = sectOpen
      · rw [if_pos ho] at h
        simp only [ho,↓reduceIte,forall_const]
        by_cases hclose : sectClose ∈ text <;> simp [hclose,h,show (sectOpen = comment) = False by decide]
      · rw [if_neg ho] at h
        simp only [hc,ho,↓reduceIte,false_implies,iff_true]
        exact fun _ => h

theorem roomsFor_iff {lines : List (List UInt8)} (h : ∀ l ∈ lines, ShortTexts l) (found : Bool) :
    RoomsFor found lines ↔ ∀ l ∈ linesRead found lines, ShortUnclosed l := by
  induction lines generalizing found with
  | nil => simp [RoomsFor,linesRead]
  | cons l lines ih =>
    obtain ⟨hl,hlines⟩ := List.forall_mem_cons.mp h
    rw [RoomsFor,linesRead,List.forall_mem_cons,roomFor_iff hl]
    by_cases hbad : badLine found l = none <;> simp [hbad,ih hlines]

/-! ## What `load` reports -/

/-- The result, the code and the line number tell of the first bad line, and the content is that
of the lines before it, or of all lines. -/
def Reports (status : Bool) (c : Config) (lines : List (List UInt8)) : Prop :=
  match firstBad false lines with
  | none => status = true ∧ c.errcode = .success ∧ ContentOf c lines
  | some (i,e) => status = false ∧ c.linenum.toNat = i + 1 ∧ c.errcode = e ∧ ContentOf c (lines.take i)

/-- `load` has a result, which is the one that the lines of the file ask for. -/
def LoadsGrammar (c : Config) (f : List UInt8) : Prop :=
  ∃ status c', c.load f = some (status,c') ∧ Reports status c' (splitLines f).1

/-- The number of the first bad line is one that `line()` can return. -/
def LineCounted (lines : List (List UInt8)) : Prop := ∀ r ∈ firstBad false lines, r.1 + 1 < 2 ^ 32

instance (lines : List (List UInt8)) : Decidable (LineCounted lines) :=
  inferInstanceAs (Decidable (∀ r ∈ firstBad false lines, r.1 + 1 < 2 ^ 32))

/-- What `readLines` leaves of lines of which none is bad. -/
theorem readLines_good (c : Config) {lines : List (List UInt8)} (hapart : NamesApart lines)
    (hgood : firstBad false lines = none) : ReadSo (readLines c.loadStart lines) lines := by
  obtain ⟨hall,-⟩ := readLines_spec (readSo_start c) lines hapart
  rw [List.nil_append] at hall
  exact hall hgood

/-- What `readLines` leaves where there is a bad line. -/
theorem readLines_bad (c : Config) {lines : List (List UInt8)} (hapart : NamesApart lines) {i : ℕ} {e : ConfigErrors}
    (hbad : firstBad false lines = some (i,e)) :
    (readLines c.loadStart lines).status = false ∧ (readLines c.loadStart lines).config.errcode = e ∧
      (readLines c.loadStart lines).config.linenum = BitVec.ofNat 32 (i + 1) ∧
      ContentOf (readLines c.loadStart lines).config (lines.take i) := by
  obtain ⟨-,hfirst⟩ := readLines_spec (readSo_start c) lines hapart
  have h := hfirst i e hbad
  rwa [List.length_nil,Nat.zero_add,List.nil_append] at h

/-- What `readLines` leaves is what the lines ask for, if the number of the first bad one fits. -/
theorem reports_readLines_iff (c : Config) {lines : List (List UInt8)} (hapart : NamesApart lines) :
    Reports (readLines c.loadStart lines).status (readLines c.loadStart lines).config lines ↔ LineCounted lines := by
  unfold Reports LineCounted
  cases hbad : firstBad false lines with
  | none =>
    have h := readLines_good c hapart hbad
    exact iff_of_true ⟨h.status,h.errcode,h.content⟩ (by simp)
  | some r =>
    obtain ⟨hstatus,herr,hnum,hcontent⟩ := readLines_bad c hapart hbad
    dsimp only
    rw [hnum,BitVec.toNat_ofNat]
    constructor
    · rintro ⟨-,hline,-⟩ r' hr'
      obtain rfl := Option.some.inj hr'
      rw [← hline]
      exact Nat.mod_lt _ (by decide)
    · intro hcount
      exact ⟨hstatus,Nat.mod_eq_of_lt (hcount r rfl),herr,hcontent⟩

/-- On files whose names are short and told apart, `load` accepts the grammar and reports the
first bad line, if and only if no line that is read overruns the line buffer, no section line
without closing bracket overruns the section buffer, and no count leaves its type. -/
theorem loadsGrammar_iff (c : Config) {f : List UInt8} (hshort : ∀ l ∈ (splitLines f).1, ShortTexts l)
    (hapart : NamesApart (splitLines f).1) : LoadsGrammar c f ↔
      LinesFit (linesRead false (splitLines f).1) ∧ (∀ l ∈ linesRead false (splitLines f).1, ShortUnclosed l) ∧
        LastFits false (splitLines f).1 (splitLines f).2 ∧ LineCounted (splitLines f).1 := by
  rw [← roomsFor_iff hshort]
  have hload := load_eq c f
  constructor
  · rintro ⟨status,c',hc',hreports⟩
    have hread : Readable f := by
      by_contra hno
      rw [if_neg hno,hc'] at hload
      cases hload
    rw [if_pos hread,hc'] at hload
    cases hload
    exact ⟨hread.lines,hread.rooms,hread.last,(reports_readLines_iff c hapart).mp hreports⟩
  · rintro ⟨hlines,hrooms,hlast,hcount⟩
    rw [if_pos ⟨hlines,hrooms,hlast⟩] at hload
    exact ⟨_,_,hload,(reports_readLines_iff c hapart).mpr hcount⟩

/-- Two sections, one of them twice, a key with two values, and then a line without delimiter. -/
theorem loadsGrammar_duplicates :
    LoadsGrammar empty [91,65,93,10,107,61,49,10,91,66,93,10,91,65,93,10,107,61,50,10,120,10] :=
  (loadsGrammar_iff empty (by decide +kernel) (by decide +kernel)).mpr (by decide +kernel)

/-- A section line of 128 bytes without closing bracket is not reported: with its newline, which
is copied too, it overruns the section buffer. -/
theorem not_loadsGrammar_unclosed : ¬ LoadsGrammar empty (91 :: (List.replicate 127 97 ++ [10])) := by
  rintro ⟨status,c',hload,-⟩
  rw [load_eq,if_neg (by decide +kernel)] at hload
  cases hload

end Config
end Edelib
