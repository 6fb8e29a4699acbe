import Edelib.Config.Lines
import Edelib.Config.Map

/-! # Saving and loading a configuration

Saving prints one line for each section and entry; loading reads the lines back.
On names that survive trimming and are told apart by the lookups, the loaded
configuration is the saved one, if and only if no line overruns the line buffer.
-/
namespace Edelib
open Foundation StrUtil KeyedList

/-! ## Scanning what was printed -/

theorem scanSectionLoop_close {name rest : List UInt8} {bufsz : ℕ} (hc : sectClose ∉ name)
    (hlen : name.length < bufsz) : scanSectionLoop (name ++ sectClose :: rest) bufsz = (true,name) := by
  induction name generalizing bufsz with
  | nil =>
    obtain ⟨n,rfl⟩ : ∃ n, bufsz = n + 1 := ⟨bufsz - 1,by simp at hlen; omega⟩
    simp [scanSectionLoop]
  | cons c name ih =>
    obtain ⟨n,rfl⟩ : ∃ n, bufsz = n + 1 := ⟨bufsz - 1,by simp at hlen; omega⟩
    obtain ⟨hne,hname⟩ : sectClose ≠ c ∧ sectClose ∉ name := by
      simpa only [List.mem_cons,not_or] using hc
    simp only [List.length_cons,Nat.add_lt_add_iff_right] at hlen
    simp only [List.cons_append,scanSectionLoop,Ne.symm hne,↓reduceIte,ih hname hlen]

structure SectionName (s : CString) : Prop where
  nonempty : s.bytes ≠ []
  trimmed : Trimmed s.bytes
  short : s.strlen ≤ 127
  noClose : sectClose ∉ s.bytes
  noNewline : newline ∉ s.bytes

theorem scanSection_name {s : CString} (h : SectionName s) :
    scanSection (s.bytes ++ [sectClose,newline]) esectMax = some (true,s) := by
  have hlen : s.bytes.length < esectMax := Nat.lt_succ_of_le h.short
  have hleft : strTrimleft (s.bytes ++ [sectClose,newline]) = s.bytes ++ [sectClose,newline] := by
    obtain ⟨c,bs,hb⟩ := List.exists_cons_of_ne_nil h.nonempty
    have hc : isspace c = false := head_of_trimmed (hb ▸ h.trimmed)
    rw [strTrimleft,hb,List.cons_append,List.dropWhile_cons_of_neg (by simp [hc])]
  have hright : strTrimright s.bytes = s.bytes := strTrimright_of_trimmed h.trimmed
  simp only [scanSection,hleft,scanSectionLoop_close h.noClose hlen,hlen,↓reduceIte,hright,
    CString.ofBuf_bytes]

instance (s : CString) : Decidable (SectionName s) :=
  decidable_of_iff (s.bytes ≠ [] ∧ Trimmed s.bytes ∧ s.strlen ≤ 127 ∧ sectClose ∉ s.bytes ∧ newline ∉ s.bytes)
    ⟨fun ⟨h1,h2,h3,h4,h5⟩ => ⟨h1,h2,h3,h4,h5⟩,fun ⟨h1,h2,h3,h4,h5⟩ => ⟨h1,h2,h3,h4,h5⟩⟩

structure KeyName (s : CString) : Prop where
  nonempty : s.bytes ≠ []
  trimmed : Trimmed s.bytes
  short : s.strlen ≤ 127
  noDelim : kvDelim ∉ s.bytes
  noNewline : newline ∉ s.bytes
  noComment : s.bytes.head? ≠ some comment
  noOpen : s.bytes.head? ≠ some sectOpen

instance (s : CString) : Decidable (KeyName s) :=
  decidable_of_iff (s.bytes ≠ [] ∧ Trimmed s.bytes ∧ s.strlen ≤ 127 ∧ kvDelim ∉ s.bytes ∧ newline ∉ s.bytes ∧
      s.bytes.head? ≠ some comment ∧ s.bytes.head? ≠ some sectOpen)
    ⟨fun ⟨h1,h2,h3,h4,h5,h6,h7⟩ => ⟨h1,h2,h3,h4,h5,h6,h7⟩,
      fun ⟨h1,h2,h3,h4,h5,h6,h7⟩ => ⟨h1,h2,h3,h4,h5,h6,h7⟩⟩

structure ValueText (s : CString) : Prop where
  trimmed : Trimmed s.bytes
  noNewline : newline ∉ s.bytes

instance (s : CString) : Decidable (ValueText s) :=
  decidable_of_iff (Trimmed s.bytes ∧ newline ∉ s.bytes) ⟨fun ⟨h1,h2⟩ => ⟨h1,h2⟩,fun ⟨h1,h2⟩ => ⟨h1,h2⟩⟩

/-- Scanning a printed entry gives the entry back, in buffers as long as the line. -/
theorem scanKeyvalues_entry {key value : CString} (hk : KeyName key) (hv : ValueText value)
    {linesz valsz : ℕ} (hline : key.strlen + value.strlen + 2 ≤ linesz) (hval : linesz ≤ valsz) :
    scanKeyvalues (key.bytes ++ kvDelim :: (value.bytes ++ [newline])) linesz ekeyMax valsz =
      some (some (key,value)) := by
  have hkey : (((key.bytes ++ kvDelim :: (value.bytes ++ [newline])).take ekeyMax).takeWhile
      (fun c => decide (c ≠ kvDelim))) = key.bytes := by
    have hlt : key.bytes.length < ekeyMax := Nat.lt_succ_of_le hk.short
    obtain ⟨n,hn⟩ : ∃ n, ekeyMax - key.bytes.length = n + 1 := ⟨ekeyMax - key.bytes.length - 1,by omega⟩
    have hall : ∀ c ∈ key.bytes, decide (c ≠ kvDelim) = true := by
      intro c hc
      simp only [decide_eq_true_eq]
      rintro rfl
      exact hk.noDelim hc
    rw [List.take_append,List.take_of_length_le hlt.le,hn,List.take_succ_cons,
      List.takeWhile_append_of_pos hall]
    simp
  have hvalue : ((value.bytes ++ [newline]).take (min valsz linesz)).takeWhile
      (fun c => decide (c ≠ newline)) = value.bytes := by
    have hlt : value.bytes.length < min valsz linesz := by
      have : value.bytes.length = value.strlen := rfl
      omega
    obtain ⟨n,hn⟩ : ∃ n, min valsz linesz - value.bytes.length = n + 1 :=
      ⟨min valsz linesz - value.bytes.length - 1,by omega⟩
    have hall : ∀ c ∈ value.bytes, decide (c ≠ newline) = true := by
      intro c hc
      simp only [decide_eq_true_eq]
      rintro rfl
      exact hv.noNewline hc
    rw [List.take_append,List.take_of_length_le hlt.le,hn,List.take_succ_cons,
      List.takeWhile_append_of_pos hall]
    simp
  have hbound : key.bytes.length < ekeyMax ∧ value.bytes.length < valsz := by
    refine ⟨Nat.lt_succ_of_le hk.short,?_⟩
    have : value.bytes.length = value.strlen := rfl
    omega
  have hmem : kvDelim ∈ key.bytes ++ kvDelim :: (value.bytes ++ [newline]) := by simp
  have htrim : ∀ {s : CString}, Trimmed s.bytes → CString.ofBuf (strTrim s.bytes) = s := by
    intro s hs
    rw [show strTrim s.bytes = s.bytes from hs,CString.ofBuf_bytes]
  simp only [scanKeyvalues,hmem,↓reduceIte,hkey,List.drop_left,List.head?_cons,List.tail_cons,hvalue,hbound,
    and_self,htrim hk.trimmed,htrim hv.trimmed]

/-! ## The lines of a saved configuration -/

namespace Config

def sectionLine (sname : CString) : List UInt8 := sectOpen :: (sname.bytes ++ [sectClose])

def entryLine (e : ConfigEntry) : List UInt8 := e.key.bytes ++ kvDelim :: e.value.bytes

def savedLines : List ConfigSection → List (List UInt8)
  | [] => []
  | cs :: rest => sectionLine cs.sname :: (cs.entryList.map entryLine ++
      ((if rest.length + 1 ≠ 1 then [[]] else []) ++ savedLines rest))

theorem printSections_eq_unlines (sections : List ConfigSection) :
    printSections sections = unlines (savedLines sections) := by
  have hentries : ∀ es : List ConfigEntry, es.flatMap printEntry = unlines (es.map entryLine) := by
    intro es
    induction es with
    | nil => rfl
    | cons e es ih => simp [unlines_cons,ih,printEntry,entryLine]
  induction sections with
  | nil => rfl
  | cons cs rest ih =>
    have hsep : (if rest.length + 1 ≠ 1 then [newline] else []) =
        unlines (if rest.length + 1 ≠ 1 then [[]] else []) := by
      split_ifs <;> rfl
    simp only [printSections,savedLines,unlines_cons,unlines_append,printSection,sectionLine,hentries,ih,hsep]
    simp

/-- The names and values of a configuration survive printing, and no two distinct
names are identified by the lookups. -/
structure Savable (sections : List ConfigSection) : Prop where
  names : (sections.map ConfigSection.sname).Nodup
  keys : ∀ cs ∈ sections, (cs.entryList.map ConfigEntry.key).Nodup
  sectionName : ∀ cs ∈ sections, SectionName cs.sname
  keyName : ∀ cs ∈ sections, ∀ e ∈ cs.entryList, KeyName e.key
  valueText : ∀ cs ∈ sections, ∀ e ∈ cs.entryList, ValueText e.value
  sectionsApart : ∀ cs ∈ sections, ∀ cs' ∈ sections, cs.sname ≠ cs'.sname →
    accepted cs.sname cs'.sname = false
  keysApart : ∀ cs ∈ sections, ∀ e ∈ cs.entryList, ∀ e' ∈ cs.entryList, e.key ≠ e'.key →
    accepted e.key e'.key = false

instance (sections : List ConfigSection) : Decidable (Savable sections) :=
  decidable_of_iff
    ((sections.map ConfigSection.sname).Nodup ∧
      (∀ cs ∈ sections, (cs.entryList.map ConfigEntry.key).Nodup ∧ SectionName cs.sname ∧
        (∀ e ∈ cs.entryList, KeyName e.key ∧ ValueText e.value) ∧
        ∀ e ∈ cs.entryList, ∀ e' ∈ cs.entryList, e.key ≠ e'.key → accepted e.key e'.key = false) ∧
      ∀ cs ∈ sections, ∀ cs' ∈ sections, cs.sname ≠ cs'.sname → accepted cs.sname cs'.sname = false)
    ⟨fun ⟨h1,h2,h3⟩ => ⟨h1,fun cs hcs => (h2 cs hcs).1,fun cs hcs => (h2 cs hcs).2.1,
        fun cs hcs e he => ((h2 cs hcs).2.2.1 e he).1,fun cs hcs e he => ((h2 cs hcs).2.2.1 e he).2,h3,
        fun cs hcs => (h2 cs hcs).2.2.2⟩,
      fun h => ⟨h.names,fun cs hcs => ⟨h.keys cs hcs,h.sectionName cs hcs,
        fun e he => ⟨h.keyName cs hcs e he,h.valueText cs hcs e he⟩,h.keysApart cs hcs⟩,h.sectionsApart⟩⟩

theorem lineBody_append {a b : List UInt8} : LineBody (a ++ b) ↔ LineBody a ∧ LineBody b := by
  simp only [LineBody,List.mem_append,not_or]
  tauto

theorem lineBody_sectionLine {s : CString} (h : SectionName s) : LineBody (sectionLine s) := by
  have hs : LineBody (s.bytes ++ [sectClose]) :=
    lineBody_append.mpr ⟨⟨h.noNewline,s.nulFree⟩,by decide⟩
  exact lineBody_append.mpr ⟨(by decide : LineBody [sectOpen]),hs⟩

theorem lineBody_entryLine {e : ConfigEntry} (hk : KeyName e.key) (hv : ValueText e.value) :
    LineBody (entryLine e) :=
  lineBody_append.mpr ⟨⟨hk.noNewline,e.key.nulFree⟩,
    lineBody_append (a := [kvDelim]).mpr ⟨by decide,hv.noNewline,e.value.nulFree⟩⟩

theorem lineBody_savedLines {sections : List ConfigSection} (h : Savable sections) :
    ∀ l ∈ savedLines sections, LineBody l := by
  have hall : ∀ todo : List ConfigSection, (∀ cs ∈ todo, cs ∈ sections) → ∀ l ∈ savedLines todo, LineBody l := by
    intro todo
    induction todo with
    | nil => simp [savedLines]
    | cons cs rest ih =>
      intro hsub l hl
      have hcs := hsub cs List.mem_cons_self
      simp only [savedLines,List.mem_cons,List.mem_append,List.mem_map] at hl
      rcases hl with rfl | ⟨e,he,rfl⟩ | hl | hl
      · exact lineBody_sectionLine (h.sectionName cs hcs)
      · exact lineBody_entryLine (h.keyName cs hcs e he) (h.valueText cs hcs e he)
      · split_ifs at hl
        · rw [List.mem_singleton.mp hl]
          decide
        · simp at hl
      · exact ih (fun cs hcs => hsub cs (List.mem_cons_of_mem _ hcs)) l hl
  exact hall sections (fun _ hcs => hcs)

/-! ## One line of the loop -/

/-- A line that the reader delivers and that does not end the loop. -/
theorem loadLoop_line {st st' : LoadState} {l rest : List UInt8} (hl : LineBody l)
    (hfit : ¬ Overruns st.buflen (l.length + 1))
    (h : loadLine { st with buflen := growTo st.buflen (l.length + 1) } (l ++ [newline]) = some (st',true)) :
    loadLoop st (l ++ newline :: rest) = loadLoop st' rest := by
  have hg := configGetline_line hl st.buflen rest
  rw [if_neg hfit] at hg
  rw [loadLoop_getline hg (by simp)]
  simp only [h]

/-- A line never changes the buffer's size, and a line that ends the loop fails the load. -/
theorem loadLine_state {st st' : LoadState} {buf : List UInt8} {more : Bool}
    (h : loadLine st buf = some (st',more)) :
    st'.buflen = st.buflen ∧ (more = false → st'.status = false) := by
  obtain ⟨rfl,rfl⟩ | ⟨rfl,found,vallen,e,rfl⟩ | ⟨rfl,sect,rfl⟩ | ⟨rfl,i,key,value,rfl⟩ := loadText_cases h
  · exact ⟨rfl,fun hmore => Bool.noConfusion hmore⟩
  · exact ⟨rfl,fun _ => rfl⟩
  · exact ⟨rfl,fun hmore => Bool.noConfusion hmore⟩
  · exact ⟨rfl,fun hmore => Bool.noConfusion hmore⟩

/-- A load that succeeds has read every line within its buffer. -/
theorem fits_of_loadLoop {bodies : List (List UInt8)} (hb : ∀ l ∈ bodies, LineBody l) {st st' : LoadState}
    (h : loadLoop st (unlines bodies) = some st') (hok : st'.status = true) : Fits st.buflen bodies := by
  induction bodies generalizing st with
  | nil => exact trivial
  | cons l bodies ih =>
    have hg := configGetline_line (hb l List.mem_cons_self) st.buflen (unlines bodies)
    rw [unlines_cons] at h
    by_cases hfit : Overruns st.buflen (l.length + 1)
    · rw [if_pos hfit] at hg
      rw [loadLoop_none hg] at h
      cases h
    · rw [if_neg hfit] at hg
      rw [loadLoop_getline hg (by simp)] at h
      cases hline : loadLine { st with buflen := growTo st.buflen (l.length + 1) } (l ++ [newline]) with
      | none => simp [hline] at h
      | some r =>
        obtain ⟨st₁,more⟩ := r
        obtain ⟨hlen,hstop⟩ := loadLine_state hline
        cases more with
        | false =>
          simp only [hline] at h
          cases h
          simp [hstop rfl] at hok
        | true =>
          simp only [hline] at h
          have hrest := ih (fun l hl => hb l (List.mem_cons_of_mem _ hl)) h
          rw [hlen] at hrest
          exact ⟨hfit,hrest⟩

/-! ## The loop on a saved configuration -/

/-- The sections read so far; nothing was cached, since every lookup was for a new name. -/
structure Loaded (st : LoadState) (done : List ConfigSection) : Prop where
  status : st.status = true
  sections : st.config.sectionList = done
  cached : st.config.cached = none
  buflen_pos : 0 < st.buflen

structure InSection (st : LoadState) (done : List ConfigSection) (cs : ConfigSection) : Prop
    extends Loaded st (done ++ [cs]) where
  sectFound : st.sectFound = true
  tsect : st.tsect = some done.length

theorem loadLine_blank {st : LoadState} {done : List ConfigSection} (h : Loaded st done) :
    ∃ st', loadLine st [newline] = some (st',true) ∧ Loaded st' done :=
  ⟨_,rfl,h.status,h.sections,h.cached,h.buflen_pos⟩

theorem loadLine_section {st : LoadState} {done : List ConfigSection} (h : Loaded st done) {s : CString}
    (hs : SectionName s) (hnew : ∀ cs ∈ done, accepted cs.sname s = false) :
    ∃ st', loadLine st (sectionLine s ++ [newline]) = some (st',true) ∧
      InSection st' done (ConfigSection.new s) := by
  have hline : (CString.ofBuf (sectionLine s ++ [newline])).bytes.dropWhile isspace =
      sectOpen :: (s.bytes ++ [sectClose,newline]) := by
    have hn : (0 : UInt8) ∉ sectionLine s ++ [newline] :=
      CString.nulFree_append.mpr ⟨(lineBody_sectionLine hs).2,by decide⟩
    rw [CString.ofBuf_eq hn]
    simp [sectionLine,show isspace sectOpen = false from by decide]
  have hfind : ∀ c : Config, c.sectionList = done → c.cached = none → c.findSection s = (none,c) := by
    intro c hc hcache
    have hidx : c.sectionList.findIdx? (fun cs => cs.isNamed (strHash s 0) s) = none := by
      rw [List.findIdx?_eq_none_iff,hc]
      intro cs hcs
      rw [ConfigSection.isNamed_eq]
      exact hnew cs hcs
    simp [findSection,cachedSection,hcache,hidx]
  have hfound := hfind { st.config with linenum := st.config.linenum + 1 } h.sections h.cached
  simp only [loadLine,hline,loadText,show (sectOpen = comment) = False from by decide,↓reduceIte,
    loadSection,scanSection_name hs,addSection,hfound]
  exact ⟨_,rfl,⟨h.status,by simp [h.sections],h.cached,h.buflen_pos⟩,rfl,by simp [h.sections]⟩

theorem loadLine_entry {st : LoadState} {done : List ConfigSection} {cs : ConfigSection}
    (h : InSection st done cs) {e : ConfigEntry} (hk : KeyName e.key) (hv : ValueText e.value)
    (hlen : (entryLine e).length + 1 ≤ st.buflen) (hnew : ∀ e' ∈ cs.entryList, accepted e'.key e.key = false) :
    ∃ st', loadLine st (entryLine e ++ [newline]) = some (st',true) ∧
      InSection st' done { cs with entryList := cs.entryList ++ [e] } := by
  obtain ⟨c,ks,hks⟩ := List.exists_cons_of_ne_nil hk.nonempty
  have hc : isspace c = false := head_of_trimmed (hks ▸ hk.trimmed)
  have hcom : c ≠ comment := fun he => hk.noComment (by rw [hks,he]; rfl)
  have hopen : c ≠ sectOpen := fun he => hk.noOpen (by rw [hks,he]; rfl)
  have hcons : entryLine e ++ [newline] = c :: (ks ++ kvDelim :: (e.value.bytes ++ [newline])) := by
    simp [entryLine,hks]
  have hline : (CString.ofBuf (entryLine e ++ [newline])).bytes.dropWhile isspace =
      c :: (ks ++ kvDelim :: (e.value.bytes ++ [newline])) := by
    have hn : (0 : UInt8) ∉ entryLine e ++ [newline] :=
      CString.nulFree_append.mpr ⟨(lineBody_entryLine hk hv).2,by decide⟩
    rw [CString.ofBuf_eq hn]
    simp only [hcons,List.dropWhile_cons,hc,Bool.false_eq_true,↓reduceIte]
  have hstrlen : e.key.strlen + e.value.strlen + 2 ≤ st.buflen := by
    simp only [entryLine,List.length_append,List.length_cons] at hlen
    have h1 : e.key.bytes.length = e.key.strlen := rfl
    have h2 : e.value.bytes.length = e.value.strlen := rfl
    omega
  have hscan := scanKeyvalues_entry hk hv hstrlen (Nat.le_max_right st.valbuflen st.buflen)
  rw [hks,List.cons_append] at hscan
  have hadd : cs.addEntry e.key e.value = { cs with entryList := cs.entryList ++ [e] } := by
    have hidx : cs.findEntry e.key = none := by
      rw [ConfigSection.findEntry,List.findIdx?_eq_none_iff]
      intro e' he'
      rw [ConfigEntry.hasKey_eq]
      exact hnew e' he'
    simp only [ConfigSection.addEntry,hidx,← ConfigEntry.eq_create]
  have hsect : ¬ st.sectFound = false := by simp [h.sectFound]
  simp only [loadLine,hline,loadText,hcom,hopen,↓reduceIte,loadData,hsect,hscan,h.tsect]
  refine ⟨_,rfl,⟨h.status,?_,h.cached,h.buflen_pos⟩,rfl,rfl⟩
  simp only [h.sections]
  rw [modify_append_last,hadd]

theorem Loaded.grow {st : LoadState} {done : List ConfigSection} (h : Loaded st done) (total : ℕ) :
    Loaded { st with buflen := growTo st.buflen total } done :=
  ⟨h.status,h.sections,h.cached,h.buflen_pos.trans_le (le_growTo _ _)⟩

theorem loadLoop_entries {all : List ConfigSection} (hall : Savable all) {cs₀ : ConfigSection} (hcs₀ : cs₀ ∈ all)
    {done : List ConfigSection} {more : List (List UInt8)} (es : List ConfigEntry) :
    ∀ (st : LoadState) (cs : ConfigSection), InSection st done cs → cs.entryList ++ es = cs₀.entryList →
      Fits st.buflen (es.map entryLine ++ more) →
      ∃ st', InSection st' done { cs with entryList := cs.entryList ++ es } ∧ Fits st'.buflen more ∧
        loadLoop st (unlines (es.map entryLine ++ more)) = loadLoop st' (unlines more) := by
  induction es with
  | nil =>
    intro st cs h _ hfit
    exact ⟨st,by simpa using h,hfit,rfl⟩
  | cons e es ih =>
    intro st cs h hes hfit
    have he : e ∈ cs₀.entryList := by simp [← hes]
    have hk := hall.keyName cs₀ hcs₀ e he
    have hv := hall.valueText cs₀ hcs₀ e he
    have hnew : ∀ e' ∈ cs.entryList, accepted e'.key e.key = false := by
      intro e' he'
      refine hall.keysApart cs₀ hcs₀ e' (by simp [← hes,he']) e he (fun hkey => ?_)
      have hnd := hall.keys cs₀ hcs₀
      rw [← hes,List.map_append,List.nodup_append] at hnd
      exact hnd.2.2 e'.key (List.mem_map_of_mem he') e.key (by simp) hkey
    obtain ⟨hover,hfit⟩ := hfit
    have hgrown : InSection { st with buflen := growTo st.buflen ((entryLine e).length + 1) } done cs :=
      ⟨h.toLoaded.grow _,h.sectFound,h.tsect⟩
    obtain ⟨st₁,hline,hst₁⟩ := loadLine_entry hgrown hk hv (total_le_growTo _ _) hnew
    have hlen := (loadLine_state hline).1
    obtain ⟨st₂,hst₂,hfit₂,hloop⟩ := ih st₁ { cs with entryList := cs.entryList ++ [e] } hst₁
      (by simpa using hes) (by rw [hlen]; exact hfit)
    refine ⟨st₂,by simpa using hst₂,hfit₂,?_⟩
    rw [List.map_cons,List.cons_append,unlines_cons,loadLoop_line (lineBody_entryLine hk hv) hover hline,hloop]

theorem loadLoop_sections {all : List ConfigSection} (hall : Savable all) (todo : List ConfigSection) :
    ∀ (st : LoadState) (done : List ConfigSection), Loaded st done → done ++ todo = all →
      Fits st.buflen (savedLines todo) →
      ∃ st', loadLoop st (unlines (savedLines todo)) = some st' ∧ Loaded st' all := by
  induction todo with
  | nil =>
    intro st done h hdone _
    refine ⟨{ st with buflen := st.buflen },?_,by simpa [← hdone] using h⟩
    rw [savedLines,unlines_nil,loadLoop]
    split
    · rename_i hn
      rw [configGetline_nil h.buflen_pos] at hn
      cases hn
    · rename_i g hs
      rw [configGetline_nil h.buflen_pos] at hs
      cases hs
      simp
  | cons cs rest ih =>
    intro st done h hdone hfit
    have hcs : cs ∈ all := by simp [← hdone]
    have hs := hall.sectionName cs hcs
    have hnew : ∀ cs' ∈ done, accepted cs'.sname cs.sname = false := by
      intro cs' hcs'
      refine hall.sectionsApart cs' (by simp [← hdone,hcs']) cs hcs (fun hname => ?_)
      have hnd := hall.names
      rw [← hdone,List.map_append,List.nodup_append] at hnd
      exact hnd.2.2 cs'.sname (List.mem_map_of_mem hcs') cs.sname (by simp) hname
    obtain ⟨hover,hfit⟩ := hfit
    obtain ⟨st₁,hline,hst₁⟩ := loadLine_section (h.grow ((sectionLine cs.sname).length + 1)) hs hnew
    have hlen := (loadLine_state hline).1
    obtain ⟨st₂,hst₂,hfit₂,hloop⟩ := loadLoop_entries hall hcs cs.entryList st₁ (ConfigSection.new cs.sname)
      hst₁ rfl (by rw [hlen]; exact hfit)
    have hcs' : ({ ConfigSection.new cs.sname with
        entryList := (ConfigSection.new cs.sname).entryList ++ cs.entryList } : ConfigSection) = cs := by
      obtain ⟨sname,snamelen,shash,entryList,rfl,hh⟩ := cs
      simp only [ConfigSection.new,List.nil_append,hh]
    rw [hcs'] at hst₂
    have hnext : ∃ st₃, Loaded st₃ (done ++ [cs]) ∧ Fits st₃.buflen (savedLines rest) ∧
        loadLoop st₂ (unlines ((if rest.length + 1 ≠ 1 then [[]] else []) ++ savedLines rest)) =
          loadLoop st₃ (unlines (savedLines rest)) := by
      split_ifs at hfit₂ ⊢
      · obtain ⟨hblank,hfit₂⟩ := hfit₂
        obtain ⟨st₃,hline₃,hst₃⟩ := loadLine_blank (hst₂.toLoaded.grow (([] : List UInt8).length + 1))
        have hlen₃ := (loadLine_state hline₃).1
        refine ⟨st₃,hst₃,by rw [hlen₃]; exact hfit₂,?_⟩
        rw [List.singleton_append,unlines_cons,loadLoop_line (by decide) hblank hline₃]
      · exact ⟨st₂,hst₂.toLoaded,hfit₂,rfl⟩
    obtain ⟨st₃,hst₃,hfit₃,hloop₃⟩ := hnext
    obtain ⟨st',hload,hst'⟩ := ih st₃ (done ++ [cs]) hst₃ (by simpa using hdone) hfit₃
    refine ⟨st',?_,hst'⟩
    rw [savedLines,unlines_cons,loadLoop_line (lineBody_sectionLine hs) hover hline,hloop,hloop₃,hload]

/-! ## Saving what a run of `set` built -/

/-- The calls use only names and values that survive printing, the lookups tell the
names apart, and the file stays within the reader's range. -/
structure PlainCalls (calls : List SetCall) : Prop where
  sectionName : ∀ call ∈ calls, SectionName call.sect
  keyName : ∀ call ∈ calls, KeyName call.key
  valueText : ∀ call ∈ calls, ValueText call.value
  sectionsApart : ∀ a ∈ calls, ∀ b ∈ calls, a.sect ≠ b.sect → accepted a.sect b.sect = false
  keysApart : ∀ a ∈ calls, ∀ b ∈ calls, a.sect = b.sect → a.key ≠ b.key → accepted a.key b.key = false
  fileShort : (save (run calls)).length < 2 ^ 30

instance (calls : List SetCall) : Decidable (PlainCalls calls) :=
  decidable_of_iff
    ((∀ call ∈ calls, SectionName call.sect ∧ KeyName call.key ∧ ValueText call.value) ∧
      (∀ a ∈ calls, ∀ b ∈ calls, (a.sect ≠ b.sect → accepted a.sect b.sect = false) ∧
        (a.sect = b.sect → a.key ≠ b.key → accepted a.key b.key = false)) ∧
      (save (run calls)).length < 2 ^ 30)
    ⟨fun ⟨h1,h2,h3⟩ => ⟨fun c hc => (h1 c hc).1,fun c hc => (h1 c hc).2.1,fun c hc => (h1 c hc).2.2,
        fun a ha b hb => (h2 a ha b hb).1,fun a ha b hb => (h2 a ha b hb).2,h3⟩,
      fun ⟨h1,h2,h3,h4,h5,h6⟩ => ⟨fun c hc => ⟨h1 c hc,h2 c hc,h3 c hc⟩,
        fun a ha b hb => ⟨h4 a ha b hb,h5 a ha b hb⟩,h6⟩⟩

structure StoredBy (calls : List SetCall) (c : Config) : Prop where
  sections : ∀ cs ∈ c.sectionList, ∃ call ∈ calls, call.sect = cs.sname
  keys : ∀ cs ∈ c.sectionList, ∀ e ∈ cs.entryList, ∃ call ∈ calls, call.sect = cs.sname ∧ call.key = e.key
  values : ∀ cs ∈ c.sectionList, ∀ e ∈ cs.entryList, ∃ call ∈ calls, call.value = e.value

/-- The entries of a section after `addEntry`: the old keys and the new one. -/
theorem mem_addEntry {cs : ConfigSection} {key value : CString} {e : ConfigEntry}
    (h : e ∈ (cs.addEntry key value).entryList) :
    ((∃ e' ∈ cs.entryList, e'.key = e.key) ∨ e.key = key) ∧ (e ∈ cs.entryList ∨ e.value = value) := by
  unfold ConfigSection.addEntry at h
  cases hf : cs.findEntry key with
  | none =>
    simp only [hf,List.mem_append,List.mem_singleton] at h
    rcases h with h | rfl
    · exact ⟨Or.inl ⟨e,h,rfl⟩,Or.inl h⟩
    · exact ⟨Or.inr rfl,Or.inr rfl⟩
  | some i =>
    simp only [hf] at h
    obtain ⟨j,hj,rfl⟩ := List.getElem_of_mem h
    have hj' : j < cs.entryList.length := by simpa using hj
    rw [List.getElem_modify]
    split_ifs
    · exact ⟨Or.inl ⟨cs.entryList[j],List.getElem_mem hj',rfl⟩,Or.inr rfl⟩
    · exact ⟨Or.inl ⟨cs.entryList[j],List.getElem_mem hj',rfl⟩,Or.inl (List.getElem_mem hj')⟩

/-- A section after `set` was stored before, or is the one that `set` added its entry to. -/
theorem mem_set {c : Config} {sect key value : CString}
    (hapart : ∀ cs ∈ c.sectionList, cs.sname ≠ sect → accepted cs.sname sect = false) {cs : ConfigSection}
    (hcs : cs ∈ (c.set sect key value).sectionList) : cs ∈ c.sectionList ∨
      ∃ cs', (cs' ∈ c.sectionList ∨ cs' = ConfigSection.new sect) ∧ cs'.sname = sect ∧ cs = cs'.addEntry key value := by
  rcases c.set_cases sect key value with ⟨i,p,hf,-,he⟩ | ⟨p,hf,-,he⟩ <;> rw [he] at hcs
  · obtain ⟨j,hj,rfl⟩ := List.getElem_of_mem hcs
    have hj' : j < c.sectionList.length := by simpa using hj
    rw [List.getElem_modify]
    split_ifs with hij
    · obtain ⟨cs',hcs',hacc⟩ := accepted_of_findSection hf
      subst hij
      obtain rfl : c.sectionList[i] = cs' := by simpa [List.getElem?_eq_getElem hj'] using hcs'
      refine Or.inr ⟨c.sectionList[i],Or.inl (List.getElem_mem hj'),?_,rfl⟩
      by_contra hne
      have hnot := hapart c.sectionList[i] (List.getElem_mem hj') hne
      rw [hacc] at hnot
      cases hnot
    · exact Or.inl (List.getElem_mem hj')
  · rcases List.mem_append.mp hcs with hcs | hcs
    · exact Or.inl hcs
    · exact Or.inr ⟨_,Or.inr rfl,rfl,List.mem_singleton.mp hcs⟩

/-- One `set` stores what it was called with, in the section it was called for. -/
theorem storedBy_set {calls : List SetCall} {c : Config} (h : StoredBy calls c) {call : SetCall}
    (hapart : ∀ a ∈ calls, a.sect ≠ call.sect → accepted a.sect call.sect = false) :
    StoredBy (calls ++ [call]) (c.set call.sect call.key call.value) := by
  have hold : ∀ {p : SetCall → Prop}, (∃ a ∈ calls, p a) → ∃ a ∈ calls ++ [call], p a :=
    fun ⟨a,ha,hp⟩ => ⟨a,List.mem_append_left _ ha,hp⟩
  have hcall : call ∈ calls ++ [call] := by simp
  have hsections : ∀ cs ∈ c.sectionList, cs.sname ≠ call.sect → accepted cs.sname call.sect = false := by
    intro cs hcs hne
    obtain ⟨a,ha,hname⟩ := h.sections cs hcs
    exact hname ▸ hapart a ha (hname ▸ hne)
  refine ⟨fun cs hcs => ?_,fun cs hcs e he => ?_,fun cs hcs e he => ?_⟩ <;>
    rcases mem_set hsections hcs with hcs | ⟨cs',hcs',hname,rfl⟩
  · exact hold (h.sections cs hcs)
  · exact ⟨call,hcall,by rw [ConfigSection.addEntry_sname,hname]⟩
  · exact hold (h.keys cs hcs e he)
  · rw [ConfigSection.addEntry_sname]
    rcases (mem_addEntry he).1 with ⟨e',he',hkey⟩ | hkey
    · rcases hcs' with hcs' | rfl
      · exact hkey ▸ hold (h.keys cs' hcs' e' he')
      · simp [ConfigSection.new] at he'
    · exact ⟨call,hcall,hname.symm,hkey.symm⟩
  · exact hold (h.values cs hcs e he)
  · rcases (mem_addEntry he).2 with he | hval
    · rcases hcs' with hcs' | rfl
      · exact hold (h.values cs' hcs' e he)
      · simp [ConfigSection.new] at he
    · exact ⟨call,hcall,hval.symm⟩

theorem storedBy_run {calls : List SetCall}
    (hapart : ∀ a ∈ calls, ∀ b ∈ calls, a.sect ≠ b.sect → accepted a.sect b.sect = false) :
    StoredBy calls (run calls) := by
  induction calls using List.reverseRecOn with
  | nil => exact ⟨by simp [run,empty],by simp [run,empty],by simp [run,empty]⟩
  | append_singleton calls call ih =>
    rw [run_snoc]
    have hsub : ∀ a ∈ calls, a ∈ calls ++ [call] := fun a ha => List.mem_append_left _ ha
    exact storedBy_set (ih (fun a ha b hb => hapart a (hsub a ha) b (hsub b hb)))
      (fun a ha => hapart a (hsub a ha) call (by simp))

theorem savable_run {calls : List SetCall} (h : PlainCalls calls) : Savable (run calls).sectionList := by
  have hs := storedBy_run h.sectionsApart
  have hv := valid_run calls
  refine ⟨hv.names,hv.keys,fun cs hcs => ?_,fun cs hcs e he => ?_,fun cs hcs e he => ?_,
    fun cs hcs cs' hcs' hne => ?_,fun cs hcs e he e' he' hne => ?_⟩
  · obtain ⟨call,hcall,hname⟩ := hs.sections cs hcs
    exact hname ▸ h.sectionName call hcall
  · obtain ⟨call,hcall,-,hkey⟩ := hs.keys cs hcs e he
    exact hkey ▸ h.keyName call hcall
  · obtain ⟨call,hcall,hval⟩ := hs.values cs hcs e he
    exact hval ▸ h.valueText call hcall
  · obtain ⟨a,ha,hname⟩ := hs.sections cs hcs
    obtain ⟨b,hb,hname'⟩ := hs.sections cs' hcs'
    rw [← hname,← hname'] at hne ⊢
    exact h.sectionsApart a ha b hb hne
  · obtain ⟨a,ha,hsect,hkey⟩ := hs.keys cs hcs e he
    obtain ⟨b,hb,hsect',hkey'⟩ := hs.keys cs hcs e' he'
    rw [← hkey,← hkey'] at hne ⊢
    exact h.keysApart a ha b hb (hsect.trans hsect'.symm) hne

/-- Loading what was saved, into any configuration, succeeds and gives the same
sections in order, each with the same entries in order. -/
def RoundTrips (c : Config) : Prop :=
  ∀ c₀ : Config, ∃ c', load c₀ (save c) = some (true,c') ∧ c'.sectionList = c.sectionList

theorem roundTrips_iff_linesFit {c : Config} (h : Savable c.sectionList) :
    RoundTrips c ↔ LinesFit (savedLines c.sectionList) := by
  have hsave : save c = unlines (savedLines c.sectionList) := printSections_eq_unlines c.sectionList
  rw [← fits_iff_linesFit]
  constructor
  · intro hrt
    obtain ⟨c',hload,-⟩ := hrt empty
    rw [load,hsave] at hload
    cases hst : loadLoop empty.loadStart (unlines (savedLines c.sectionList)) with
    | none => simp [hst] at hload
    | some st =>
      simp only [hst,Option.map_some,Option.some.injEq,Prod.mk.injEq] at hload
      exact fits_of_loadLoop (lineBody_savedLines h) hst hload.1
  · intro hfit c₀
    have hstart : Loaded c₀.loadStart [] := ⟨rfl,rfl,rfl,Nat.succ_pos 1023⟩
    obtain ⟨st,hst,hloaded⟩ := loadLoop_sections h c.sectionList c₀.loadStart [] hstart rfl hfit
    exact ⟨st.config,by rw [load,hsave,hst]; simp [hloaded.status],hloaded.sections⟩

/-- A saved run loads back if and only if each of its lines that is 1024 bytes long
with its newline, or some hundreds longer, follows a longer line. -/
theorem run_roundTrips_iff (calls : List SetCall) (h : PlainCalls calls) :
    RoundTrips (run calls) ↔ LinesFit (savedLines (run calls).sectionList) :=
  roundTrips_iff_linesFit (savable_run h)

/-- Two sections, with an empty value and a value that holds the delimiter. -/
theorem run_roundTrips_two_sections :
    RoundTrips (run
      [⟨CString.ofBuf [65],CString.ofBuf [107],CString.ofBuf []⟩,
        ⟨CString.ofBuf [66],CString.ofBuf [107],CString.ofBuf [61,49]⟩,
        ⟨CString.ofBuf [65],CString.ofBuf [108],CString.ofBuf [50,32,51]⟩]) :=
  (run_roundTrips_iff _ (by decide +kernel)).mpr (by decide +kernel)

/-- One value of 1021 bytes: its line fills the initial line buffer to the last byte. -/
def criticalCalls : List SetCall :=
  [⟨CString.ofBuf [77],CString.ofBuf [107],CString.ofBuf (List.replicate 1021 97)⟩]

/-- Reading that line back writes one byte past the buffer. -/
theorem not_roundTrips_criticalCalls : PlainCalls criticalCalls ∧ ¬ RoundTrips (run criticalCalls) := by
  have hplain : PlainCalls criticalCalls := by decide +kernel
  refine ⟨hplain,fun h => ?_⟩
  have hfit := (roundTrips_iff_linesFit (savable_run hplain)).mp h
  revert hfit
  decide +kernel

end Config
end Edelib
