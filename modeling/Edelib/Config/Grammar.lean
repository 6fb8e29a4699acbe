import Edelib.Config.Lines
import Edelib.Config.Plain

/-! # The grammar of configuration files

A line is classified by its first byte that is no blank. `load` reads line by line up to the
first bad one; it stays inside its buffers if and only if the lines read do not overrun the line
buffer and their section names and keys are shorter than the buffers for these.
-/
namespace Edelib
open Foundation StrUtil

/-- What a line is for. A section line without closing bracket names no section, and a data
line without delimiter has no entry. -/
inductive LineKind
  | blank
  | sectionLine (name : Option CString)
  | dataLine (entry : Option (CString × CString))

def lineText (l : List UInt8) : List UInt8 := (CString.ofBuf (l ++ [newline])).bytes.dropWhile isspace

def before (c : UInt8) (text : List UInt8) : List UInt8 := text.takeWhile (fun b => decide (b ≠ c))

def sectionText (text : List UInt8) : List UInt8 := before sectClose (strTrimleft text)

def valueText (text : List UInt8) : List UInt8 := before newline (text.drop ((before kvDelim text).length + 1))

def lineKind (l : List UInt8) : LineKind :=
  match lineText l with
  | [] => .blank
  | c :: text =>
    if c = comment then .blank
    else if c = sectOpen then
      .sectionLine (if sectClose ∈ text then some (CString.ofBuf (strTrimright (sectionText text))) else none)
    else
      .dataLine (if kvDelim ∈ c :: text then
        some (CString.ofBuf (strTrim (before kvDelim (c :: text))),CString.ofBuf (strTrim (valueText (c :: text))))
      else none)

def RoomFor (found : Bool) (l : List UInt8) : Prop :=
  match lineText l with
  | [] => True
  | c :: text =>
    if c = comment then True
    else if c = sectOpen then (sectionText text).length < esectMax
    else found = true → kvDelim ∈ c :: text → (before kvDelim (c :: text)).length < ekeyMax

instance (found : Bool) (l : List UInt8) : Decidable (RoomFor found l) := by
  unfold RoomFor
  cases lineText l with
  | nil => exact inferInstanceAs (Decidable True)
  | cons c text => exact inferInstanceAs (Decidable (if c = comment then True
      else if c = sectOpen then (sectionText text).length < esectMax
      else found = true → kvDelim ∈ c :: text → (before kvDelim (c :: text)).length < ekeyMax))

/-! ## The scanners -/

theorem before_append {c : UInt8} {text : List UInt8} (h : c ∉ text) (rest : List UInt8) :
    before c (text ++ c :: rest) = text := by
  have hall : ∀ b ∈ text, decide (b ≠ c) = true := by
    intro b hb
    simpa using fun he : b = c => h (he ▸ hb)
  rw [before,List.takeWhile_append_of_pos hall]
  simp

theorem scanSectionLoop_eq (line : List UInt8) (bufsz : ℕ) : scanSectionLoop line bufsz =
    if (before sectClose line).length < bufsz then (decide (sectClose ∈ line),before sectClose line)
    else (false,line.take bufsz) := by
  induction line generalizing bufsz with
  | nil => simp [scanSectionLoop,before]
  | cons c line ih =>
    cases bufsz with
    | zero => simp [scanSectionLoop]
    | succ bufsz =>
      by_cases hc : c = sectClose
      · simp [scanSectionLoop,before,hc]
      · have hb : before sectClose (c :: line) = c :: before sectClose line := by simp [before,hc]
        simp only [scanSectionLoop,hc,↓reduceIte,ih,hb,List.length_cons,Nat.add_lt_add_iff_right]
        split_ifs <;> simp [Ne.symm hc]

theorem mem_strTrimleft {c : UInt8} (hc : isspace c = false) (text : List UInt8) : c ∈ strTrimleft text ↔ c ∈ text := by
  induction text with
  | nil => rfl
  | cons b text ih =>
    by_cases hb : isspace b = true
    · have hne : c ≠ b := by
        rintro rfl
        rw [hb] at hc
        cases hc
      have hdrop : strTrimleft (b :: text) = strTrimleft text := List.dropWhile_cons_of_pos hb
      rw [hdrop,ih,List.mem_cons,or_iff_right hne]
    · rw [strTrimleft,List.dropWhile_cons_of_neg hb]

/-- The section buffer overflows unless the name is shorter. -/
theorem scanSection_eq (text : List UInt8) : scanSection text esectMax =
    if (sectionText text).length < esectMax then
      some (decide (sectClose ∈ text),CString.ofBuf (strTrimright (sectionText text)))
    else none := by
  unfold scanSection sectionText
  rw [scanSectionLoop_eq]
  by_cases h : (before sectClose (strTrimleft text)).length < esectMax
  · simp only [h,↓reduceIte,mem_strTrimleft (show isspace sectClose = false by decide)]
  · have hlen : ¬ ((strTrimleft text).take esectMax).length < esectMax := by
      have hle := (List.takeWhile_prefix (fun b => decide (b ≠ sectClose)) (l := strTrimleft text)).length_le
      unfold before at h
      rw [List.length_take]
      omega
    simp only [h,hlen,↓reduceIte]

/-- The key buffer overflows unless the key is shorter; the value buffer, as long as the line
buffer, never does. -/
theorem scanKeyvalues_eq {text : List UInt8} {linesz valsz : ℕ} (hline : text.length ≤ linesz) (hval : linesz ≤ valsz) :
    scanKeyvalues text linesz ekeyMax valsz =
      if kvDelim ∈ text then
        if (before kvDelim text).length < ekeyMax then
          some (some (CString.ofBuf (strTrim (before kvDelim text)),CString.ofBuf (strTrim (valueText text))))
        else none
      else some none := by
  unfold scanKeyvalues
  by_cases hmem : kvDelim ∈ text
  · rw [if_pos hmem,if_pos hmem]
    have hkey : (text.take ekeyMax).takeWhile (fun c => decide (c ≠ kvDelim)) = (before kvDelim text).take ekeyMax :=
      List.take_takeWhile.symm
    simp only [hkey]
    by_cases h : (before kvDelim text).length < ekeyMax
    · obtain ⟨key,rest,rfl,hnot⟩ := List.eq_append_cons_of_mem hmem
      rw [before_append hnot] at h ⊢
      have hshort : rest.length < linesz := by
        rw [List.length_append,List.length_cons] at hline
        omega
      have hvalue : (rest.take (min valsz linesz)).takeWhile (fun c => decide (c ≠ newline)) = before newline rest := by
        rw [List.take_of_length_le (by omega)]
        rfl
      have hfits : (before newline rest).length < valsz :=
        (List.takeWhile_prefix _).length_le.trans_lt (hshort.trans_le hval)
      have hdrop : valueText (key ++ kvDelim :: rest) = before newline rest := by
        rw [valueText,before_append hnot,← List.drop_drop,List.drop_left]
        rfl
      simp only [List.take_of_length_le h.le,List.drop_left,List.head?_cons,List.tail_cons,↓reduceIte,hvalue,h,hfits,
        and_self,hdrop]
    · have hlen : ¬ ((before kvDelim text).take ekeyMax).length < ekeyMax := by
        rw [List.length_take]
        omega
      simp only [hlen,h,false_and,↓reduceIte]
  · rw [if_neg hmem,if_neg hmem]

/-! ## Bad lines -/

def isSectionLine (l : List UInt8) : Bool :=
  match lineKind l with
  | .sectionLine _ => true
  | _ => false

def badLine (found : Bool) (l : List UInt8) : Option ConfigErrors :=
  match lineKind l with
  | .blank => none
  | .sectionLine none => some .bad
  | .sectionLine (some _) => none
  | .dataLine entry => if found = false then some .section else if entry = none then some .bad else none

def linesRead : Bool → List (List UInt8) → List (List UInt8)
  | _, [] => []
  | found, l :: bodies => l :: if badLine found l = none then linesRead (found || isSectionLine l) bodies else []

/-- Unless a line is bad, the bytes after the last newline are read too: there is a buffer for them. -/
def LastFits : Bool → List (List UInt8) → List UInt8 → Prop
  | _, [], last => last.length < lineMax
  | found, l :: bodies, last => badLine found l = none → LastFits (found || isSectionLine l) bodies last

instance decidableLastFits : (found : Bool) → (bodies : List (List UInt8)) → (last : List UInt8) →
    Decidable (LastFits found bodies last)
  | _, [], last => inferInstanceAs (Decidable (last.length < lineMax))
  | found, l :: bodies, last =>
    have := decidableLastFits (found || isSectionLine l) bodies last
    inferInstanceAs (Decidable (badLine found l = none → LastFits (found || isSectionLine l) bodies last))

def RoomsFor : Bool → List (List UInt8) → Prop
  | _, [] => True
  | found, l :: bodies => RoomFor found l ∧ (badLine found l = none → RoomsFor (found || isSectionLine l) bodies)

instance decidableRoomsFor : (found : Bool) → (bodies : List (List UInt8)) → Decidable (RoomsFor found bodies)
  | _, [] => inferInstanceAs (Decidable True)
  | found, l :: bodies =>
    have := decidableRoomsFor (found || isSectionLine l) bodies
    inferInstanceAs (Decidable (RoomFor found l ∧
      (badLine found l = none → RoomsFor (found || isSectionLine l) bodies)))

namespace Config

def lineStep (st : LoadState) (l : List UInt8) : LoadState × Bool :=
  let st := { st with config := { st.config with linenum := st.config.linenum + 1 } }
  match lineKind l with
  | .blank => (st,true)
  | .sectionLine none => ({ st with sectFound := true }.failWith .bad,false)
  | .sectionLine (some sect) =>
    ({ st with
        sectFound := true
        config := (st.config.addSection sect).2
        tsect := some (st.config.addSection sect).1 },true)
  | .dataLine entry =>
    if st.sectFound = false then (st.failWith .section,false)
    else
      match entry with
      | none => ({ st with valbuflen := max st.valbuflen st.buflen }.failWith .bad,false)
      | some (key,value) =>
        ({ st with valbuflen := max st.valbuflen st.buflen, config := { st.config with
          sectionList := st.tsect.elim st.config.sectionList (fun i =>
            st.config.sectionList.modify i (fun cs => cs.addEntry key value)) } },true)

/-- Once a section line was read there is a current section. -/
def LoadState.Ready (st : LoadState) : Prop := st.sectFound = true → st.tsect.isSome = true

theorem length_lineText_le (l : List UInt8) : (lineText l).length ≤ l.length + 1 := by
  have hdrop := (List.dropWhile_sublist isspace (l := (CString.ofBuf (l ++ [newline])).bytes)).length_le
  have htext := (CString.ofBuf_begins (l ++ [newline])).length_le
  rw [List.length_append] at htext
  exact hdrop.trans htext

/-- A line is read as its kind says, unless a name buffer overflows; the assertion on the
current section never fails. -/
theorem loadLine_eq {st : LoadState} (hst : st.Ready) {l buf : List UInt8} (hbuf : Holds buf (l ++ [newline]))
    (hlen : l.length + 1 ≤ st.buflen) :
    loadLine st buf = if RoomFor st.sectFound l then some (lineStep st l) else none := by
  have htext : (CString.ofBuf buf).bytes.dropWhile isspace = lineText l := by
    have hsame := hbuf.text []
    rw [List.append_nil,List.append_nil] at hsame
    rw [hsame,lineText]
  have hshort := length_lineText_le l
  rw [loadLine,htext]
  cases hl : lineText l with
  | nil =>
    have hroom : RoomFor st.sectFound l := by simp [RoomFor,hl]
    simp [loadText,lineStep,lineKind,hl,hroom]
  | cons c text =>
    rw [hl] at hshort
    by_cases hc : c = comment
    · have hroom : RoomFor st.sectFound l := by simp [RoomFor,hl,hc]
      simp [loadText,lineStep,lineKind,hl,hc,hroom]
    · by_cases ho : c = sectOpen
      · have hroom : RoomFor st.sectFound l ↔ (sectionText text).length < esectMax := by
          simp [RoomFor,hl,ho,show (sectOpen = comment) = False by decide]
        simp only [loadText,ho,↓reduceIte,loadSection,scanSection_eq,hroom]
        by_cases hr : (sectionText text).length < esectMax
        · by_cases hclose : sectClose ∈ text <;>
            simp [hr,hclose,lineStep,lineKind,hl,ho,show (sectOpen = comment) = False by decide]
        · simp [hr,show (sectOpen = comment) = False by decide]
      · have hroom : RoomFor st.sectFound l ↔
            (st.sectFound = true → kvDelim ∈ c :: text → (before kvDelim (c :: text)).length < ekeyMax) := by
          simp only [RoomFor,hl,hc,ho,↓reduceIte]
        have hscan := @scanKeyvalues_eq (c :: text) st.buflen (max st.valbuflen st.buflen) (hshort.trans hlen)
          (Nat.le_max_right _ _)
        simp only [loadText,hc,ho,↓reduceIte,loadData,hroom,lineStep,lineKind,hl]
        cases hf : st.sectFound with
        | false => simp
        | true =>
          obtain ⟨i,hi⟩ := Option.isSome_iff_exists.mp (hst hf)
          simp only [hscan,hi]
          by_cases hd : kvDelim ∈ c :: text
          · by_cases hr : (before kvDelim (c :: text)).length < ekeyMax <;> simp only [hd,hr] <;> simp
          · simp only [hd]
            simp

/-- What a line leaves of the buffers and of the current section. -/
theorem lineStep_spec {st : LoadState} (hst : st.Ready) (l : List UInt8) :
    (lineStep st l).1.buflen = st.buflen ∧ ((lineStep st l).2 = true ↔ badLine st.sectFound l = none) ∧
      ((lineStep st l).2 = true →
        (lineStep st l).1.sectFound = (st.sectFound || isSectionLine l) ∧ (lineStep st l).1.Ready) := by
  unfold LoadState.Ready at hst ⊢
  unfold lineStep badLine isSectionLine
  cases lineKind l with
  | blank => simpa using hst
  | sectionLine name => cases name <;> simp [LoadState.failWith]
  | dataLine entry =>
    cases hf : st.sectFound with
    | false => simp [LoadState.failWith]
    | true => cases entry <;> simp [LoadState.failWith,hst hf]

def readLines (st : LoadState) : List (List UInt8) → LoadState
  | [] => st
  | l :: bodies =>
    let st := { st with buflen := growTo st.buflen (l.length + 1) }
    if (lineStep st l).2 then readLines (lineStep st l).1 bodies else (lineStep st l).1

/-- The loop reads the lines, and what follows the last newline, unless something does not fit. -/
theorem loadLoop_eq {st : LoadState} (hst : st.Ready) (hsize : BufferSize st.buflen) {bodies : List (List UInt8)}
    (hb : ∀ l ∈ bodies, newline ∉ l) {last : List UInt8} (hlast : newline ∉ last) :
    (loadLoop st (unlines bodies ++ last)).map (fun st => (st.status,st.config)) =
      if Fits st.buflen (linesRead st.sectFound bodies) ∧ RoomsFor st.sectFound bodies ∧
          LastFits st.sectFound bodies last then
        some ((readLines st bodies).status,(readLines st bodies).config)
      else none := by
  induction bodies generalizing st with
  | nil =>
    obtain ⟨g,hret,hg⟩ := configGetline_end hlast st.buflen
    have hlong : TooLong st.buflen (last.length + 1) ↔ ¬ last.length < lineMax := by
      rw [hsize.tooLong_iff]
      omega
    by_cases hfit : last.length < lineMax
    · rw [if_neg (fun h => hlong.mp h hfit)] at hg
      have hload : loadLoop st (unlines [] ++ last) = some { st with buflen := g.len } := loadLoop_end hg hret
      rw [hload]
      simp [linesRead,RoomsFor,readLines,LastFits,hfit]
    · rw [if_pos (hlong.mpr hfit)] at hg
      have hload : loadLoop st (unlines [] ++ last) = none := loadLoop_none hg
      rw [hload,if_neg (fun h => hfit h.2.2)]
      rfl
  | cons l bodies ih =>
    obtain ⟨hl,hbodies⟩ := List.forall_mem_cons.mp hb
    obtain ⟨buf,hbuf,hg⟩ := configGetline_newline hl st.buflen (unlines bodies ++ last)
    have hfile : unlines (l :: bodies) ++ last = l ++ newline :: (unlines bodies ++ last) := by
      rw [unlines_cons,List.append_assoc,List.cons_append]
    have hfits : Fits st.buflen (linesRead st.sectFound (l :: bodies)) ↔ ¬ Overruns st.buflen (l.length + 1) ∧
        (badLine st.sectFound l = none →
          Fits (growTo st.buflen (l.length + 1)) (linesRead (st.sectFound || isSectionLine l) bodies)) := by
      rw [linesRead,Fits]
      by_cases hbad : badLine st.sectFound l = none <;> simp [hbad]
    rw [hfile]
    by_cases hover : Overruns st.buflen (l.length + 1)
    · rw [if_pos hover] at hg
      rw [loadLoop_none hg,if_neg (fun h => (hfits.mp h.1).1 hover)]
      rfl
    · rw [if_neg hover] at hg
      have hready : ({ st with buflen := growTo st.buflen (l.length + 1) } : LoadState).Ready := hst
      have hline := loadLine_eq hready hbuf (total_le_growTo st.buflen (l.length + 1))
      obtain ⟨hlen,hmore,hnext⟩ := lineStep_spec hready l
      rw [loadLoop_getline hg (by simp),readLines]
      simp only [hline]
      by_cases hroom : RoomFor st.sectFound l
      · rw [if_pos hroom]
        generalize lineStep { st with buflen := growTo st.buflen (l.length + 1) } l = r at hlen hmore hnext ⊢
        obtain ⟨st₁,more⟩ := r
        cases more with
        | true =>
          have hgood : badLine st.sectFound l = none := hmore.mp rfl
          obtain ⟨hfound,hready₁⟩ := hnext rfl
          have hsize₁ : BufferSize st₁.buflen := by
            rw [hlen]
            exact hsize.growTo hover
          have hrest := ih hready₁ hsize₁ hbodies
          rw [hlen,hfound] at hrest
          have hcond : Fits st.buflen (linesRead st.sectFound (l :: bodies)) ∧ RoomsFor st.sectFound (l :: bodies) ∧
              LastFits st.sectFound (l :: bodies) last ↔
              Fits (growTo st.buflen (l.length + 1)) (linesRead (st.sectFound || isSectionLine l) bodies) ∧
                RoomsFor (st.sectFound || isSectionLine l) bodies ∧
                LastFits (st.sectFound || isSectionLine l) bodies last := by
            rw [hfits,RoomsFor,LastFits]
            simp [hover,hgood,hroom]
          simp only [hrest,hcond,↓reduceIte]
        | false =>
          have hbad : badLine st.sectFound l ≠ none := fun h => Bool.noConfusion (hmore.mpr h)
          have hcond : Fits st.buflen (linesRead st.sectFound (l :: bodies)) ∧ RoomsFor st.sectFound (l :: bodies) ∧
              LastFits st.sectFound (l :: bodies) last := by
            rw [hfits,RoomsFor,LastFits]
            simp [hover,hbad,hroom]
          rw [if_pos hcond]
          rfl
      · rw [if_neg hroom,if_neg (fun h => hroom h.2.1.1)]
        rfl

structure Readable (f : List UInt8) : Prop where
  lines : LinesFit (linesRead false (splitLines f).1)
  rooms : RoomsFor false (splitLines f).1
  last : LastFits false (splitLines f).1 (splitLines f).2

theorem readable_iff {f : List UInt8} : Readable f ↔ LinesFit (linesRead false (splitLines f).1) ∧
    RoomsFor false (splitLines f).1 ∧ LastFits false (splitLines f).1 (splitLines f).2 :=
  ⟨fun h => ⟨h.lines,h.rooms,h.last⟩,fun h => ⟨h.1,h.2.1,h.2.2⟩⟩

instance (f : List UInt8) : Decidable (Readable f) := decidable_of_iff _ readable_iff.symm

/-- `load` of any file: either it does not fit the buffers, or what its lines say. -/
theorem load_eq (c : Config) (f : List UInt8) : c.load f =
    if Readable f then
      some ((readLines c.loadStart (splitLines f).1).status,(readLines c.loadStart (splitLines f).1).config)
    else none := by
  obtain ⟨hf,hb,hlast⟩ := unlines_splitLines f
  have hready : c.loadStart.Ready := fun h => Bool.noConfusion h
  have hloop := loadLoop_eq hready bufferSize_start hb hlast
  rw [hf] at hloop
  rw [load,hloop]
  have hfit := fits_iff_linesFit (linesRead false (splitLines f).1)
  have hstart : c.loadStart.buflen = elineSizeStart ∧ c.loadStart.sectFound = false := ⟨rfl,rfl⟩
  simp only [hstart.1,hstart.2,hfit,readable_iff]

end Config
end Edelib
