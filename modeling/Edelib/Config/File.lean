import Edelib.Config.Model

/-! # Reading and writing configuration files

A file is its bytes. The reader works line by line in buffers of its own: a line
buffer that grows by a hundred bytes, a value buffer that follows it, and fixed
buffers for section and key names. `none` is a write past the end of a buffer, a
buffer longer than an `int` counts, or an entry without a section, which the source
asserts not to happen.
-/
namespace Edelib
open Foundation StrUtil

def esectMax : ℕ := 128
def ekeyMax : ℕ := 128
def elineSizeStart : ℕ := 1024

def comment : UInt8 := 35
def sectOpen : UInt8 := 91
def sectClose : UInt8 := 93
def kvDelim : UInt8 := 61
def newline : UInt8 := 10

/-- What one call of `configGetline` leaves: the number of bytes read, unless the
file ended, the text written to the buffer, the buffer's size, the unread bytes. -/
structure Getline where
  ret : Option ℕ
  buf : List UInt8
  len : ℕ
  rest : List UInt8

/-- The largest `int`. -/
def lenMax : ℕ := 2147483647

/-- Grow the buffer when the next index lies outside; `strncpy` copies the old text. -/
def growBuf (buf : List UInt8) (len : ℕ) : Option (List UInt8 × ℕ) :=
  if buf.length ≥ len then
    let text := (buf.take len).takeWhile (fun c => decide (c ≠ 0))
    if len + 100 ≤ lenMax then some (text ++ List.replicate (len - text.length) 0,len + 100) else none
  else some (buf,len)

def configGetlineLoop (buf : List UInt8) (len : ℕ) : List UInt8 → Option Getline
  | [] =>
    match growBuf buf len with
    | none => none
    | some (buf,len) => if buf.length < len then some ⟨none,buf,len,[]⟩ else none
  | c :: f =>
    match growBuf buf len with
    | none => none
    | some (buf,len) =>
      if buf.length < len then
        let buf := buf ++ [c]
        if c = newline then
          -- the terminator goes one past the newline, and no growth precedes it
          if buf.length < len then some ⟨some buf.length,buf,len,f⟩ else none
        else configGetlineLoop buf len f
      else none

def configGetline (len : ℕ) (f : List UInt8) : Option Getline := configGetlineLoop [] len f

theorem configGetlineLoop_rest_le {buf : List UInt8} {len : ℕ} {f : List UInt8} {g : Getline}
    (h : configGetlineLoop buf len f = some g) : g.rest.length ≤ f.length := by
  induction f generalizing buf len with
  | nil =>
    rw [configGetlineLoop] at h
    split at h
    · cases h
    · split_ifs at h
      cases h
      exact le_rfl
  | cons c f ih =>
    rw [configGetlineLoop] at h
    split at h
    · cases h
    · dsimp only at h
      split_ifs at h
      · cases h
        exact Nat.le_succ _
      · exact (ih h).trans (Nat.le_succ _)

theorem configGetline_rest_lt {len : ℕ} {f : List UInt8} {g : Getline} (h : configGetline len f = some g)
    (hret : g.ret ≠ none) : g.rest.length < f.length := by
  cases f with
  | nil =>
    rw [configGetline,configGetlineLoop] at h
    split at h
    · cases h
    · split_ifs at h
      cases h
      exact absurd rfl hret
  | cons c f =>
    rw [configGetline,configGetlineLoop] at h
    split at h
    · cases h
    · dsimp only at h
      split_ifs at h
      · cases h
        exact Nat.lt_succ_self _
      · exact Nat.lt_succ_of_le (configGetlineLoop_rest_le h)

def scanSectionLoop : List UInt8 → ℕ → Bool × List UInt8
  | [], _ => (false,[])
  | _ :: _, 0 => (false,[])
  | c :: line, bufsz + 1 =>
    if c = sectClose then (true,[])
    else
      let (status,buf) := scanSectionLoop line bufsz
      (status,c :: buf)

def scanSection (line : List UInt8) (bufsz : ℕ) : Option (Bool × CString) :=
  let (status,buf) := scanSectionLoop (strTrimleft line) bufsz
  if buf.length < bufsz then some (status,CString.ofBuf (strTrimright buf)) else none

/-- Split `key = value`; the result says whether a delimiter was found. -/
def scanKeyvalues (line : List UInt8) (linesz keysz valsz : ℕ) : Option (Option (CString × CString)) :=
  if kvDelim ∈ line then
    let key := (line.take keysz).takeWhile (fun c => decide (c ≠ kvDelim))
    let linep := line.drop key.length
    let linep := if linep.head? = some kvDelim then linep.tail else linep
    let val := (linep.take (min valsz linesz)).takeWhile (fun c => decide (c ≠ newline))
    if key.length < keysz ∧ val.length < valsz then
      some (some (CString.ofBuf (strTrim key),CString.ofBuf (strTrim val)))
    else none
  else some none

namespace Config

/-- The locals of `load` between two lines; `tsect` points to the current section. -/
structure LoadState where
  config : Config
  status : Bool
  sectFound : Bool
  buflen : ℕ
  valbuflen : ℕ
  tsect : Option ℕ

def LoadState.failWith (st : LoadState) (e : ConfigErrors) : LoadState :=
  { st with config := { st.config with errcode := e }, status := false }

def loadSection (st : LoadState) (bufp : List UInt8) : Option (LoadState × Bool) :=
  let st := { st with sectFound := true }
  match scanSection bufp esectMax with
  | none => none
  | some (false,_) => some (st.failWith .bad,false)
  | some (true,sect) =>
    let (i,c) := st.config.addSection sect
    some ({ st with config := c, tsect := some i },true)

/-- A data line: the value buffer follows the line buffer before the line is split. -/
def loadData (st : LoadState) (bufp : List UInt8) : Option (LoadState × Bool) :=
  if st.sectFound = false then some (st.failWith .section,false)
  else
    let st := { st with valbuflen := max st.valbuflen st.buflen }
    match scanKeyvalues bufp st.buflen ekeyMax st.valbuflen with
    | none => none
    | some none => some (st.failWith .bad,false)
    | some (some (key,value)) =>
      match st.tsect with
      | none => none
      | some i =>
        let c := st.config
        some ({ st with config := { c with
          sectionList := c.sectionList.modify i (fun cs => cs.addEntry key value) } },true)

def loadText (st : LoadState) : List UInt8 → Option (LoadState × Bool)
  | [] => some (st,true)
  | c :: bufp =>
    if c = comment then some (st,true)
    else if c = sectOpen then loadSection st bufp
    else loadData st (c :: bufp)

/-- The body of the loop of `load` on one line, and whether the loop goes on. -/
def loadLine (st : LoadState) (buf : List UInt8) : Option (LoadState × Bool) :=
  loadText { st with config := { st.config with linenum := st.config.linenum + 1 } }
    ((CString.ofBuf buf).bytes.dropWhile isspace)

/-- What a line does: nothing, or it ends the load, names a section, or has an entry for one. -/
theorem loadText_cases {st st' : LoadState} {text : List UInt8} {more : Bool}
    (h : loadText st text = some (st',more)) :
    more = true ∧ st' = st ∨
    more = false ∧ (∃ found vallen e, st' = { st with sectFound := found, valbuflen := vallen }.failWith e) ∨
    more = true ∧ (∃ sect, st' = { st with
      sectFound := true, config := (st.config.addSection sect).2, tsect := some (st.config.addSection sect).1 }) ∨
    more = true ∧ ∃ i key value, st' = { st with
      valbuflen := max st.valbuflen st.buflen, config := { st.config with
        sectionList := st.config.sectionList.modify i (fun cs => cs.addEntry key value) } } := by
  cases text with
  | nil =>
    cases h
    exact Or.inl ⟨rfl,rfl⟩
  | cons c bufp =>
    rw [loadText] at h
    split_ifs at h
    · cases h
      exact Or.inl ⟨rfl,rfl⟩
    · unfold loadSection at h
      cases hs : scanSection bufp esectMax with
      | none => simp [hs] at h
      | some r =>
        obtain ⟨closed,sect⟩ := r
        rw [hs] at h
        cases closed with
        | false =>
          cases h
          exact Or.inr (Or.inl ⟨rfl,true,st.valbuflen,_,rfl⟩)
        | true =>
          cases h
          exact Or.inr (Or.inr (Or.inl ⟨rfl,sect,rfl⟩))
    · unfold loadData at h
      by_cases hf : st.sectFound = false
      · rw [if_pos hf] at h
        cases h
        exact Or.inr (Or.inl ⟨rfl,st.sectFound,st.valbuflen,_,rfl⟩)
      · rw [if_neg hf] at h
        dsimp only at h
        cases hs : scanKeyvalues (c :: bufp) st.buflen ekeyMax (max st.valbuflen st.buflen) with
        | none => simp [hs] at h
        | some r =>
          cases r with
          | none =>
            simp only [hs] at h
            cases h
            exact Or.inr (Or.inl ⟨rfl,st.sectFound,_,_,rfl⟩)
          | some kv =>
            cases ht : st.tsect with
            | none => simp [hs,ht] at h
            | some i =>
              simp only [hs,ht] at h
              cases h
              exact Or.inr (Or.inr (Or.inr ⟨rfl,i,kv.1,kv.2,rfl⟩))

/-- The loop of `load`: it ends at the end of the file or at a malformed line. -/
def loadLoop (st : LoadState) (f : List UInt8) : Option LoadState :=
  match _h : configGetline st.buflen f with
  | none => none
  | some g =>
    if _hret : g.ret = none then some { st with buflen := g.len }
    else
      match loadLine { st with buflen := g.len } g.buf with
      | none => none
      | some (st,false) => some st
      | some (st,true) => loadLoop st g.rest
termination_by f.length
decreasing_by exact configGetline_rest_lt _h _hret

theorem loadLoop_none {st : LoadState} {f : List UInt8} (h : configGetline st.buflen f = none) :
    loadLoop st f = none := by
  rw [loadLoop]
  split
  · rfl
  · rename_i g hg
    rw [h] at hg
    cases hg

theorem loadLoop_end {st : LoadState} {f : List UInt8} {g : Getline} (h : configGetline st.buflen f = some g)
    (hret : g.ret = none) : loadLoop st f = some { st with buflen := g.len } := by
  rw [loadLoop]
  split
  · rename_i hg
    rw [h] at hg
    cases hg
  · rename_i g' hg
    rw [h] at hg
    cases hg
    exact dif_pos hret

theorem loadLoop_getline {st : LoadState} {f : List UInt8} {g : Getline} (h : configGetline st.buflen f = some g)
    (hret : g.ret ≠ none) : loadLoop st f =
      match loadLine { st with buflen := g.len } g.buf with
      | none => none
      | some (st,false) => some st
      | some (st,true) => loadLoop st g.rest := by
  rw [loadLoop]
  split
  · rename_i hg
    rw [h] at hg
    cases hg
  · rename_i g' hg
    rw [h] at hg
    cases hg
    exact dif_neg hret

def loadStart (c : Config) : LoadState where
  config := c.clear
  status := true
  sectFound := false
  buflen := elineSizeStart
  valbuflen := elineSizeStart
  tsect := none

/-- `load` on the bytes of a file that could be opened. -/
def load (c : Config) (f : List UInt8) : Option (Bool × Config) :=
  (loadLoop c.loadStart f).map (fun st => (st.status,st.config))

def printEntry (e : ConfigEntry) : List UInt8 :=
  e.key.bytes ++ [kvDelim] ++ e.value.bytes ++ [newline]

def printSection (cs : ConfigSection) : List UInt8 :=
  [sectOpen] ++ cs.sname.bytes ++ [sectClose,newline] ++ cs.entryList.flatMap printEntry

/-- The loop of `save`: an empty line after every section but the last. -/
def printSections : List ConfigSection → List UInt8
  | [] => []
  | cs :: rest => printSection cs ++ (if rest.length + 1 ≠ 1 then [newline] else []) ++ printSections rest

/-- The bytes `save` writes. -/
def save (c : Config) : List UInt8 := printSections c.sectionList

end Config
end Edelib
