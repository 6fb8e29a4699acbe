import Edelib.Config.File

/-! # The line reader

On a line of text the reader delivers the line, unless the line ends exactly where
the buffer does: then the terminator is written one past the end. A buffer that an `int`
does not measure has no result either. The buffer's size after a line depends on the size
before it and on the line's length only.
-/
namespace Edelib
open Foundation

def LineBody (l : List UInt8) : Prop := newline ∉ l ∧ (0 : UInt8) ∉ l

instance (l : List UInt8) : Decidable (LineBody l) :=
  inferInstanceAs (Decidable (newline ∉ l ∧ (0 : UInt8) ∉ l))

def growTo (len total : ℕ) : ℕ := if total ≤ len then len else len + 100 * ((total - len + 99) / 100)

/-- The buffer that holds `total` bytes is longer than an `int` counts. -/
def TooLong (len total : ℕ) : Prop := len < total ∧ lenMax < growTo len total

instance (len total : ℕ) : Decidable (TooLong len total) :=
  inferInstanceAs (Decidable (len < total ∧ lenMax < growTo len total))

/-- A line of `total` bytes ends where the buffer does, after whatever growth, or there is no such buffer. -/
def Overruns (len total : ℕ) : Prop := (len ≤ total ∧ 100 ∣ total - len) ∨ TooLong len total

instance (len total : ℕ) : Decidable (Overruns len total) :=
  inferInstanceAs (Decidable ((len ≤ total ∧ 100 ∣ total - len) ∨ TooLong len total))

/-- What the buffer holds of the bytes read: a NUL hides what follows it, and growing the
buffer loses that. -/
structure Holds (buf read : List UInt8) : Prop where
  length_eq : buf.length = read.length
  exact : (0 : UInt8) ∉ read → buf = read
  text : ∀ more, CString.ofBuf (buf ++ more) = CString.ofBuf (read ++ more)

theorem Holds.refl (read : List UInt8) : Holds read read := ⟨rfl,fun _ => rfl,fun _ => rfl⟩

theorem Holds.snoc {buf read : List UInt8} (h : Holds buf read) (c : UInt8) : Holds (buf ++ [c]) (read ++ [c]) := by
  refine ⟨by simp [h.length_eq],fun hn => ?_,fun more => ?_⟩
  · rw [h.exact (CString.nulFree_append.mp hn).1]
  · simpa using h.text ([c] ++ more)

/-- `strncpy` copies the text in a full buffer, and fills the rest with NULs. -/
theorem Holds.copy {buf read : List UInt8} (h : Holds buf read) :
    Holds ((CString.ofBuf buf).bytes ++ List.replicate (buf.length - (CString.ofBuf buf).strlen) 0) read := by
  obtain ⟨tail,htail⟩ := CString.ofBuf_begins buf
  have hlen : buf.length = (CString.ofBuf buf).strlen + tail.length := by
    have hsum := congrArg List.length htail
    rw [List.length_append] at hsum
    exact hsum.symm
  have hrest : buf.length - (CString.ofBuf buf).strlen = tail.length := by omega
  rw [hrest]
  refine ⟨?_,fun hn => ?_,fun more => ?_⟩
  · rw [← h.length_eq,hlen]
    simp [CString.strlen]
  · have hfull : (CString.ofBuf buf).bytes = buf := by rw [h.exact hn,CString.ofBuf_eq hn]
    rw [hfull,List.append_right_eq_self] at htail
    rw [htail,hfull]
    simpa using h.exact hn
  · rw [← h.text more]
    cases tail with
    | nil =>
      rw [List.append_nil] at htail
      simp [htail]
    | cons c tail =>
      have hc : c = 0 := CString.ofBuf_stops htail
      have hbuf : buf ++ more = (CString.ofBuf buf).bytes ++ 0 :: (tail ++ more) := by
        rw [← List.cons_append,← hc,← List.append_assoc,htail]
      rw [hbuf,List.length_cons,List.replicate_succ,List.append_assoc,List.cons_append,
        CString.ofBuf_bytes_append_nul,CString.ofBuf_bytes_append_nul]

/-- The size after the growth that storing one more byte needs. -/
def grownBy (len stored : ℕ) : ℕ := if stored < len then len else len + 100

theorem growBuf_eq {buf read : List UInt8} {len : ℕ} (h : Holds buf read) (hlen : read.length ≤ len) :
    ∃ buf', Holds buf' read ∧ growBuf buf len =
      if TooLong len (read.length + 1) then none else some (buf',grownBy len read.length) := by
  unfold growBuf grownBy
  rw [h.length_eq]
  by_cases hlt : read.length < len
  · have hlong : ¬ TooLong len (read.length + 1) := fun htoo => Nat.not_lt.mpr hlt htoo.1
    rw [if_neg (Nat.not_le.mpr hlt),if_pos hlt]
    exact ⟨buf,h,(if_neg hlong).symm⟩
  · have he : buf.length = len := h.length_eq.trans (by omega)
    have htake : buf.take len = buf := List.take_of_length_le he.le
    have hlong : TooLong len (read.length + 1) ↔ ¬ len + 100 ≤ lenMax := by
      unfold TooLong growTo
      split_ifs <;> omega
    rw [if_pos (by omega),if_neg hlt,htake,← he]
    refine ⟨_,h.copy,?_⟩
    rw [he]
    by_cases hmax : len + 100 ≤ lenMax
    · rw [if_neg (fun htoo => hlong.mp htoo hmax)]
      exact if_pos hmax
    · rw [if_pos (hlong.mpr hmax)]
      exact if_neg hmax

theorem lt_grownBy {len stored : ℕ} (h : stored ≤ len) : stored < grownBy len stored := by
  unfold grownBy
  split_ifs <;> omega

theorem configGetlineLoop_newline {buf read : List UInt8} {len : ℕ} (h : Holds buf read) (hlen : read.length ≤ len)
    (rest : List UInt8) : ∃ buf', Holds buf' (read ++ [newline]) ∧
      configGetlineLoop buf len (newline :: rest) =
        if Overruns len (read.length + 1) then none
        else some ⟨some (read.length + 1),buf',growTo len (read.length + 1),rest⟩ := by
  obtain ⟨buf₁,hgrown,hgrow⟩ := growBuf_eq h hlen
  refine ⟨buf₁ ++ [newline],hgrown.snoc newline,?_⟩
  by_cases hlong : TooLong len (read.length + 1)
  · rw [if_pos hlong] at hgrow
    have hover : Overruns len (read.length + 1) := Or.inr hlong
    rw [configGetlineLoop,hgrow,if_pos hover]
  · rw [if_neg hlong] at hgrow
    have hstore := lt_grownBy hlen
    simp only [configGetlineLoop,hgrow,↓reduceIte,List.length_append,List.length_singleton,hgrown.length_eq,hstore]
    have hover : Overruns len (read.length + 1) ↔ ¬ read.length + 1 < grownBy len read.length := by
      rw [Overruns,or_iff_left hlong]
      unfold grownBy
      split_ifs <;> omega
    have hsize : ¬ Overruns len (read.length + 1) → growTo len (read.length + 1) = grownBy len read.length := by
      rw [Overruns,or_iff_left hlong]
      unfold growTo grownBy
      split_ifs <;> omega
    by_cases ho : Overruns len (read.length + 1)
    · rw [if_neg (hover.mp ho),if_pos ho]
    · rw [if_pos (not_not.mp (mt hover.mpr ho)),if_neg ho,hsize ho]

/-- A byte of a line is stored, after growth where the buffer is full. -/
theorem configGetlineLoop_byte {buf read : List UInt8} {len : ℕ} (h : Holds buf read) (hlen : read.length ≤ len)
    {c : UInt8} (hc : c ≠ newline) (f : List UInt8) : ∃ buf', Holds buf' (read ++ [c]) ∧
      configGetlineLoop buf len (c :: f) =
        if TooLong len (read.length + 1) then none else configGetlineLoop buf' (grownBy len read.length) f := by
  obtain ⟨buf₁,hgrown,hgrow⟩ := growBuf_eq h hlen
  refine ⟨buf₁ ++ [c],hgrown.snoc c,?_⟩
  have hstore := lt_grownBy hlen
  by_cases hlong : TooLong len (read.length + 1)
  · rw [if_pos hlong] at hgrow
    rw [configGetlineLoop,hgrow,if_pos hlong]
  · rw [if_neg hlong] at hgrow
    simp only [configGetlineLoop,hgrow,hc,↓reduceIte,hgrown.length_eq,hstore,hlong]

/-- Growing for a byte does not hide that a longer line has no buffer. -/
theorem tooLong_grownBy {len stored total : ℕ} (hlen : stored ≤ len) (h : ¬ TooLong len (stored + 1)) :
    TooLong (grownBy len stored) total ↔ TooLong len total := by
  unfold TooLong growTo grownBy at *
  split_ifs at * <;> omega

theorem TooLong.mono {len total more : ℕ} (h : TooLong len total) (hle : total ≤ more) : TooLong len more := by
  unfold TooLong growTo at *
  split_ifs at * <;> omega

theorem configGetlineLoop_line {buf read l : List UInt8} {len : ℕ} (h : Holds buf read) (hlen : read.length ≤ len)
    (hl : newline ∉ l) (rest : List UInt8) : ∃ buf', Holds buf' (read ++ l ++ [newline]) ∧
      configGetlineLoop buf len (l ++ newline :: rest) =
        if Overruns len (read.length + l.length + 1) then none
        else some ⟨some (read.length + l.length + 1),buf',growTo len (read.length + l.length + 1),rest⟩ := by
  induction l generalizing buf read len with
  | nil => simpa using configGetlineLoop_newline h hlen rest
  | cons c l ih =>
    obtain ⟨hc,hl⟩ : newline ≠ c ∧ newline ∉ l := by simpa using hl
    obtain ⟨buf₁,h₁,hstep⟩ := configGetlineLoop_byte h hlen hc.symm (l ++ newline :: rest)
    have hlen₁ : (read ++ [c]).length ≤ grownBy len read.length := by
      rw [List.length_append]
      exact lt_grownBy hlen
    obtain ⟨buf',h',hloop⟩ := ih h₁ hlen₁ hl
    have htotal : (read ++ [c]).length + l.length + 1 = read.length + (c :: l).length + 1 := by
      simp only [List.length_append,List.length_cons,List.length_nil]
      omega
    have hmore : read.length + 1 ≤ read.length + (c :: l).length + 1 := by omega
    refine ⟨buf',by simpa using h',?_⟩
    rw [List.cons_append,hstep]
    by_cases hlong : TooLong len (read.length + 1)
    · have hover : Overruns len (read.length + (c :: l).length + 1) := Or.inr (hlong.mono hmore)
      rw [if_pos hlong,if_pos hover]
    · -- the line has two more bytes to store at least, so the growth does not hide an overrun
      have hover : Overruns (grownBy len read.length) (read.length + (c :: l).length + 1) ↔
          Overruns len (read.length + (c :: l).length + 1) := by
        rw [Overruns,Overruns,tooLong_grownBy hlen hlong]
        refine or_congr_left ?_
        unfold grownBy
        rw [List.length_cons]
        split_ifs <;> omega
      have hgrow : growTo (grownBy len read.length) (read.length + (c :: l).length + 1) =
          growTo len (read.length + (c :: l).length + 1) := by
        unfold growTo grownBy
        rw [List.length_cons]
        split_ifs <;> omega
      rw [if_neg hlong,hloop,htotal,hgrow]
      simp only [hover]

/-- The reader delivers a line with its newline, or writes past its buffer. -/
theorem configGetline_newline {l : List UInt8} (hl : newline ∉ l) (len : ℕ) (rest : List UInt8) :
    ∃ buf, Holds buf (l ++ [newline]) ∧ configGetline len (l ++ newline :: rest) =
      if Overruns len (l.length + 1) then none
      else some ⟨some (l.length + 1),buf,growTo len (l.length + 1),rest⟩ := by
  simpa [configGetline] using configGetlineLoop_line (Holds.refl []) (Nat.zero_le len) hl rest

theorem configGetline_line {l : List UInt8} (hl : LineBody l) (len : ℕ) (rest : List UInt8) :
    configGetline len (l ++ newline :: rest) =
      if Overruns len (l.length + 1) then none
      else some ⟨some (l.length + 1),l ++ [newline],growTo len (l.length + 1),rest⟩ := by
  obtain ⟨buf,hbuf,hline⟩ := configGetline_newline hl.1 len rest
  rw [hline,hbuf.exact (CString.nulFree_append.mpr ⟨hl.2,by decide⟩)]

/-- At the end of the file there is room for the terminator, and the bytes are not delivered. -/
theorem configGetlineLoop_end {buf read l : List UInt8} {len : ℕ} (h : Holds buf read) (hlen : read.length ≤ len)
    (hl : newline ∉ l) : ∃ g : Getline, g.ret = none ∧ configGetlineLoop buf len l =
      if TooLong len (read.length + l.length + 1) then none else some g := by
  induction l generalizing buf read len with
  | nil =>
    obtain ⟨buf₁,hgrown,hgrow⟩ := growBuf_eq h hlen
    refine ⟨⟨none,buf₁,grownBy len read.length,[]⟩,rfl,?_⟩
    rw [List.length_nil,Nat.add_zero]
    by_cases hlong : TooLong len (read.length + 1)
    · rw [if_pos hlong] at hgrow
      rw [configGetlineLoop,hgrow,if_pos hlong]
    · rw [if_neg hlong] at hgrow
      simp only [configGetlineLoop,hgrow,hgrown.length_eq,lt_grownBy hlen,↓reduceIte,hlong]
  | cons c l ih =>
    obtain ⟨hc,hl⟩ : newline ≠ c ∧ newline ∉ l := by simpa using hl
    obtain ⟨buf₁,h₁,hstep⟩ := configGetlineLoop_byte h hlen hc.symm l
    have hlen₁ : (read ++ [c]).length ≤ grownBy len read.length := by
      rw [List.length_append]
      exact lt_grownBy hlen
    obtain ⟨g,hret,hg⟩ := ih h₁ hlen₁ hl
    have htotal : (read ++ [c]).length + l.length + 1 = read.length + (c :: l).length + 1 := by
      simp only [List.length_append,List.length_cons,List.length_nil]
      omega
    have hmore : read.length + 1 ≤ read.length + (c :: l).length + 1 := by omega
    refine ⟨g,hret,?_⟩
    rw [hstep]
    by_cases hlong : TooLong len (read.length + 1)
    · rw [if_pos hlong,if_pos (hlong.mono hmore)]
    · rw [if_neg hlong,hg,htotal]
      simp only [tooLong_grownBy hlen hlong]

theorem configGetline_end {l : List UInt8} (hl : newline ∉ l) (len : ℕ) :
    ∃ g : Getline, g.ret = none ∧ configGetline len l = if TooLong len (l.length + 1) then none else some g := by
  simpa [configGetline] using configGetlineLoop_end (Holds.refl []) (Nat.zero_le len) hl

theorem configGetline_nil {len : ℕ} (h : 0 < len) : configGetline len [] = some ⟨none,[],len,[]⟩ := by
  have hfits : growBuf [] len = some ([],len) := if_neg (Nat.not_le.mpr h)
  simp only [configGetline,configGetlineLoop,hfits,List.length_nil,h,↓reduceIte]

theorem le_growTo (len total : ℕ) : len ≤ growTo len total := by
  unfold growTo
  split_ifs <;> omega

theorem total_le_growTo (len total : ℕ) : total ≤ growTo len total := by
  unfold growTo
  split_ifs <;> omega

/-! ## Files of lines -/

def unlines (bodies : List (List UInt8)) : List UInt8 := bodies.flatMap (fun l => l ++ [newline])

@[simp] theorem unlines_nil : unlines [] = [] := rfl
theorem unlines_cons (l : List UInt8) (bodies : List (List UInt8)) :
    unlines (l :: bodies) = l ++ newline :: unlines bodies := by
  simp [unlines]
theorem unlines_append (a b : List (List UInt8)) : unlines (a ++ b) = unlines a ++ unlines b :=
  List.flatMap_append

def splitLines : List UInt8 → List (List UInt8) × List UInt8
  | [] => ([],[])
  | c :: f =>
    if c = newline then ([] :: (splitLines f).1,(splitLines f).2)
    else
      match splitLines f with
      | ([],last) => ([],c :: last)
      | (l :: bodies,last) => ((c :: l) :: bodies,last)

/-- A file is its lines, each ended by a newline, and the rest. -/
theorem unlines_splitLines (f : List UInt8) : unlines (splitLines f).1 ++ (splitLines f).2 = f ∧
    (∀ l ∈ (splitLines f).1, newline ∉ l) ∧ newline ∉ (splitLines f).2 := by
  induction f with
  | nil => simp [splitLines]
  | cons c f ih =>
    obtain ⟨hf,hlines,hlast⟩ := ih
    by_cases hc : c = newline
    · subst hc
      simp only [splitLines,↓reduceIte]
      exact ⟨by rw [unlines_cons,List.nil_append,List.cons_append,hf],by simpa using hlines,hlast⟩
    · cases hs : splitLines f with
      | mk bodies last =>
        rw [hs] at hf hlines hlast
        cases bodies with
        | nil =>
          have hf : last = f := hf
          have hsplit : splitLines (c :: f) = ([],c :: last) := by simp [splitLines,hc,hs]
          rw [hsplit]
          exact ⟨congrArg (c :: ·) hf,by simp,by simpa using ⟨Ne.symm hc,hlast⟩⟩
        | cons l bodies =>
          have hsplit : splitLines (c :: f) = ((c :: l) :: bodies,last) := by simp [splitLines,hc,hs]
          obtain ⟨hl,hbodies⟩ := List.forall_mem_cons.mp hlines
          rw [hsplit]
          refine ⟨?_,List.forall_mem_cons.mpr ⟨by simpa using ⟨Ne.symm hc,hl⟩,hbodies⟩,hlast⟩
          rw [← hf,unlines_cons,unlines_cons]
          rfl

/-- No line ends where the buffer does at that point of the file. -/
def Fits : ℕ → List (List UInt8) → Prop
  | _, [] => True
  | len, l :: bodies => ¬ Overruns len (l.length + 1) ∧ Fits (growTo len (l.length + 1)) bodies

@[simp] theorem fits_nil (len : ℕ) : Fits len [] := trivial
theorem fits_cons {len : ℕ} {l : List UInt8} {bodies : List (List UInt8)} : Fits len (l :: bodies) ↔
    ¬ Overruns len (l.length + 1) ∧ Fits (growTo len (l.length + 1)) bodies := Iff.rfl

instance decidableFits : (len : ℕ) → (bodies : List (List UInt8)) → Decidable (Fits len bodies)
  | _, [] => inferInstanceAs (Decidable True)
  | len, l :: bodies =>
    have := decidableFits (growTo len (l.length + 1)) bodies
    inferInstanceAs (Decidable (¬ Overruns len (l.length + 1) ∧ Fits (growTo len (l.length + 1)) bodies))

/-- The largest buffer that the first one grows to. -/
def lineMax : ℕ := 2147483624

/-- These lines are shorter than the largest buffer, and any that is as long as the buffer can be (1024
bytes, or some hundreds more) comes after a longer line; `read` are the lines before. -/
def LinesFitAfter (read bodies : List (List UInt8)) : Prop :=
  ∀ before l after, bodies = before ++ l :: after → l.length + 1 < lineMax ∧
    ∀ k, l.length + 1 = elineSizeStart + 100 * k → ∃ l' ∈ read ++ before, l.length < l'.length

def LinesFit (bodies : List (List UInt8)) : Prop := LinesFitAfter [] bodies

theorem linesFitAfter_cons {read bodies : List (List UInt8)} {l : List UInt8} :
    LinesFitAfter read (l :: bodies) ↔
      (l.length + 1 < lineMax ∧ ∀ k, l.length + 1 = elineSizeStart + 100 * k → ∃ l' ∈ read, l.length < l'.length) ∧
      LinesFitAfter (read ++ [l]) bodies := by
  constructor
  · intro h
    refine ⟨by simpa using h [] l bodies rfl,fun before l' after he => ?_⟩
    simpa using h (l :: before) l' after (by rw [he]; rfl)
  · rintro ⟨hl,h⟩ before l' after he
    rcases List.cons_eq_append_iff.mp he with ⟨rfl,he⟩ | ⟨before,rfl,he⟩
    · cases he
      simpa using hl
    · simpa using h before l' after (by simpa using he)

structure BufferSize (len : ℕ) : Prop where
  mod_eq : len % 100 = 24
  start_le : 1024 ≤ len
  le_max : len ≤ lineMax

theorem bufferSize_start : BufferSize elineSizeStart := ⟨by decide,by decide,by decide⟩

/-- For a line that is not longer than the largest buffer there is one, of a possible size. -/
theorem BufferSize.tooLong_iff {len : ℕ} (h : BufferSize len) (total : ℕ) : TooLong len total ↔ lineMax < total := by
  obtain ⟨hmod,hstart,hmax⟩ := h
  unfold TooLong growTo lenMax lineMax at *
  split_ifs <;> omega

theorem BufferSize.growTo {len total : ℕ} (h : BufferSize len) (hfit : ¬ Overruns len total) :
    BufferSize (growTo len total) := by
  have htotal : total ≤ lineMax := Nat.not_lt.mp (fun hlt => hfit (Or.inr ((h.tooLong_iff total).mpr hlt)))
  obtain ⟨hmod,hstart,hmax⟩ := h
  unfold lineMax at *
  refine ⟨?_,hstart.trans (le_growTo _ _),?_⟩ <;> unfold Edelib.growTo
  · split_ifs <;> omega
  · unfold lineMax
    split_ifs <;> omega

/-- The buffer has room for the lines read and, unless it never grew, less than a
hundred bytes to spare: so it is as long as a line only when no line was longer. -/
theorem fits_iff_linesFitAfter {len : ℕ} {read : List (List UInt8)} (hsize : BufferSize len)
    (hread : ∀ l ∈ read, l.length < len) (htight : len = 1024 ∨ ∃ l ∈ read, len ≤ l.length + 100)
    (bodies : List (List UInt8)) : Fits len bodies ↔ LinesFitAfter read bodies := by
  induction bodies generalizing len read with
  | nil => simp [Fits,LinesFitAfter]
  | cons l bodies ih =>
    have hover : ¬ Overruns len (l.length + 1) ↔ l.length + 1 < lineMax ∧
        ∀ k, l.length + 1 = elineSizeStart + 100 * k → ∃ l' ∈ read, l.length < l'.length := by
      rw [Overruns,not_or,hsize.tooLong_iff]
      obtain ⟨hmod,hstart,hmax⟩ := hsize
      unfold elineSizeStart lineMax at *
      constructor
      · rintro ⟨hno,hshort⟩
        refine ⟨by omega,fun k hk => ?_⟩
        have hlt : l.length + 1 < len := by
          by_contra hge
          exact hno ⟨by omega,by omega⟩
        rcases htight with ht | ⟨l',hl',ht⟩
        · omega
        · exact ⟨l',hl',by omega⟩
      · rintro ⟨hshort,h⟩
        refine ⟨fun ⟨hle,hdvd⟩ => ?_,by omega⟩
        obtain ⟨l',hl',hlt⟩ := h ((l.length + 1 - 1024) / 100) (by omega)
        have := hread l' hl'
        omega
    rw [Fits,linesFitAfter_cons,← hover]
    refine and_congr_right (fun hfit => ih (hsize.growTo hfit) ?_ ?_)
    · intro l' hl'
      rcases List.mem_append.mp hl' with hl' | hl'
      · exact (hread l' hl').trans_le (le_growTo _ _)
      · rw [List.mem_singleton.mp hl']
        exact total_le_growTo len (l.length + 1)
    · by_cases hle : l.length + 1 ≤ len
      · rw [growTo,if_pos hle]
        exact htight.imp_right (fun ⟨l',hl',ht⟩ => ⟨l',List.mem_append_left _ hl',ht⟩)
      · refine Or.inr ⟨l,by simp,?_⟩
        rw [growTo,if_neg hle]
        omega

/-- From the initial buffer, no line overruns exactly when all are shorter than the largest
buffer, and those of critical length each follow a longer line. -/
theorem fits_iff_linesFit (bodies : List (List UInt8)) : Fits elineSizeStart bodies ↔ LinesFit bodies :=
  fits_iff_linesFitAfter bufferSize_start (by simp) (Or.inl rfl) bodies

instance (bodies : List (List UInt8)) : Decidable (LinesFit bodies) :=
  decidable_of_iff _ (fits_iff_linesFit bodies)

end Edelib
