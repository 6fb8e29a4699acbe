import Edelib.Foundation.CInt
import Edelib.Foundation.TextBlock
import Edelib.Foundation.Transition

/-! # Lines of a terminal

What was read behind a line is kept in a block, and a line that is put back is put before it. A step
that reaches over the end of a block has no result.
-/
namespace Edelib.PtyProcess
open Foundation TextBlock

def newline : UInt8 := 10

/-- The bytes that a call of `read` puts into `buf[256]`. -/
structure Chunk where
  buf : CString
  nonempty : buf.bytes ≠ []
  fits : buf.strlen ≤ 255

/-! ## The functions -/

/-- The loop counts to an unsigned length, and its index is returned as an `int`. -/
def strpos (str : CString) (c : UInt8) : ℤ :=
  match (str.bytes.take (str.strlen % 2 ^ 32)).idxOf? c with
  | some i => CInt.ofSize i
  | none => -1

/-- A copy ends behind the newline, and another one begins there. -/
def splitLine (str : CString) (pos : ℤ) : Option (Block × Block) :=
  if pos + 1 < 0 then none
  else do
    let ret := strdup str
    let rest ← text ret (pos + 1).toNat
    let ret ← store ret (pos + 1).toNat [0]
    some (ret,strdup rest)

structure Line where
  ret : Block
  inbuf : Option Block
  got : List UInt8

def pendingLine (str : CString) : Option Line :=
  let pos := strpos str newline
  if pos = -1 then some ⟨strdup str,none,[]⟩
  else do
    let (ret,rest) ← splitLine str pos
    some ⟨ret,some rest,[]⟩

def incomingLine (inbuf : Block) (chunk : Chunk) : Option Line := do
  let inbuf ← strcat inbuf chunk.buf
  let str ← text inbuf 0
  let pos := strpos str newline
  if pos ≠ -1 then do
    let (ret,rest) ← splitLine str pos
    some ⟨ret,some rest,chunk.buf.bytes⟩
  else some ⟨strdup str,some inbuf,chunk.buf.bytes⟩

variable (junk : ℕ → UInt8)

/-- A blocking `read_line`, with what `read` gives if it is called. -/
def readLine (inbuf : Option Block) (chunk : Chunk) : Option Line :=
  match inbuf with
  | some b => do
    let str ← text b 0
    if str.strlen > 0 then pendingLine str
    else incomingLine (realloc junk b (str.strlen + chunk.buf.strlen + 1)) chunk
  | none => do
    let b ← store (malloc junk (chunk.buf.strlen + 1)) 0 [0]
    incomingLine b chunk

/-- `"\n"` -/
def newlineStr : CString := ⟨[newline],by decide⟩

def unreadLine (inbuf : Option Block) (line : CString) (addnl : Bool) : Option Block := do
  let tmp ← strcpy (malloc junk (line.strlen + 1)) line
  let tmp ← if addnl then strcat tmp newlineStr else some tmp
  match inbuf with
  | some b => do
    let str ← text b 0
    let first ← text tmp 0
    let tmp2 ← strcpy (malloc junk (str.strlen + first.strlen + 1)) first
    strcat tmp2 str
  | none => some tmp

/-! ## Runs -/

inductive Call
  | readLine (chunk : Chunk)
  | unreadLine (line : CString) (addnl : Bool)

/-- The strings that were returned, and the bytes that were read with what was put back between them. -/
structure PtyState where
  inbuf : Option Block
  returned : List CString
  tape : List UInt8

def PtyState.initial : PtyState := ⟨none,[],[]⟩

def delivered (returned : List CString) : List UInt8 := returned.flatMap CString.bytes

def insertAt (n : ℕ) (new tape : List UInt8) : List UInt8 := tape.take n ++ new ++ tape.drop n

def step (s : PtyState) : Call → Option PtyState
  | .readLine chunk => do
    let line ← readLine junk s.inbuf chunk
    let str ← text line.ret 0
    some ⟨line.inbuf,s.returned ++ [str],s.tape ++ line.got⟩
  | .unreadLine line addnl => do
    let inbuf ← unreadLine junk s.inbuf line addnl
    some ⟨some inbuf,s.returned,
      insertAt (delivered s.returned).length (line.bytes ++ if addnl then [newline] else []) s.tape⟩

def buffered : Option Block → List UInt8
  | none => []
  | some b => (CString.ofBuf b).bytes

/-- A line ends with its newline; what was returned and what is buffered is the tape. -/
structure Faithful (s : PtyState) : Prop where
  lines : ∀ line ∈ s.returned, newline ∉ line.bytes.dropLast
  whole : delivered s.returned ++ buffered s.inbuf = s.tape

def Lawful (s : PtyState) (call : Call) : Prop := ∃ s', step junk s call = some s' ∧ Faithful s'

/-- The first newline is found as an `int`, or is the last byte and not looked at. -/
def Found (pending : List UInt8) : Prop :=
  ∀ p, pending.idxOf? newline = some p →
    (p < pending.length % 2 ^ 32 ∧ p < 2 ^ 31) ∨ (pending.length % 2 ^ 32 ≤ p ∧ p + 1 = pending.length)

/-- Bytes that are read have a newline, the pending one is found, and none is added to what is put back. -/
def CallWhen (s : PtyState) : Call → Prop
  | .readLine chunk => if buffered s.inbuf = [] then newline ∈ chunk.buf.bytes else Found (buffered s.inbuf)
  | .unreadLine _ addnl => addnl = false

/-! ## Lines -/

/-- A text up to its first newline, and the rest. -/
theorem split_at_newline {str : CString} {p : ℕ} (h : str.bytes.idxOf? newline = some p) :
    ∃ line rest : CString, str = line ++ rest ∧ line.strlen = p + 1 ∧ newline ∉ line.bytes.dropLast := by
  obtain ⟨hp,hget,hfirst⟩ := List.idxOf?_eq_some_iff.mp h
  have htake : str.bytes.take (p + 1) = str.bytes.take p ++ [newline] := by
    rw [List.take_succ_eq_append_getElem hp,hget]
  refine ⟨⟨str.bytes.take (p + 1),fun hm => str.nulFree (List.mem_of_mem_take hm)⟩,
    ⟨str.bytes.drop (p + 1),fun hm => str.nulFree (List.mem_of_mem_drop hm)⟩,
    CString.ext (List.take_append_drop _ _).symm,List.length_take_of_le hp,?_⟩
  dsimp only
  rw [htake,List.dropLast_concat,List.mem_take_iff_getElem]
  rintro ⟨j,hj,hnl⟩
  exact hfirst j (Nat.lt_of_lt_of_le hj (Nat.min_le_left _ _)) hnl

theorem not_mem_of_none {bytes : List UInt8} (h : bytes.idxOf? newline = none) : newline ∉ bytes := by
  rwa [List.idxOf?_eq_none_iff] at h

theorem strpos_eq (str : CString) : strpos str newline =
    match str.bytes.idxOf? newline with
    | some p => if p < str.strlen % 2 ^ 32 then CInt.ofSize p else -1
    | none => -1 := by
  have htake : (str.bytes.take (str.strlen % 2 ^ 32)).idxOf? newline =
      (str.bytes.idxOf? newline).bind (Option.guard fun j => decide (j < str.strlen % 2 ^ 32)) := List.findIdx?_take
  rw [strpos,htake]
  cases str.bytes.idxOf? newline with
  | none => rfl
  | some p =>
    have hguard : Option.guard (fun j => decide (j < str.strlen % 2 ^ 32)) p =
        if p < str.strlen % 2 ^ 32 then some p else none := by
      simp only [Option.guard,decide_eq_true_eq]
    rw [Option.bind_some,hguard]
    by_cases hp : p < str.strlen % 2 ^ 32
    · rw [if_pos hp]
      exact (if_pos hp).symm
    · rw [if_neg hp]
      exact (if_neg hp).symm

/-- Both parts of a split line are there. -/
theorem splitLine_append (line rest : CString) {p : ℤ} (hpos : p + 1 = line.strlen) :
    ∃ ret size, splitLine (line ++ rest) p = some (ret,strdup rest) ∧ Holds ret size line := by
  obtain ⟨ret,hret,hholds⟩ := store_strdup_append (t := line) (u := rest)
  refine ⟨ret,_,?_,hholds⟩
  rw [splitLine,if_neg (by omega),hpos,Int.toNat_natCast]
  dsimp only
  rw [text_strdup_append,hret]
  rfl

def Wf (inbuf : Option Block) : Prop := ∀ b, inbuf = some b → ∃ size t, Holds b size t

/-- What a call returns and what it keeps are the text, cut behind its first newline if it has one. -/
structure Splits (str : CString) (line : Line) : Prop where
  wf : Wf line.inbuf
  cut : ∃ ret, text line.ret 0 = some ret ∧ newline ∉ ret.bytes.dropLast ∧ ret.bytes ++ buffered line.inbuf = str.bytes

theorem buffered_of_holds {b : Block} {size : ℕ} {t : CString} (h : Holds b size t) : buffered (some b) = t.bytes := by
  obtain ⟨tail,rfl⟩ := h.begins
  rw [List.append_assoc,List.singleton_append]
  exact congrArg CString.bytes (CString.ofBuf_bytes_append_nul t tail)

theorem wf_some {b : Block} {size : ℕ} {t : CString} (h : Holds b size t) : Wf (some b) := by
  rintro _ ⟨⟩
  exact ⟨size,t,h⟩

theorem splits_of_split {line : CString} (rest : CString) {ret : Block} {size : ℕ} (hret : Holds ret size line)
    (hline : newline ∉ line.bytes.dropLast) (got : List UInt8) :
    Splits (line ++ rest) ⟨ret,some (strdup rest),got⟩ :=
  ⟨wf_some (strdup_holds rest),line,hret.text,hline,by rw [buffered_of_holds (strdup_holds rest)]; rfl⟩

/-- A text that is returned whole. -/
theorem splits_whole {str : CString} (hline : newline ∉ str.bytes.dropLast) (got : List UInt8) :
    Splits str ⟨strdup str,none,got⟩ :=
  ⟨fun b hb => (by cases hb),str,(strdup_holds str).text,hline,List.append_nil _⟩

theorem pendingLine_of_found {str : CString} (h : Found str.bytes) :
    ∃ line, pendingLine str = some line ∧ line.got = [] ∧ Splits str line := by
  have hpos := strpos_eq str
  cases hidx : str.bytes.idxOf? newline with
  | none =>
    rw [hidx] at hpos
    refine ⟨_,if_pos hpos,rfl,splits_whole (fun hm => not_mem_of_none hidx (List.mem_of_mem_dropLast hm)) _⟩
  | some p =>
    rw [hidx] at hpos
    dsimp only at hpos
    obtain ⟨line,rest,rfl,hlen,hline⟩ := split_at_newline hidx
    rcases h p hidx with ⟨hp,hint⟩ | ⟨hp,hlast⟩
    · rw [CString.strlen,if_pos hp,CInt.ofSize_of_le (by omega)] at hpos
      obtain ⟨ret,size,hsplit,hret⟩ := splitLine_append line rest (p := p) (by omega)
      refine ⟨⟨ret,some (strdup rest),[]⟩,?_,rfl,splits_of_split rest hret hline _⟩
      rw [pendingLine,hpos]
      dsimp only
      rw [if_neg (by omega),hsplit]
      rfl
    · -- the newline is not looked at, but nothing is behind it
      rw [CString.strlen,if_neg (by omega)] at hpos
      have hrest : rest.bytes = [] := by
        have hsum : (line ++ rest).bytes.length = line.strlen + rest.bytes.length := List.length_append
        exact List.length_eq_zero_iff.mp (by omega)
      refine ⟨_,if_pos hpos,rfl,splits_whole ?_ _⟩
      rw [CString.append_bytes,hrest,List.append_nil]
      exact hline

/-- A newline that is not found right is inside of what is returned, or the copy is cut before its beginning. -/
theorem found_of_splits {str : CString} {line : Line} (hline : pendingLine str = some line) {ret : CString}
    (hret : text line.ret 0 = some ret) (hnl : newline ∉ ret.bytes.dropLast) : Found str.bytes := by
  intro p hidx
  have hpos := strpos_eq str
  rw [hidx] at hpos
  dsimp only at hpos
  obtain ⟨hp,hget,-⟩ := List.idxOf?_eq_some_iff.mp hidx
  by_cases hlt : p < str.strlen % 2 ^ 32
  · left
    refine ⟨hlt,?_⟩
    by_contra hbig
    have hmod : str.strlen % 2 ^ 32 < 2 ^ 32 := Nat.mod_lt _ (by decide)
    have hneg : CInt.ofSize p = (p : ℤ) - 4294967296 := by
      rw [CInt.ofSize_eq]
      split_ifs <;> omega
    rw [if_pos hlt,hneg] at hpos
    rw [pendingLine,hpos] at hline
    dsimp only at hline
    rw [if_neg (by omega),splitLine,if_pos (by omega)] at hline
    cases hline
  · right
    refine ⟨Nat.le_of_not_lt hlt,?_⟩
    rw [if_neg hlt] at hpos
    rw [pendingLine,hpos] at hline
    cases hline
    rw [(strdup_holds str).text,Option.some_inj] at hret
    subst hret
    by_contra hlast
    have hp' : p < str.bytes.dropLast.length := by
      rw [List.length_dropLast]
      omega
    have hmem := List.getElem_mem hp'
    rw [List.getElem_dropLast,hget] at hmem
    exact hnl hmem

variable {junk}

/-! ## What is read -/

theorem incomingLine_eq {inbuf : Block} {size : ℕ} (h : Holds inbuf size .empty) (chunk : Chunk)
    (hsize : chunk.buf.strlen < size) :
    ∃ line, incomingLine inbuf chunk = some line ∧ line.got = chunk.buf.bytes ∧
      if newline ∈ chunk.buf.bytes then Splits chunk.buf line
      else Wf line.inbuf ∧ text line.ret 0 = some chunk.buf ∧ buffered line.inbuf = chunk.buf.bytes := by
  have hempty : CString.empty.strlen = 0 := rfl
  obtain ⟨b,hb,hholds⟩ := strcat_holds h (u := chunk.buf) (by omega)
  have hchunk : CString.empty ++ chunk.buf = chunk.buf := rfl
  rw [hchunk] at hholds
  have hpos := strpos_eq chunk.buf
  have hfits := chunk.fits
  cases hidx : chunk.buf.bytes.idxOf? newline with
  | none =>
    have hno := not_mem_of_none hidx
    rw [hidx] at hpos
    refine ⟨⟨strdup chunk.buf,some b,chunk.buf.bytes⟩,?_,rfl,?_⟩
    · rw [incomingLine,hb,Option.bind_eq_bind,Option.bind_some,hholds.text,Option.bind_eq_bind,Option.bind_some]
      dsimp only
      rw [hpos,if_neg (by simp)]
    · rw [if_neg hno]
      exact ⟨wf_some hholds,(strdup_holds _).text,buffered_of_holds hholds⟩
  | some p =>
    obtain ⟨hp,-⟩ := List.idxOf?_eq_some_iff.mp hidx
    have hlen : chunk.buf.bytes.length = chunk.buf.strlen := rfl
    rw [hidx] at hpos
    dsimp only at hpos
    rw [if_pos (by omega),CInt.ofSize_of_le (by omega)] at hpos
    have hmem : newline ∈ chunk.buf.bytes := by
      by_contra hno
      rw [List.idxOf?_eq_none_iff.mpr hno] at hidx
      cases hidx
    obtain ⟨line,rest,hsplit,hlinelen,hline⟩ := split_at_newline hidx
    obtain ⟨ret,size',hcut,hret⟩ := splitLine_append line rest (p := p) (by omega)
    refine ⟨⟨ret,some (strdup rest),chunk.buf.bytes⟩,?_,rfl,?_⟩
    · rw [incomingLine,hb,Option.bind_eq_bind,Option.bind_some,hholds.text,Option.bind_eq_bind,Option.bind_some]
      dsimp only
      rw [hpos,if_pos (by omega),hsplit,hcut]
      rfl
    · rw [if_pos hmem]
      have hsplits := splits_of_split rest hret hline chunk.buf.bytes
      rwa [← hsplit] at hsplits

/-- Where nothing is buffered, the block is as good as a new one. -/
theorem readLine_of_empty (junk : ℕ → UInt8) {inbuf : Option Block} (hwf : Wf inbuf) (hempty : buffered inbuf = []) (chunk : Chunk) :
    ∃ line, readLine junk inbuf chunk = some line ∧ line.got = chunk.buf.bytes ∧
      if newline ∈ chunk.buf.bytes then Splits chunk.buf line
      else Wf line.inbuf ∧ text line.ret 0 = some chunk.buf ∧ buffered line.inbuf = chunk.buf.bytes := by
  cases inbuf with
  | none =>
    have hmalloc : (malloc junk (chunk.buf.strlen + 1)).length = chunk.buf.strlen + 1 := length_malloc junk _
    obtain ⟨b,hb,hholds⟩ := store_holds (t := .empty) [] [] List.nil_prefix hmalloc (by simp) rfl
    have hstore : store (malloc junk (chunk.buf.strlen + 1)) 0 [0] = some b := hb
    obtain ⟨line,hline,hspec⟩ := incomingLine_eq hholds chunk (Nat.lt_succ_self _)
    refine ⟨line,?_,hspec⟩
    rw [readLine,hstore]
    exact hline
  | some b =>
    obtain ⟨size,t,ht⟩ := hwf b rfl
    rw [buffered_of_holds ht] at hempty
    obtain rfl : t = .empty := CString.ext hempty
    have hzero : CString.empty.strlen = 0 := rfl
    have hholds := realloc_holds junk ht (n := CString.empty.strlen + chunk.buf.strlen + 1) (by omega)
    obtain ⟨line,hline,hspec⟩ := incomingLine_eq hholds chunk (by omega)
    refine ⟨line,?_,hspec⟩
    rw [readLine,ht.text,Option.bind_eq_bind,Option.bind_some,if_neg (by omega)]
    exact hline

theorem readLine_of_pending (junk : ℕ → UInt8) {b : Block} {size : ℕ} {t : CString} (ht : Holds b size t) (hpending : t.bytes ≠ [])
    (chunk : Chunk) : readLine junk (some b) chunk = pendingLine t := by
  have hpos : t.strlen > 0 := List.length_pos_iff.mpr hpending
  rw [readLine,ht.text,Option.bind_eq_bind,Option.bind_some,if_pos hpos]

/-! ## What is put back -/

/-- The copy has no room for a newline. -/
theorem unreadLine_newline (inbuf : Option Block) (line : CString) : unreadLine junk inbuf line true = none := by
  obtain ⟨b,hb,hholds⟩ := strcpy_holds (t := line) (length_malloc junk (line.strlen + 1)) (Nat.lt_succ_self _)
  have hone : newlineStr.strlen = 1 := rfl
  rw [unreadLine,hb,Option.bind_eq_bind,Option.bind_some,if_pos rfl,strcat_outside hholds (by omega)]
  rfl

theorem unreadLine_spec (junk : ℕ → UInt8) {inbuf : Option Block} (hwf : Wf inbuf) (line : CString) :
    ∃ b, unreadLine junk inbuf line false = some b ∧ Wf (some b) ∧ buffered (some b) = line.bytes ++ buffered inbuf := by
  obtain ⟨tmp,htmp,hholds⟩ := strcpy_holds (t := line) (length_malloc junk (line.strlen + 1)) (Nat.lt_succ_self _)
  cases inbuf with
  | none =>
    refine ⟨tmp,?_,wf_some hholds,?_⟩
    · rw [unreadLine,htmp]
      rfl
    · rw [buffered_of_holds hholds]
      exact (List.append_nil _).symm
  | some b =>
    obtain ⟨size,t,ht⟩ := hwf b rfl
    obtain ⟨tmp₁,htmp₁,hholds₁⟩ := strcpy_holds (t := line) (length_malloc junk (t.strlen + line.strlen + 1))
      (by omega)
    obtain ⟨tmp₂,htmp₂,hholds₂⟩ := strcat_holds hholds₁ (u := t) (by omega)
    refine ⟨tmp₂,?_,wf_some hholds₂,?_⟩
    · rw [unreadLine,htmp,Option.bind_eq_bind,Option.bind_some,if_neg Bool.false_ne_true,Option.bind_some]
      dsimp only
      rw [ht.text,Option.bind_eq_bind,Option.bind_some,hholds.text,Option.bind_some,htmp₁,Option.bind_some,htmp₂]
    · rw [buffered_of_holds hholds₂,buffered_of_holds ht]
      rfl

/-! ## Every call -/

theorem delivered_snoc (returned : List CString) (str : CString) :
    delivered (returned ++ [str]) = delivered returned ++ str.bytes := by
  simp only [delivered,List.flatMap_append,List.flatMap_cons,List.flatMap_nil,List.append_nil]

theorem insertAt_delivered (out new rest : List UInt8) : insertAt out.length new (out ++ rest) = out ++ (new ++ rest) := by
  rw [insertAt,List.take_left,List.drop_left,List.append_assoc]

/-- A line that was cut from the text that comes next. -/
theorem lawful_of_splits {s : PtyState} (h : Faithful s) {chunk : Chunk} {line : Line} {str : CString}
    (hline : readLine junk s.inbuf chunk = some line) (hsplits : Splits str line)
    (hnext : buffered s.inbuf ++ line.got = str.bytes) : Lawful junk s (.readLine chunk) := by
  obtain ⟨ret,hret,hnl,hcut⟩ := hsplits.cut
  refine ⟨⟨line.inbuf,s.returned ++ [ret],s.tape ++ line.got⟩,?_,?_,?_⟩
  · rw [step,hline,Option.bind_eq_bind,Option.bind_some,hret]
    rfl
  · intro l hl
    rcases List.mem_append.mp hl with hl | hl
    · exact h.lines l hl
    · rwa [List.mem_singleton.mp hl]
  · dsimp only
    rw [delivered_snoc,List.append_assoc,hcut,← hnext,← List.append_assoc,h.whole]

/-- What is read without a newline is returned and kept. -/
theorem not_lawful_of_kept {s : PtyState} (h : Faithful s) (hempty : buffered s.inbuf = []) {chunk : Chunk} {line : Line}
    (hline : readLine junk s.inbuf chunk = some line) (hgot : line.got = chunk.buf.bytes)
    (hret : text line.ret 0 = some chunk.buf) (hkept : buffered line.inbuf = chunk.buf.bytes) :
    ¬ Lawful junk s (.readLine chunk) := by
  rintro ⟨s',hs',hfaithful⟩
  rw [step,hline,Option.bind_eq_bind,Option.bind_some,hret,Option.bind_eq_bind,Option.bind_some] at hs'
  cases hs'
  have hwhole := hfaithful.whole
  dsimp only at hwhole
  have hbefore := h.whole
  rw [hempty,List.append_nil] at hbefore
  rw [delivered_snoc,hkept,hgot,hbefore,List.append_right_eq_self] at hwhole
  exact chunk.nonempty hwhole

theorem lawful_iff {s : PtyState} (hwf : Wf s.inbuf) (h : Faithful s) (call : Call) :
    Lawful junk s call ↔ CallWhen s call := by
  cases call with
  | readLine chunk =>
    rw [CallWhen]
    split_ifs with hempty
    · obtain ⟨line,hline,hgot,hspec⟩ := readLine_of_empty junk hwf hempty chunk
      split_ifs at hspec with hnl
      · refine iff_of_true (lawful_of_splits h hline hspec ?_) hnl
        rw [hempty,hgot,List.nil_append]
      · exact iff_of_false (not_lawful_of_kept h hempty hline hgot hspec.2.1 hspec.2.2) hnl
    · cases hinbuf : s.inbuf with
      | none =>
        rw [hinbuf] at hempty
        exact absurd rfl hempty
      | some b =>
        obtain ⟨size,t,ht⟩ := hwf b hinbuf
        rw [hinbuf,buffered_of_holds ht] at hempty
        have hread := readLine_of_pending junk ht hempty chunk
        rw [buffered_of_holds ht]
        constructor
        · rintro ⟨s',hs',hfaithful⟩
          rw [step,hinbuf,hread] at hs'
          obtain ⟨line,hline,hs'⟩ := Option.bind_eq_some_iff.mp hs'
          obtain ⟨ret,hret,hs'⟩ := Option.bind_eq_some_iff.mp hs'
          cases hs'
          exact found_of_splits hline hret (hfaithful.lines ret (List.mem_append_right _ (List.mem_singleton.mpr rfl)))
        · intro hfound
          obtain ⟨line,hline,hgot,hsplits⟩ := pendingLine_of_found hfound
          refine lawful_of_splits h (by rw [hinbuf,hread,hline]) hsplits ?_
          rw [hinbuf,buffered_of_holds ht,hgot,List.append_nil]
  | unreadLine line addnl =>
    rw [CallWhen]
    cases addnl with
    | true =>
      refine iff_of_false ?_ Bool.noConfusion
      rintro ⟨s',hs',-⟩
      rw [step,unreadLine_newline] at hs'
      cases hs'
    | false =>
      refine iff_of_true ?_ rfl
      obtain ⟨b,hb,-,hbuffered⟩ := unreadLine_spec junk hwf line
      refine ⟨⟨some b,s.returned,insertAt (delivered s.returned).length (line.bytes ++ []) s.tape⟩,?_,h.lines,?_⟩
      · rw [step,hb]
        rfl
      · dsimp only
        rw [hbuffered,List.append_nil,← h.whole,insertAt_delivered]

theorem wf_step {s s' : PtyState} {call : Call} (hwf : Wf s.inbuf) (hstep : step junk s call = some s')
    (hcall : CallWhen s call) : Wf s'.inbuf := by
  cases call with
  | readLine chunk =>
    obtain ⟨line,hline,hstep⟩ := Option.bind_eq_some_iff.mp hstep
    obtain ⟨ret,-,hs'⟩ := Option.bind_eq_some_iff.mp hstep
    cases hs'
    rw [CallWhen] at hcall
    split_ifs at hcall with hempty
    · obtain ⟨line',hline',-,hspec⟩ := readLine_of_empty junk hwf hempty chunk
      rw [if_pos hcall] at hspec
      cases hline.symm.trans hline'
      exact hspec.wf
    · cases hinbuf : s.inbuf with
      | none =>
        rw [hinbuf] at hempty
        exact absurd rfl hempty
      | some b =>
        obtain ⟨size,t,ht⟩ := hwf b hinbuf
        rw [hinbuf,buffered_of_holds ht] at hempty
        rw [hinbuf,buffered_of_holds ht] at hcall
        rw [hinbuf,readLine_of_pending junk ht hempty chunk] at hline
        obtain ⟨line',hline',-,hsplits⟩ := pendingLine_of_found hcall
        cases hline.symm.trans hline'
        exact hsplits.wf
  | unreadLine line addnl =>
    rw [CallWhen] at hcall
    subst hcall
    obtain ⟨b,hb,hstep⟩ := Option.bind_eq_some_iff.mp hstep
    cases hstep
    obtain ⟨b',hb',hwf',-⟩ := unreadLine_spec junk hwf line
    cases hb.symm.trans hb'
    exact hwf'

theorem faithful_initial : Faithful .initial := ⟨fun line hline => (by cases hline),rfl⟩

theorem wf_initial : Wf PtyState.initial.inbuf := fun b hb => by cases hb

/-- A run is without a fault and faithful throughout when its calls meet the condition, and only then. -/
theorem run_faithful_iff (junk : ℕ → UInt8) (calls : List Call) :
    Transition.Along (step junk) (Lawful junk) .initial calls ↔ Transition.Along (step junk) CallWhen .initial calls := by
  refine Transition.along_iff (I := fun s => Wf s.inbuf ∧ Faithful s) (fun s call hs => lawful_iff hs.1 hs.2 call)
    (fun s call s' hs hlawful hs' => ?_) ⟨wf_initial,faithful_initial⟩
  refine ⟨wf_step hs.1 hs' ((lawful_iff hs.1 hs.2 call).mp hlawful),?_⟩
  obtain ⟨s'',hs'',hfaithful⟩ := hlawful
  cases hs'.symm.trans hs''
  exact hfaithful

def prompt : Chunk := ⟨⟨[36,32],by decide⟩,by decide,by decide⟩

theorem not_run_faithful : ¬ ∀ (junk : ℕ → UInt8) (calls : List Call),
    Transition.Along (step junk) (Lawful junk) .initial calls := by
  intro h
  have hprompt := (Transition.along_cons.mp (h (fun _ => 0) [.readLine prompt])).1
  have hwhen := (lawful_iff wf_initial faithful_initial _).mp hprompt
  have hempty : buffered PtyState.initial.inbuf = [] := rfl
  rw [CallWhen,if_pos hempty] at hwhen
  exact absurd hwhen (by decide)

end Edelib.PtyProcess
