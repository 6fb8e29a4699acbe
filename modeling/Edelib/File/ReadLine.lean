import Mathlib.Algebra.Order.Ring.Int
import Mathlib.Data.List.Basic

/-! # Lines are read from a stream

The terminator is put behind the bytes that were read, also behind a buffer that they fill. A line
counts without its newline, and bytes that the stream ends with count as its end.
-/
namespace Edelib.File

def EOF : ℤ := -1

def newline : UInt8 := 10

/-- A call: the bytes written to the buffer by their indices, the value that is returned, and what the
stream has left. -/
structure Call where
  writes : List (ℕ × UInt8)
  ret : ℤ
  rest : List UInt8
deriving DecidableEq

/-- The loop from `i`, with `buffp` as an index; what was written before is given. -/
def readlineLoop (buffsz : ℤ) : List UInt8 → ℤ → ℕ → List (ℕ × UInt8) → Call
  | [],i,buffp,writes => if i < buffsz then ⟨writes ++ [(buffp,0)],EOF,[]⟩ else ⟨writes ++ [(buffp,0)],i,[]⟩
  | c :: rest,i,buffp,writes =>
    if i < buffsz then
      if c = newline then ⟨writes ++ [(buffp,c)] ++ [(buffp + 1,0)],i,rest⟩
      else readlineLoop buffsz rest (i + 1) (buffp + 1) (writes ++ [(buffp,c)])
    else ⟨writes ++ [(buffp,0)],i,c :: rest⟩

def readline (content : List UInt8) (buffsz : ℤ) : Call := readlineLoop buffsz content 0 0 []

def contents (buffsz : ℤ) : ℕ → List UInt8 → List (List UInt8)
  | 0,_ => []
  | fuel + 1,content =>
    content :: if (readline content buffsz).ret = EOF then [] else contents buffsz fuel (readline content buffsz).rest

/-! ## What a caller relies on -/

def Call.stored (call : Call) : List UInt8 := (call.writes.map Prod.snd).dropLast

structure Lawful (content : List UInt8) (buffsz : ℤ) (call : Call) : Prop where
  inside : ∀ w ∈ call.writes, (w.1 : ℤ) < buffsz
  terminated : call.writes = (call.stored ++ [0]).zipIdx.map Prod.swap
  counted : call.ret = if content = [] then EOF else (call.stored.length : ℤ)

/-- Every call is lawful, one returns `EOF`, and those before it store the content. -/
structure Delivers (content : List UInt8) (buffsz : ℤ) : Prop where
  lawful : ∀ before ∈ contents buffsz (content.length + 1) content, Lawful before buffsz (readline before buffsz)
  ends : ∃ last ∈ contents buffsz (content.length + 1) content, (readline last buffsz).ret = EOF
  whole : ((contents buffsz (content.length + 1) content).flatMap (fun before =>
    if (readline before buffsz).ret = EOF then [] else (readline before buffsz).stored)) = content

/-! ## One call -/

variable {content : List UInt8} {buffsz : ℤ}

def lineWrites (stored : List UInt8) : List (ℕ × UInt8) := (stored ++ [0]).zipIdx.map Prod.swap

/-- The ways in which a call ends: with the stream, with a newline, or with a full buffer. -/
inductive Ends (buffsz : ℤ) (stored rest : List UInt8) (ret : ℤ) : Prop
  | eof (hret : ret = EOF) (hrest : rest = []) (hlen : (stored.length : ℤ) < buffsz)
  | newline (hret : ret = stored.length - 1) (hlast : stored.getLast? = some newline) (hlen : (stored.length : ℤ) ≤ buffsz)
  | full (hret : ret = stored.length) (hlen : (stored.length : ℤ) = buffsz)

theorem lineWrites_concat (stored : List UInt8) (c : UInt8) :
    ((stored ++ [c]).zipIdx.map Prod.swap) = stored.zipIdx.map Prod.swap ++ [(stored.length,c)] := by
  rw [List.zipIdx_append,List.map_append]
  simp

theorem readlineLoop_cases (content before : List UInt8) (h : (before.length : ℤ) ≤ buffsz) :
    ∃ stored rest, before ++ content = stored ++ rest ∧ before <+: stored ∧
      (readlineLoop buffsz content before.length before.length (before.zipIdx.map Prod.swap)).writes = lineWrites stored ∧
      (readlineLoop buffsz content before.length before.length (before.zipIdx.map Prod.swap)).rest = rest ∧
      Ends buffsz stored rest (readlineLoop buffsz content before.length before.length (before.zipIdx.map Prod.swap)).ret := by
  induction content generalizing before with
  | nil =>
    refine ⟨before,[],rfl,List.prefix_refl _,?_⟩
    rw [readlineLoop,lineWrites,lineWrites_concat]
    by_cases hlt : (before.length : ℤ) < buffsz
    · rw [if_pos hlt]
      exact ⟨rfl,rfl,.eof rfl rfl hlt⟩
    · rw [if_neg hlt]
      exact ⟨rfl,rfl,.full rfl (by omega)⟩
  | cons c content ih =>
    rw [readlineLoop]
    by_cases hlt : (before.length : ℤ) < buffsz
    · rw [if_pos hlt]
      by_cases hc : c = newline
      · refine ⟨before ++ [c],content,by rw [List.append_assoc]; rfl,List.prefix_append _ _,?_⟩
        rw [if_pos hc,lineWrites,lineWrites_concat,lineWrites_concat,List.length_append,List.length_singleton]
        refine ⟨rfl,rfl,.newline ?_ ?_ ?_⟩
        · rw [List.length_append,List.length_singleton]
          push_cast
          omega
        · rw [List.getLast?_append,hc]
          rfl
        · rw [List.length_append,List.length_singleton]
          push_cast
          omega
      · obtain ⟨stored,rest,hsplit,hbefore,hspec⟩ := ih (before ++ [c]) (by
          rw [List.length_append,List.length_singleton]
          push_cast
          omega)
        refine ⟨stored,rest,?_,(List.prefix_append before [c]).trans hbefore,?_⟩
        · rw [← hsplit,List.append_assoc]
          rfl
        · rw [lineWrites_concat,List.length_append,List.length_singleton] at hspec
          rw [if_neg hc]
          exact hspec
    · rw [if_neg hlt]
      refine ⟨before,c :: content,rfl,List.prefix_refl _,?_⟩
      rw [lineWrites,lineWrites_concat]
      exact ⟨rfl,rfl,.full rfl (by omega)⟩

theorem stored_of_writes {call : Call} {stored : List UInt8} (h : call.writes = lineWrites stored) : call.stored = stored := by
  have hsnd : (lineWrites stored).map Prod.snd = stored ++ [0] := by
    rw [lineWrites,List.map_map]
    exact List.zipIdx_map_fst 0 _
  rw [Call.stored,h,hsnd,List.dropLast_concat]

/-- A call takes bytes from the stream and writes them, with a terminator, to the buffer. -/
theorem readline_cases (content : List UInt8) (h : 0 ≤ buffsz) :
    content = (readline content buffsz).stored ++ (readline content buffsz).rest ∧
      (readline content buffsz).writes = lineWrites (readline content buffsz).stored ∧
      Ends buffsz (readline content buffsz).stored (readline content buffsz).rest (readline content buffsz).ret := by
  obtain ⟨stored,rest,hsplit,-,hwrites,hrest,hends⟩ := @readlineLoop_cases buffsz content [] h
  have hstored : (readline content buffsz).stored = stored := stored_of_writes hwrites
  have hrest : (readline content buffsz).rest = rest := hrest
  rw [hstored,hrest]
  exact ⟨hsplit,hwrites,hends⟩

/-- The bytes are inside of the buffer if and only if they do not fill it. -/
theorem inside_iff (content : List UInt8) (h : 0 ≤ buffsz) :
    (∀ w ∈ (readline content buffsz).writes, (w.1 : ℤ) < buffsz) ↔
      ((readline content buffsz).stored.length : ℤ) < buffsz := by
  obtain ⟨-,hwrites,-⟩ := readline_cases content h
  rw [hwrites,lineWrites,lineWrites_concat]
  constructor
  · exact fun hall => hall _ (List.mem_append_right _ List.mem_cons_self)
  · intro hlen w hw
    rcases List.mem_append.mp hw with hw | hw
    · obtain ⟨v,hv,rfl⟩ := List.mem_map.mp hw
      have hv : v.2 < _ := List.snd_lt_of_mem_zipIdx hv
      rw [Prod.fst_swap]
      omega
    · rw [List.mem_singleton.mp hw]
      exact hlen

/-- Only the call that finds the stream empty does what its caller relies on. -/
theorem lawful_iff (content : List UInt8) (h : 1 ≤ buffsz) :
    Lawful content buffsz (readline content buffsz) ↔ content = [] := by
  obtain ⟨hsplit,hwrites,hends⟩ := readline_cases content (Int.le_of_lt h)
  constructor
  · intro hlawful
    by_contra hne
    have hcount := hlawful.counted
    have hin := (inside_iff content (Int.le_of_lt h)).mp hlawful.inside
    rw [if_neg hne] at hcount
    cases hends with
    | eof hret =>
      rw [hret,EOF] at hcount
      omega
    | newline hret => omega
    | full _ hlen => omega
  · rintro rfl
    obtain ⟨hnil,-⟩ := List.append_eq_nil_iff.mp hsplit.symm
    refine ⟨(inside_iff [] (Int.le_of_lt h)).mpr (by rw [hnil]; exact h),hwrites,?_⟩
    rw [if_pos rfl,readline,readlineLoop]
    exact congrArg Call.ret (if_pos h)

/-- The calls together store the stream, if what the last one stores is taken too. -/
theorem stored_all (h : 1 ≤ buffsz) {fuel : ℕ} (hfuel : content.length < fuel) :
    (contents buffsz fuel content).flatMap (fun before => (readline before buffsz).stored) = content := by
  induction fuel generalizing content with
  | zero => exact absurd hfuel (Nat.not_lt_zero _)
  | succ fuel ih =>
    obtain ⟨hsplit,-,hends⟩ := readline_cases content (Int.le_of_lt h)
    have hlength := congrArg List.length hsplit
    rw [List.length_append] at hlength
    rw [contents,List.flatMap_cons]
    by_cases hret : (readline content buffsz).ret = EOF
    · have hrest : (readline content buffsz).rest = [] := by
        cases hends with
        | eof _ hrest => exact hrest
        | newline hret' hlast =>
          -- a line with a newline has at least that byte
          rw [hret,EOF] at hret'
          have hnil : (readline content buffsz).stored = [] := List.length_eq_zero_iff.mp (by omega)
          rw [hnil] at hlast
          cases hlast
        | full hret' =>
          rw [hret,EOF] at hret'
          omega
      rw [if_pos hret,List.flatMap_nil,List.append_nil]
      rw [hrest,List.append_nil] at hsplit
      exact hsplit.symm
    · have hshorter : (readline content buffsz).rest.length < fuel := by
        cases hends with
        | eof hret' => exact absurd hret' hret
        | newline _ hlast =>
          cases hstored : (readline content buffsz).stored with
          | nil =>
            rw [hstored] at hlast
            cases hlast
          | cons c stored =>
            rw [hstored,List.length_cons] at hlength
            omega
        | full _ hlen => omega
      rw [if_neg hret,ih hshorter]
      exact hsplit.symm

/-- The stream is delivered as a caller relies on if and only if it is empty. -/
theorem delivers_iff (content : List UInt8) (buffsz : ℤ) (h : 1 ≤ buffsz) : Delivers content buffsz ↔ content = [] := by
  constructor
  · intro hdelivers
    exact (lawful_iff content h).mp (hdelivers.lawful content List.mem_cons_self)
  · rintro rfl
    have hlawful := (lawful_iff [] h).mpr rfl
    have hret : (readline [] buffsz).ret = EOF := hlawful.counted
    have hcontents : contents buffsz 1 [] = [[]] := by rw [contents,if_pos hret]
    refine ⟨?_,⟨[],List.mem_cons_self,hret⟩,?_⟩
    · rw [List.length_nil,hcontents]
      exact fun before hbefore => List.mem_singleton.mp hbefore ▸ hlawful
    · rw [List.length_nil,hcontents,List.flatMap_cons,List.flatMap_nil,if_pos hret]
      rfl

theorem delivers_iff_empty : Delivers [] 80 ↔ ([] : List UInt8) = [] := delivers_iff [] 80 (by decide)

/-- A letter is read to a buffer of one byte, and the terminator is put behind it. -/
theorem not_delivers : ¬ ∀ (content : List UInt8) (buffsz : ℤ), 1 ≤ buffsz → Delivers content buffsz := by
  intro h
  have hinside := ((h [97] 1 (by decide)).lawful [97] List.mem_cons_self).inside
  exact absurd (hinside (1,0) (by decide)) (by decide)

end Edelib.File
