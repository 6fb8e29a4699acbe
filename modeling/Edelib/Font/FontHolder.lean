import Edelib.Font.ParseFont
import Edelib.Foundation.Interned
import Mathlib.Data.List.Find

/-! # The numbers of the fonts

A face is looked for among the fonts that FLTK has, then among the names that are held, both without the blanks before
it, and is held, without the blanks around it, where it is not found. The number of a name that is held is its place.
-/
namespace Edelib.Font
open Foundation StrUtil

/-! ## Finding a font -/

structure FontInfo where
  face : List UInt8
  -- the first `nsizes` of the array
  sizes : List ℤ
  type : ℤ
deriving DecidableEq

abbrev FontDb := List UInt8 → Option FontInfo

def haveSize (fi : FontInfo) (sz : ℤ) : Bool := decide (sz ∈ fi.sizes)

/-- A comparison that ignores leading blanks finds no difference. -/
def strscmp (s1 s2 : List UInt8) : Bool := decide (strTrimleft s1 = strTrimleft s2)

structure Fltk (σ : Type) where
  getFont : σ → ℕ → List UInt8
  setFont : σ → ℕ → List UInt8 → σ
  getFont_setFont : ∀ s i name j, getFont (setFont s i name) j = if j = i then name else getFont s j

structure FontState (σ : Type) where
  staticFontNames : List (List UInt8)
  fltk : σ

structure FindCall where
  db : Option FontDb
  n : Option CString

def findInfo (call : FindCall) : Except ParseFault (Option (FontInfo × ℤ)) :=
  match call.db,call.n with
  | some db,some n => do
    match ← parseFont n faceLenWithSize with
    | none => .ok none
    | some (face,facesz) => .ok ((db (strTolower face)).map (fun fi => (fi,facesz)))
  | _,_ => .ok none

section Find
variable {σ : Type} (fltk : Fltk σ) (free : ℕ)

/-- The first of the fonts that FLTK has by itself which is like a face. -/
def slot (t : σ) (face : List UInt8) : Option ℕ := (List.range free).find? (fun i => strscmp face (fltk.getFont t i))

def register (s : FontState σ) (face : List UInt8) : ℕ × FontState σ :=
  -- first check if FLTK already has this font
  match slot fltk free s.fltk face with
  | some i => (i,s)
  | none =>
    -- now try to see if it exists in our static storage
    match s.staticFontNames.findIdx? (strscmp face) with
    | some i => (free + i,s)
    | none =>
      let sf := strTrim face
      let names := s.staticFontNames ++ [sf]
      let font := free + names.length - 1
      -- register it under this index
      (font,⟨names,fltk.setFont s.fltk font sf⟩)

def find (s : FontState σ) (call : FindCall) : Except ParseFault (Option (ℕ × ℤ) × FontState σ) := do
  match ← findInfo call with
  | none => .ok (none,s)
  | some (fi,facesz) =>
    if !haveSize fi facesz then .ok (none,s)
    else .ok (some ((register fltk free s fi.face).1,facesz),(register fltk free s fi.face).2)

/-- What a call did: the entry that it met, the number that it returned, and what is held then. -/
structure Outcome (σ : Type) where
  entry : Option FontInfo
  font : Option ℕ
  after : FontState σ

def run (s : FontState σ) : List FindCall → Except ParseFault (List (Outcome σ))
  | [] => .ok []
  | call :: calls => do
    let (found,s') ← find fltk free s call
    let info ← findInfo call
    let rest ← run s' calls
    .ok (⟨info.map Prod.fst,found.map Prod.fst,s'⟩ :: rest)

/-! ## What is promised -/

def Outcome.Gives (o : Outcome σ) (fi : FontInfo) (font : ℕ) : Prop := o.entry = some fi ∧ o.font = some font

/-- What is registered under a number is the face of the entry, and stays; an entry has one number, and entries with
different faces have different numbers. -/
structure Stable (trace : List (Outcome σ)) : Prop where
  faithful : ∀ o ∈ trace, ∀ fi font, o.Gives fi font → fltk.getFont o.after.fltk font = fi.face
  kept : trace.Pairwise (fun o p => ∀ fi font, o.Gives fi font →
    fltk.getFont p.after.fltk font = fltk.getFont o.after.fltk font)
  same : trace.Pairwise (fun o p => ∀ fi font font', o.Gives fi font → p.Gives fi font' → font = font')
  apart : trace.Pairwise (fun o p => ∀ fi fi' font font', o.Gives fi font → p.Gives fi' font' → fi.face ≠ fi'.face →
    font ≠ font')

/-- The first font of FLTK that is like a face is the face; where there is none, no blank is around the face. -/
def Exact (t : σ) (face : List UInt8) : Prop :=
  (slot fltk free t face).elim (Trimmed face) (fun i => fltk.getFont t i = face)

/-! ## What is held -/

/-- What FLTK had is there as it was, and what is held is trimmed and registered at its place. -/
structure Holds (t : σ) (s : FontState σ) : Prop where
  slots : ∀ i < free, fltk.getFont s.fltk i = fltk.getFont t i
  named : ∀ i name, s.staticFontNames[i]? = some name → fltk.getFont s.fltk (free + i) = name
  trimmed : ∀ name ∈ s.staticFontNames, Trimmed name

variable {fltk free} {t : σ} {s s' : FontState σ} {face : List UInt8}

theorem Holds.slot_eq (h : Holds fltk free t s) (face : List UInt8) :
    slot fltk free s.fltk face = slot fltk free t face := by
  unfold slot
  refine List.find?_congr (fun i hi => ?_)
  rw [h.slots i (List.mem_range.mp hi)]

/-- What is under a number stays while what is held grows. -/
theorem Holds.getFont_eq (h : Holds fltk free t s) (h' : Holds fltk free t s')
    (hle : s.staticFontNames <+: s'.staticFontNames) {font : ℕ} (hlt : font < free + s.staticFontNames.length) :
    fltk.getFont s'.fltk font = fltk.getFont s.fltk font := by
  by_cases hfree : font < free
  · rw [h.slots font hfree,h'.slots font hfree]
  · obtain ⟨i,rfl⟩ := Nat.exists_eq_add_of_le (Nat.le_of_not_lt hfree)
    have hname := List.getElem?_eq_getElem (l := s.staticFontNames) (show i < s.staticFontNames.length by omega)
    rw [h.named i _ hname,h'.named i _ (List.prefix_iff_getElem?.mp hle i (by omega))]

theorem slot_lt {i : ℕ} (h : slot fltk free t face = some i) : i < free :=
  List.mem_range.mp (List.mem_of_find?_eq_some h)

theorem register_of_slot {i : ℕ} (h : slot fltk free s.fltk face = some i) : register fltk free s face = (i,s) := by
  rw [register,h]

/-- Beyond the fonts of FLTK a face is interned. -/
theorem register_of_none (h : slot fltk free s.fltk face = none) : register fltk free s face =
    (free + (Interned.intern strTrimleft strTrim s.staticFontNames face).1,
      if Interned.place strTrimleft s.staticFontNames face = none then
        ⟨s.staticFontNames ++ [strTrim face],fltk.setFont s.fltk (free + s.staticFontNames.length) (strTrim face)⟩
      else s) := by
  rw [register,h,Interned.intern]
  change (match Interned.place strTrimleft s.staticFontNames face with | some i => _ | none => _) = _
  cases Interned.place strTrimleft s.staticFontNames face with
  | some i => rfl
  | none =>
    dsimp only
    rw [if_pos rfl,List.length_append,List.length_singleton,← Nat.add_assoc,Nat.add_sub_cancel]

theorem names_register (h : slot fltk free s.fltk face = none) : (register fltk free s face).2.staticFontNames =
    (Interned.intern strTrimleft strTrim s.staticFontNames face).2 := by
  rw [register_of_none h,Interned.intern]
  cases Interned.place strTrimleft s.staticFontNames face with
  | some i => rfl
  | none => rfl

/-- A name that is taken up is registered behind the others. -/
theorem Holds.snoc (h : Holds fltk free t s) {name : List UInt8} (hname : Trimmed name) :
    Holds fltk free t ⟨s.staticFontNames ++ [name],fltk.setFont s.fltk (free + s.staticFontNames.length) name⟩ := by
  constructor
  · intro i hi
    rw [fltk.getFont_setFont,if_neg (by omega),h.slots i hi]
  · intro i n hn
    dsimp only at hn
    rw [fltk.getFont_setFont]
    by_cases hlast : i = s.staticFontNames.length
    · rw [hlast,List.getElem?_concat_length] at hn
      rw [if_pos (by omega)]
      exact Option.some.inj hn
    · have hlt := (List.getElem?_eq_some_iff.mp hn).1
      rw [List.length_append,List.length_singleton] at hlt
      rw [List.getElem?_append_left (by omega)] at hn
      rw [if_neg (by omega),h.named i n hn]
  · intro n hn
    obtain hn | hn := List.mem_append.mp hn
    · exact h.trimmed n hn
    · obtain rfl := List.mem_singleton.mp hn
      exact hname

theorem Holds.register (h : Holds fltk free t s) (face : List UInt8) :
    Holds fltk free t (register fltk free s face).2 := by
  cases hslot : slot fltk free s.fltk face with
  | some i =>
    rw [register_of_slot hslot]
    exact h
  | none =>
    rw [register_of_none hslot]
    dsimp only
    split_ifs
    · exact h.snoc (trimmed_strTrim face)
    · exact h

variable (fltk free t)

def numberOf (names : List (List UInt8)) (face : List UInt8) : Option ℕ :=
  (slot fltk free t face).or ((Interned.place strTrimleft names face).map (fun i => free + i))

/-- What comes of a face: its number is that of what is held, which is the face if and only if it is exact, and it is
the one that it had. -/
structure Registered (names : List (List UInt8)) (face : List UInt8) (font : ℕ) (s' : FontState σ) : Prop where
  grows : names <+: s'.staticFontNames
  lt : font < free + s'.staticFontNames.length
  faithful : fltk.getFont s'.fltk font = face ↔ Exact fltk free t face
  numbered : Exact fltk free t face → numberOf fltk free t s'.staticFontNames face = some font
  found : ∀ i, numberOf fltk free t names face = some i → font = i

variable {fltk free t}

theorem Holds.registered (h : Holds fltk free t s) (face : List UInt8) :
    Registered fltk free t s.staticFontNames face (Font.register fltk free s face).1
      (Font.register fltk free s face).2 := by
  have hnext := h.register face
  cases hslot : slot fltk free t face with
  | some i =>
    rw [register_of_slot ((h.slot_eq face).trans hslot)] at hnext ⊢
    have hlt := slot_lt hslot
    refine ⟨List.prefix_refl _,Nat.lt_add_right _ hlt,?_,fun _ => ?_,fun j hj => ?_⟩
    · rw [h.slots i hlt,Exact,hslot]
      rfl
    · rw [numberOf,hslot]
      rfl
    · rw [numberOf,hslot] at hj
      exact Option.some.inj hj
  | none =>
    have hnone := (h.slot_eq face).trans hslot
    have hnames := names_register hnone
    have hexact : Exact fltk free t face ↔ Trimmed face := by
      rw [Exact,hslot]
      rfl
    have hfont : (Font.register fltk free s face).1 =
        free + (Interned.intern strTrimleft strTrim s.staticFontNames face).1 := by rw [register_of_none hnone]
    obtain ⟨n,hn,hname⟩ := Interned.getElem_intern strTrimleft strTrim s.staticFontNames face
    rw [← hnames] at hn
    refine ⟨?_,?_,?_,fun htrimmed => ?_,fun j hj => ?_⟩
    · rw [hnames]
      exact Interned.prefix_intern _ _ _ _
    · rw [hfont]
      exact Nat.add_lt_add_left (List.getElem?_eq_some_iff.mp hn).1 free
    · rw [hexact,hfont,hnext.named _ n hn]
      obtain ⟨hkey,hmem⟩ | rfl := hname
      · have htrimmed := h.trimmed n hmem
        rw [strTrimleft_of_trimmed htrimmed] at hkey
        constructor
        · rintro rfl
          exact htrimmed
        · exact fun hface => hkey.symm.trans (strTrimleft_of_trimmed hface)
      · exact Iff.rfl
    · have hface : strTrim face = face := hexact.mp htrimmed
      rw [numberOf,hslot,hnames,Interned.place_intern s.staticFontNames (congrArg strTrimleft hface),hfont]
      rfl
    · rw [numberOf,hslot,Option.none_or,Option.map_eq_some_iff] at hj
      obtain ⟨i,hplace,rfl⟩ := hj
      rw [hfont,Interned.intern,hplace]

/-- A number that a face has stays its number. -/
theorem numberOf_of_begins {names names' : List (List UInt8)} (hle : names <+: names') {font : ℕ}
    (h : numberOf fltk free t names face = some font) : numberOf fltk free t names' face = some font := by
  rw [numberOf] at h ⊢
  cases hslot : slot fltk free t face with
  | some i =>
    rw [hslot] at h
    exact h
  | none =>
    rw [hslot,Option.none_or,Option.map_eq_some_iff] at h
    obtain ⟨i,hplace,rfl⟩ := h
    rw [Option.none_or,Interned.place_of_prefix hle hplace]
    rfl

/-! ## Runs -/

/-- What a call does: either it finds no entry with the size and leaves what is held, or it registers the face. -/
theorem find_eq_ok {call : FindCall} {found : Option (ℕ × ℤ)} (h : find fltk free s call = .ok (found,s')) :
    ∃ info, findInfo call = .ok info ∧
      (found = none ∧ s' = s ∧ (∀ fi facesz, info = some (fi,facesz) → haveSize fi facesz = false) ∨
      ∃ fi facesz, info = some (fi,facesz) ∧ haveSize fi facesz = true ∧
        found = some ((register fltk free s fi.face).1,facesz) ∧ s' = (register fltk free s fi.face).2) := by
  unfold find at h
  cases hinfo : findInfo call with
  | error e =>
    rw [hinfo] at h
    cases h
  | ok info =>
    refine ⟨info,rfl,?_⟩
    rw [hinfo] at h
    cases info with
    | none =>
      obtain ⟨rfl,rfl⟩ := Prod.mk.inj (Except.ok.inj h)
      exact .inl ⟨rfl,rfl,fun fi facesz heq => absurd heq (Option.some_ne_none _).symm⟩
    | some entry =>
      obtain ⟨fi,facesz⟩ := entry
      change (if (!haveSize fi facesz) = true then _ else _) = _ at h
      cases hsize : haveSize fi facesz with
      | false =>
        rw [hsize,Bool.not_false,if_pos rfl] at h
        obtain ⟨rfl,rfl⟩ := Prod.mk.inj (Except.ok.inj h)
        refine .inl ⟨rfl,rfl,fun fi' facesz' heq => ?_⟩
        obtain ⟨rfl,rfl⟩ := Prod.mk.inj (Option.some.inj heq)
        exact hsize
      | true =>
        rw [hsize,Bool.not_true,if_neg Bool.false_ne_true] at h
        obtain ⟨rfl,rfl⟩ := Prod.mk.inj (Except.ok.inj h)
        exact .inr ⟨fi,facesz,rfl,hsize,rfl,rfl⟩

/-- A run is a call, and the run of the others from what is held then. -/
theorem run_cons {call : FindCall} {calls : List FindCall} {trace : List (Outcome σ)}
    (h : run fltk free s (call :: calls) = .ok trace) : ∃ found s' info rest, find fltk free s call = .ok (found,s') ∧
      findInfo call = .ok info ∧ run fltk free s' calls = .ok rest ∧
      trace = ⟨info.map Prod.fst,found.map Prod.fst,s'⟩ :: rest := by
  rw [run] at h
  cases hfind : find fltk free s call with
  | error e =>
    rw [hfind] at h
    cases h
  | ok next =>
    obtain ⟨found,s'⟩ := next
    obtain ⟨info,hinfo,-⟩ := find_eq_ok hfind
    rw [hfind,hinfo] at h
    change Except.bind (run fltk free s' calls) _ = _ at h
    cases hrest : run fltk free s' calls with
    | error e =>
      rw [hrest] at h
      cases h
    | ok rest =>
      rw [hrest] at h
      exact ⟨found,s',info,rest,rfl,hinfo,hrest,(Except.ok.inj h).symm⟩

variable (fltk free t) in
/-- What is known of a call of a run, by the names that are held before some calls. -/
structure Known (names : List (List UInt8)) (o : Outcome σ) : Prop where
  holds : Holds fltk free t o.after
  grows : names <+: o.after.staticFontNames
  gives : ∀ fi font, o.Gives fi font → Registered fltk free t names fi.face font o.after

theorem Known.of_begins {names names' : List (List UInt8)} {o : Outcome σ} (h : Known fltk free t names' o)
    (hle : names <+: names') : Known fltk free t names o := by
  refine ⟨h.holds,hle.trans h.grows,fun fi font hgives => ?_⟩
  have hfont := h.gives fi font hgives
  exact ⟨hle.trans hfont.grows,hfont.lt,hfont.faithful,hfont.numbered,
    fun i hi => hfont.found i (numberOf_of_begins hle hi)⟩

/-- A call is known by the names that are held before it, and leaves what is held. -/
theorem Holds.find (h : Holds fltk free t s) {call : FindCall} {found : Option (ℕ × ℤ)}
    {info : Option (FontInfo × ℤ)} (hfind : Font.find fltk free s call = .ok (found,s'))
    (hinfo : findInfo call = .ok info) :
    Known fltk free t s.staticFontNames ⟨info.map Prod.fst,found.map Prod.fst,s'⟩ := by
  obtain ⟨info',hinfo',hcase⟩ := find_eq_ok hfind
  rw [hinfo] at hinfo'
  obtain rfl := Except.ok.inj hinfo'
  obtain ⟨rfl,rfl,-⟩ | ⟨fi,facesz,rfl,-,rfl,rfl⟩ := hcase
  · exact ⟨h,List.prefix_refl _,fun fi font hgives => absurd hgives.2 (Option.some_ne_none _).symm⟩
  · have hregistered := h.registered fi.face
    refine ⟨h.register fi.face,hregistered.grows,fun fi' font hgives => ?_⟩
    obtain rfl := Option.some.inj hgives.1
    obtain rfl := Option.some.inj hgives.2
    exact hregistered

/-- Every call of a run is known, by the names that are held before the run and by those after each call before it. -/
theorem Holds.run (h : Holds fltk free t s) {calls : List FindCall} {trace : List (Outcome σ)}
    (hrun : Font.run fltk free s calls = .ok trace) : (∀ o ∈ trace, Known fltk free t s.staticFontNames o) ∧
      trace.Pairwise (fun o p => Known fltk free t o.after.staticFontNames p) := by
  induction calls generalizing s trace with
  | nil =>
    obtain rfl := Except.ok.inj hrun
    exact ⟨fun o ho => absurd ho List.not_mem_nil,List.Pairwise.nil⟩
  | cons call calls ih =>
    obtain ⟨found,s',info,rest,hfind,hinfo,hrest,rfl⟩ := run_cons hrun
    have hknown := h.find hfind hinfo
    obtain ⟨hmem,hpairs⟩ := ih hknown.holds hrest
    refine ⟨fun o ho => ?_,List.Pairwise.cons hmem hpairs⟩
    obtain rfl | ho := List.mem_cons.mp ho
    · exact hknown
    · exact (hmem o ho).of_begins hknown.grows

/-- The entries that the calls of a run meet are those of the calls. -/
theorem gives_iff {calls : List FindCall} {trace : List (Outcome σ)} (hrun : run fltk free s calls = .ok trace)
    {P : FontInfo → Prop} : (∀ o ∈ trace, ∀ fi font, o.Gives fi font → P fi) ↔
      ∀ call ∈ calls, ∀ fi facesz, findInfo call = .ok (some (fi,facesz)) → haveSize fi facesz = true → P fi := by
  induction calls generalizing s trace with
  | nil =>
    obtain rfl := Except.ok.inj hrun
    exact iff_of_true (fun o ho => absurd ho List.not_mem_nil) (fun call hcall => absurd hcall List.not_mem_nil)
  | cons call calls ih =>
    obtain ⟨found,s',info,rest,hfind,hinfo,hrest,rfl⟩ := run_cons hrun
    rw [List.forall_mem_cons,List.forall_mem_cons,ih hrest]
    refine and_congr_left (fun _ => ?_)
    obtain ⟨info',hinfo',hcase⟩ := find_eq_ok hfind
    rw [hinfo] at hinfo' ⊢
    obtain rfl := Except.ok.inj hinfo'
    obtain ⟨rfl,rfl,hnone⟩ | ⟨fi,facesz,rfl,hsize,rfl,rfl⟩ := hcase
    · constructor
      · intro _ fi facesz hentry hsize
        rw [hnone fi facesz (Except.ok.inj hentry)] at hsize
        exact absurd hsize Bool.false_ne_true
      · exact fun _ fi font hgives => absurd hgives.2 (Option.some_ne_none _).symm
    · constructor
      · intro hP fi' facesz' hentry _
        obtain ⟨rfl,rfl⟩ := Prod.mk.inj (Option.some.inj (Except.ok.inj hentry))
        exact hP fi _ ⟨rfl,rfl⟩
      · intro hP fi' font hgives
        obtain rfl := Option.some.inj hgives.1
        exact hP fi facesz rfl hsize

/-- A run keeps what is promised exactly where the face of each entry that its calls find is exact. -/
theorem stable_iff {calls : List FindCall} {trace : List (Outcome σ)} (hrun : run fltk free ⟨[],t⟩ calls = .ok trace) :
    Stable fltk trace ↔ ∀ call ∈ calls, ∀ fi facesz, findInfo call = .ok (some (fi,facesz)) →
      haveSize fi facesz = true → Exact fltk free t fi.face := by
  have hnew : Holds fltk free t ⟨[],t⟩ :=
    ⟨fun i _ => rfl,fun i name hname => absurd hname (Option.some_ne_none _).symm,fun name hname => absurd hname List.not_mem_nil⟩
  obtain ⟨hmem,hpairs⟩ := hnew.run hrun
  rw [← gives_iff hrun]
  constructor
  · exact fun hstable o ho fi font hgives => ((hmem o ho).gives fi font hgives).faithful.mp (hstable.faithful o ho fi font hgives)
  · intro hexact
    have hfaithful : ∀ o ∈ trace, ∀ fi font, o.Gives fi font → fltk.getFont o.after.fltk font = fi.face :=
      fun o ho fi font hgives => ((hmem o ho).gives fi font hgives).faithful.mpr (hexact o ho fi font hgives)
    have hkept : trace.Pairwise (fun o p => ∀ fi font, o.Gives fi font →
        fltk.getFont p.after.fltk font = fltk.getFont o.after.fltk font) := by
      refine hpairs.imp_of_mem (fun ho _ hknown fi font hgives => ?_)
      exact (hmem _ ho).holds.getFont_eq hknown.holds hknown.grows ((hmem _ ho).gives fi font hgives).lt
    refine ⟨hfaithful,hkept,?_,?_⟩
    · refine hpairs.imp_of_mem (fun ho _ hknown fi font font' hgives hgives' => ?_)
      have hnumber := ((hmem _ ho).gives fi font hgives).numbered (hexact _ ho fi font hgives)
      exact ((hknown.gives fi font' hgives').found font hnumber).symm
    · refine hkept.imp_of_mem (fun ho hp hkeeps fi fi' font font' hgives hgives' hne heq => hne ?_)
      rw [← hfaithful _ ho fi font hgives,← hfaithful _ hp fi' font' hgives',← hkeeps fi font hgives,heq]

end Find

/-! ## A table -/

def fontTable : Fltk (ℕ → List UInt8) where
  getFont t i := t i
  setFont t i name j := if j = i then name else t j
  getFont_setFont _ _ _ _ := rfl

def callFor (face : List UInt8) : FindCall :=
  ⟨some (fun key => if key = [97] then some ⟨face,[12],0⟩ else none),some ⟨[65,32,49,50],by decide⟩⟩

theorem stable_iff_one : ∃ trace, run fontTable 16 ⟨[],fun _ => [32,115]⟩ [callFor [66]] = .ok trace ∧
    (Stable fontTable trace ↔ ∀ call ∈ [callFor [66]], ∀ fi facesz, findInfo call = .ok (some (fi,facesz)) →
      haveSize fi facesz = true → Exact fontTable 16 (fun _ => [32,115]) fi.face) :=
  ⟨_,rfl,stable_iff rfl⟩

/-- The blank before the face is not registered. -/
theorem not_stable : ¬ ∀ calls trace, run fontTable 16 ⟨[],fun _ => [32,115]⟩ calls = .ok trace → Stable fontTable trace := by
  intro h
  have hstable := h [callFor [32,66]] _ rfl
  have hface := hstable.faithful _ List.mem_cons_self ⟨[32,66],[12],0⟩ 16 ⟨rfl,rfl⟩
  exact absurd hface (by decide)

end Edelib.Font
