import Edelib.Foundation.CString
import Edelib.Foundation.Observed
import Edelib.Foundation.Transition

/-! # The MIME type of a file

The type is looked up when a file is set; its comment and its icon are looked up when they are asked
for, and then kept. The lookups are those of another library, and the same throughout.
-/
namespace Edelib.Mime
open Foundation

inductive XmlNode
  | element (value : CString) (hasLang : Bool) (firstChild : Option (Option CString))
  | other (value : CString)

def XmlNode.value : XmlNode → CString
  | element value _ _ => value
  | other value => value

/-- The lookups, and the documents: one may be malformed, or be without the element that is looked for. -/
structure MimeEnv where
  typeForFile : CString → Option CString
  findData : CString → Option CString
  loadFile : CString → Option (Option (List XmlNode))
  getIcon : CString → Option CString

structure Status where
  mime : Bool
  comment : Bool
  icon : Bool
deriving DecidableEq

structure MimeType where
  status : Status
  mtype : CString
  mcmt : CString
  micon : CString
deriving DecidableEq

def MimeType.initial : MimeType := ⟨⟨false,false,false⟩,.empty,.empty,.empty⟩

variable (env : MimeEnv)

/-! ## The members -/

def set (s : MimeType) (filename : CString) : Bool × MimeType :=
  if s.mtype = filename then (true,s)
  else
    match env.typeForFile filename with
    | none => (false,⟨⟨false,false,false⟩,.empty,.empty,.empty⟩)
    | some res => (true,⟨⟨true,false,false⟩,res,.empty,.empty⟩)

/-- `"comment"` -/
def commentTag : CString := ⟨[99,111,109,109,101,110,116],by decide⟩

/-- `".xml"` -/
def xmlExt : CString := ⟨[46,120,109,108],by decide⟩

/-- What the loop over the nodes has found; to ask a missing node for something is a fault. -/
def commentLoop : List XmlNode → Option (Option CString)
  | [] => some none
  | el :: els =>
    if el.value.strncmp commentTag 7 = 0 then
      match el with
      | .other _ => none
      | .element _ true _ => commentLoop els
      | .element _ false none => none
      | .element _ false (some none) => commentLoop els
      | .element _ false (some (some data)) => some (some data)
    else commentLoop els

def fromElement : List XmlNode → List XmlNode
  | [] => []
  | .other _ :: els => fromElement els
  | .element value hasLang child :: els => .element value hasLang child :: els

inductive CommentRead
  | fault
  | unavailable
  | read (comment : Option CString)

def readComment (mtype : CString) : CommentRead :=
  match env.findData (mtype ++ xmlExt) with
  | none => .unavailable
  | some path =>
    match env.loadFile path with
    | none => .unavailable
    | some none => .fault
    | some (some nodes) =>
      match commentLoop (fromElement nodes) with
      | none => .fault
      | some comment => .read comment

def comment (s : MimeType) : Option (CString × MimeType) :=
  if s.status.mime = false then some (s.mcmt,s)
  else if s.status.comment then some (s.mcmt,s)
  else
    match readComment env s.mtype with
    | .fault => none
    | .unavailable => some (s.mcmt,s)
    | .read comment =>
      let mcmt := comment.getD s.mcmt
      some (mcmt,{ s with mcmt, status := { s.status with comment := true } })

/-- `"inode"` -/
def inode : CString := ⟨[105,110,111,100,101],by decide⟩

/-- `"directory"` -/
def directory : CString := ⟨[100,105,114,101,99,116,111,114,121],by decide⟩

/-- `"folder"` -/
def folder : CString := ⟨[102,111,108,100,101,114],by decide⟩

def themeIcon (mtype : CString) : Option CString :=
  (mtype.bytes.idxOf? 47).map fun pos =>
    if mtype.bytes.take pos = inode.bytes then
      let micon := CString.ofBuf (mtype.bytes.drop (pos + 1))
      if micon = directory then folder else micon
    else CString.ofBuf (mtype.bytes.set pos 45)

def iconName (s : MimeType) : CString × MimeType :=
  if s.status.mime = false ∧ s.mtype = .empty then (s.micon,s)
  else if s.status.icon then (s.micon,s)
  else
    match env.getIcon s.mtype with
    | some ic => (ic,{ s with micon := ic, status := { s.status with icon := true } })
    | none =>
      match themeIcon s.mtype with
      | none => (.empty,{ s with micon := .empty })
      | some micon => (micon,{ s with micon, status := { s.status with icon := true } })

/-! ## Runs -/

inductive Query
  | type
  | comment
  | iconName

def ask : Query → MimeType → Option (CString × MimeType)
  | .type,s => some (s.mtype,s)
  | .comment,s => comment env s
  | .iconName,s => some (iconName env s)

inductive Call
  | set (filename : CString)
  | query (q : Query)

def step (s : MimeType) : Call → Option MimeType
  | .set filename => some (set env s filename).2
  | .query q => (ask env q s).map Prod.snd

/-- The result and all that can be asked afterwards are as with a new object. -/
def SameAsFresh (s : MimeType) (filename : CString) : Prop :=
  (set env s filename).1 = (set env .initial filename).1 ∧
  ∀ queries, Observed.observe (ask env) (set env s filename).2 queries =
    Observed.observe (ask env) (set env .initial filename).2 queries

def Lawful (s : MimeType) : Call → Prop
  | .set filename => SameAsFresh env s filename
  | .query _ => True

/-! ## What is answered -/

def commentOf (mtype : CString) : Option CString :=
  match readComment env mtype with
  | .fault => none
  | .unavailable => some .empty
  | .read comment => some (comment.getD .empty)

def iconOf (mtype : CString) : CString := ((env.getIcon mtype).or (themeIcon mtype)).getD .empty

/-- The type without a name has no comment and no icon. -/
def Blank : Prop := commentOf env .empty = some .empty ∧ iconOf env .empty = .empty

/-- A file that is named as the type kept is of that type; with no name nothing else must be known. -/
def CallWhen (s : MimeType) : Call → Prop
  | .set filename =>
    if filename = .empty then
      if s.mtype = .empty then s.status.mime = true → Blank env
      else env.typeForFile .empty = some .empty ∧ Blank env
    else s.mtype = filename → env.typeForFile filename = some filename
  | .query _ => True

def answers (mtype : CString) : Query → Option CString
  | .type => some mtype
  | .comment => commentOf env mtype
  | .iconName => some (iconOf env mtype)

def noAnswers (_ : Query) : Option CString := some .empty

structure Loaded (mtype : CString) (s : MimeType) : Prop where
  mime : s.status.mime = true
  type_eq : s.mtype = mtype
  comment_eq : if s.status.comment then commentOf env mtype = some s.mcmt else s.mcmt = .empty
  icon_eq : if s.status.icon then s.micon = iconOf env mtype else s.micon = .empty

def Consistent (s : MimeType) : Prop := s = .initial ∨ ∃ mtype, Loaded env mtype s

variable {env}

theorem loaded_new (mtype : CString) : Loaded env mtype ⟨⟨true,false,false⟩,mtype,.empty,.empty⟩ := ⟨rfl,rfl,rfl,rfl⟩

theorem comment_loaded {mtype : CString} {s : MimeType} (h : Loaded env mtype s) :
    (commentOf env mtype = none → comment env s = none) ∧
    ∀ a, commentOf env mtype = some a → ∃ s', comment env s = some (a,s') ∧ Loaded env mtype s' := by
  have hcomment := h.comment_eq
  rw [comment,if_neg (by rw [h.mime]; exact Bool.noConfusion)]
  split_ifs at hcomment with hbit
  · rw [if_pos hbit,hcomment]
    refine ⟨fun hnone => (by cases hnone),fun a ha => ?_⟩
    cases ha
    exact ⟨s,rfl,h⟩
  · rw [if_neg hbit,h.type_eq,commentOf,hcomment]
    cases hread : readComment env mtype with
    | fault => exact ⟨fun _ => rfl,fun a ha => (by cases ha)⟩
    | unavailable =>
      refine ⟨fun hnone => (by cases hnone),fun a ha => ?_⟩
      cases ha
      exact ⟨s,rfl,h⟩
    | read found =>
      refine ⟨fun hnone => (by cases hnone),fun a ha => ?_⟩
      cases ha
      refine ⟨_,rfl,h.mime,rfl,?_,h.icon_eq⟩
      change (if true = true then _ else _)
      rw [if_pos rfl,commentOf,hread]

theorem iconName_loaded {mtype : CString} {s : MimeType} (h : Loaded env mtype s) :
    ∃ s', iconName env s = (iconOf env mtype,s') ∧ Loaded env mtype s' := by
  have hicon := h.icon_eq
  have hmime : ¬ (s.status.mime = false ∧ s.mtype = .empty) := fun hs => absurd (h.mime.symm.trans hs.1) (by decide)
  rw [iconName,if_neg hmime]
  split_ifs at hicon with hbit
  · rw [if_pos hbit,hicon]
    exact ⟨s,rfl,h⟩
  · rw [if_neg hbit,h.type_eq]
    cases hget : env.getIcon mtype with
    | some ic =>
      have hof : iconOf env mtype = ic := by rw [iconOf,hget]; rfl
      rw [hof]
      refine ⟨_,rfl,h.mime,rfl,h.comment_eq,?_⟩
      exact hof.symm
    | none =>
      cases htheme : themeIcon mtype with
      | none =>
        have hof : iconOf env mtype = .empty := by rw [iconOf,hget,htheme]; rfl
        rw [hof]
        refine ⟨_,rfl,h.mime,rfl,h.comment_eq,?_⟩
        change (if s.status.icon = true then _ else _)
        rw [if_neg hbit]
      | some micon =>
        have hof : iconOf env mtype = micon := by rw [iconOf,hget,htheme]; rfl
        rw [hof]
        refine ⟨_,rfl,h.mime,rfl,h.comment_eq,?_⟩
        exact hof.symm

/-- An object answers for its type, whatever it has kept. -/
theorem answered_loaded (mtype : CString) : Observed.Answered (ask env) (Loaded env mtype) (answers env mtype) := by
  constructor
  · intro s q hs hq
    cases q with
    | type => cases hq
    | comment => exact (comment_loaded hs).1 hq
    | iconName => cases hq
  · intro s q a hs hq
    cases q with
    | type =>
      cases hq
      exact ⟨s,by rw [ask,hs.type_eq],hs⟩
    | comment => exact (comment_loaded hs).2 a hq
    | iconName =>
      cases hq
      obtain ⟨s',hs',hloaded⟩ := iconName_loaded hs
      exact ⟨s',by rw [ask,hs'],hloaded⟩

theorem answered_initial : Observed.Answered (ask env) (· = .initial) noAnswers := by
  constructor
  · intro s q hs hq
    cases hq
  · intro s q a hs hq
    cases hq
    subst hs
    cases q <;> exact ⟨.initial,rfl,rfl⟩

/-! ## Objects that cannot be told apart -/

theorem same_loaded {m m' : CString} {s t : MimeType} (hs : Loaded env m s) (ht : Loaded env m' t) :
    (∀ qs, Observed.observe (ask env) s qs = Observed.observe (ask env) t qs) ↔ m = m' := by
  rw [(answered_loaded m).observe_iff (answered_loaded m') hs ht]
  constructor
  · intro h
    exact Option.some.inj (h .type)
  · rintro rfl q
    rfl

theorem same_initial {m : CString} {s : MimeType} (hs : Loaded env m s) :
    (∀ qs, Observed.observe (ask env) s qs = Observed.observe (ask env) .initial qs) ↔ m = .empty ∧ Blank env := by
  rw [(answered_loaded m).observe_iff answered_initial hs rfl]
  constructor
  · intro h
    obtain rfl : m = .empty := Option.some.inj (h .type)
    exact ⟨rfl,h .comment,Option.some.inj (h .iconName)⟩
  · rintro ⟨rfl,hcomment,hicon⟩ q
    cases q with
    | type => rfl
    | comment => exact hcomment
    | iconName => exact congrArg some hicon

theorem set_of_ne {s : MimeType} {filename : CString} (h : s.mtype ≠ filename) : set env s filename =
    match env.typeForFile filename with
    | none => (false,.initial)
    | some res => (true,⟨⟨true,false,false⟩,res,.empty,.empty⟩) := if_neg h

theorem lawful_iff {s : MimeType} (hs : Consistent env s) (call : Call) : Lawful env s call ↔ CallWhen env s call := by
  cases call with
  | query q => exact Iff.rfl
  | set filename =>
    rw [Lawful,CallWhen,SameAsFresh]
    by_cases hempty : filename = .empty
    · subst hempty
      have hfresh : set env .initial .empty = (true,.initial) := rfl
      rw [if_pos rfl,hfresh]
      by_cases hmtype : s.mtype = .empty
      · rw [if_pos hmtype,set,if_pos hmtype]
        rcases hs with rfl | ⟨m,hm⟩
        · exact iff_of_true ⟨rfl,fun _ => rfl⟩ (fun h => by cases h)
        · rw [same_initial hm,hm.mime,← hm.type_eq]
          simp only [hmtype,true_and,forall_const]
      · rw [if_neg hmtype,set_of_ne hmtype]
        cases hlookup : env.typeForFile .empty with
        | none => exact iff_of_false (fun h => by cases h.1) (fun h => by cases h.1)
        | some res =>
          dsimp only
          rw [same_initial (loaded_new res),Option.some_inj]
          exact and_iff_right rfl
    · have hfresh : MimeType.initial.mtype ≠ filename := fun he => hempty he.symm
      rw [if_neg hempty,set_of_ne hfresh]
      by_cases hmtype : s.mtype = filename
      · rw [set,if_pos hmtype]
        rcases hs with rfl | ⟨m,hm⟩
        · exact absurd hmtype.symm hempty
        · obtain rfl : m = filename := hm.type_eq.symm.trans hmtype
          cases hlookup : env.typeForFile m with
          | none => exact iff_of_false (fun h => by cases h.1) (fun h => by cases h hmtype)
          | some res =>
            dsimp only
            rw [same_loaded hm (loaded_new res),and_iff_right rfl,Option.some_inj]
            exact ⟨fun h _ => h.symm,fun h => (h hmtype).symm⟩
      · rw [set_of_ne hmtype]
        exact iff_of_true ⟨rfl,fun _ => rfl⟩ (fun h => absurd h hmtype)

theorem consistent_step {s s' : MimeType} (hs : Consistent env s) {call : Call} (h : step env s call = some s') :
    Consistent env s' := by
  cases call with
  | set filename =>
    obtain rfl : (set env s filename).2 = s' := Option.some.inj h
    rw [set]
    split_ifs with hmtype
    · exact hs
    · cases env.typeForFile filename with
      | none => exact Or.inl rfl
      | some res => exact Or.inr ⟨res,loaded_new res⟩
  | query q =>
    obtain ⟨⟨a,t⟩,hask,rfl⟩ := Option.map_eq_some_iff.mp h
    rcases hs with rfl | ⟨m,hm⟩
    · obtain ⟨t',ht',hinitial⟩ := answered_initial.gives .initial q .empty rfl rfl
      cases hask.symm.trans ht'
      exact Or.inl hinitial
    · cases hq : answers env m q with
      | none =>
        rw [(answered_loaded m).faults s q hm hq] at hask
        cases hask
      | some b =>
        obtain ⟨t',ht',hloaded⟩ := (answered_loaded m).gives s q b hm hq
        cases hask.symm.trans ht'
        exact Or.inr ⟨m,hloaded⟩

/-- An object forgets what was set before iff no call of the run is taken for one on the same file wrongly. -/
theorem run_sameAsFresh_iff (env : MimeEnv) (calls : List Call) :
    Transition.Along (step env) (Lawful env) .initial calls ↔
    Transition.Along (step env) (CallWhen env) .initial calls :=
  Transition.along_iff (fun _ call hs => lawful_iff hs call) (fun _ _ _ hs _ h => consistent_step hs h) (Or.inl rfl)

/-- The file `a` is of the type `b`, and the file `b` of the type `c`. -/
def chainEnv : MimeEnv where
  typeForFile f := if f.bytes = [97] then some (.ofBuf [98]) else some (.ofBuf [99])
  findData _ := none
  loadFile _ := none
  getIcon _ := none

theorem not_run_sameAsFresh : ¬ ∀ (env : MimeEnv) (calls : List Call),
    Transition.Along (step env) (Lawful env) .initial calls := by
  intro h
  have hlast := (h chainEnv ([.set ⟨[97],by decide⟩] ++ [.set ⟨[98],by decide⟩])).last rfl
  have hwhen := (lawful_iff (Or.inr ⟨_,loaded_new _⟩) _).mp hlast
  rw [CallWhen,if_neg (by decide)] at hwhen
  exact absurd (hwhen rfl) (by decide)

end Edelib.Mime
