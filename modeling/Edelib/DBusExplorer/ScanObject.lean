import Edelib.DBusExplorer.FlTree
import Edelib.Edbus.ObjectPathRuns
import Edelib.Foundation.PathTree

/-! # The objects of a service

An object is asked for its description, and the objects below it in turn. The path of each is formatted
into a buffer. A scan is given as the requests that it sends and the paths that it adds, in their order.
-/
namespace Edelib.DBusExplorer
open Foundation Edbus

/-! ## The scan -/

inductive MemberElement
  | method (name : CString)
  | signal (name : CString)
  | property (name : CString)
  | other

inductive DescriptionElement
  | node (name : Option CString)
  | interface (name : Option CString) (members : List MemberElement)
  | other

inductive Icon
  | package | interface | method | signal | property
deriving DecidableEq

inductive ScanEvent
  | request (path : CString)
  | add (icon : Icon) (path : CString)
deriving DecidableEq

/-- `snprintf` leaves a terminator in the buffer. -/
def snprintf (size : ℕ) (text : CString) : CString :=
  ⟨text.bytes.take (size - 1),fun h => text.nulFree (List.mem_of_mem_take h)⟩

/-- `"/"` -/
def slash : CString := .ofBuf [47]

@[simp] theorem slash_bytes : slash.bytes = [47] := rfl

def childPath (path name : CString) : CString := if path = slash then slash ++ name else path ++ slash ++ name

def memberItem (buf : CString) : MemberElement → Option (Icon × CString)
  | .method name => some (.method,snprintf 256 (buf ++ slash ++ name))
  | .signal name => some (.signal,snprintf 256 (buf ++ slash ++ name))
  | .property name => some (.property,snprintf 256 (buf ++ slash ++ name))
  | .other => none

def addMembers (W : FlTree) (buf : CString) : List MemberElement → W.Tree → List ScanEvent × W.Tree
  | [],t => ([],t)
  | member :: members,t =>
    match memberItem buf member with
    | none => addMembers W buf members t
    | some (icon,path) =>
      match W.add t path with
      | none => addMembers W buf members t
      | some t =>
        let rest := addMembers W buf members t
        (.add icon path :: rest.1,rest.2)

def scanElements (W : FlTree) (recurse : CString → W.Tree → Option (List ScanEvent × W.Tree)) (path : CString) :
    List DescriptionElement → W.Tree → Option (List ScanEvent × W.Tree)
  | [],t => some ([],t)
  | .node none :: els,t => scanElements W recurse path els t
  | .node (some name) :: els,t => do
    let buf := snprintf 128 (childPath path name)
    -- what is returned is used without a look at it
    let t ← W.add t buf
    let below ← recurse buf t
    let rest ← scanElements W recurse path els below.2
    some (.add .package buf :: below.1 ++ rest.1,rest.2)
  | .interface none _ :: els,t => scanElements W recurse path els t
  | .interface (some name) members :: els,t => do
    let buf := snprintf 128 (path ++ slash ++ name)
    let t ← W.add t buf
    let added := addMembers W buf members t
    let rest ← scanElements W recurse path els added.2
    some (.add .interface buf :: added.1 ++ rest.1,rest.2)
  | .other :: els,t => scanElements W recurse path els t

/-- The calls that are nested are no deeper than the bound. -/
def scanObject (W : FlTree) (introspect : CString → Option (List DescriptionElement)) :
    ℕ → CString → W.Tree → Option (List ScanEvent × W.Tree)
  | 0,_,_ => none
  | depth + 1,path,t =>
    match introspect path with
    | none => some ([.request path],t)
    | some els => (scanElements W (scanObject W introspect depth) path els t).map
        (fun scan => (.request path :: scan.1,scan.2))

/-! ## Services -/

def childNames (els : List DescriptionElement) : List CString :=
  els.filterMap (fun el => match el with
    | .node name => name
    | .interface _ _ => none
    | .other => none)

def MemberElement.Valid : MemberElement → Prop
  | .method name => 92 ∉ name.bytes
  | .signal name => 92 ∉ name.bytes
  | .property name => 92 ∉ name.bytes
  | .other => True

/-- An interface has a name of the letters that such a name may have. -/
def DescriptionElement.Valid : DescriptionElement → Prop
  | .interface (some name) members =>
    name.bytes ≠ [] ∧ (∀ c ∈ name.bytes, ElementByte c ∨ c = 46) ∧ ∀ member ∈ members, member.Valid
  | _ => True

/-- A finite tree of objects, each of which describes itself; what is answered for other paths is left open. -/
structure Service extends PathTree CString where
  named : ∀ p ∈ nodes, ∀ name ∈ p, Element name.bytes
  describe : List CString → List DescriptionElement
  valid : ∀ p ∈ nodes, ∀ el ∈ describe p, el.Valid
  childNodup : ∀ p ∈ nodes, (childNames (describe p)).Nodup
  child_iff : ∀ p ∈ nodes, ∀ name, name ∈ childNames (describe p) ↔ p ++ [name] ∈ nodes
  other : CString → Option (List DescriptionElement)

def pathOf (p : List CString) : CString := p.foldl childPath slash

def Service.introspect (S : Service) (path : CString) : Option (List DescriptionElement) :=
  match S.nodes.find? (fun p => pathOf p == path) with
  | some p => some (S.describe p)
  | none => S.other path

def requests (events : List ScanEvent) : List CString :=
  events.filterMap (fun e => match e with
    | .request path => some path
    | .add _ _ => none)

def packages (events : List ScanEvent) : List CString :=
  events.filterMap (fun e => match e with
    | .add .package path => some path
    | _ => none)

/-- The scan ends, every object is requested once, and every one below the root is added once. -/
def Visits (W : FlTree) (S : Service) : Prop :=
  ∃ depth events t, scanObject W S.introspect depth slash W.cleared = some (events,t) ∧
    (requests events).Perm (S.nodes.map pathOf) ∧ (packages events).Perm ((S.nodes.filter (fun p => p ≠ [])).map pathOf)

/-- What an element is shown as below its object: of an interface, what its path leaves room for. -/
def DescriptionElement.label (path : CString) : DescriptionElement → Option (List UInt8)
  | .node name => name.map CString.bytes
  | .interface name _ => name.map (fun name => name.bytes.take (126 - path.strlen))
  | .other => none

/-- No two elements of a description are shown the same, and none as nothing. -/
def Distinct (path : CString) (els : List DescriptionElement) : Prop :=
  (els.filterMap (DescriptionElement.label path)).Nodup ∧ [] ∉ els.filterMap (DescriptionElement.label path)

/-! ## Paths -/

theorem pathOf_concat (p : List CString) (name : CString) : pathOf (p ++ [name]) = childPath (pathOf p) name := by
  rw [pathOf,List.foldl_append]
  rfl

theorem pathOf_bytes {p : List CString} (hp : ∀ name ∈ p, Element name.bytes) :
    (pathOf p).bytes = if p = [] then [47] else Separated.leading 47 (p.map CString.bytes) := by
  induction p using List.reverseRecOn with
  | nil => rfl
  | append_singleton p name ih =>
    have hbefore := ih (fun n hn => hp n (List.mem_append_left _ hn))
    have hname := hp name (List.mem_append_right _ (List.mem_singleton.mpr rfl))
    rw [if_neg (by simp),pathOf_concat,childPath,List.map_append,Separated.leading,List.flatMap_append]
    split_ifs at hbefore with hnil
    · subst hnil
      have hroot : pathOf [] = slash := rfl
      rw [if_pos hroot]
      simp
    · have hne : pathOf p ≠ slash := by
        intro heq
        rw [heq] at hbefore
        obtain ⟨first,rest,rfl⟩ := List.exists_cons_of_ne_nil hnil
        have hfirst := (hp first (List.mem_append_left _ List.mem_cons_self)).1
        rw [List.map_cons,Separated.leading_cons] at hbefore
        have htail := (List.cons.inj hbefore).2
        exact hfirst (List.append_eq_nil_iff.mp htail.symm).1
      rw [if_neg hne,CString.append_bytes,CString.append_bytes,hbefore,List.append_assoc]
      simp [Separated.leading]

/-- The elements of a path are read back. -/
theorem tokens_pathOf {p : List CString} (hp : ∀ name ∈ p, Element name.bytes) :
    Separated.tokens 47 (pathOf p).bytes = p.map CString.bytes := by
  have hproper : Separated.Proper 47 (p.map CString.bytes) := proper_elements (fun e he => by
    obtain ⟨name,hname,rfl⟩ := List.mem_map.mp he
    exact hp name hname)
  rw [pathOf_bytes hp]
  split_ifs with hnil
  · subst hnil
    rfl
  · exact Separated.tokens_leading hproper

theorem pathOf_inj {p q : List CString} (hp : ∀ name ∈ p, Element name.bytes) (hq : ∀ name ∈ q, Element name.bytes)
    (h : pathOf p = pathOf q) : p = q := by
  have htokens := tokens_pathOf hp
  rw [h,tokens_pathOf hq] at htokens
  exact (List.map_injective_iff.mpr (fun a b hab => CString.ext hab) htokens).symm

theorem introspect_pathOf (S : Service) {p : List CString} (hp : p ∈ S.nodes) :
    S.introspect (pathOf p) = some (S.describe p) := by
  rw [Service.introspect]
  cases hfind : S.nodes.find? (fun q => pathOf q == pathOf p) with
  | none =>
    have hno := List.find?_eq_none.mp hfind p hp
    simp at hno
  | some q =>
    have hq := List.mem_of_find?_eq_some hfind
    have heq := List.find?_some hfind
    obtain rfl := pathOf_inj (S.named q hq) (S.named p hp) (by simpa using heq)
    rfl

theorem snprintf_of_le {size : ℕ} {text : CString} (h : text.strlen ≤ size - 1) : snprintf size text = text :=
  CString.ext (List.take_of_length_le h)

theorem strlen_snprintf (size : ℕ) (text : CString) : (snprintf size text).strlen ≤ size - 1 := List.length_take_le _ _

theorem bytes_snprintf (size : ℕ) (path name : CString) :
    (snprintf size (path ++ slash ++ name)).bytes = (path.bytes ++ 47 :: name.bytes).take (size - 1) := by
  have hbytes : (path ++ slash ++ name).bytes = path.bytes ++ 47 :: name.bytes := List.append_assoc _ _ _
  exact congrArg (List.take (size - 1)) hbytes

/-- A path that fits is there whole, with its separator and what there is room for. -/
theorem bytes_snprintf_of_lt {size : ℕ} {path : CString} (h : path.strlen + 1 < size) (name : CString) :
    (snprintf size (path ++ slash ++ name)).bytes = path.bytes ++ 47 :: name.bytes.take (size - 2 - path.strlen) := by
  have hroom : size - 1 - path.bytes.length = size - 2 - path.strlen + 1 := by
    change size - 1 - path.strlen = _
    omega
  have hle : path.bytes.length ≤ size - 1 := by
    change path.strlen ≤ size - 1
    omega
  rw [bytes_snprintf,List.take_append,List.take_of_length_le hle,hroom,List.take_succ_cons]

theorem not_mem_snprintf {c : UInt8} {path name : CString} (size : ℕ) (hc : c ≠ 47) (hpath : c ∉ path.bytes)
    (hname : c ∉ name.bytes) : c ∉ (snprintf size (path ++ slash ++ name)).bytes := by
  intro hmem
  rw [bytes_snprintf] at hmem
  have hmem := List.mem_of_mem_take hmem
  rw [List.mem_append,List.mem_cons] at hmem
  rcases hmem with h | h | h
  · exact hpath h
  · exact hc h
  · exact hname h

theorem backslash_not_mem_of_element {name : List UInt8} (h : ∀ c ∈ name, ElementByte c ∨ c = 46) : 92 ∉ name := by
  intro hmem
  rcases h 92 hmem with h | h
  · revert h
    simp only [ElementByte]
    decide
  · revert h
    decide

theorem backslash_not_mem_pathOf {p : List CString} (hp : ∀ name ∈ p, Element name.bytes) : 92 ∉ (pathOf p).bytes := by
  rw [pathOf_bytes hp]
  split_ifs with hnil
  · decide
  · intro hmem
    obtain ⟨part,hpart,hmem⟩ := List.mem_flatMap.mp hmem
    obtain ⟨name,hname,rfl⟩ := List.mem_map.mp hpart
    rcases List.mem_cons.mp hmem with h | h
    · revert h
      decide
    · exact backslash_not_mem_of_element (fun c hc => .inl ((hp name hname).2 c hc)) h

/-- What an interface is added as, where the path of its object fits. -/
theorem tokens_interface {p : List CString} (hp : ∀ name ∈ p, Element name.bytes) (hfits : (pathOf p).strlen ≤ 127)
    {name : CString} (hname : ∀ c ∈ name.bytes, ElementByte c ∨ c = 46) :
    Separated.tokens 47 (snprintf 128 (pathOf p ++ slash ++ name)).bytes =
      p.map CString.bytes ++ Separated.unlessEmpty (name.bytes.take (126 - (pathOf p).strlen)) := by
  have hslash : (47 : UInt8) ∉ name.bytes.take (126 - (pathOf p).strlen) := by
    intro hmem
    rcases hname 47 (List.mem_of_mem_take hmem) with h | h
    · revert h
      simp only [ElementByte]
      decide
    · revert h
      decide
  rcases Nat.lt_or_eq_of_le hfits with hlt | heq
  · rw [bytes_snprintf_of_lt (Nat.succ_lt_succ hlt),Separated.tokens_append_separator,tokens_pathOf hp,
      Separated.tokens_of_not_mem hslash]
  · have htake : ((pathOf p).bytes ++ 47 :: name.bytes).take 127 = (pathOf p).bytes := List.take_left' heq
    rw [bytes_snprintf,htake,tokens_pathOf hp,heq]
    exact (List.append_nil _).symm

/-- The path of a member begins with that of its interface. -/
theorem tokens_member (buf name : CString) (hbuf : buf.strlen ≤ 127) :
    ∃ more, Separated.tokens 47 (snprintf 256 (buf ++ slash ++ name)).bytes = Separated.tokens 47 buf.bytes ++ more := by
  rw [bytes_snprintf_of_lt (by omega),Separated.tokens_append_separator]
  exact ⟨_,rfl⟩

/-! ## What is added to the tree -/

variable {W : FlTree}

/-- Nothing is at a path or below it that an item is refused for. -/
def Free (t : W.Tree) (path : List (List UInt8)) : Prop := W.refuses = true → ∀ item, path <+: item → ¬ W.Has t item

/-- What is new is on the way to a path or at some of the labels below it. -/
def Grows (t t' : W.Tree) (path : List (List UInt8)) (labels : List (List UInt8)) : Prop :=
  W.refuses = true → ∀ item, W.Has t' item → W.Has t item ∨ item <+: path ∨ ∃ k ∈ labels, path ++ [k] <+: item

variable {t t' t'' : W.Tree} {path : List (List UInt8)} {labels labels' : List (List UInt8)} {k k' : List UInt8}

theorem Grows.refl (t : W.Tree) (path : List (List UInt8)) : Grows t t path [] := fun _ _ h => .inl h

theorem Grows.trans (h : Grows t t' path labels) (h' : Grows t' t'' path labels') :
    Grows t t'' path (labels ++ labels') := by
  intro hrefuses item hitem
  rcases h' hrefuses item hitem with h'' | h'' | ⟨k,hk,h''⟩
  · rcases h hrefuses item h'' with h | h | ⟨k,hk,h⟩
    · exact .inl h
    · exact .inr (.inl h)
    · exact .inr (.inr ⟨k,List.mem_append_left _ hk,h⟩)
  · exact .inr (.inl h'')
  · exact .inr (.inr ⟨k,List.mem_append_right _ hk,h''⟩)

/-- What is on the way to a label is on the way to the path, or it is what has the label. -/
theorem prefix_concat_cases {item : List (List UInt8)} (h : item <+: path ++ [k]) :
    item <+: path ∨ ∃ k' ∈ [k], path ++ [k'] <+: item := by
  rcases List.prefix_concat_iff.mp h with rfl | h
  · exact .inr ⟨k,List.mem_singleton_self k,List.prefix_refl _⟩
  · exact .inl h

/-- Seen from the path above there is one label. -/
theorem Grows.up (h : Grows t t' (path ++ [k]) labels) : Grows t t' path [k] := by
  intro hrefuses item hitem
  rcases h hrefuses item hitem with h | h | ⟨k',-,h⟩
  · exact .inl h
  · exact .inr (prefix_concat_cases h)
  · exact .inr (.inr ⟨k,List.mem_singleton_self k,(List.prefix_append _ _).trans h⟩)

theorem not_concat_prefix (path : List (List UInt8)) (k : List UInt8) : ¬ path ++ [k] <+: path := by
  intro h
  have hle := h.length_le
  rw [List.length_append,List.length_singleton] at hle
  omega

theorem Free.of_grows (hfree : Free t (path ++ [k])) (hk : W.refuses = true → k ∉ labels) (h : Grows t t' path labels) :
    Free t' (path ++ [k]) := by
  intro hrefuses item hitem hhas
  rcases h hrefuses item hhas with h | h | ⟨k',hk',h⟩
  · exact hfree hrefuses item hitem h
  · exact not_concat_prefix path k (hitem.trans h)
  · exact hk hrefuses (PathTree.label_unique hitem h ▸ hk')

theorem grows_of_add {buf : CString} (hbuf : 92 ∉ buf.bytes)
    (htokens : W.refuses = true → Separated.tokens 47 buf.bytes = path ++ [k]) (h : W.add t buf = some t') :
    Grows t t' path [k] := by
  intro hrefuses item hitem
  have hhas := W.has_add t t' buf hbuf h item
  rw [htokens hrefuses] at hhas
  rcases hhas.mp hitem with h | ⟨-,h⟩
  · exact .inl h
  · exact .inr (prefix_concat_cases h)

/-- Below an item that is new there is nothing yet. -/
theorem Free.below_added {buf : CString} (hbuf : 92 ∉ buf.bytes) (htokens : Separated.tokens 47 buf.bytes = path)
    (hfree : Free t path) (h : W.add t buf = some t') (k : List UInt8) : Free t' (path ++ [k]) := by
  intro hrefuses item hitem hhas
  rcases (W.has_add t t' buf hbuf h item).mp hhas with h | ⟨-,h⟩
  · exact hfree hrefuses item ((List.prefix_append _ _).trans hitem) h
  · rw [htokens] at h
    exact not_concat_prefix path k (hitem.trans h)

theorem exists_add {buf : CString} (hbuf : 92 ∉ buf.bytes) (hne : Separated.tokens 47 buf.bytes ≠ [])
    (hfree : Free t (Separated.tokens 47 buf.bytes)) : ∃ t', W.add t buf = some t' := by
  refine Option.ne_none_iff_exists'.mp (fun hnone => ?_)
  obtain ⟨hrefuses,hhas⟩ := (W.add_eq_none t buf hbuf hne).mp hnone
  exact hfree hrefuses _ (List.prefix_refl _) hhas

/-! ## One scan -/

theorem scanElements_node_iff {recurse : CString → W.Tree → Option (List ScanEvent × W.Tree)} {path name : CString}
    {els : List DescriptionElement} {scan : List ScanEvent × W.Tree} :
    scanElements W recurse path (.node (some name) :: els) t = some scan ↔ ∃ t' below rest,
      W.add t (snprintf 128 (childPath path name)) = some t' ∧ recurse (snprintf 128 (childPath path name)) t' = some below ∧
      scanElements W recurse path els below.2 = some rest ∧
      scan = (.add .package (snprintf 128 (childPath path name)) :: below.1 ++ rest.1,rest.2) := by
  simp only [scanElements,Option.bind_eq_bind,Option.bind_eq_some_iff,Option.some.injEq,
    eq_comm (a := scan),exists_and_left]

theorem scanElements_interface_iff {recurse : CString → W.Tree → Option (List ScanEvent × W.Tree)}
    {path name : CString} {members : List MemberElement} {els : List DescriptionElement}
    {scan : List ScanEvent × W.Tree} :
    scanElements W recurse path (.interface (some name) members :: els) t = some scan ↔ ∃ t' rest,
      W.add t (snprintf 128 (path ++ slash ++ name)) = some t' ∧
      scanElements W recurse path els (addMembers W (snprintf 128 (path ++ slash ++ name)) members t').2 = some rest ∧
      scan = (.add .interface (snprintf 128 (path ++ slash ++ name)) ::
        (addMembers W (snprintf 128 (path ++ slash ++ name)) members t').1 ++ rest.1,rest.2) := by
  simp only [scanElements,Option.bind_eq_bind,Option.bind_eq_some_iff,Option.some.injEq,
    eq_comm (a := scan),exists_and_left]

theorem requests_append (es fs : List ScanEvent) : requests (es ++ fs) = requests es ++ requests fs := List.filterMap_append

theorem packages_append (es fs : List ScanEvent) : packages (es ++ fs) = packages es ++ packages fs := List.filterMap_append

/-- Members are neither requested nor added as objects. -/
theorem addMembers_events (buf : CString) (members : List MemberElement) (t : W.Tree) :
    requests (addMembers W buf members t).1 = [] ∧ packages (addMembers W buf members t).1 = [] := by
  induction members generalizing t with
  | nil => exact ⟨rfl,rfl⟩
  | cons member members ih =>
    rw [addMembers]
    cases hitem : memberItem buf member with
    | none => exact ih t
    | some item =>
      obtain ⟨icon,path⟩ := item
      cases hadd : W.add t path with
      | none =>
        simp only [hadd]
        exact ih t
      | some t' =>
        simp only [hadd]
        have hicon : icon ≠ .package := by
          rintro rfl
          cases member with
          | method name => cases hitem
          | signal name => cases hitem
          | property name => cases hitem
          | other => cases hitem
        refine ⟨(ih t').1,?_⟩
        rw [← (ih t').2]
        cases icon with
        | package => exact absurd rfl hicon
        | interface => rfl
        | method => rfl
        | signal => rfl
        | property => rfl

/-- The path of a member is made of the path of its interface and a name without a backslash. -/
theorem path_of_memberItem {buf path : CString} {icon : Icon} {member : MemberElement} (hmember : member.Valid)
    (h : memberItem buf member = some (icon,path)) :
    ∃ name : CString, 92 ∉ name.bytes ∧ path = snprintf 256 (buf ++ slash ++ name) := by
  cases member with
  | method name =>
    cases h
    exact ⟨name,hmember,rfl⟩
  | signal name =>
    cases h
    exact ⟨name,hmember,rfl⟩
  | property name =>
    cases h
    exact ⟨name,hmember,rfl⟩
  | other => cases h

theorem has_addMembers {buf : CString} (hbuf : 92 ∉ buf.bytes) (hlen : buf.strlen ≤ 127) {members : List MemberElement}
    (hmembers : ∀ member ∈ members, member.Valid) (t : W.Tree) (item : List (List UInt8)) :
    (W.Has t item → W.Has (addMembers W buf members t).2 item) ∧
    (W.Has (addMembers W buf members t).2 item → W.Has t item ∨ item <+: Separated.tokens 47 buf.bytes ∨
      Separated.tokens 47 buf.bytes <+: item) := by
  induction members generalizing t with
  | nil => exact ⟨id,.inl⟩
  | cons member members ih =>
    obtain ⟨hmember,hmembers⟩ := List.forall_mem_cons.mp hmembers
    rw [addMembers]
    cases hitem : memberItem buf member with
    | none => exact ih hmembers t
    | some item' =>
      obtain ⟨icon,path⟩ := item'
      cases hadd : W.add t path with
      | none =>
        simp only [hadd]
        exact ih hmembers t
      | some t' =>
        simp only [hadd]
        obtain ⟨name,hname,rfl⟩ := path_of_memberItem hmember hitem
        have hhas := W.has_add t t' _ (not_mem_snprintf 256 (by decide) hbuf hname) hadd item
        obtain ⟨more,hmore⟩ := tokens_member buf name hlen
        rw [hmore] at hhas
        refine ⟨fun h => (ih hmembers t').1 (hhas.mpr (.inl h)),fun h => ?_⟩
        rcases (ih hmembers t').2 h with h | h
        · rcases hhas.mp h with h | ⟨-,h⟩
          · exact .inl h
          · exact .inr (List.prefix_or_prefix_of_prefix h (List.prefix_append _ more))
        · exact .inr h

/-- An interface is added to what its object can have, a name that is not cut to nothing. -/
theorem tokens_interface_ne {p : List CString} (hp : ∀ name ∈ p, Element name.bytes) {name : CString}
    (hne : name.bytes ≠ []) :
    p.map CString.bytes ++ Separated.unlessEmpty (name.bytes.take (126 - (pathOf p).strlen)) ≠ [] := by
  intro hnil
  obtain ⟨hp,hlabel⟩ := List.append_eq_nil_iff.mp hnil
  obtain rfl := List.map_eq_nil_iff.mp hp
  obtain ⟨c,bytes,hcons⟩ := List.exists_cons_of_ne_nil hne
  have hroot : (pathOf []).strlen = 1 := rfl
  rw [hroot,hcons] at hlabel
  cases hlabel

/-- An interface has a label of its own, and so have its members. -/
theorem interface_added {p : List CString} (hp : ∀ name ∈ p, Element name.bytes) (hfits : (pathOf p).strlen ≤ 127)
    {name : CString} {members : List MemberElement} (hvalid : (DescriptionElement.interface (some name) members).Valid)
    (hlabel : W.refuses = true → name.bytes.take (126 - (pathOf p).strlen) ≠ [])
    (hfree : Free t (p.map CString.bytes ++ [name.bytes.take (126 - (pathOf p).strlen)])) :
    ∃ t', W.add t (snprintf 128 (pathOf p ++ slash ++ name)) = some t' ∧
      Grows t (addMembers W (snprintf 128 (pathOf p ++ slash ++ name)) members t').2 (p.map CString.bytes)
        [name.bytes.take (126 - (pathOf p).strlen)] := by
  obtain ⟨hne,hname,hmembers⟩ := hvalid
  have hplain := not_mem_snprintf 128 (by decide) (backslash_not_mem_pathOf hp) (backslash_not_mem_of_element hname)
  have htokens := tokens_interface hp hfits hname
  -- only a tree that refuses items needs the label to be there
  have hitem : W.refuses = true → Separated.tokens 47 (snprintf 128 (pathOf p ++ slash ++ name)).bytes =
      p.map CString.bytes ++ [name.bytes.take (126 - (pathOf p).strlen)] := by
    intro hrefuses
    rw [htokens,Separated.unlessEmpty,List.filter_cons_of_pos (by simpa using hlabel hrefuses)]
    rfl
  obtain ⟨t',hadd⟩ : ∃ t', W.add t (snprintf 128 (pathOf p ++ slash ++ name)) = some t' := by
    refine exists_add hplain (htokens ▸ tokens_interface_ne hp hne) (fun hrefuses => ?_)
    rw [hitem hrefuses]
    exact hfree hrefuses
  refine ⟨t',hadd,fun hrefuses item hhas => ?_⟩
  rcases (has_addMembers hplain (strlen_snprintf 128 _) hmembers t' item).2 hhas with h | h | h
  · exact grows_of_add hplain hitem hadd hrefuses item h
  · rw [hitem hrefuses] at h
    exact .inr (prefix_concat_cases h)
  · rw [hitem hrefuses] at h
    exact .inr (.inr ⟨_,List.mem_singleton_self _,h⟩)

/-- An object is added with nothing below it. -/
theorem object_added {p : List CString} {name : CString} (hp : ∀ n ∈ p ++ [name], Element n.bytes)
    (hfree : Free t (p.map CString.bytes ++ [name.bytes])) :
    ∃ t', W.add t (pathOf (p ++ [name])) = some t' ∧ Grows t t' (p.map CString.bytes) [name.bytes] ∧
      ∀ k, Free t' ((p ++ [name]).map CString.bytes ++ [k]) := by
  have hplain := backslash_not_mem_pathOf hp
  have htokens := tokens_pathOf hp
  have hmap : (p ++ [name]).map CString.bytes = p.map CString.bytes ++ [name.bytes] := List.map_append
  rw [hmap] at htokens ⊢
  obtain ⟨t',hadd⟩ := exists_add hplain (htokens ▸ List.append_ne_nil_of_right_ne_nil _ (List.cons_ne_nil _ _))
    (htokens ▸ hfree)
  exact ⟨t',hadd,grows_of_add hplain (fun _ => htokens) hadd,hfree.below_added hplain htokens hadd⟩

structure Scanned (S : Service) (p : List CString) (events : List ScanEvent) (qs : List (List CString)) : Prop where
  below : S.Below p (p :: qs)
  requests_eq : requests events = (p :: qs).map pathOf
  packages_eq : packages events = qs.map pathOf

/-- The children of a node are scanned one after the other. -/
theorem scanElements_under {S : Service} {p : List CString} (hp : p ∈ S.nodes)
    (recurse : CString → W.Tree → Option (List ScanEvent × W.Tree)) (hfits : ∀ q ∈ S.nodes, (pathOf q).strlen ≤ 127)
    (hrec : ∀ name t, p ++ [name] ∈ S.nodes → (∀ k, Free t ((p ++ [name]).map CString.bytes ++ [k])) →
      ∃ scan qs, recurse (pathOf (p ++ [name])) t = some scan ∧ Scanned S (p ++ [name]) scan.1 qs ∧
        Grows t scan.2 (p.map CString.bytes) [name.bytes])
    {els : List DescriptionElement} (hvalid : ∀ el ∈ els, el.Valid) (hnodup : (childNames els).Nodup)
    (hchild : ∀ name ∈ childNames els, p ++ [name] ∈ S.nodes) (hdistinct : W.refuses = true → Distinct (pathOf p) els)
    (t : W.Tree) (hfree : ∀ k ∈ els.filterMap (DescriptionElement.label (pathOf p)), Free t (p.map CString.bytes ++ [k])) :
    ∃ scan qs, scanElements W recurse (pathOf p) els t = some scan ∧ S.Under p (childNames els) qs ∧
      requests scan.1 = qs.map pathOf ∧ packages scan.1 = qs.map pathOf ∧
      Grows t scan.2 (p.map CString.bytes) (els.filterMap (DescriptionElement.label (pathOf p))) := by
  induction els generalizing t with
  | nil => exact ⟨([],t),[],rfl,PathTree.under_nil p,rfl,rfl,Grows.refl t _⟩
  | cons el els ih =>
    obtain ⟨hel,hvalids⟩ := List.forall_mem_cons.mp hvalid
    have hhead : ∀ k, el.label (pathOf p) = some k → (W.refuses = true → k ≠ [] ∧
        k ∉ els.filterMap (DescriptionElement.label (pathOf p)) ∧ Distinct (pathOf p) els) ∧
        Free t (p.map CString.bytes ++ [k]) ∧
        ∀ k' ∈ els.filterMap (DescriptionElement.label (pathOf p)), Free t (p.map CString.bytes ++ [k']) := by
      intro k hlabel
      rw [List.filterMap_cons_some hlabel] at hfree
      refine ⟨fun hrefuses => ?_,List.forall_mem_cons.mp hfree⟩
      obtain ⟨hnodup,hne⟩ := hdistinct hrefuses
      rw [List.filterMap_cons_some hlabel] at hnodup hne
      rw [List.mem_cons,not_or] at hne
      exact ⟨Ne.symm hne.1,(List.nodup_cons.mp hnodup).1,(List.nodup_cons.mp hnodup).2,hne.2⟩
    cases el with
    | other => exact ih hvalids hnodup hchild hdistinct t hfree
    | interface name members =>
      cases name with
      | none => exact ih hvalids hnodup hchild hdistinct t hfree
      | some name =>
        obtain ⟨hdistinct,hhere,hfree⟩ := hhead _ rfl
        obtain ⟨t',hadd,hgrows⟩ := interface_added (S.named p hp) (hfits p hp) hel (fun h => (hdistinct h).1) hhere
        have hfree' : ∀ k ∈ els.filterMap (DescriptionElement.label (pathOf p)),
            Free (addMembers W (snprintf 128 (pathOf p ++ slash ++ name)) members t').2 (p.map CString.bytes ++ [k]) := by
          refine fun k hk => (hfree k hk).of_grows (fun h heq => ?_) hgrows
          rw [List.mem_singleton.mp heq] at hk
          exact (hdistinct h).2.1 hk
        obtain ⟨scan,qs,hscan,hunder,hrequests,hpackages,hgrows'⟩ :=
          ih hvalids hnodup hchild (fun h => (hdistinct h).2.2) _ hfree'
        have hmembers := addMembers_events (snprintf 128 (pathOf p ++ slash ++ name)) members t'
        refine ⟨_,qs,scanElements_interface_iff.mpr ⟨t',scan,hadd,hscan,rfl⟩,hunder,?_,?_,hgrows.trans hgrows'⟩
        · rw [requests_append,hrequests]
          exact congrArg (fun rs => rs ++ qs.map pathOf) hmembers.1
        · rw [packages_append,hpackages]
          exact congrArg (fun rs => rs ++ qs.map pathOf) hmembers.2
    | node name =>
      cases name with
      | none => exact ih hvalids hnodup hchild hdistinct t hfree
      | some name =>
        have hnames : childNames (.node (some name) :: els) = name :: childNames els := rfl
        rw [hnames] at hnodup hchild ⊢
        obtain ⟨hname,hnodup⟩ := List.nodup_cons.mp hnodup
        obtain ⟨hmem,hchild⟩ := List.forall_mem_cons.mp hchild
        obtain ⟨hdistinct,hhere,hfree⟩ := hhead _ rfl
        obtain ⟨t',hadd,hgrows,hbelow⟩ := object_added (S.named _ hmem) hhere
        obtain ⟨scan',qs',hscan',hscanned,hgrows'⟩ := hrec name t' hmem hbelow
        have hfree' : ∀ k ∈ els.filterMap (DescriptionElement.label (pathOf p)),
            Free scan'.2 (p.map CString.bytes ++ [k]) := by
          intro k hk
          have hne : W.refuses = true → k ∉ [name.bytes] :=
            fun h heq => (hdistinct h).2.1 (List.mem_singleton.mp heq ▸ hk)
          exact ((hfree k hk).of_grows hne hgrows).of_grows hne hgrows'
        obtain ⟨scan,qs,hscan,hunder,hrequests,hpackages,hgrows''⟩ :=
          ih hvalids hnodup hchild (fun h => (hdistinct h).2.2) _ hfree'
        have hbuf : snprintf 128 (childPath (pathOf p) name) = pathOf (p ++ [name]) := by
          rw [← pathOf_concat]
          exact snprintf_of_le (hfits _ hmem)
        rw [← hbuf] at hadd hscan'
        refine ⟨_,(p ++ [name]) :: qs' ++ qs,scanElements_node_iff.mpr ⟨t',scan',scan,hadd,hscan',hscan,rfl⟩,
          hunder.cons hname hscanned.below,?_,?_,fun h item hitem => ?_⟩
        · rw [requests_append,hrequests,List.map_append,← hscanned.requests_eq]
          rfl
        · rw [packages_append,hpackages,List.map_append,List.map_cons,← hscanned.packages_eq,hbuf]
          rfl
        · rcases (hgrows.trans (hgrows'.trans hgrows'')) h item hitem with h | h | ⟨k,hk,h⟩
          · exact .inl h
          · exact .inr (.inl h)
          · exact .inr (.inr ⟨k,by simpa [DescriptionElement.label] using hk,h⟩)

/-- An object is scanned where its children are. -/
theorem scanObject_of_children {S : Service} (hfits : ∀ q ∈ S.nodes, (pathOf q).strlen ≤ 127)
    (hdistinct : W.refuses = true → ∀ q ∈ S.nodes, Distinct (pathOf q) (S.describe q)) {depth : ℕ} {p : List CString}
    (hp : p ∈ S.nodes) (hrec : ∀ name t, p ++ [name] ∈ S.nodes →
      (∀ k, Free t ((p ++ [name]).map CString.bytes ++ [k])) → ∃ scan qs,
        scanObject W S.introspect depth (pathOf (p ++ [name])) t = some scan ∧ Scanned S (p ++ [name]) scan.1 qs ∧
          Grows t scan.2 (p.map CString.bytes) [name.bytes])
    (t : W.Tree) (hfree : ∀ k, Free t (p.map CString.bytes ++ [k])) :
    ∃ scan qs labels, scanObject W S.introspect (depth + 1) (pathOf p) t = some scan ∧ Scanned S p scan.1 qs ∧
      Grows t scan.2 (p.map CString.bytes) labels := by
  obtain ⟨scan,qs,hscan,hunder,hrequests,hpackages,hgrows⟩ := scanElements_under hp _ hfits hrec (S.valid p hp)
    (S.childNodup p hp) (fun name hname => (S.child_iff p hp name).mp hname) (fun h => hdistinct h p hp) t
    (fun k _ => hfree k)
  refine ⟨(.request (pathOf p) :: scan.1,scan.2),qs,_,?_,
    ⟨hunder.below hp (fun name => (S.child_iff p hp name).mpr),?_,hpackages⟩,hgrows⟩
  · rw [scanObject,introspect_pathOf S hp]
    exact Option.map_eq_some_iff.mpr ⟨scan,hscan,rfl⟩
  · exact congrArg (fun rs => pathOf p :: rs) hrequests

/-- A bound that no object is below is deep enough. -/
theorem scanObject_below {S : Service} (hfits : ∀ q ∈ S.nodes, (pathOf q).strlen ≤ 127)
    (hdistinct : W.refuses = true → ∀ q ∈ S.nodes, Distinct (pathOf q) (S.describe q)) {bound : ℕ}
    (hbound : ∀ q ∈ S.nodes, q.length ≤ bound) (depth : ℕ) {p : List CString} (hp : p ∈ S.nodes)
    (hdepth : bound ≤ p.length + depth) (t : W.Tree) (hfree : ∀ k, Free t (p.map CString.bytes ++ [k])) :
    ∃ scan qs labels, scanObject W S.introspect (depth + 1) (pathOf p) t = some scan ∧ Scanned S p scan.1 qs ∧
      Grows t scan.2 (p.map CString.bytes) labels := by
  induction depth generalizing p t with
  | zero =>
    refine scanObject_of_children hfits hdistinct hp (fun name t hmem _ => ?_) t hfree
    have hle := hbound _ hmem
    rw [List.length_append,List.length_singleton] at hle
    omega
  | succ depth ih =>
    refine scanObject_of_children hfits hdistinct hp (fun name t hmem hfree => ?_) t hfree
    have hdeep : bound ≤ (p ++ [name]).length + depth := by
      rw [List.length_append,List.length_singleton]
      omega
    obtain ⟨scan,qs,labels,hscan,hscanned,hgrows⟩ := ih hmem hdeep t hfree
    rw [List.map_append] at hgrows
    exact ⟨scan,qs,hscan,hscanned,hgrows.up⟩

/-! ## What fits into the buffer -/

/-- No request is for a longer path than the buffer holds. -/
theorem scanElements_short {recurse : CString → W.Tree → Option (List ScanEvent × W.Tree)} {path : CString}
    (hrec : ∀ buf t scan, buf.strlen ≤ 127 → recurse buf t = some scan → ∀ r ∈ requests scan.1, r.strlen ≤ 127)
    {els : List DescriptionElement} {t : W.Tree} {scan : List ScanEvent × W.Tree}
    (h : scanElements W recurse path els t = some scan) : ∀ r ∈ requests scan.1, r.strlen ≤ 127 := by
  induction els generalizing t scan with
  | nil =>
    cases h
    exact fun r hr => absurd hr List.not_mem_nil
  | cons el els ih =>
    cases el with
    | other => exact ih h
    | interface name members =>
      cases name with
      | none => exact ih h
      | some name =>
        obtain ⟨t',rest,-,hrest,rfl⟩ := scanElements_interface_iff.mp h
        intro r hr
        have hmembers := (addMembers_events (snprintf 128 (path ++ slash ++ name)) members t').1
        rw [requests_append] at hr
        rcases List.mem_append.mp hr with hr | hr
        · have hnil : r ∈ requests (addMembers W (snprintf 128 (path ++ slash ++ name)) members t').1 := hr
          rw [hmembers] at hnil
          cases hnil
        · exact ih hrest r hr
    | node name =>
      cases name with
      | none => exact ih h
      | some name =>
        obtain ⟨t',below,rest,-,hbelow,hrest,rfl⟩ := scanElements_node_iff.mp h
        intro r hr
        rw [requests_append] at hr
        rcases List.mem_append.mp hr with hr | hr
        · exact hrec _ t' below (strlen_snprintf 128 _) hbelow r hr
        · exact ih hrest r hr

theorem scanObject_short {introspect : CString → Option (List DescriptionElement)} {depth : ℕ} {path : CString}
    (hpath : path.strlen ≤ 127) {t : W.Tree} {scan : List ScanEvent × W.Tree}
    (h : scanObject W introspect depth path t = some scan) : ∀ r ∈ requests scan.1, r.strlen ≤ 127 := by
  induction depth generalizing path t scan with
  | zero => cases h
  | succ depth ih =>
    rw [scanObject] at h
    cases hreply : introspect path with
    | none =>
      rw [hreply] at h
      cases h
      intro r hr
      rwa [List.mem_singleton.mp hr]
    | some els =>
      rw [hreply] at h
      obtain ⟨rest,hrest,rfl⟩ := Option.map_eq_some_iff.mp h
      intro r hr
      rcases List.mem_cons.mp hr with rfl | hr
      · exact hpath
      · exact scanElements_short (fun buf t scan hbuf hscan => ih hbuf hscan) hrest r hr

theorem fits_of_visits {S : Service} (h : Visits W S) {p : List CString} (hp : p ∈ S.nodes) :
    (pathOf p).strlen ≤ 127 := by
  obtain ⟨depth,events,t,hscan,hrequests,-⟩ := h
  exact scanObject_short (by decide) hscan _ (hrequests.mem_iff.mpr (List.mem_map_of_mem hp))

/-! ## What is not refused -/

/-- What a scan leaves that went through: every label below was free, and nothing is taken away. -/
structure WentThrough (S : Service) (t t' : W.Tree) (p : List CString) (els : List DescriptionElement) : Prop where
  here : Distinct (pathOf p) els
  free : ∀ k ∈ els.filterMap (DescriptionElement.label (pathOf p)), ¬ W.Has t (p.map CString.bytes ++ [k])
  below : ∀ name ∈ childNames els, ∀ q ∈ S.nodes, p ++ [name] <+: q → Distinct (pathOf q) (S.describe q)
  kept : ∀ item, W.Has t item → W.Has t' item

/-- One more element is shown first. -/
theorem Distinct.cons {path : CString} {el : DescriptionElement} {els : List DescriptionElement} {k : List UInt8}
    (hlabel : el.label path = some k) (hne : k ≠ []) (hk : k ∉ els.filterMap (DescriptionElement.label path))
    (h : Distinct path els) : Distinct path (el :: els) := by
  rw [Distinct,List.filterMap_cons_some hlabel]
  exact ⟨List.nodup_cons.mpr ⟨hk,h.1⟩,fun hmem => (List.mem_cons.mp hmem).elim (fun heq => hne heq.symm) h.2⟩

/-- What was added first is there when the others are added. -/
theorem WentThrough.cons {S : Service} {t t' t'' : W.Tree} {p : List CString} {el : DescriptionElement}
    {els : List DescriptionElement} {k : List UInt8} (h : WentThrough S t' t'' p els)
    (hlabel : el.label (pathOf p) = some k) (hne : k ≠ []) (hfree : ¬ W.Has t (p.map CString.bytes ++ [k]))
    (hhas : W.Has t' (p.map CString.bytes ++ [k])) (hkept : ∀ item, W.Has t item → W.Has t' item)
    (hbelow : ∀ name ∈ childNames (el :: els), name ∉ childNames els →
      ∀ q ∈ S.nodes, p ++ [name] <+: q → Distinct (pathOf q) (S.describe q)) :
    WentThrough S t t'' p (el :: els) := by
  refine ⟨h.here.cons hlabel hne (fun hmem => h.free k hmem hhas),?_,fun name hname => ?_,
    fun item hitem => h.kept item (hkept item hitem)⟩
  · rw [List.filterMap_cons_some hlabel]
    exact List.forall_mem_cons.mpr ⟨hfree,fun k' hk' hitem => h.free k' hk' (hkept _ hitem)⟩
  · by_cases hmem : name ∈ childNames els
    · exact h.below name hmem
    · exact hbelow name hname hmem

theorem not_has_of_add (hrefuses : W.refuses = true) {buf : CString} (hbuf : 92 ∉ buf.bytes)
    (hne : Separated.tokens 47 buf.bytes ≠ []) (h : W.add t buf = some t') :
    ¬ W.Has t (Separated.tokens 47 buf.bytes) ∧ W.Has t' (Separated.tokens 47 buf.bytes) ∧
      ∀ item, W.Has t item → W.Has t' item := by
  refine ⟨fun hhas => ?_,(W.has_add t t' buf hbuf h _).mpr (.inr ⟨hne,List.prefix_refl _⟩),
    fun item hitem => (W.has_add t t' buf hbuf h item).mpr (.inl hitem)⟩
  rw [(W.add_eq_none t buf hbuf hne).mpr ⟨hrefuses,hhas⟩] at h
  cases h

theorem scanElements_wentThrough {S : Service} (hrefuses : W.refuses = true) {p : List CString} (hp : p ∈ S.nodes)
    {recurse : CString → W.Tree → Option (List ScanEvent × W.Tree)} (hfits : ∀ q ∈ S.nodes, (pathOf q).strlen ≤ 127)
    (hrec : ∀ name t scan, p ++ [name] ∈ S.nodes → recurse (pathOf (p ++ [name])) t = some scan →
      W.Has t ((p ++ [name]).map CString.bytes) →
      (∀ q ∈ S.nodes, p ++ [name] <+: q → Distinct (pathOf q) (S.describe q)) ∧ ∀ item, W.Has t item → W.Has scan.2 item)
    {els : List DescriptionElement} (hvalid : ∀ el ∈ els, el.Valid) (hchild : ∀ name ∈ childNames els, p ++ [name] ∈ S.nodes)
    {t : W.Tree} (hhas : p ≠ [] → W.Has t (p.map CString.bytes)) {scan : List ScanEvent × W.Tree}
    (h : scanElements W recurse (pathOf p) els t = some scan) : WentThrough S t scan.2 p els := by
  have hnamed := S.named p hp
  induction els generalizing t scan with
  | nil =>
    cases h
    exact ⟨⟨List.nodup_nil,List.not_mem_nil⟩,fun k hk => absurd hk List.not_mem_nil,
      fun name hname => absurd hname List.not_mem_nil,fun item hitem => hitem⟩
  | cons el els ih =>
    obtain ⟨hel,hvalids⟩ := List.forall_mem_cons.mp hvalid
    cases el with
    | other =>
      have hrest := ih hvalids hchild hhas h
      exact ⟨hrest.here,hrest.free,hrest.below,hrest.kept⟩
    | interface name members =>
      cases name with
      | none =>
        have hrest := ih hvalids hchild hhas h
        exact ⟨hrest.here,hrest.free,hrest.below,hrest.kept⟩
      | some name =>
        obtain ⟨t',rest,hadd,hscan,rfl⟩ := scanElements_interface_iff.mp h
        obtain ⟨hne,hname,hmembers⟩ := hel
        have hplain := not_mem_snprintf 128 (by decide) (backslash_not_mem_pathOf hnamed)
          (backslash_not_mem_of_element hname)
        have htokens := tokens_interface hnamed (hfits p hp) hname
        have hnonempty := tokens_interface_ne hnamed hne
        rw [← htokens] at hnonempty
        obtain ⟨hfree,hnew,hkept⟩ := not_has_of_add hrefuses hplain hnonempty hadd
        -- with an empty label the object itself would be added again
        have hlabel : name.bytes.take (126 - (pathOf p).strlen) ≠ [] := by
          intro hnil
          rw [hnil] at htokens
          rw [htokens] at hfree hnonempty
          rw [Separated.unlessEmpty,List.filter_cons_of_neg (by simp),List.filter_nil,List.append_nil] at hfree hnonempty
          exact hfree (hhas (fun hroot => hnonempty (by rw [hroot]; rfl)))
        rw [Separated.unlessEmpty,List.filter_cons_of_pos (by simpa using hlabel),List.filter_nil] at htokens
        rw [htokens] at hfree hnew
        have hmembersKept := fun item => (has_addMembers hplain (strlen_snprintf 128 _) hmembers t' item).1
        refine (ih hvalids hchild (fun hroot => hmembersKept _ (hkept _ (hhas hroot))) hscan).cons rfl hlabel hfree
          (hmembersKept _ hnew) (fun item hitem => hmembersKept item (hkept item hitem)) ?_
        exact fun name hname hnot => absurd hname hnot
    | node name =>
      cases name with
      | none =>
        have hrest := ih hvalids hchild hhas h
        exact ⟨hrest.here,hrest.free,hrest.below,hrest.kept⟩
      | some name =>
        obtain ⟨hmem,hchild⟩ := List.forall_mem_cons.mp (show ∀ n ∈ name :: childNames els, p ++ [n] ∈ S.nodes from hchild)
        obtain ⟨t',below,rest,hadd,hbelow,hscan,rfl⟩ := scanElements_node_iff.mp h
        have hbuf : snprintf 128 (childPath (pathOf p) name) = pathOf (p ++ [name]) := by
          rw [← pathOf_concat]
          exact snprintf_of_le (hfits _ hmem)
        rw [hbuf] at hadd hbelow
        have hnamed' := S.named _ hmem
        have htokens := tokens_pathOf hnamed'
        have hnonempty : Separated.tokens 47 (pathOf (p ++ [name])).bytes ≠ [] := by
          rw [htokens]
          simp
        obtain ⟨hfree,hnew,hkept⟩ := not_has_of_add hrefuses (backslash_not_mem_pathOf hnamed') hnonempty hadd
        rw [htokens] at hfree hnew
        obtain ⟨hdistinct,hkept'⟩ := hrec name t' below hmem hbelow hnew
        rw [List.map_append] at hfree hnew
        refine (ih hvalids hchild (fun hroot => hkept' _ (hkept _ (hhas hroot))) hscan).cons rfl (hnamed' name (by simp)).1
          hfree (hkept' _ hnew) (fun item hitem => hkept' item (hkept item hitem)) (fun name' hname hnot => ?_)
        rcases List.mem_cons.mp (show name' ∈ name :: childNames els from hname) with rfl | hname
        · exact hdistinct
        · exact absurd hname hnot

theorem scanObject_distinct {S : Service} (hrefuses : W.refuses = true) (hfits : ∀ q ∈ S.nodes, (pathOf q).strlen ≤ 127)
    {depth : ℕ} {p : List CString} (hp : p ∈ S.nodes) {t : W.Tree} (hhas : p ≠ [] → W.Has t (p.map CString.bytes))
    {scan : List ScanEvent × W.Tree} (h : scanObject W S.introspect depth (pathOf p) t = some scan) :
    (∀ q ∈ S.nodes, p <+: q → Distinct (pathOf q) (S.describe q)) ∧ ∀ item, W.Has t item → W.Has scan.2 item := by
  induction depth generalizing p t scan with
  | zero => cases h
  | succ depth ih =>
    rw [scanObject,introspect_pathOf S hp] at h
    obtain ⟨rest,hrest,rfl⟩ := Option.map_eq_some_iff.mp h
    have hthrough := scanElements_wentThrough hrefuses hp hfits (fun name t scan hmem hscan hhas => ih hmem (fun _ => hhas) hscan)
      (S.valid p hp) (fun name hname => (S.child_iff p hp name).mp hname) hhas hrest
    refine ⟨fun q hq hpq => ?_,hthrough.kept⟩
    obtain ⟨tail,rfl⟩ := hpq
    cases tail with
    | nil =>
      rw [List.append_nil]
      exact hthrough.here
    | cons name tail =>
      have hbelow : p ++ [name] <+: p ++ name :: tail := (List.prefix_append_right_inj p).mpr ⟨tail,rfl⟩
      exact hthrough.below name ((S.child_iff p hp name).mpr (PathTree.mem_of_begins hq hbelow)) _ hq hbelow

/-- The scan is right iff every path of the service fits into the buffer and, in a tree that refuses an
item twice, what is below an object is shown differently. -/
theorem visits_iff (W : FlTree) (S : Service) : Visits W S ↔ (∀ p ∈ S.nodes, (pathOf p).strlen ≤ 127) ∧
    (W.refuses = true → ∀ p ∈ S.nodes, Distinct (pathOf p) (S.describe p)) := by
  constructor
  · intro h
    have hfits : ∀ p ∈ S.nodes, (pathOf p).strlen ≤ 127 := fun p hp => fits_of_visits h hp
    refine ⟨hfits,fun hrefuses p hp => ?_⟩
    obtain ⟨depth,events,t,hscan,-⟩ := h
    exact (scanObject_distinct hrefuses hfits S.root (absurd rfl) hscan).1 p hp List.nil_prefix
  · rintro ⟨hfits,hdistinct⟩
    obtain ⟨bound,hbound⟩ := S.exists_depth
    obtain ⟨scan,qs,labels,hscan,hscanned,-⟩ := scanObject_below hfits hdistinct hbound bound S.root (by simp) W.cleared
      (fun k _ item _ => W.not_has_cleared item)
    refine ⟨bound + 1,scan.1,scan.2,hscan,?_,?_⟩
    · rw [hscanned.requests_eq]
      exact hscanned.below.perm.map _
    · rw [hscanned.packages_eq]
      refine List.Perm.map _ ?_
      have hperm := hscanned.below.perm.filter (fun p => decide (p ≠ []))
      obtain ⟨hroot,-⟩ := List.nodup_cons.mp hscanned.below.nodup
      rw [List.filter_cons_of_neg (by simp)] at hperm
      have hall : qs.filter (fun p => decide (p ≠ [])) = qs := by
        refine List.filter_eq_self.mpr (fun q hq => decide_eq_true ?_)
        rintro rfl
        exact hroot hq
      rwa [hall] at hperm

/-! ## A name of 127 letters -/

def longName : CString := ⟨List.replicate 127 97,by decide⟩

def longService : Service where
  nodes := [[],[longName]]
  nodup := by decide
  root := List.mem_cons_self
  parent p a h := by
    have hlen : (p ++ [a]).length ≤ 1 := by
      rcases List.mem_cons.mp h with h | h
      · rw [h]
        exact Nat.zero_le _
      · rw [List.mem_singleton.mp h]
        exact Nat.le_refl _
    rw [List.length_append,List.length_singleton] at hlen
    rw [List.length_eq_zero_iff.mp (by omega : p.length = 0)]
    exact List.mem_cons_self
  named := by
    intro p hp name hname
    have hlong : name = longName := by
      rcases List.mem_cons.mp hp with rfl | hp
      · cases hname
      · rw [List.mem_singleton.mp hp] at hname
        exact List.mem_singleton.mp hname
    subst hlong
    refine ⟨by decide,fun c hc => ?_⟩
    rw [List.eq_of_mem_replicate hc]
    exact Or.inr (Or.inl (by decide))
  describe p := if p = [] then [.node (some longName)] else []
  valid p _ el hel := by
    split_ifs at hel
    · rw [List.mem_singleton.mp hel]
      trivial
    · cases hel
  childNodup p _ := by
    split_ifs
    · exact List.nodup_singleton _
    · exact List.nodup_nil
  child_iff p hp name := by
    rcases List.mem_cons.mp hp with rfl | hp
    · simp [childNames]
    · rw [List.mem_singleton.mp hp]
      simp [childNames]
  other _ := none

theorem not_visits : ¬ ∀ W S, Visits W S := by
  intro h
  have hmem : [longName] ∈ longService.nodes := List.mem_cons_of_mem _ List.mem_cons_self
  exact absurd (fits_of_visits (h (flTree false) longService) hmem) (by decide +kernel)

end Edelib.DBusExplorer
