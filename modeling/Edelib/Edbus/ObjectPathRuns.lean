import Edelib.Edbus.ObjectPath
import Edelib.Foundation.Separated
import Edelib.Foundation.Transition

/-! # Runs over object paths

The grammar of D-Bus paths, what `valid_path` accepts of it, and what the constructors and
`append` make of any string. `none` is a failed assertion.
-/
namespace Edelib.Edbus
open Foundation Separated

/-! ## The grammar -/

def ElementByte (c : UInt8) : Prop := (65 ≤ c ∧ c ≤ 90) ∨ (97 ≤ c ∧ c ≤ 122) ∨ (48 ≤ c ∧ c ≤ 57) ∨ c = 95

def Element (str : List UInt8) : Prop := str ≠ [] ∧ ∀ c ∈ str, ElementByte c

/-- `/` alone, or one or more elements with a slash before each. -/
def WellFormedPath (str : List UInt8) : Prop :=
  str = [47] ∨ ∃ elements, elements ≠ [] ∧ (∀ e ∈ elements, Element e) ∧ str = leading 47 elements

theorem validElement_iff {str : List UInt8} : validElement str = true ↔ ∀ c ∈ str, ElementByte c := by
  simp only [validElement,List.all_eq_true,ElementByte,Bool.or_eq_true,Bool.and_eq_true,decide_eq_true_eq,
    beq_iff_eq,or_assoc]

theorem slash_not_mem {str : List UInt8} (h : ∀ c ∈ str, ElementByte c) : 47 ∉ str := by
  intro hmem
  have hslash := h 47 hmem
  revert hslash
  simp only [ElementByte]
  decide

theorem proper_elements {elements : List (List UInt8)} (h : ∀ e ∈ elements, Element e) : Proper 47 elements :=
  fun e he => ⟨(h e he).1,slash_not_mem (h e he).2⟩

/-! ## What `valid_path` accepts -/

theorem hasTwoSlashes_cons {c : UInt8} (h : c ≠ 47) (str : List UInt8) :
    hasTwoSlashes (c :: str) = hasTwoSlashes str := by
  rw [hasTwoSlashes.eq_def]
  split
  · rename_i heq
    exact absurd (List.cons.inj heq).1 h
  · rename_i heq
    rw [(List.cons.inj heq).2]
  · rename_i heq
    cases heq

theorem hasTwoSlashes_append {part : List UInt8} (h : 47 ∉ part) (str : List UInt8) :
    hasTwoSlashes (part ++ str) = hasTwoSlashes str := by
  induction part with
  | nil => rfl
  | cons c part ih =>
    obtain ⟨hc,hpart⟩ := not_or.mp (fun hmem => h (List.mem_cons.mpr hmem))
    rw [List.cons_append,hasTwoSlashes_cons (Ne.symm hc),ih hpart]

/-- Non-empty elements keep the slashes apart. -/
theorem hasTwoSlashes_leading {parts : List (List UInt8)} (h : Proper 47 parts) :
    hasTwoSlashes (leading 47 parts) = false := by
  induction parts with
  | nil => rfl
  | cons part parts ih =>
    obtain ⟨⟨hne,hpart⟩,hparts⟩ := List.forall_mem_cons.mp h
    cases part with
    | nil => exact absurd rfl hne
    | cons c part =>
      obtain ⟨hc,-⟩ := not_or.mp (fun hmem => hpart (List.mem_cons.mpr hmem))
      have hfirst : hasTwoSlashes (47 :: c :: (part ++ leading 47 parts)) =
          hasTwoSlashes (c :: (part ++ leading 47 parts)) := by
        rw [hasTwoSlashes.eq_def]
        split
        · rename_i heq
          exact absurd (List.cons.inj (List.cons.inj heq).2).1.symm hc
        · rename_i heq
          rw [(List.cons.inj heq).2]
        · rename_i heq
          cases heq
      rw [leading_cons,List.cons_append,hfirst,← List.cons_append,hasTwoSlashes_append hpart,ih hparts]

theorem hasTwoSlashes_of_split (before after : List UInt8) : hasTwoSlashes (before ++ 47 :: 47 :: after) = true := by
  induction before with
  | nil => rfl
  | cons c before ih =>
    rw [List.cons_append,hasTwoSlashes.eq_def]
    split
    · rfl
    · rename_i heq
      rw [← (List.cons.inj heq).2,ih]
    · rename_i heq
      cases heq

/-- An empty part is seen as two slashes in a row, or as one at the end. -/
theorem proper_of_no_slashes {parts : List (List UInt8)} (hslash : ∀ part ∈ parts, 47 ∉ part)
    (hlast : (leading 47 parts).getLast? ≠ some 47) (htwo : hasTwoSlashes (leading 47 parts) = false) :
    Proper 47 parts := by
  intro part hpart
  refine ⟨?_,hslash part hpart⟩
  rintro rfl
  obtain ⟨before,after,rfl⟩ := List.append_of_mem hpart
  have hsplit : leading (47 : UInt8) (before ++ [] :: after) = leading 47 before ++ 47 :: leading 47 after := by
    simp [leading]
  rw [hsplit] at hlast htwo
  cases after with
  | nil => exact hlast (by simp [leading])
  | cons next after =>
    rw [leading_cons,hasTwoSlashes_of_split] at htwo
    cases htwo

theorem not_mem_of_mem_splitOn {str part : List UInt8} (h : part ∈ str.splitOn 47) : 47 ∉ part := by
  induction str generalizing part with
  | nil =>
    rw [List.splitOn_nil,List.mem_singleton] at h
    rw [h]
    exact List.not_mem_nil
  | cons c str ih =>
    rw [List.splitOn_cons_eq_if_modifyHead] at h
    split_ifs at h with hc
    · rcases List.mem_cons.mp h with rfl | h
      · exact List.not_mem_nil
      · exact ih h
    · cases hs : str.splitOn 47 with
      | nil => exact absurd hs (List.splitOn_ne_nil 47 str)
      | cons first rest =>
        rw [hs,List.modifyHead_cons] at h
        rcases List.mem_cons.mp h with rfl | h
        · intro hmem
          rcases List.mem_cons.mp hmem with heq | hmem
          · exact hc (beq_iff_eq.mpr heq.symm)
          · exact ih (hs ▸ List.mem_cons_self) hmem
        · exact ih (hs ▸ List.mem_cons_of_mem first h)

/-- What is tested besides the end: a slash comes first, no two are in a row, and the tokens are
elements. -/
def ElementsPass (str : CString) : Prop :=
  str.bytes.head? = some 47 ∧ hasTwoSlashes str.bytes = false ∧ (tokens str.bytes).all validElement = true

theorem validPath_iff_elementsPass {str : CString} : validPath str = true ↔
    ElementsPass str ∧ str.strlen % 4294967296 ≠ 0 ∧ str.bytes[str.strlen % 4294967296 - 1]? ≠ some 47 := by
  rw [validPath,ElementsPass]
  split_ifs with hlen hends htwo
  · simp [hlen]
  · rcases hends with hhead | hlast
    · simp [hhead]
    · simp [hlast]
  · simp [htwo]
  · obtain ⟨hhead,hlast⟩ := not_or.mp hends
    simp [hlen,hlast,not_not.mp hhead,htwo]

theorem elements_of_pass {str : CString} (h : ElementsPass str) (hlast : str.bytes.getLast? ≠ some 47) :
    ∃ elements, elements ≠ [] ∧ (∀ e ∈ elements, Element e) ∧ str.bytes = leading 47 elements := by
  obtain ⟨hhead,htwo,hall⟩ := h
  obtain ⟨rest,hrest⟩ : ∃ rest, str.bytes = 47 :: rest := by
    cases hb : str.bytes with
    | nil => simp [hb] at hhead
    | cons c rest =>
      rw [hb,List.head?_cons,Option.some.injEq] at hhead
      exact ⟨rest,by rw [hhead]⟩
  have hjoin : leading 47 (rest.splitOn 47) = str.bytes := by rw [leading_splitOn,hrest]
  have hproper : Proper 47 (rest.splitOn 47) := by
    refine proper_of_no_slashes (fun part => not_mem_of_mem_splitOn) (hjoin ▸ hlast) ?_
    rw [hjoin]
    exact htwo
  have htokens : Edbus.tokens str.bytes = rest.splitOn 47 := by
    rw [← hjoin]
    exact tokens_leading hproper
  rw [htokens,List.all_eq_true] at hall
  refine ⟨rest.splitOn 47,List.splitOn_ne_nil 47 rest,fun e he => ⟨(hproper e he).1,?_⟩,hjoin.symm⟩
  exact validElement_iff.mp (hall e he)

/-- An element stands behind each slash, so no slash ends the path. -/
theorem getLast?_leading_ne {sep : UInt8} {elements : List (List UInt8)} (hproper : Proper sep elements) :
    (leading sep elements).getLast? ≠ some sep := by
  rcases List.eq_nil_or_concat elements with rfl | ⟨init,last,rfl⟩
  · nofun
  · rw [List.concat_eq_append] at hproper ⊢
    obtain ⟨hlastne,hnot⟩ := hproper last (List.mem_append_right _ (List.mem_singleton_self last))
    have hend : leading sep (init ++ [last]) = leading sep init ++ sep :: last := by simp [leading]
    rw [hend,List.getLast?_append_of_ne_nil _ (List.cons_ne_nil _ _),List.getLast?_cons_of_ne_nil hlastne]
    intro h
    exact hnot (List.mem_of_getLast? h)

theorem pass_of_elements {str : CString} {elements : List (List UInt8)} (hne : elements ≠ [])
    (helements : ∀ e ∈ elements, Element e) (hstr : str.bytes = leading 47 elements) :
    ElementsPass str ∧ str.bytes.getLast? ≠ some 47 := by
  have hproper := proper_elements helements
  have htokens : Edbus.tokens str.bytes = elements := by
    rw [hstr]
    exact tokens_leading hproper
  refine ⟨⟨?_,?_,?_⟩,?_⟩
  · cases elements with
    | nil => exact absurd rfl hne
    | cons e elements => rw [hstr,leading_cons,List.head?_cons]
  · rw [hstr,hasTwoSlashes_leading hproper]
  · rw [htokens,List.all_eq_true]
    exact fun e he => validElement_iff.mpr (helements e he).2
  · rw [hstr]
    exact getLast?_leading_ne hproper

theorem pass_iff_elements {str : CString} : ElementsPass str ∧ str.bytes.getLast? ≠ some 47 ↔
    ∃ elements, elements ≠ [] ∧ (∀ e ∈ elements, Element e) ∧ str.bytes = leading 47 elements := by
  constructor
  · rintro ⟨hpass,hlast⟩
    exact elements_of_pass hpass hlast
  · rintro ⟨elements,hne,helements,hstr⟩
    exact pass_of_elements hne helements hstr

/-- Where the length has room in 32 bits, the byte that is tested is the last one. -/
theorem validPath_iff {str : CString} (h : str.strlen < 4294967296) : validPath str = true ↔
    ∃ elements, elements ≠ [] ∧ (∀ e ∈ elements, Element e) ∧ str.bytes = leading 47 elements := by
  rw [validPath_iff_elementsPass,← pass_iff_elements,Nat.mod_eq_of_lt h,List.getLast?_eq_getElem?,CString.strlen]
  refine and_congr_right (fun hpass => and_iff_right (fun hlen => ?_))
  have hhead := hpass.1
  rw [List.length_eq_zero_iff.mp hlen] at hhead
  cases hhead

/-! ## Runs -/

inductive PathAction
  | create
  | fromText (str : CString)
  | copy (i : ℕ)
  | append (i : ℕ) (str : CString)
  | clear (i : ℕ)

namespace PathAction

def step (paths : List CString) : PathAction → Option (List CString)
  | create => some (paths ++ [rootPath])
  | fromText str => some (paths ++ [objectPath str])
  | copy i => (paths[i]?.bind objectPathCopy).map (fun val => paths ++ [val])
  | append i str => paths[i]?.map (fun val => paths.set i (objectPathAppend val str))
  | clear i => paths[i]?.map (fun val => paths.set i (objectPathClear val))

def Applies (paths : List CString) : PathAction → Prop
  | create => True
  | fromText _ => True
  | copy i => i < paths.length
  | append i _ => i < paths.length
  | clear i => i < paths.length

def Promised (paths paths' : List CString) : PathAction → Prop
  | fromText str => ¬ WellFormedPath str.bytes → paths'.getLast? = some rootPath
  | copy i => paths'.getLast? = paths[i]?
  | append _ str => ¬ Element str.bytes → paths' = paths
  | _ => True

/-- The call fails no assertion, leaves valid paths only, and keeps its promise. -/
def Lawful (paths : List CString) (a : PathAction) : Prop :=
  a.Applies paths →
    ∃ paths', step paths a = some paths' ∧ (∀ p ∈ paths', WellFormedPath p.bytes) ∧ a.Promised paths paths'

/-- No text is refused, the root is not copied, and nothing empty is appended to a longer path. -/
def Sound (paths : List CString) : PathAction → Prop
  | create => True
  | fromText str => validPath str = true
  | copy i => paths[i]? ≠ some rootPath
  | append i str => str = CString.empty → ∀ p ∈ paths[i]?, p = rootPath
  | clear _ => True

/-- The length from which a `String`, which doubles its room in 32 bits, may have none. -/
def pathMax : ℕ := 1073741824

def Short (paths : List CString) : PathAction → Prop
  | fromText str => str.strlen < pathMax
  | append i str => ∀ p ∈ paths[i]?, p.strlen + str.strlen + 1 < pathMax
  | _ => True

instance (paths : List CString) : (a : PathAction) → Decidable (a.Short paths)
  | fromText str => inferInstanceAs (Decidable (str.strlen < pathMax))
  | append i str => inferInstanceAs (Decidable (∀ p ∈ paths[i]?, p.strlen + str.strlen + 1 < pathMax))
  | create | copy _ | clear _ => isTrue trivial

instance (paths : List CString) : (a : PathAction) → Decidable (a.Sound paths)
  | create => isTrue trivial
  | fromText str => inferInstanceAs (Decidable (validPath str = true))
  | copy i => inferInstanceAs (Decidable (paths[i]? ≠ some rootPath))
  | append i str => inferInstanceAs (Decidable (str = CString.empty → ∀ p ∈ paths[i]?, p = rootPath))
  | clear _ => isTrue trivial

theorem wellFormed_root : WellFormedPath rootPath.bytes := Or.inl rfl

theorem not_wellFormed_nil : ¬ WellFormedPath [] := by
  rintro (h | ⟨elements,hne,-,h⟩)
  · cases h
  · cases elements with
    | nil => exact hne rfl
    | cons e elements => cases h

theorem eq_root_iff {p : CString} : p = rootPath ↔ p.bytes = [47] := CString.ext_iff

/-- A well-formed path is the root or passes `valid_path`, not both. -/
theorem validPath_iff_ne_root {p : CString} (hlen : p.strlen < pathMax) (hp : WellFormedPath p.bytes) :
    validPath p = true ↔ p ≠ rootPath := by
  constructor
  · rintro h rfl
    revert h
    decide
  · intro h
    rcases hp with hroot | helements
    · exact absurd (eq_root_iff.mpr hroot) h
    · exact (validPath_iff (hlen.trans (by decide))).mpr helements

theorem wellFormed_of_validPath {p : CString} (hlen : p.strlen < pathMax) (h : validPath p = true) :
    WellFormedPath p.bytes :=
  Or.inr ((validPath_iff (hlen.trans (by decide))).mp h)

theorem strlen_eq_one_iff {p : CString} (hp : WellFormedPath p.bytes) : p.strlen = 1 ↔ p = rootPath := by
  rw [eq_root_iff]
  constructor
  · intro hlen
    rcases hp with hroot | ⟨elements,hne,helements,hstr⟩
    · exact hroot
    · cases elements with
      | nil => exact absurd rfl hne
      | cons e elements =>
        have hpos := List.length_pos_iff.mpr (helements e List.mem_cons_self).1
        rw [CString.strlen,hstr,leading_cons,List.length_cons,List.length_append] at hlen
        omega
  · intro hroot
    rw [CString.strlen,hroot]
    rfl

theorem wellFormed_append {p str : CString} (hp : WellFormedPath p.bytes) (hstr : Element str.bytes) :
    WellFormedPath (objectPathAppend p str).bytes := by
  have hvalid : validElement str.bytes = true := validElement_iff.mpr hstr.2
  rw [objectPathAppend,hvalid,Bool.not_true,if_neg Bool.false_ne_true]
  by_cases hlen : p.strlen = 1
  · rw [if_neg (not_not.mpr hlen),CString.append_bytes,eq_root_iff.mp ((strlen_eq_one_iff hp).mp hlen)]
    exact Or.inr ⟨[str.bytes],List.cons_ne_nil _ _,by simpa using hstr,by simp [leading]⟩
  · rw [if_pos hlen]
    rcases hp with hroot | ⟨elements,-,helements,hbytes⟩
    · exact absurd (by rw [CString.strlen,hroot]; rfl) hlen
    · refine Or.inr ⟨elements ++ [str.bytes],by simp,fun e he => ?_,?_⟩
      · rcases List.mem_append.mp he with he | he
        · exact helements e he
        · rw [List.mem_singleton.mp he]
          exact hstr
      · simp [leading,hbytes,rootPath,CString.ofBuf]

theorem not_wellFormed_append_empty {p : CString} (hp : WellFormedPath p.bytes) (hroot : p ≠ rootPath) :
    ¬ WellFormedPath (objectPathAppend p CString.empty).bytes := by
  have hlen : p.strlen ≠ 1 := fun h => hroot ((strlen_eq_one_iff hp).mp h)
  have hbytes : (objectPathAppend p CString.empty).bytes = p.bytes ++ [47] := by
    have hvalid : validElement CString.empty.bytes = true := rfl
    rw [objectPathAppend,hvalid,Bool.not_true,if_neg Bool.false_ne_true,if_pos hlen,CString.append_bytes]
    simp [CString.empty,rootPath,CString.ofBuf]
  rw [hbytes]
  rintro (h | ⟨elements,-,helements,h⟩)
  · have hnil : p.bytes = [] := by simpa using congrArg List.length h
    exact not_wellFormed_nil (hnil ▸ hp)
  · have hend := getLast?_leading_ne (proper_elements helements)
    rw [← h,List.getLast?_concat] at hend
    exact hend rfl

theorem forall_mem_set {paths : List CString} {i : ℕ} {val : CString} (h : ∀ p ∈ paths, WellFormedPath p.bytes)
    (hval : WellFormedPath val.bytes) : ∀ p ∈ paths.set i val, WellFormedPath p.bytes := by
  intro p hp
  rcases List.mem_or_eq_of_mem_set hp with hp | rfl
  · exact h p hp
  · exact hval

theorem forall_mem_snoc {paths : List CString} {val : CString} (h : ∀ p ∈ paths, WellFormedPath p.bytes)
    (hval : WellFormedPath val.bytes) : ∀ p ∈ paths ++ [val], WellFormedPath p.bytes := by
  intro p hp
  rcases List.mem_append.mp hp with hp | hp
  · exact h p hp
  · rw [List.mem_singleton.mp hp]
    exact hval

theorem lawful_fromText_iff {paths : List CString} (hpaths : ∀ p ∈ paths, WellFormedPath p.bytes) {str : CString}
    (hshort : str.strlen < pathMax) : (fromText str).Lawful paths ↔ validPath str = true := by
  constructor
  · intro h
    obtain ⟨paths',hstep,hall,-⟩ := h trivial
    cases hstep
    have hnew := hall _ (List.mem_append_right paths (List.mem_singleton_self _))
    by_contra hvalid
    have hrefused : objectPath str = CString.empty := if_neg hvalid
    rw [hrefused] at hnew
    exact not_wellFormed_nil hnew
  · intro h _
    have hnew : objectPath str = str := if_pos h
    have hwell := wellFormed_of_validPath hshort h
    exact ⟨_,rfl,forall_mem_snoc hpaths (hnew.symm ▸ hwell),fun hnot => absurd hwell hnot⟩

theorem lawful_copy_iff {paths : List CString} (hpaths : ∀ p ∈ paths, WellFormedPath p.bytes)
    (hshort : ∀ p ∈ paths, p.strlen < pathMax) (i : ℕ) : (copy i).Lawful paths ↔ paths[i]? ≠ some rootPath := by
  constructor
  · intro h hroot
    obtain ⟨paths',hstep,-⟩ := h (List.getElem?_eq_some_iff.mp hroot).1
    have hrefused : objectPathCopy rootPath = none := rfl
    simp only [step,hroot,Option.bind_some,hrefused,Option.map_none] at hstep
    cases hstep
  · intro h (hi : i < paths.length)
    have hget : paths[i]? = some paths[i] := List.getElem?_eq_getElem hi
    have hwell := hpaths paths[i] (List.getElem_mem hi)
    have hvalid : validPath paths[i] = true :=
      (validPath_iff_ne_root (hshort paths[i] (List.getElem_mem hi)) hwell).mpr (fun heq => h (by rw [hget,heq]))
    have hcopy : objectPathCopy paths[i] = some paths[i] := if_pos hvalid
    refine ⟨paths ++ [paths[i]],by simp only [step,hget,Option.bind_some,hcopy,Option.map_some],
      forall_mem_snoc hpaths hwell,?_⟩
    rw [Promised,List.getLast?_concat,hget]

/-- What is no element leaves the path, except that a string of no bytes passes for one. -/
theorem objectPathAppend_of_not_element {p str : CString} (helement : ¬ Element str.bytes)
    (hroot : str = CString.empty → p = rootPath) : objectPathAppend p str = p := by
  by_cases hvalid : validElement str.bytes = true
  · have hempty : str = CString.empty := by
      ext1
      by_contra hne
      exact helement ⟨hne,validElement_iff.mp hvalid⟩
    rw [hroot hempty,hempty]
    rfl
  · have hvalid : validElement str.bytes = false := by simpa using hvalid
    rw [objectPathAppend,hvalid,Bool.not_false,if_pos rfl]

theorem lawful_append_iff {paths : List CString} (hpaths : ∀ p ∈ paths, WellFormedPath p.bytes) (i : ℕ)
    (str : CString) : (append i str).Lawful paths ↔ (str = CString.empty → ∀ p ∈ paths[i]?, p = rootPath) := by
  constructor
  · rintro h rfl p hp
    obtain ⟨hi,rfl⟩ := List.getElem?_eq_some_iff.mp hp
    by_contra hroot
    obtain ⟨paths',hstep,hall,-⟩ := h hi
    simp only [step,Option.mem_def.mp hp,Option.map_some,Option.some.injEq] at hstep
    subst hstep
    exact not_wellFormed_append_empty (hpaths _ (List.getElem_mem hi)) hroot (hall _ (List.mem_set hi _))
  · intro h (hi : i < paths.length)
    have hget : paths[i]? = some paths[i] := List.getElem?_eq_getElem hi
    have hwell := hpaths paths[i] (List.getElem_mem hi)
    have hstep : step paths (append i str) = some (paths.set i (objectPathAppend paths[i] str)) := by
      simp only [step,hget,Option.map_some]
    by_cases helement : Element str.bytes
    · exact ⟨_,hstep,forall_mem_set hpaths (wellFormed_append hwell helement),fun hnot => absurd helement hnot⟩
    · have hsame := objectPathAppend_of_not_element helement
        (fun hempty => h hempty paths[i] (Option.mem_def.mpr hget))
      rw [hsame,List.set_getElem_self] at hstep
      exact ⟨paths,hstep,hpaths,fun _ => rfl⟩

theorem lawful_clear {paths : List CString} (hpaths : ∀ p ∈ paths, WellFormedPath p.bytes) (i : ℕ) :
    (clear i).Lawful paths := by
  intro (hi : i < paths.length)
  have hget : paths[i]? = some paths[i] := List.getElem?_eq_getElem hi
  have hstep : step paths (clear i) = some (paths.set i (objectPathClear paths[i])) := by
    simp only [step,hget,Option.map_some]
  refine ⟨_,hstep,forall_mem_set hpaths ?_,trivial⟩
  unfold objectPathClear
  split_ifs
  · exact hpaths paths[i] (List.getElem_mem hi)
  · exact wellFormed_root

/-- The paths of a run: well-formed, and of a length that a `String` has room for. -/
structure Kept (paths : List CString) : Prop where
  wellFormed : ∀ p ∈ paths, WellFormedPath p.bytes
  short : ∀ p ∈ paths, p.strlen < pathMax

/-- Among such paths a call does what it promises if and only if it meets the condition. -/
theorem lawful_iff {paths : List CString} (h : Kept paths) (a : PathAction) (hshort : a.Short paths) :
    a.Lawful paths ↔ a.Sound paths := by
  cases a with
  | create => exact iff_of_true (fun _ => ⟨_,rfl,forall_mem_snoc h.wellFormed wellFormed_root,trivial⟩) trivial
  | fromText str => exact lawful_fromText_iff h.wellFormed hshort
  | copy i => exact lawful_copy_iff h.wellFormed h.short i
  | append i str => exact lawful_append_iff h.wellFormed i str
  | clear i => exact iff_of_true (lawful_clear h.wellFormed i) trivial

theorem strlen_append_le (val str : CString) : (objectPathAppend val str).strlen ≤ val.strlen + str.strlen + 1 := by
  unfold objectPathAppend
  split_ifs
  · omega
  · simp [CString.strlen,CString.append_bytes,rootPath,CString.ofBuf]
    omega
  · simp [CString.strlen,CString.append_bytes]

/-- A call that is given short texts makes short paths. -/
theorem short_step {paths paths' : List CString} {a : PathAction} (h : ∀ p ∈ paths, p.strlen < pathMax)
    (hshort : a.Short paths) (hstep : step paths a = some paths') : ∀ p ∈ paths', p.strlen < pathMax := by
  have hroot : rootPath.strlen < pathMax := by decide
  intro p hp
  cases a with
  | create =>
    cases hstep
    rcases List.mem_append.mp hp with hp | hp
    · exact h p hp
    · exact List.mem_singleton.mp hp ▸ hroot
  | fromText str =>
    cases hstep
    rcases List.mem_append.mp hp with hp | hp
    · exact h p hp
    · rw [List.mem_singleton.mp hp,objectPath]
      split_ifs
      · exact hshort
      · decide
  | copy i =>
    obtain ⟨val,hval,rfl⟩ := Option.map_eq_some_iff.mp hstep
    obtain ⟨other,hother,hcopy⟩ := Option.bind_eq_some_iff.mp hval
    rcases List.mem_append.mp hp with hp | hp
    · exact h p hp
    · rw [objectPathCopy] at hcopy
      split_ifs at hcopy
      obtain rfl := Option.some.inj hcopy
      rw [List.mem_singleton.mp hp]
      exact h other (List.mem_of_getElem? hother)
  | append i str =>
    obtain ⟨val,hval,rfl⟩ := Option.map_eq_some_iff.mp hstep
    rcases List.mem_or_eq_of_mem_set hp with hp | rfl
    · exact h p hp
    · exact (strlen_append_le val str).trans_lt (hshort val (Option.mem_def.mpr hval))
  | clear i =>
    obtain ⟨val,hval,rfl⟩ := Option.map_eq_some_iff.mp hstep
    rcases List.mem_or_eq_of_mem_set hp with hp | rfl
    · exact h p hp
    · rw [objectPathClear]
      split_ifs
      · exact h val (List.mem_of_getElem? hval)
      · exact hroot

theorem applies_of_step {paths paths' : List CString} {a : PathAction} (hstep : step paths a = some paths') :
    a.Applies paths := by
  cases a with
  | create => trivial
  | fromText str => trivial
  | copy i =>
    obtain ⟨p,hp,-⟩ := Option.bind_eq_some_iff.mp (Option.map_eq_some_iff.mp hstep).choose_spec.1
    exact (List.getElem?_eq_some_iff.mp hp).1
  | append i str => exact (List.getElem?_eq_some_iff.mp (Option.map_eq_some_iff.mp hstep).choose_spec.1).1
  | clear i => exact (List.getElem?_eq_some_iff.mp (Option.map_eq_some_iff.mp hstep).choose_spec.1).1

/-- A run over any number of paths, all of them short, is lawful if and only if its calls meet
the condition. -/
theorem run_lawful_iff (acts : List PathAction) (hshort : Transition.Along step Short [] acts) :
    Transition.Along step Lawful [] acts ↔ Transition.Along step Sound [] acts := by
  refine Transition.along_iff_of (I := Kept) (fun paths a h ha => lawful_iff h a ha)
    (fun paths a paths' h ha hlaw hstep => ?_) ⟨by simp,by simp⟩ hshort
  obtain ⟨paths₁,hstep₁,hall,-⟩ := hlaw (applies_of_step hstep)
  rw [hstep₁] at hstep
  cases hstep
  exact ⟨hall,short_step h.short ha hstep₁⟩

/-- The path `/a` is made, extended by `b` and copied. -/
theorem run_lawful_iff_copied : Transition.Along step Lawful []
    [fromText (CString.ofBuf [47,97]),append 0 (CString.ofBuf [98]),copy 0] :=
  (run_lawful_iff _ (by decide +kernel)).mpr (by decide +kernel)

/-- A string that is no path leaves an empty one, the root cannot be copied, and an empty
element leaves a slash at the end. -/
theorem not_run_lawful : ¬ Transition.Along step Lawful [] [fromText (CString.ofBuf [97])] ∧
    ¬ Transition.Along step Lawful [] [create,copy 0] ∧
    ¬ Transition.Along step Lawful [] [fromText (CString.ofBuf [47,97]),append 0 CString.empty] := by
  refine ⟨fun h => ?_,fun h => ?_,fun h => ?_⟩
  · obtain ⟨paths',hstep,-,hroot⟩ := h [] _ [] rfl [] rfl trivial
    cases hstep
    have hnot : ¬ WellFormedPath (CString.ofBuf [97]).bytes := by
      rintro (hbytes | ⟨elements,hne,-,hbytes⟩)
      · cases hbytes
      · cases elements with
        | nil => exact hne rfl
        | cons e elements => cases hbytes
    exact absurd (hroot hnot) (by decide)
  · obtain ⟨paths',hstep,-⟩ := h [create] _ [] rfl [rootPath] rfl Nat.zero_lt_one
    cases hstep
  · obtain ⟨paths',hstep,hall,-⟩ := h [fromText (CString.ofBuf [47,97])] _ [] rfl [CString.ofBuf [47,97]] rfl
      Nat.zero_lt_one
    cases hstep
    have hend := hall _ List.mem_cons_self
    have hbytes : (objectPathAppend (CString.ofBuf [47,97]) CString.empty).bytes = [47,97,47] := rfl
    rcases hend with hend | ⟨elements,hne,helements,hend⟩
    · cases hend
    · have hlast := getLast?_leading_ne (proper_elements helements)
      rw [← hend] at hlast
      exact hlast rfl

end PathAction
end Edelib.Edbus
