import Edelib.Edbus.Equality

/-! # When equality is structural

The comparison decides equality of contents unless it reads the text of an object path
as an object, or the only differences are inside dicts.
-/
namespace Edelib.Edbus
open Foundation

def Coherent (same : List ℕ → Bool) (d1 d2 : EdbusData) : Prop :=
  ∀ path, same path = true → d1.place path = d2.place path

mutual
/-- The same but for what the dicts hold and where one list ends before another that is counted the same. -/
def alike : EdbusData → EdbusData → Bool
  | .basic v1,.basic v2 => sameBasic v1 v2
  | .array l1,.array l2 => alikeElements l1 l2
  | .struct l1,.struct l2 => alikeElements l1 l2
  | .dict _,.dict _ => true
  | .variant v1,.variant v2 => alike v1 v2
  | _,_ => false
  termination_by structural x => x
def alikeElements : List EdbusData → List EdbusData → Bool
  | d1 :: l1,d2 :: l2 => alike d1 d2 && alikeElements l1 l2
  | l1,l2 => listSize l1 == listSize l2
  termination_by structural x => x
end

mutual
/-- Lists end at the same place, and dicts there hold the same pairs. -/
def dictsAgree : EdbusData → EdbusData → Bool
  | .array l1,.array l2 => dictsAgreeIn l1 l2
  | .struct l1,.struct l2 => dictsAgreeIn l1 l2
  | .dict l1,.dict l2 => sameContent (.dict l1) (.dict l2)
  | .variant v1,.variant v2 => dictsAgree v1 v2
  | _,_ => true
  termination_by structural x => x
def dictsAgreeIn : List EdbusData → List EdbusData → Bool
  | d1 :: l1,d2 :: l2 => dictsAgree d1 d2 && dictsAgreeIn l1 l2
  | l1,l2 => l1.isEmpty && l2.isEmpty
  termination_by structural x => x
end

def pathPair : EdbusBasic → EdbusBasic → Bool
  | .objectPath _,.objectPath _ => true
  | _,_ => false

mutual
/-- Two object paths in different handles are at the same place, or the second of two lists that are counted the same
ends there, and everything before that place is alike. -/
def pathsReached (same : List ℕ → Bool) (d other : EdbusData) : Bool :=
  if same [] then false
  else
    match d,other with
    | .basic v1,.basic v2 => pathPair v1 v2
    | .array l1,.array l2 => listSize l1 == listSize l2 && pathsReachedIn same 0 l1 l2
    | .struct l1,.struct l2 => listSize l1 == listSize l2 && pathsReachedIn same 0 l1 l2
    | .variant v1,.variant v2 => pathsReached (below same 0) v1 v2
    | _,_ => false
  termination_by structural d
def pathsReachedIn (same : List ℕ → Bool) (i : ℕ) : List EdbusData → List EdbusData → Bool
  | d1 :: l1,d2 :: l2 => pathsReached (below same i) d1 d2 || (alike d1 d2 && pathsReachedIn same (i + 1) l1 l2)
  | _ :: _,[] => true
  | [],_ => false
  termination_by structural x => x
end

/-! ## What the comparison computes -/

theorem Coherent.child {same : List ℕ → Bool} {d1 d2 : EdbusData} (h : Coherent same d1 d2) {i : ℕ}
    {x y : EdbusData} (hx : d1.child i = some x) (hy : d2.child i = some y) : Coherent (below same i) x y := by
  intro path hpath
  have hplace := h (i :: path) hpath
  simpa only [EdbusData.place,hx,hy,Option.bind_some] using hplace

theorem Coherent.eq {same : List ℕ → Bool} {d1 d2 : EdbusData} (h : Coherent same d1 d2)
    (hsame : same [] = true) : d1 = d2 := Option.some.inj (h [] hsame)

theorem sameElements_eq {l1 l2 : List EdbusData}
    (ih : ∀ d ∈ l1, ∀ d2, sameContent d d2 = (alike d d2 && dictsAgree d d2)) :
    sameElements l1 l2 = (alikeElements l1 l2 && dictsAgreeIn l1 l2) := by
  induction l1 generalizing l2 with
  | nil =>
    cases l2 with
    | nil => rfl
    | cons d2 l2 => exact (Bool.and_false _).symm
  | cons d l1 ihl =>
    cases l2 with
    | nil => exact (Bool.and_false _).symm
    | cons d2 l2 =>
      obtain ⟨hd,hl1⟩ := List.forall_mem_cons.mp ih
      rw [sameElements,alikeElements,dictsAgreeIn,hd,ihl hl1]
      cases alike d d2 <;> cases dictsAgree d d2 <;> simp

theorem sameContent_eq (d1 d2 : EdbusData) : sameContent d1 d2 = (alike d1 d2 && dictsAgree d1 d2) := by
  induction d1 using EdbusData.induct generalizing d2 with
  | basic v => cases d2 <;> simp [sameContent,alike,dictsAgree]
  | array l1 ih =>
    cases d2 with
    | array l2 => exact sameElements_eq ih
    | _ => rfl
  | struct l1 ih =>
    cases d2 with
    | struct l2 => exact sameElements_eq ih
    | _ => rfl
  | dict l1 ih => cases d2 <;> rfl
  | variant value ih =>
    cases d2 with
    | variant value2 => exact ih value2
    | _ => rfl

theorem alike_refl {d : EdbusData} (h : noNaN d = true) : alike d d = true := by
  have hsame := sameContent_refl h
  rw [sameContent_eq,Bool.and_eq_true] at hsame
  exact hsame.1

/-- The basic types are compared by value, once the types are equal. -/
theorem basicEq_eq (v1 v2 : EdbusBasic) :
    (if v1.type ≠ v2.type then some false else basicEq v1 v2) =
      if pathPair v1 v2 then none else some (sameBasic v1 v2) := by
  cases v1 <;> cases v2 <;>
    simp [EdbusBasic.type,basicEq,pathPair,sameBasic,CString.strcmp_eq_zero,beq_eq_decide]

theorem alikeElements_size {l1 l2 : List EdbusData} (h : listSize l1 ≠ listSize l2) : alikeElements l1 l2 = false := by
  induction l1 generalizing l2 with
  | nil => cases l2 <;> exact beq_eq_false_iff_ne.mpr h
  | cons d l1 ih =>
    cases l2 with
    | nil => exact beq_eq_false_iff_ne.mpr h
    | cons d2 l2 =>
      have hne : listSize l1 ≠ listSize l2 := fun he => h (listSize_cons_inj.mpr he)
      rw [alikeElements,ih hne,Bool.and_false]

/-- What a comparison gives: no result if it reads object paths or the end of a list, else whether all but the contents
of dicts is the same. -/
def Computed (same : List ℕ → Bool) (d1 d2 : EdbusData) : Prop :=
  dataEq same d1 d2 = if pathsReached same d1 d2 then none else some (alike d1 d2)

/-- The comparison goes on to the end of the first list. -/
theorem elementsEq_eq {same : List ℕ → Bool} {i : ℕ} {l1 l2 : List EdbusData} (hsize : listSize l1 = listSize l2)
    (h : ∀ j d1 d2, l1[j]? = some d1 → l2[j]? = some d2 → Computed (below same (i + j)) d1 d2) :
    elementsEq same i l1 l2 =
      if pathsReachedIn same i l1 l2 then none else some (alikeElements l1 l2) := by
  induction l1 generalizing i l2 with
  | nil =>
    have hend : alikeElements [] l2 = true := by
      cases l2 <;> exact beq_iff_eq.mpr hsize
    rw [hend]
    cases l2 <;> rfl
  | cons d1 l1 ih =>
    cases l2 with
    | nil => rfl
    | cons d2 l2 =>
      have hd : Computed (below same i) d1 d2 := h 0 d1 d2 rfl rfl
      have hl := @ih (i + 1) l2 (listSize_cons_inj.mp hsize) (fun j x y hx hy => by
        have hc := h (j + 1) x y hx hy
        rwa [show i + (j + 1) = i + 1 + j by omega] at hc)
      rw [elementsEq,pathsReachedIn,alikeElements,hd,hl]
      cases pathsReached (below same i) d1 d2 <;> cases alike d1 d2 <;> simp [andThen]

theorem listEq_eq {same : List ℕ → Bool} (arrayMode : Bool) {l1 l2 : List EdbusData}
    (h : ∀ j d1 d2, l1[j]? = some d1 → l2[j]? = some d2 → Computed (below same j) d1 d2) :
    listEq arrayMode arrayMode (listSize l1) (listSize l2) (elementsEq same 0 l1 l2) =
      if listSize l1 == listSize l2 && pathsReachedIn same 0 l1 l2 then none else some (alikeElements l1 l2) := by
  rw [listEq,if_neg (fun hne => hne rfl)]
  by_cases hsize : listSize l1 = listSize l2
  · have helements := elementsEq_eq (i := 0) hsize (fun j x y hx hy => (Nat.zero_add j).symm ▸ h j x y hx hy)
    rw [if_neg (fun hne => hne hsize),helements,beq_iff_eq.mpr hsize,Bool.true_and]
  · rw [if_pos hsize,beq_eq_false_iff_ne.mpr hsize,Bool.false_and,alikeElements_size hsize]
    rfl

/-- One object is alike to itself, and no path in it is read. -/
theorem computed_unless_same {same : List ℕ → Bool} {d1 d2 : EdbusData} (hc : Coherent same d1 d2)
    (hn : noNaN d1 = true) (h : ¬ same [] = true → Computed same d1 d2) : Computed same d1 d2 := by
  by_cases hsame : same [] = true
  · obtain rfl := hc.eq hsame
    rw [Computed,dataEq.eq_def,pathsReached.eq_def,if_pos hsame,if_pos hsame,alike_refl hn]
    rfl
  · exact h hsame

/-- Data of different types are not alike, and no paths are compared in them. -/
theorem computed_of_type {same : List ℕ → Bool} {d1 d2 : EdbusData} (hsame : ¬ same [] = true)
    (htype : d1.type ≠ d2.type) : Computed same d1 d2 := by
  rw [Computed,dataEq.eq_def,pathsReached.eq_def,if_neg hsame,if_neg hsame,if_pos htype]
  cases d1 with
  | basic v1 =>
    cases d2 with
    | basic v2 =>
      have hbasic := basicEq_eq v1 v2
      rw [if_pos (show v1.type ≠ v2.type from htype)] at hbasic
      exact hbasic
    | _ => rfl
  | _ => cases d2 <;> first | rfl | exact absurd rfl htype

theorem type_basic_ne {v : EdbusBasic} {d : EdbusData} (hd : d.basicType = false) : v.type ≠ d.type := by
  cases d with
  | basic w => cases hd
  | _ => cases v <;> nofun

theorem dataEq_eq {same : List ℕ → Bool} {d1 d2 : EdbusData} (hc : Coherent same d1 d2) (hn : noNaN d1 = true) :
    Computed same d1 d2 := by
  induction d1 using EdbusData.induct generalizing same d2 with
  | basic v1 =>
    refine computed_unless_same hc hn (fun hsame => ?_)
    by_cases htype : (EdbusData.basic v1).type = d2.type
    · cases d2 with
      | basic v2 =>
        have hbasic := basicEq_eq v1 v2
        rw [if_neg (fun hne => hne htype)] at hbasic
        rw [Computed,dataEq.eq_def,pathsReached.eq_def,if_neg hsame,if_neg hsame,if_neg (fun hne => hne htype)]
        exact hbasic
      | _ => exact absurd htype (type_basic_ne rfl)
    · exact computed_of_type hsame htype
  | array l1 ih =>
    refine computed_unless_same hc hn (fun hsame => ?_)
    cases d2 with
    | array l2 =>
      have hl1 := (everywhere_array.mp hn).2
      have hlist := @listEq_eq same true l1 l2 (fun j x y hx hy =>
        ih x (List.mem_of_getElem? hx) (hc.child hx hy) (hl1 x (List.mem_of_getElem? hx)))
      rw [Computed,dataEq.eq_def,pathsReached.eq_def,if_neg hsame,if_neg hsame,if_neg (fun hne => hne rfl)]
      exact hlist
    | basic v2 => exact computed_of_type hsame (Ne.symm (type_basic_ne rfl))
    | _ => exact computed_of_type hsame nofun
  | struct l1 ih =>
    refine computed_unless_same hc hn (fun hsame => ?_)
    cases d2 with
    | struct l2 =>
      have hl1 := (everywhere_struct.mp hn).2
      have hlist := @listEq_eq same false l1 l2 (fun j x y hx hy =>
        ih x (List.mem_of_getElem? hx) (hc.child hx hy) (hl1 x (List.mem_of_getElem? hx)))
      rw [Computed,dataEq.eq_def,pathsReached.eq_def,if_neg hsame,if_neg hsame,if_neg (fun hne => hne rfl)]
      exact hlist
    | basic v2 => exact computed_of_type hsame (Ne.symm (type_basic_ne rfl))
    | _ => exact computed_of_type hsame nofun
  | dict l1 ih =>
    refine computed_unless_same hc hn (fun hsame => ?_)
    cases d2 with
    | dict l2 =>
      rw [Computed,dataEq.eq_def,pathsReached.eq_def,if_neg hsame,if_neg hsame,if_neg (fun hne => hne rfl)]
      rfl
    | basic v2 => exact computed_of_type hsame (Ne.symm (type_basic_ne rfl))
    | _ => exact computed_of_type hsame nofun
  | variant value ih =>
    refine computed_unless_same hc hn (fun hsame => ?_)
    cases d2 with
    | variant value2 =>
      have hbelow : Coherent (below same 0) value value2 := @Coherent.child _ _ _ hc 0 value value2 rfl rfl
      rw [Computed,dataEq.eq_def,pathsReached.eq_def,if_neg hsame,if_neg hsame,if_neg (fun hne => hne rfl)]
      exact ih hbelow (everywhere_variant.mp hn).2
    | basic v2 => exact computed_of_type hsame (Ne.symm (type_basic_ne rfl))
    | _ => exact computed_of_type hsame nofun

/-- Equality of contents is an equivalence of the data without NaN. The comparison decides
it if and only if no two object paths in different handles are reached and no end of a list,
and data that are alike outside their dicts have lists of one length and the same pairs in
their dicts. -/
theorem dataEq_structural_iff (same : List ℕ → Bool) (d1 d2 : EdbusData) (hc : Coherent same d1 d2)
    (hn : noNaN d1 = true) :
    Equivalence (fun d1 d2 : {d : EdbusData // noNaN d = true} => sameContent d1.1 d2.1 = true) ∧
      ((∃ b, dataEq same d1 d2 = some b ∧ (b = true ↔ sameContent d1 d2 = true)) ↔
        pathsReached same d1 d2 = false ∧ (alike d1 d2 = true → dictsAgree d1 d2 = true)) := by
  refine ⟨⟨fun d => sameContent_refl d.2,sameContent_symm,sameContent_trans⟩,?_⟩
  have heq : dataEq same d1 d2 = if pathsReached same d1 d2 then none else some (alike d1 d2) := dataEq_eq hc hn
  rw [heq,sameContent_eq,Bool.and_eq_true]
  constructor
  · rintro ⟨b,hb,hiff⟩
    cases hpaths : pathsReached same d1 d2 with
    | true =>
      rw [hpaths] at hb
      cases hb
    | false =>
      rw [hpaths] at hb
      cases hb
      exact ⟨rfl,fun halike => (hiff.mp halike).2⟩
  · rintro ⟨hpaths,hdicts⟩
    rw [hpaths]
    exact ⟨alike d1 d2,rfl,fun halike => ⟨halike,hdicts halike⟩,fun h => h.1⟩

/-- An array of one path, and its copy, which shares the list. -/
def onePath : EdbusData := .array [.basic (.objectPath (CString.ofBuf [47,97]))]

theorem dataEq_structural_copy :
    ∃ b, dataEq (fun path => !path.isEmpty) onePath onePath = some b ∧
      (b = true ↔ sameContent onePath onePath = true) :=
  (dataEq_structural_iff (fun path => !path.isEmpty) onePath onePath (fun _ _ => rfl) rfl).2.mpr
    ⟨by decide +kernel,fun _ => by decide +kernel⟩

def oneEntry (value : BitVec 32) : EdbusData := .dict [⟨.basic (.int32 1),.basic (.int32 value)⟩]

def pathData : EdbusData := .basic (.objectPath (CString.ofBuf [47,97]))

/-- Dicts with different values compare equal, and a path compared with its copy is read
as what it is not. -/
theorem not_dataEq_structural :
    (¬ ∃ b, dataEq (fun _ => false) (oneEntry 1) (oneEntry 2) = some b ∧
      (b = true ↔ sameContent (oneEntry 1) (oneEntry 2) = true)) ∧
    ¬ ∃ b, dataEq (fun path => !path.isEmpty) pathData pathData = some b ∧
      (b = true ↔ sameContent pathData pathData = true) := by
  constructor
  · rintro ⟨b,hb,hiff⟩
    have heq : dataEq (fun _ => false) (oneEntry 1) (oneEntry 2) = some true := rfl
    obtain rfl := Option.some.inj (hb.symm.trans heq)
    exact absurd (hiff.mp rfl) (by decide +kernel)
  · rintro ⟨b,hb,-⟩
    cases hb

end Edelib.Edbus
