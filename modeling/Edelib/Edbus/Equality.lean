import Edelib.Edbus.Data

/-! # Comparing data

Two handles may be one object, which is equal to itself unread. Whether the handles at
the same place of the two operands are one object is up to their sharing, so it is a
parameter here: `same` says it for every place, named by its path from the operands.
A comparison without a result reads outside an object.
-/
namespace Edelib.Edbus
open Foundation

/-- `&&`: the right side is not evaluated unless the left one is true. -/
def andThen : Option Bool → Option Bool → Option Bool
  | some true, b => b
  | some false, _ => some false
  | none, _ => none

def isNaN (v : BitVec 64) : Bool := 0x7ff0000000000000 < v &&& 0x7fffffffffffffff

def isZero (v : BitVec 64) : Bool := v &&& 0x7fffffffffffffff == 0

/-- `==` of doubles: the two zeros are equal, and no NaN is. -/
def doubleEq (v1 v2 : BitVec 64) : Bool :=
  !isNaN v1 && !isNaN v2 && (v1 == v2 || isZero v1 && isZero v2)

/-- The cases of the basic types. The texts of object paths are read as objects of the
class `EdbusObjectPath`, which they are not. -/
def basicEq : EdbusBasic → EdbusBasic → Option Bool
  | .invalid,.invalid => some true
  | .byte v1,.byte v2 => some (v1 == v2)
  | .bool v1,.bool v2 => some (v1 == v2)
  | .int16 v1,.int16 v2 => some (v1 == v2)
  | .uint16 v1,.uint16 v2 => some (v1 == v2)
  | .int32 v1,.int32 v2 => some (v1 == v2)
  | .uint32 v1,.uint32 v2 => some (v1 == v2)
  | .int64 v1,.int64 v2 => some (v1 == v2)
  | .uint64 v1,.uint64 v2 => some (v1 == v2)
  | .double v1,.double v2 => some (doubleEq v1 v2)
  | .string v1,.string v2 => some (v1.strcmp v2 == 0)
  | .objectPath _,.objectPath _ => none
  | _,_ => some false

/-- `EdbusList::operator==`, given the comparison of the elements. -/
def listEq (arrayMode1 arrayMode2 : Bool) (size1 size2 : BitVec 32) (elements : Option Bool) : Option Bool :=
  if arrayMode1 ≠ arrayMode2 then some false
  else if size1 ≠ size2 then some false
  else elements

/-- `EdbusDict::operator==`, given the comparison of the entries in turn. -/
def dictEq (sameDict : Bool) (size1 size2 : BitVec 32) (entries : Option Bool) : Option Bool :=
  if sameDict then some true
  else if size1 ≠ size2 then some false
  else entries

def below (same : List ℕ → Bool) (i : ℕ) : List ℕ → Bool := fun path => same (i :: path)

mutual
def dataEq (same : List ℕ → Bool) (d other : EdbusData) : Option Bool :=
  if same [] then some true
  else if d.type ≠ other.type then some false
  else
    match d,other with
    | .basic v1,.basic v2 => basicEq v1 v2
    | .array l1,.array l2 => listEq true true (listSize l1) (listSize l2) (elementsEq same 0 l1 l2)
    | .struct l1,.struct l2 => listEq false false (listSize l1) (listSize l2) (elementsEq same 0 l1 l2)
    -- both operands are taken from the left side
    | .dict l1,.dict _ => dictEq true (dictSize l1) (dictSize l1) (entriesEq (fun _ => true) 0 l1 l1)
    | .variant v1,.variant v2 => dataEq (below same 0) v1 v2
    | _,_ => some false
  termination_by structural d
def elementsEq (same : List ℕ → Bool) (i : ℕ) : List EdbusData → List EdbusData → Option Bool
  | d1 :: l1,d2 :: l2 => andThen (dataEq (below same i) d1 d2) (elementsEq same (i + 1) l1 l2)
  -- there is nothing at the end of the other list
  | _ :: _,[] => none
  | [],_ => some true
  termination_by structural x => x
def entriesEq (same : List ℕ → Bool) (i : ℕ) : List EdbusDictEntry → List EdbusDictEntry → Option Bool
  | e1 :: l1,e2 :: l2 => andThen (entryEq same i e1 e2) (entriesEq same (i + 1) l1 l2)
  | _ :: _,[] => none
  | [],_ => some true
  termination_by structural x => x
def entryEq (same : List ℕ → Bool) (i : ℕ) : EdbusDictEntry → EdbusDictEntry → Option Bool
  | ⟨key1,value1⟩,⟨key2,value2⟩ =>
    andThen (dataEq (below same (2 * i)) key1 key2) (dataEq (below same (2 * i + 1)) value1 value2)
  termination_by structural x => x
end

/-! ## Equal contents -/

def sameBasic : EdbusBasic → EdbusBasic → Bool
  | .double v1,.double v2 => doubleEq v1 v2
  | v1,v2 => v1 == v2

mutual
/-- The same type and the same contents; of dicts, the same set of pairs. -/
def sameContent : EdbusData → EdbusData → Bool
  | .basic v1,.basic v2 => sameBasic v1 v2
  | .array l1,.array l2 => sameElements l1 l2
  | .struct l1,.struct l2 => sameElements l1 l2
  | .dict l1,.dict l2 => entriesIn l1 l2 && l2.all (fun e => entryAmong l1 e)
  | .variant v1,.variant v2 => sameContent v1 v2
  | _,_ => false
  termination_by structural x => x
def sameElements : List EdbusData → List EdbusData → Bool
  | [],[] => true
  | d1 :: l1,d2 :: l2 => sameContent d1 d2 && sameElements l1 l2
  | _,_ => false
  termination_by structural x => x
def entriesIn : List EdbusDictEntry → List EdbusDictEntry → Bool
  | [],_ => true
  | e :: l1,l2 => l2.any (fun e2 => sameEntry e e2) && entriesIn l1 l2
  termination_by structural x => x
def entryAmong : List EdbusDictEntry → EdbusDictEntry → Bool
  | [],_ => false
  | e :: l1,e2 => sameEntry e e2 || entryAmong l1 e2
  termination_by structural x => x
def sameEntry : EdbusDictEntry → EdbusDictEntry → Bool
  | ⟨key1,value1⟩,⟨key2,value2⟩ => sameContent key1 key2 && sameContent value1 value2
  termination_by structural x => x
end

def noNaN (d : EdbusData) : Bool :=
  everywhere (fun
    | .basic (.double v) => !isNaN v
    | _ => true) d

/-! ## Equality of contents is an equivalence -/

theorem doubleEq_comm (v1 v2 : BitVec 64) : doubleEq v1 v2 = doubleEq v2 v1 := by
  simp only [doubleEq,Bool.and_comm,Bool.and_assoc,BEq.comm]

theorem doubleEq_trans {v1 v2 v3 : BitVec 64} (h12 : doubleEq v1 v2 = true) (h23 : doubleEq v2 v3 = true) :
    doubleEq v1 v3 = true := by
  simp only [doubleEq,Bool.and_eq_true,Bool.or_eq_true,beq_iff_eq] at h12 h23 ⊢
  obtain ⟨⟨h1,-⟩,h12⟩ := h12
  obtain ⟨⟨-,h3⟩,h23⟩ := h23
  refine ⟨⟨h1,h3⟩,?_⟩
  rcases h12 with rfl | ⟨hz1,hz2⟩
  · exact h23
  · rcases h23 with rfl | ⟨-,hz3⟩
    · exact Or.inr ⟨hz1,hz2⟩
    · exact Or.inr ⟨hz1,hz3⟩

theorem sameBasic_iff {v1 v2 : EdbusBasic} : sameBasic v1 v2 = true ↔
    (∃ a b, v1 = .double a ∧ v2 = .double b ∧ doubleEq a b = true) ∨ (∀ a, v1 ≠ .double a) ∧ v1 = v2 := by
  unfold sameBasic
  split
  · rename_i a b
    simp
  · rename_i hne
    constructor
    · intro h
      have heq : v1 = v2 := by simpa using h
      exact Or.inr ⟨fun a ha => hne a a ha (heq ▸ ha),heq⟩
    · rintro (⟨a,b,ha,hb,-⟩ | ⟨-,heq⟩)
      · exact absurd hb (hne a b ha)
      · simpa using heq

theorem sameBasic_symm {v1 v2 : EdbusBasic} (h : sameBasic v1 v2 = true) : sameBasic v2 v1 = true := by
  rw [sameBasic_iff] at h ⊢
  rcases h with ⟨a,b,rfl,rfl,hab⟩ | ⟨hne,rfl⟩
  · exact Or.inl ⟨b,a,rfl,rfl,doubleEq_comm a b ▸ hab⟩
  · exact Or.inr ⟨hne,rfl⟩

theorem sameBasic_trans {v1 v2 v3 : EdbusBasic} (h12 : sameBasic v1 v2 = true) (h23 : sameBasic v2 v3 = true) :
    sameBasic v1 v3 = true := by
  rw [sameBasic_iff] at h12
  rcases h12 with ⟨a,b,rfl,rfl,hab⟩ | ⟨-,rfl⟩
  · rw [sameBasic_iff] at h23
    rcases h23 with ⟨b',c,hb,rfl,hbc⟩ | ⟨hne,-⟩
    · cases hb
      exact sameBasic_iff.mpr (Or.inl ⟨a,c,rfl,rfl,doubleEq_trans hab hbc⟩)
    · exact absurd rfl (hne b)
  · exact h23

theorem sameBasic_refl {v : EdbusBasic} (h : noNaN (.basic v) = true) : sameBasic v v = true := by
  cases v with
  | double v => simpa [noNaN,sameBasic,doubleEq] using h
  | _ => simp [sameBasic]

theorem sameElements_cons {d1 d2 : EdbusData} {l1 l2 : List EdbusData} :
    sameElements (d1 :: l1) (d2 :: l2) = true ↔ sameContent d1 d2 = true ∧ sameElements l1 l2 = true := by
  rw [sameElements,Bool.and_eq_true]

theorem entriesIn_iff {l1 l2 : List EdbusDictEntry} :
    entriesIn l1 l2 = true ↔ ∀ e ∈ l1, ∃ e2 ∈ l2, sameEntry e e2 = true := by
  induction l1 with
  | nil => simp [entriesIn]
  | cons e l1 ih => simp [entriesIn,ih]

theorem entryAmong_iff {l1 : List EdbusDictEntry} {e2 : EdbusDictEntry} :
    entryAmong l1 e2 = true ↔ ∃ e ∈ l1, sameEntry e e2 = true := by
  induction l1 with
  | nil => simp [entryAmong]
  | cons e l1 ih => simp [entryAmong,ih]

theorem sameContent_dict {l1 l2 : List EdbusDictEntry} : sameContent (.dict l1) (.dict l2) = true ↔
    (∀ e ∈ l1, ∃ e2 ∈ l2, sameEntry e e2 = true) ∧ ∀ e2 ∈ l2, ∃ e ∈ l1, sameEntry e e2 = true := by
  rw [sameContent,Bool.and_eq_true,entriesIn_iff,List.all_eq_true]
  simp only [entryAmong_iff]

theorem sameEntry_iff {e1 e2 : EdbusDictEntry} : sameEntry e1 e2 = true ↔
    sameContent e1.key e2.key = true ∧ sameContent e1.value e2.value = true := by
  obtain ⟨key1,value1⟩ := e1
  obtain ⟨key2,value2⟩ := e2
  rw [sameEntry,Bool.and_eq_true]
  rfl

theorem sameElements_refl {lst : List EdbusData} (h : ∀ d ∈ lst, sameContent d d = true) :
    sameElements lst lst = true := by
  induction lst with
  | nil => rfl
  | cons d lst ih =>
    obtain ⟨hd,hlst⟩ := List.forall_mem_cons.mp h
    exact sameElements_cons.mpr ⟨hd,ih hlst⟩

theorem sameContent_refl {d : EdbusData} (h : noNaN d = true) : sameContent d d = true := by
  unfold noNaN at h
  induction d using EdbusData.induct with
  | basic v => exact sameBasic_refl h
  | array lst ih =>
    have hlst := (everywhere_array.mp h).2
    exact sameElements_refl (fun d hd => ih d hd (hlst d hd))
  | struct lst ih =>
    have hlst := (everywhere_struct.mp h).2
    exact sameElements_refl (fun d hd => ih d hd (hlst d hd))
  | dict lst ih =>
    have hlst := (everywhere_dict.mp h).2
    have hself : ∀ e ∈ lst, sameEntry e e = true := fun e he =>
      sameEntry_iff.mpr ⟨(ih e he).1 (hlst e he).1,(ih e he).2 (hlst e he).2⟩
    exact sameContent_dict.mpr ⟨fun e he => ⟨e,he,hself e he⟩,fun e he => ⟨e,he,hself e he⟩⟩
  | variant value ih => exact ih (everywhere_variant.mp h).2

theorem sameElements_symm {l1 l2 : List EdbusData}
    (ih : ∀ d ∈ l1, ∀ d2, sameContent d d2 = true → sameContent d2 d = true)
    (h : sameElements l1 l2 = true) : sameElements l2 l1 = true := by
  induction l1 generalizing l2 with
  | nil =>
    cases l2 with
    | nil => rfl
    | cons d2 l2 => cases h
  | cons d l1 ihl =>
    cases l2 with
    | nil => cases h
    | cons d2 l2 =>
      obtain ⟨hd,hl⟩ := sameElements_cons.mp h
      obtain ⟨ihd,ihl1⟩ := List.forall_mem_cons.mp ih
      exact sameElements_cons.mpr ⟨ihd d2 hd,ihl ihl1 hl⟩

theorem sameContent_symm {d1 d2 : EdbusData} (h : sameContent d1 d2 = true) : sameContent d2 d1 = true := by
  induction d1 using EdbusData.induct generalizing d2 with
  | basic v =>
    cases d2 with
    | basic v2 => exact sameBasic_symm h
    | _ => cases h
  | array l1 ih =>
    cases d2 with
    | array l2 => exact sameElements_symm (fun d hd _ hd2 => ih d hd hd2) h
    | _ => cases h
  | struct l1 ih =>
    cases d2 with
    | struct l2 => exact sameElements_symm (fun d hd _ hd2 => ih d hd hd2) h
    | _ => cases h
  | dict l1 ih =>
    cases d2 with
    | dict l2 =>
      have hflip : ∀ e ∈ l1, ∀ e2, sameEntry e e2 = true → sameEntry e2 e = true := by
        intro e he e2 h
        obtain ⟨hkey,hvalue⟩ := sameEntry_iff.mp h
        exact sameEntry_iff.mpr ⟨(ih e he).1 hkey,(ih e he).2 hvalue⟩
      obtain ⟨h12,h21⟩ := sameContent_dict.mp h
      refine sameContent_dict.mpr ⟨fun e2 he2 => ?_,fun e he => ?_⟩
      · obtain ⟨e,he,hsame⟩ := h21 e2 he2
        exact ⟨e,he,hflip e he e2 hsame⟩
      · obtain ⟨e2,he2,hsame⟩ := h12 e he
        exact ⟨e2,he2,hflip e he e2 hsame⟩
    | _ => cases h
  | variant value ih =>
    cases d2 with
    | variant value2 => exact ih h
    | _ => cases h

theorem sameElements_trans {l1 l2 l3 : List EdbusData}
    (ih : ∀ d ∈ l1, ∀ d2 d3, sameContent d d2 = true → sameContent d2 d3 = true → sameContent d d3 = true)
    (h12 : sameElements l1 l2 = true) (h23 : sameElements l2 l3 = true) : sameElements l1 l3 = true := by
  induction l1 generalizing l2 l3 with
  | nil =>
    cases l2 with
    | nil => exact h23
    | cons d2 l2 => cases h12
  | cons d l1 ihl =>
    cases l2 with
    | nil => cases h12
    | cons d2 l2 =>
      cases l3 with
      | nil => cases h23
      | cons d3 l3 =>
        obtain ⟨hd,hl⟩ := sameElements_cons.mp h12
        obtain ⟨hd2,hl2⟩ := sameElements_cons.mp h23
        obtain ⟨ihd,ihl1⟩ := List.forall_mem_cons.mp ih
        exact sameElements_cons.mpr ⟨ihd d2 d3 hd hd2,ihl ihl1 hl hl2⟩

theorem sameContent_trans {d1 d2 d3 : EdbusData} (h12 : sameContent d1 d2 = true)
    (h23 : sameContent d2 d3 = true) : sameContent d1 d3 = true := by
  induction d1 using EdbusData.induct generalizing d2 d3 with
  | basic v =>
    cases d2 with
    | basic v2 =>
      cases d3 with
      | basic v3 => exact sameBasic_trans h12 h23
      | _ => cases h23
    | _ => cases h12
  | array l1 ih =>
    cases d2 with
    | array l2 =>
      cases d3 with
      | array l3 => exact sameElements_trans (fun d hd _ _ h h' => ih d hd h h') h12 h23
      | _ => cases h23
    | _ => cases h12
  | struct l1 ih =>
    cases d2 with
    | struct l2 =>
      cases d3 with
      | struct l3 => exact sameElements_trans (fun d hd _ _ h h' => ih d hd h h') h12 h23
      | _ => cases h23
    | _ => cases h12
  | dict l1 ih =>
    cases d2 with
    | dict l2 =>
      cases d3 with
      | dict l3 =>
        have hjoin : ∀ e ∈ l1, ∀ e2 e3, sameEntry e e2 = true → sameEntry e2 e3 = true →
            sameEntry e e3 = true := by
          intro e he e2 e3 h h'
          obtain ⟨hkey,hvalue⟩ := sameEntry_iff.mp h
          obtain ⟨hkey',hvalue'⟩ := sameEntry_iff.mp h'
          exact sameEntry_iff.mpr ⟨(ih e he).1 hkey hkey',(ih e he).2 hvalue hvalue'⟩
        obtain ⟨h12,h21⟩ := sameContent_dict.mp h12
        obtain ⟨h23,h32⟩ := sameContent_dict.mp h23
        refine sameContent_dict.mpr ⟨fun e he => ?_,fun e3 he3 => ?_⟩
        · obtain ⟨e2,he2,hsame⟩ := h12 e he
          obtain ⟨e3,he3,hsame'⟩ := h23 e2 he2
          exact ⟨e3,he3,hjoin e he e2 e3 hsame hsame'⟩
        · obtain ⟨e2,he2,hsame'⟩ := h32 e3 he3
          obtain ⟨e,he,hsame⟩ := h21 e2 he2
          exact ⟨e,he,hjoin e he e2 e3 hsame hsame'⟩
      | _ => cases h23
    | _ => cases h12
  | variant value ih =>
    cases d2 with
    | variant value2 =>
      cases d3 with
      | variant value3 => exact ih h12 h23
      | _ => cases h23
    | _ => cases h12

end Edelib.Edbus
