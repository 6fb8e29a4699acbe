import Edelib.Foundation.CString
import Edelib.Foundation.Separated
import Edelib.Netwm.Property

/-! # Names of the workspaces

Their number is one property and the names, one behind the other with a NUL between, are another.
The array is filled for the number, from wherever the lengths found before lead.
-/
namespace Edelib.Netwm
open Foundation Foundation.Separated Foundation.CInt

/-- What `strdup` gives, with the index from which it was copied. -/
@[ext] structure Copy where
  source : ℤ
  text : CString

/-- A null pointer is an entry too. -/
abbrev NamesArray := List (Option Copy)

/-- There is no property where it cannot be had; its first element is read without asking for the size. -/
def netwmWorkspaceGetCount (desktops : Option (List (BitVec 64))) : Option ℤ :=
  desktops.elim (pure (-1)) (fun prop => do
    let ns ← element prop 0
    pure (ns.setWidth 32).toInt)

/-- The string at an index. Reading starts at a byte of the property or at the NUL behind. -/
def stringAt (content : List UInt8) (p : ℤ) : Option CString :=
  if 0 ≤ p ∧ p ≤ content.length then some (CString.ofBuf (content.drop p.toNat)) else none

/-- The entries from the one for index `p` on, with the null pointer as the last. There are none where
something is read outside and where `len + 1` is no `int`. -/
def copyNames (content : List UInt8) : ℕ → ℤ → Option NamesArray
  | 0,_ => pure [none]
  | k + 1,p => do
    let text ← stringAt content p
    let len := ofSize text.strlen
    if len + 1 > INT_MAX then none
    else do
      let rest ← copyNames content k (p + (len + 1))
      pure (some ⟨p,text⟩ :: rest)

def netwmWorkspaceGetNames (desktops : Option (List (BitVec 64))) (names : Option (List UInt8)) :
    Option (ℤ × Option NamesArray) := do
  let wc ← netwmWorkspaceGetCount desktops
  if wc ≤ 0 then pure (0,none)
  else names.elim (pure (wc,none)) (fun content =>
    if wc + 1 > INT_MAX then none
    else do
      let entries ← copyNames content wc.toNat 0
      pure (wc,some entries))

/-- The strings that are freed, in turn; nothing is read behind the last entry. -/
def netwmWorkspaceFreeNames : NamesArray → Option (List Copy)
  | [] => none
  | none :: _ => pure []
  | some copy :: entries => do
    let rest ← netwmWorkspaceFreeNames entries
    pure (copy :: rest)

/-! ## The law and the condition -/

def namesOf (content : List UInt8) : List (List UInt8) := content.splitOn 0

/-- A copy of name number `i`, or an empty one where there is no such name. -/
def nameAt (content : List UInt8) (i : ℕ) : Copy :=
  ⟨offset (namesOf content) i,CString.ofBuf ((namesOf content).getD i [])⟩

def listing (content : List UInt8) (i k : ℕ) : NamesArray :=
  (List.range' i k).map (fun j => some (nameAt content j)) ++ [none]

/-- The call returns, and without an array only for no entries; an array has as many entries as are
returned, each the name of its number, and a null pointer behind them. -/
def Named (desktops : Option (List (BitVec 64))) (names : Option (List UInt8)) : Prop :=
  netwmWorkspaceGetNames desktops names = some (0,none) ∨
    ∃ count : ℕ, 0 < count ∧ ∃ content ∈ names,
      netwmWorkspaceGetNames desktops names = some ((count : ℤ),some (listing content 0 count))

/-- There are so many names, those before the last of them have lengths that with one more are an `int`,
and the last one has not the one length for which this fails. -/
def Covers (names : List (List UInt8)) (count : ℕ) : Prop :=
  count ≤ names.length ∧ (∀ name ∈ names.take (count - 1), (name.length : ℤ) < INT_MAX) ∧
    ofSize (names.getD (count - 1) []).length ≠ INT_MAX

/-- The number is not positive, or one more is an `int` and the names cover it. -/
def Meets (desktops : Option (List (BitVec 64))) (names : Option (List UInt8)) : Prop :=
  ∃ wc, netwmWorkspaceGetCount desktops = some wc ∧
    (wc ≤ 0 ∨ wc < INT_MAX ∧ ∃ content ∈ names, Covers (namesOf content) wc.toNat)

variable {content : List UInt8} {i k : ℕ} {p : ℤ}

/-! ## One name -/

/-- A string in the property is the first of the names from there on. -/
theorem ofBuf_splitOn {str first : List UInt8} {rest : List (List UInt8)} (h : str.splitOn 0 = first :: rest) :
    CString.ofBuf str = CString.ofBuf first ∧ (0 : UInt8) ∉ first := by
  obtain ⟨hstr,hsplit⟩ | ⟨first',rest',hfirst,rfl,hsplit⟩ := splitOn_cases 0 str
  · cases hsplit.symm.trans h
    exact ⟨rfl,hstr⟩
  · cases hsplit.symm.trans h
    exact ⟨CString.ofBuf_append_nul _ _,hfirst⟩

theorem drop_namesOf (h : i < (namesOf content).length) :
    (content.drop (offset (namesOf content) i)).splitOn 0 = (namesOf content)[i] :: (namesOf content).drop (i + 1) :=
  (splitOn_drop 0 content h).trans (List.drop_eq_getElem_cons h)

theorem nameAt_text (h : i < (namesOf content).length) : (nameAt content i).text.bytes = (namesOf content)[i] := by
  have hget : (namesOf content).getD i [] = (namesOf content)[i] := by
    rw [List.getD_eq_getElem?_getD,List.getElem?_eq_getElem h,Option.getD_some]
  rw [nameAt,hget,CString.ofBuf_eq (ofBuf_splitOn (drop_namesOf h)).2]

theorem stringAt_offset (h : i < (namesOf content).length) :
    stringAt content (offset (namesOf content) i) = some (nameAt content i).text := by
  have hle : offset (namesOf content) i ≤ content.length := (offset_le_iff 0 content i).mpr h
  obtain ⟨hfirst,hnul⟩ := ofBuf_splitOn (drop_namesOf h)
  rw [stringAt,if_pos ⟨Int.natCast_nonneg _,Int.ofNat_le.mpr hle⟩,Int.toNat_natCast,hfirst]
  refine congrArg some (CString.ext ?_)
  rw [CString.ofBuf_eq hnul,nameAt_text h]

theorem stringAt_none (h : (namesOf content).length ≤ i) : stringAt content (offset (namesOf content) i) = none := by
  have hlt := mt (offset_le_iff 0 content i).mp (Nat.not_lt.mpr h)
  exact if_neg (fun hle => hlt (Int.ofNat_le.mp hle.2))

/-! ## The entries -/

theorem copyNames_succ (h : i < (namesOf content).length) (k : ℕ) :
    copyNames content (k + 1) (offset (namesOf content) i) =
      if ofSize (namesOf content)[i].length + 1 > INT_MAX then none
      else (copyNames content k (offset (namesOf content) i + (ofSize (namesOf content)[i].length + 1))).map
        (some (nameAt content i) :: ·) := by
  have hlen : (nameAt content i).text.strlen = (namesOf content)[i].length := congrArg List.length (nameAt_text h)
  rw [copyNames,stringAt_offset h]
  show (if ofSize (nameAt content i).text.strlen + 1 > INT_MAX then none else _) = _
  rw [hlen]
  split_ifs with hmax
  · rfl
  · exact Option.map_eq_bind.symm

/-- An entry is copied from where the reading has come. -/
theorem copyNames_source {copy : Copy} {entries : NamesArray} (h : copyNames content (k + 1) p = some (some copy :: entries)) :
    copy.source = p := by
  obtain ⟨text,-,h⟩ := Option.bind_eq_some_iff.mp h
  dsimp only at h
  split_ifs at h
  obtain ⟨rest,-,h⟩ := Option.bind_eq_some_iff.mp h
  cases h
  rfl

theorem listing_succ (content : List UInt8) (i k : ℕ) :
    listing content i (k + 1) = some (nameAt content i) :: listing content (i + 1) k := by
  rw [listing,List.range'_succ,List.map_cons,List.cons_append,listing]

variable {name : List UInt8} {names : List (List UInt8)}

theorem covers_one : Covers (name :: names) 1 ↔ ofSize name.length ≠ INT_MAX := by
  simp [Covers]

theorem covers_cons : Covers (name :: names) (k + 2) ↔ (name.length : ℤ) < INT_MAX ∧ Covers names (k + 1) := by
  have hlen : k + 2 ≤ names.length + 1 ↔ k + 1 ≤ names.length := by omega
  show (k + 2 ≤ names.length + 1 ∧ (∀ x ∈ name :: names.take k, (x.length : ℤ) < INT_MAX) ∧
    ofSize (names.getD k []).length ≠ INT_MAX) ↔ _
  rw [List.forall_mem_cons,hlen,and_assoc]
  exact and_left_comm

theorem not_covers_nil : ¬ Covers [] (k + 1) := fun h => absurd h.1 (Nat.not_succ_le_zero k)

/-- Behind the names nothing is copied, and nothing covers an entry. -/
theorem copyNames_behind (h : (namesOf content).length ≤ i) (k : ℕ) :
    copyNames content (k + 1) (offset (namesOf content) i) = some (listing content i (k + 1)) ↔
      Covers ((namesOf content).drop i) (k + 1) := by
  have hnone : copyNames content (k + 1) (offset (namesOf content) i) = none := by
    rw [copyNames,stringAt_none h]
    rfl
  rw [hnone,List.drop_eq_nil_of_le h]
  exact iff_of_false (Option.some_ne_none _).symm not_covers_nil

/-- The entries are the names from number `i` on if and only if these cover them. -/
theorem copyNames_iff (content : List UInt8) (k i : ℕ) :
    copyNames content (k + 1) (offset (namesOf content) i) = some (listing content i (k + 1)) ↔
      Covers ((namesOf content).drop i) (k + 1) := by
  induction k generalizing i with
  | zero =>
    by_cases h : i < (namesOf content).length
    · have hmax := ofSize_le_max (namesOf content)[i].length
      rw [copyNames_succ h,listing_succ,List.drop_eq_getElem_cons h,covers_one]
      split_ifs with hgt
      · exact iff_of_false not_false (by omega)
      · exact iff_of_true rfl (by omega)
    · exact copyNames_behind (Nat.le_of_not_lt h) _
  | succ k ih =>
    by_cases h : i < (namesOf content).length
    · have hmax := ofSize_le_max (namesOf content)[i].length
      have hnext := offset_succ (namesOf content) h
      rw [copyNames_succ h,listing_succ,List.drop_eq_getElem_cons h,covers_cons,← ih (i + 1)]
      split_ifs with hgt
      · refine iff_of_false not_false (fun hcover => ?_)
        rw [ofSize_of_le_max hcover.1.le] at hgt
        omega
      · constructor
        · intro hmap
          obtain ⟨entries,hentries,hcons⟩ := Option.map_eq_some_iff.mp hmap
          cases hcons
          -- The next entry is a copy from where name number `i + 1` begins, so the length was an `int`.
          have hsource := copyNames_source ((listing_succ content (i + 1) k) ▸ hentries)
          have hplace : (nameAt content (i + 1)).source = offset (namesOf content) (i + 1) := rfl
          have hint : ofSize (namesOf content)[i].length = (namesOf content)[i].length := by omega
          refine ⟨by omega,?_⟩
          rw [hplace] at hsource
          rw [hsource]
          exact hentries
        · rintro ⟨hlt,hcopy⟩
          rw [ofSize_of_le_max hlt.le]
          have hplace : ((offset (namesOf content) i : ℕ) : ℤ) + ((namesOf content)[i].length + 1) =
              (offset (namesOf content) (i + 1) : ℕ) := by omega
          rw [hplace,hcopy]
          rfl
    · exact copyNames_behind (Nat.le_of_not_lt h) _

/-! ## The call -/

variable {desktops : Option (List (BitVec 64))} {prop : Option (List UInt8)} {wc : ℤ}

theorem netwmWorkspaceGetNames_of_count (h : netwmWorkspaceGetCount desktops = some wc) :
    netwmWorkspaceGetNames desktops prop =
      if wc ≤ 0 then some (0,none)
      else prop.elim (some (wc,none)) (fun content =>
        if wc + 1 > INT_MAX then none else (copyNames content wc.toNat 0).bind (fun entries => some (wc,some entries))) := by
  rw [netwmWorkspaceGetNames,h]
  rfl

/-- With the names there is an array for a positive number if one more is an `int` and all is copied. -/
theorem netwmWorkspaceGetNames_content (h : netwmWorkspaceGetCount desktops = some wc) (hpos : 0 < wc)
    {r : ℤ × Option NamesArray} :
    netwmWorkspaceGetNames desktops (some content) = some r ↔
      wc < INT_MAX ∧ ∃ entries, copyNames content wc.toNat 0 = some entries ∧ (wc,some entries) = r := by
  rw [netwmWorkspaceGetNames_of_count h,if_neg (by omega),Option.elim_some]
  split_ifs with hmax
  · exact iff_of_false not_false (fun hr => absurd hr.1 (by omega))
  · rw [Option.bind_eq_some_iff,and_iff_right (by omega)]
    simp only [Option.some_inj]

theorem copyNames_covers (content : List UInt8) {count : ℕ} (h : 0 < count) :
    copyNames content count 0 = some (listing content 0 count) ↔ Covers (namesOf content) count := by
  obtain ⟨k,rfl⟩ := Nat.exists_eq_succ_of_ne_zero h.ne'
  exact copyNames_iff content k 0

/-- Everything that is read is inside, and as many names as are returned are given with a null pointer
behind, if and only if the names cover the number. -/
theorem named_iff (desktops : Option (List (BitVec 64))) (names : Option (List UInt8)) :
    Named desktops names ↔ Meets desktops names := by
  rw [Named,Meets]
  cases hcount : netwmWorkspaceGetCount desktops with
  | none =>
    have hnone : netwmWorkspaceGetNames desktops names = none := by
      rw [netwmWorkspaceGetNames,hcount]
      rfl
    simp [hnone]
  | some wc =>
    by_cases hle : wc ≤ 0
    · exact iff_of_true (Or.inl ((netwmWorkspaceGetNames_of_count hcount).trans (if_pos hle))) ⟨wc,rfl,Or.inl hle⟩
    · have hwc : ((wc.toNat : ℕ) : ℤ) = wc := Int.toNat_of_nonneg (by omega)
      cases names with
      | none =>
        rw [netwmWorkspaceGetNames_of_count hcount,if_neg hle]
        simp
        omega
      | some content =>
        constructor
        · rintro (h | ⟨count,hpos,content',hmem,h⟩)
          · obtain ⟨-,entries,-,hpair⟩ := (netwmWorkspaceGetNames_content hcount (by omega)).mp h
            cases hpair
          · cases hmem
            obtain ⟨hmax,entries,hcopy,hpair⟩ := (netwmWorkspaceGetNames_content hcount (by omega)).mp h
            cases hpair
            exact ⟨_,rfl,Or.inr ⟨hmax,content,rfl,(copyNames_covers content hpos).mp hcopy⟩⟩
        · rintro ⟨wc',hwc',hcond⟩
          cases hwc'
          obtain ⟨hmax,content',hmem,hcovers⟩ := hcond.resolve_left hle
          cases hmem
          have hcopy := (copyNames_covers content (by omega)).mpr hcovers
          exact Or.inr ⟨wc.toNat,by omega,content,rfl,
            (netwmWorkspaceGetNames_content hcount (by omega)).mpr ⟨hmax,_,hcopy,by rw [hwc]⟩⟩

/-- One name for two workspaces: the second is read behind the NUL of the first. -/
theorem not_named : ¬ ∀ (value : BitVec 64) (content : List UInt8), Named (some [value]) (some content) := by
  intro h
  have hfault : netwmWorkspaceGetNames (some [2]) (some [97]) = none := by decide
  obtain hzero | ⟨count,-,content,-,hlist⟩ := h 2 [97]
  · cases hfault.symm.trans hzero
  · cases hfault.symm.trans hlist

/-! ## Freeing -/

/-- All strings of an array that was given are freed. -/
theorem netwmWorkspaceFreeNames_listing (content : List UInt8) (i k : ℕ) :
    netwmWorkspaceFreeNames (listing content i k) = some ((List.range' i k).map (nameAt content)) := by
  induction k generalizing i with
  | zero => rfl
  | succ k ih =>
    rw [listing_succ,netwmWorkspaceFreeNames,ih,List.range'_succ,List.map_cons]
    rfl

end Edelib.Netwm
