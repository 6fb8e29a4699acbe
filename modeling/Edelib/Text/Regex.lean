import Edelib.Text.String

/-! # Texts are cut at the matches of an expression

The loop of `split` ends where there is no match, or where a second match is found from the same
position. Positions are of type `int`, so no more than 2^31 - 1 bytes can be cut.
-/
namespace Edelib.Text
open Foundation

structure RegexMatch where
  offset : ℤ
  length : ℤ

/-- What `pcre_exec` gives from a start position: a number, and the offsets where each subpattern
begins and ends. A match of the whole pattern is inside of the subject. -/
structure Pcre (str : CString) where
  exec : ℤ → ℤ × (ℕ → ℤ)
  inside : ∀ start, 1 ≤ (exec start).1 →
    0 ≤ (exec start).2 0 ∧ (exec start).2 0 ≤ (exec start).2 1 ∧ (exec start).2 1 ≤ str.strlen

namespace Regex
variable {str : CString}

/-- `Regex::match`; it is called `matchStr` here. -/
def matchStr (rx : Pcre str) (start : ℤ) : ℤ × List RegexMatch :=
  let (ret,ovector) := rx.exec start
  if ret < 1 then (ret,[])
  else (ret,(List.range ret.toNat).map (fun i => ⟨ovector (i * 2),ovector (i * 2 + 1) - ovector (i * 2)⟩))

def assigned (text : List UInt8) (len : ℕ) : Except Fault (List UInt8) :=
  if len < npos / 2 then
    if len ≤ text.length + 1 then .ok ((text ++ [STERM]).take len) else .error .outside
  else .error .assertion

/-- One iteration after another; where the loop does not end there is no result. -/
def splitLoop (rx : Pcre str) : ℕ → ℤ → ℤ → List (List UInt8) → Except Fault (Option (List (List UInt8)))
  | 0,_,_,_ => pure none
  | fuel + 1,pos,ppos,ls =>
    let (ret,found) := matchStr rx pos
    if ret < 1 then
      if pos > 0 then do
        let s ← assigned (str.bytes.drop pos.toNat) (sizeType (str.bytes.drop pos.toNat).length)
        pure (some (ls ++ [s]))
      else pure (some ls)
    else if ppos = pos then pure (some ls)
    else
      found.head?.elim (.error .outside) (fun it =>
        if it.offset < pos then splitLoop rx fuel pos pos ls
        else do
          let s ← assigned (str.bytes.drop pos.toNat) (sizeType (it.offset - pos).toNat)
          splitLoop rx fuel (it.offset + it.length) pos (ls ++ [s]))

def split (rx : Pcre str) (fuel : ℕ) (ls : List (List UInt8)) : Except Fault (Option (List (List UInt8))) :=
  splitLoop rx fuel 0 (-10) ls

/-! ## The matches -/

def first (rx : Pcre str) (pos : ℤ) : Option RegexMatch := (matchStr rx pos).2.head?

/-- The matches found one after another, each from the end of the one before, until there is none. -/
inductive Found (rx : Pcre str) : ℤ → List RegexMatch → Prop
  | nil {pos : ℤ} (h : first rx pos = none) : Found rx pos []
  | cons {pos : ℤ} {it : RegexMatch} {found : List RegexMatch} (h : first rx pos = some it)
      (hrest : Found rx (it.offset + it.length) found) : Found rx pos (it :: found)

inductive Reached (rx : Pcre str) : ℤ → Prop
  | start : Reached rx 0
  | next {pos : ℤ} {it : RegexMatch} (h : Reached rx pos) (hit : first rx pos = some it) :
      Reached rx (it.offset + it.length)

/-- No match that is reported is empty or begins before the position that is searched from. -/
def Proper (rx : Pcre str) : Prop := ∀ pos it, Reached rx pos → first rx pos = some it → pos ≤ it.offset ∧ 0 < it.length

def matched (str : CString) (it : RegexMatch) : List UInt8 := (str.bytes.drop it.offset.toNat).take it.length.toNat

def interleave : List (List UInt8) → List (List UInt8) → List UInt8
  | [],_ => []
  | piece :: pieces,[] => piece ++ interleave pieces []
  | piece :: pieces,sep :: seps => piece ++ sep ++ interleave pieces seps

/-! ## One iteration -/

variable {rx : Pcre str} {pos ppos : ℤ} {it : RegexMatch} {fuel : ℕ} {ls : List (List UInt8)}

/-- What is found first is inside of the text. -/
theorem first_cases (rx : Pcre str) (pos : ℤ) : ((matchStr rx pos).1 < 1 ∧ first rx pos = none) ∨
    ∃ it, ¬ (matchStr rx pos).1 < 1 ∧ first rx pos = some it ∧ 0 ≤ it.offset ∧ 0 ≤ it.length ∧
      it.offset + it.length ≤ str.strlen := by
  have hinside := rx.inside pos
  rw [first,matchStr]
  generalize rx.exec pos = r at hinside ⊢
  obtain ⟨ret,ovector⟩ := r
  dsimp only at hinside ⊢
  by_cases h : ret < 1
  · rw [if_pos h]
    exact Or.inl ⟨h,rfl⟩
  · obtain ⟨h0,h1,hlen⟩ := hinside (Int.not_lt.mp h)
    obtain ⟨n,hn⟩ : ∃ n, ret.toNat = n + 1 := ⟨ret.toNat - 1,by omega⟩
    rw [if_neg h,hn,List.range_succ_eq_map,List.map_cons,List.head?_cons]
    exact Or.inr ⟨⟨ovector 0,ovector 1 - ovector 0⟩,h,rfl,h0,by dsimp only; omega,by dsimp only; omega⟩

theorem splitLoop_none (h : first rx pos = none) : splitLoop rx (fuel + 1) pos ppos ls =
    if pos > 0 then do
      let s ← assigned (str.bytes.drop pos.toNat) (sizeType (str.bytes.drop pos.toNat).length)
      pure (some (ls ++ [s]))
    else pure (some ls) := by
  rcases first_cases rx pos with ⟨hret,-⟩ | ⟨it,-,hit,-⟩
  · rw [splitLoop]
    exact if_pos hret
  · rw [h] at hit
    cases hit

theorem splitLoop_some (h : first rx pos = some it) : splitLoop rx (fuel + 1) pos ppos ls =
    if ppos = pos then pure (some ls)
    else if it.offset < pos then splitLoop rx fuel pos pos ls
    else (do
      let s ← assigned (str.bytes.drop pos.toNat) (sizeType (it.offset - pos).toNat)
      splitLoop rx fuel (it.offset + it.length) pos (ls ++ [s])) := by
  rcases first_cases rx pos with ⟨-,hnone⟩ | ⟨it',hret,-⟩
  · rw [h] at hnone
    cases hnone
  · rw [splitLoop]
    dsimp only
    rw [if_neg hret]
    rw [first] at h
    rw [h]
    rfl

theorem assigned_eq {text : List UInt8} {n : ℕ} (hn : n ≤ text.length) (hmax : n < npos / 2) :
    assigned text (sizeType n) = .ok (text.take n) := by
  have hsize : sizeType n = n := Nat.mod_eq_of_lt (by rw [npos] at hmax; omega)
  rw [assigned,hsize,if_pos hmax,if_pos (Nat.le_succ_of_le hn),List.take_append_of_le_length hn]

/-! ## The loop ends -/

/-- Each iteration but the last two moves on. -/
theorem splitLoop_ends (hpos : 0 ≤ pos) (hle : pos ≤ str.strlen)
    (hfuel : str.strlen - pos + (if ppos = pos then 1 else 2) ≤ (fuel : ℤ)) :
    splitLoop rx fuel pos ppos ls ≠ .ok none ∧
      (str.strlen < npos / 2 → ∃ pieces, splitLoop rx fuel pos ppos ls = .ok (some pieces)) := by
  induction fuel generalizing pos ppos ls with
  | zero => split_ifs at hfuel <;> omega
  | succ fuel ih =>
    have hlength : (str.bytes.drop pos.toNat).length = str.strlen - pos.toNat := List.length_drop
    have hdone : (pure (some ls) : Except Fault (Option (List (List UInt8)))) ≠ .ok none ∧
        (str.strlen < npos / 2 → ∃ pieces, (pure (some ls) : Except Fault _) = .ok (some pieces)) :=
      ⟨fun h => (by cases h),fun _ => ⟨ls,rfl⟩⟩
    rcases first_cases rx pos with ⟨-,hnone⟩ | ⟨it,-,hit,h0,hl,hin⟩
    · rw [splitLoop_none hnone]
      by_cases h0 : pos > 0
      · rw [if_pos h0]
        constructor
        · intro h
          obtain ⟨s,-,h⟩ := of_bind_ok h
          cases h
        · intro hmax
          rw [assigned_eq (Nat.le_refl _) (by omega)]
          exact ⟨_,rfl⟩
      · rw [if_neg h0]
        exact hdone
    · rw [splitLoop_some hit]
      by_cases hsame : ppos = pos
      · rw [if_pos hsame]
        exact hdone
      rw [if_neg hsame] at hfuel ⊢
      by_cases hbefore : it.offset < pos
      · rw [if_pos hbefore]
        exact ih hpos hle (by rw [if_pos rfl]; omega)
      · have hnext : (str.strlen : ℤ) - (it.offset + it.length) + (if pos = it.offset + it.length then 1 else 2) ≤ fuel := by
          split_ifs <;> omega
        rw [if_neg hbefore]
        constructor
        · intro h
          obtain ⟨s,-,h⟩ := of_bind_ok h
          exact (ih (by omega) hin hnext).1 h
        · intro hmax
          rw [assigned_eq (by omega) (by omega),ok_bind]
          exact (ih (by omega) hin hnext).2 hmax

/-! ## The pieces -/

theorem bytes_split (hpos : 0 ≤ pos) (h : pos ≤ it.offset) (hl : 0 ≤ it.length) :
    (str.bytes.drop pos.toNat).take (it.offset - pos).toNat ++ matched str it ++
      str.bytes.drop (it.offset + it.length).toNat = str.bytes.drop pos.toNat := by
  have hoffset : it.offset.toNat = pos.toNat + (it.offset - pos).toNat := by omega
  have hnext : (it.offset + it.length).toNat = it.offset.toNat + it.length.toNat := by omega
  rw [matched,hnext,← List.drop_drop,List.append_assoc,List.take_append_drop,hoffset,← List.drop_drop,List.take_append_drop]

/-- From a position that is reached the rest is cut at the matches from there. -/
theorem splitLoop_cuts (hmax : str.strlen < 2147483648) (hproper : Proper rx) (hreached : Reached rx pos) (hpos : 0 ≤ pos)
    (hle : pos ≤ str.strlen) (hstart : 0 < pos ∨ first rx pos ≠ none) (hppos : ppos < pos)
    (hfuel : str.strlen - pos + 2 ≤ (fuel : ℤ)) :
    ∃ pieces found, splitLoop rx fuel pos ppos ls = .ok (some (ls ++ pieces)) ∧ Found rx pos found ∧
      pieces.length = found.length + 1 ∧ interleave pieces (found.map (matched str)) = str.bytes.drop pos.toNat := by
  induction fuel generalizing pos ppos ls with
  | zero => omega
  | succ fuel ih =>
    have hlength : (str.bytes.drop pos.toNat).length = str.strlen - pos.toNat := List.length_drop
    rcases first_cases rx pos with ⟨-,hnone⟩ | ⟨it,-,hit,h0,hl,hin⟩
    · have hpositive : pos > 0 := hstart.resolve_right (fun h => h hnone)
      refine ⟨[str.bytes.drop pos.toNat],[],?_,.nil hnone,rfl,?_⟩
      · rw [splitLoop_none hnone,if_pos hpositive,assigned_eq (Nat.le_refl _) (by rw [npos]; omega),List.take_length]
        rfl
      · rw [List.map_nil,interleave,interleave,List.append_nil]
    · obtain ⟨hafter,hne⟩ := hproper pos it hreached hit
      have hforward : pos < it.offset + it.length := by omega
      obtain ⟨pieces,found,hrun,hfound,hcount,hjoined⟩ := @ih (it.offset + it.length) pos
        (ls ++ [(str.bytes.drop pos.toNat).take (it.offset - pos).toNat]) (hreached.next hit) (by omega) hin
        (Or.inl (by omega)) hforward (by omega)
      refine ⟨(str.bytes.drop pos.toNat).take (it.offset - pos).toNat :: pieces,it :: found,?_,.cons hit hfound,?_,?_⟩
      · rw [splitLoop_some hit,if_neg (by omega),if_neg (by omega),assigned_eq (by omega) (by rw [npos]; omega),ok_bind,hrun,
          List.append_assoc,List.singleton_append]
      · rw [List.length_cons,List.length_cons,hcount]
      · rw [List.map_cons,interleave,hjoined]
        exact bytes_split hpos hafter hl

def once (str : CString) (o l : ℕ) (h : o + l ≤ str.strlen) : Pcre str where
  exec := fun start => (if start = 0 then 1 else -1,fun i => if i = 0 then o else o + l)
  inside := fun start _ => ⟨by simp,by simp,by simp; omega⟩

theorem first_once {o l : ℕ} (h : o + l ≤ str.strlen) :
    first (once str o l h) pos = if pos = 0 then some ⟨o,l⟩ else none := by
  by_cases h0 : pos = 0 <;> simp [first,matchStr,once,h0]

theorem proper_once {o l : ℕ} (h : o + l ≤ str.strlen) (hl : 0 < l) : Proper (once str o l h) := by
  intro pos it _ hit
  rw [first_once] at hit
  split_ifs at hit with h0
  cases hit
  dsimp only
  omega

/-- The loop ends; a text that is shorter than 2^31 is cut at the matches, if these are proper. -/
theorem split_cuts (str : CString) (rx : Pcre str) (ls : List (List UInt8)) :
    (split rx (str.strlen + 2) ls ≠ .ok none ∧
      (str.strlen < npos / 2 → ∃ pieces, split rx (str.strlen + 2) ls = .ok (some pieces))) ∧
    (str.strlen < 2147483648 → Proper rx → first rx 0 ≠ none →
      ∃ pieces found, split rx (str.strlen + 2) ls = .ok (some (ls ++ pieces)) ∧ Found rx 0 found ∧
        pieces.length = found.length + 1 ∧ interleave pieces (found.map (matched str)) = str.bytes) := by
  refine ⟨splitLoop_ends (Int.le_refl 0) (by omega) (by rw [if_neg (by decide)]; push_cast; omega),
    fun hmax hproper hfirst => ?_⟩
  exact splitLoop_cuts hmax hproper .start (Int.le_refl 0) (by omega) (Or.inr hfirst) (by decide) (by push_cast; omega)

/-- Two letters with a comma between them. -/
theorem split_cuts_comma : ∃ pieces found,
    split (once (.ofBuf [97,44,98]) 1 1 (by decide)) 5 [] = .ok (some ([] ++ pieces)) ∧
      Found (once (.ofBuf [97,44,98]) 1 1 (by decide)) 0 found ∧ pieces.length = found.length + 1 ∧
        interleave pieces (found.map (matched (.ofBuf [97,44,98]))) = [97,44,98] :=
  (split_cuts (.ofBuf [97,44,98]) (once _ 1 1 (by decide)) []).2 (by decide) (proper_once _ (by decide))
    (by rw [first_once]; exact Option.some_ne_none _)

/-- Behind the first of 2^31 bytes there are more than can be assigned. -/
theorem not_split_cuts : ¬ ∀ (str : CString) (rx : Pcre str) (ls : List (List UInt8)), Proper rx → first rx 0 ≠ none →
    ∃ pieces found, split rx (str.strlen + 2) ls = .ok (some (ls ++ pieces)) ∧ Found rx 0 found ∧
      pieces.length = found.length + 1 ∧ interleave pieces (found.map (matched str)) = str.bytes := by
  intro h
  obtain ⟨str,hstr⟩ : ∃ str : CString, str.bytes = List.replicate 2147483648 97 :=
    ⟨⟨List.replicate 2147483648 97,fun h => absurd (List.eq_of_mem_replicate h) (by decide)⟩,rfl⟩
  have hlen : str.strlen = 2147483648 := by rw [CString.strlen,hstr,List.length_replicate]
  have hin : 0 + 1 ≤ str.strlen := by omega
  obtain ⟨pieces,found,hsplit,-⟩ := h str (once str 0 1 hin) [] (proper_once hin Nat.zero_lt_one)
    (by rw [first_once]; exact Option.some_ne_none _)
  have hfirst : first (once str 0 1 hin) 0 = some ⟨0,1⟩ := by rw [first_once]; rfl
  have hnone : first (once str 0 1 hin) (0 + 1) = none := by rw [first_once]; rfl
  have hrest : (str.bytes.drop ((0 : ℤ) + 1).toNat).length = 2147483647 := by
    rw [List.length_drop,hstr,List.length_replicate]
    rfl
  have hrefused : assigned (str.bytes.drop ((0 : ℤ) + 1).toNat) (sizeType 2147483647) = .error .assertion :=
    if_neg (by decide)
  rw [split,splitLoop_some hfirst,if_neg (by decide),if_neg (by decide)] at hsplit
  dsimp only at hsplit
  rw [Int.sub_self,Int.toNat_zero,assigned_eq (Nat.zero_le _) (by decide),ok_bind,splitLoop_none hnone,if_pos (by decide),hrest,
    hrefused] at hsplit
  cases hsplit

end Regex
end Edelib.Text
