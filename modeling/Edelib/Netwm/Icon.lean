import Edelib.Foundation.Bytes
import Edelib.Netwm.Property

/-! # Icons of a window

The property holds one icon after another, each with its width and height in front, as its client has
set them. What is behind an icon is found by 32-bit numbers, and neither it nor the pixels of the icon
that is chosen are compared with the length.
-/
namespace Edelib.Netwm
open Foundation Foundation.CInt

/-- Where the pixels of an icon begin, with what was found as its width and height. -/
structure Icon where
  width : BitVec 32
  height : BitVec 32
  start : ℤ
deriving DecidableEq

/-- `width * height`. -/
def Icon.pixels (icon : Icon) : ℕ := (icon.width * icon.height).toNat

/-- The loop from index `i`. There is no result where it reads outside, where `i + 2` is no `int`, and
where it does not end. -/
def findBestIconLoop (data : List (BitVec 64)) (n : ℤ) (reqW : BitVec 32) (ret : Icon) : ℕ → ℤ → Option Icon
  | 0,_ => none
  | fuel + 1,i =>
    if i + 2 > INT_MAX then none
    else if i + 2 < n then do
      let w ← element data i
      let h ← element data (i + 1)
      if w.setWidth 32 = reqW then pure ⟨w.setWidth 32,h.setWidth 32,i + 2⟩
      else findBestIconLoop data n reqW ret fuel (BitVec.ofInt 32 (i + 2) + w.setWidth 32 * h.setWidth 32).toInt
    else pure ret

/-- `NULL` is given for fewer than four elements. -/
def findBestIcon (fuel : ℕ) (data : List (BitVec 64)) (n : ℤ) (reqW : BitVec 32) : Option (Option Icon) :=
  if n > 3 then do
    let w ← element data 0
    let h ← element data 1
    let ret : Icon := ⟨w.setWidth 32,h.setWidth 32,2⟩
    if reqW = 0 then pure (some ret)
    else do
      let icon ← findBestIconLoop data n reqW ret fuel 0
      pure (some icon)
  else pure none

/-- `k` pixels are copied, the first of them number `i`, to a buffer of `size` bytes. -/
def copyPixels (data : List (BitVec 64)) (start : ℤ) (size : ℕ) : ℕ → ℕ → List UInt8 → Option (List UInt8)
  | 0,_,img => pure img
  | k + 1,i,img => do
    let pixel ← element data (start + i)
    if img.length + 4 ≤ size then
      copyPixels data start size k (i + 1)
        (img ++ [ByteOrder.byte pixel 2,ByteOrder.byte pixel 1,ByteOrder.byte pixel 0,ByteOrder.byte pixel 3])
    else none

def netwmWindowGetIcon (fuel : ℕ) (data : List (BitVec 64)) (requestedWidth : BitVec 32) :
    Option (Option (Icon × List UInt8)) :=
  if data.length ≤ 2 then pure none
  else do
    let found ← findBestIcon fuel data (ofSize data.length) requestedWidth
    found.elim (pure none) (fun icon => do
      let img ← copyPixels data icon.start (icon.width * icon.height * 4).toNat icon.pixels 0 []
      pure (some (icon,img)))

/-! ## The law and the condition -/

/-- The search ends and what it selects is in the property; the pixels are in the property and in the
buffer. -/
def InBounds (data : List (BitVec 64)) (requestedWidth : BitVec 32) : Prop :=
  ∃ fuel found r, findBestIcon fuel data (ofSize data.length) requestedWidth = some found ∧
    (∀ icon ∈ found, 0 ≤ icon.start ∧ icon.start + icon.pixels ≤ data.length) ∧
      netwmWindowGetIcon fuel data requestedWidth = some r

def iconAt (data : List (BitVec 64)) (i : ℤ) : Icon :=
  ⟨(data.getD i.toNat 0).setWidth 32,(data.getD (i.toNat + 1) 0).setWidth 32,i + 2⟩

def behind (data : List (BitVec 64)) (i : ℤ) : ℤ :=
  (BitVec.ofInt 32 (i + 2) + (iconAt data i).width * (iconAt data i).height).toInt

def header (data : List (BitVec 64)) (k : ℕ) : ℤ := (behind data)^[k] 0

def Other (data : List (BitVec 64)) (n : ℤ) (reqW : BitVec 32) (i : ℤ) : Prop :=
  0 ≤ i ∧ i + 2 < n ∧ (iconAt data i).width ≠ reqW

/-- The icon at index `i` has the width, or no icon is behind `i` and the first one is taken. -/
def Chosen (data : List (BitVec 64)) (n : ℤ) (reqW : BitVec 32) (i : ℤ) (icon : Icon) : Prop :=
  (0 ≤ i ∧ i + 2 < n ∧ (iconAt data i).width = reqW ∧ icon = iconAt data i) ∨
    (n ≤ i + 2 ∧ i + 2 ≤ INT_MAX ∧ icon = iconAt data 0)

/-- The icon of that width, all before it having another one; the first for width 0. -/
def Asked (data : List (BitVec 64)) (n : ℤ) (reqW : BitVec 32) (icon : Icon) : Prop :=
  if reqW = 0 then icon = iconAt data 0
  else ∃ k, (∀ j < k, Other data n reqW (header data j)) ∧ Chosen data n reqW (header data k) icon

/-- Fewer than four elements are given, or the icon that is asked for has all its pixels, which are
fewer than 2^30. -/
def Complete (data : List (BitVec 64)) (requestedWidth : BitVec 32) : Prop :=
  ofSize data.length ≤ 3 ∨
    ∃ icon, Asked data (ofSize data.length) requestedWidth icon ∧
      icon.start + icon.pixels ≤ data.length ∧ icon.pixels < 1073741824

/-! ## The search -/

variable {data : List (BitVec 64)} {n : ℤ} {reqW : BitVec 32} {ret : Icon} {i : ℤ}

theorem iconAt_start (data : List (BitVec 64)) (i : ℤ) : (iconAt data i).start = i + 2 := rfl

theorem findBestIconLoop_other (hn : n ≤ data.length) (hmax : n ≤ INT_MAX) (h : Other data n reqW i) (fuel : ℕ) :
    findBestIconLoop data n reqW ret (fuel + 1) i = findBestIconLoop data n reqW ret fuel (behind data i) := by
  obtain ⟨h0,hin,hw⟩ := h
  have hsucc : (i + 1).toNat = i.toNat + 1 := by omega
  rw [findBestIconLoop,if_neg (by omega),if_pos hin,element_eq h0 (by omega),element_eq (by omega) (by omega),hsucc]
  exact if_neg hw

theorem findBestIconLoop_chosen (hn : n ≤ data.length) (hmax : n ≤ INT_MAX) {icon : Icon}
    (h : Chosen data n reqW i icon) (fuel : ℕ) :
    findBestIconLoop data n reqW (iconAt data 0) (fuel + 1) i = some icon := by
  obtain ⟨h0,hin,hw,rfl⟩ | ⟨hout,hle,rfl⟩ := h
  · have hsucc : (i + 1).toNat = i.toNat + 1 := by omega
    rw [findBestIconLoop,if_neg (by omega),if_pos hin,element_eq h0 (by omega),element_eq (by omega) (by omega),hsucc]
    exact if_pos hw
  · rw [findBestIconLoop,if_neg (by omega),if_neg (by omega)]
    rfl

/-- What one round can do when there is a result. -/
theorem findBestIconLoop_cases (hn : n ≤ data.length) (hmax : n ≤ INT_MAX) {icon : Icon} {fuel : ℕ}
    (h : findBestIconLoop data n reqW (iconAt data 0) (fuel + 1) i = some icon) :
    Chosen data n reqW i icon ∨
      (Other data n reqW i ∧ findBestIconLoop data n reqW (iconAt data 0) fuel (behind data i) = some icon) := by
  by_cases hin : i + 2 < n
  · by_cases h0 : 0 ≤ i
    · by_cases hw : (iconAt data i).width = reqW
      · have hc : Chosen data n reqW i (iconAt data i) := Or.inl ⟨h0,hin,hw,rfl⟩
        rw [findBestIconLoop_chosen hn hmax hc,Option.some_inj] at h
        exact Or.inl (h ▸ hc)
      · rw [findBestIconLoop_other hn hmax ⟨h0,hin,hw⟩] at h
        exact Or.inr ⟨⟨h0,hin,hw⟩,h⟩
    · rw [findBestIconLoop,if_neg (by omega),if_pos hin,element_none (by omega)] at h
      cases h
  · by_cases hle : i + 2 ≤ INT_MAX
    · have hc : Chosen data n reqW i (iconAt data 0) := Or.inr ⟨by omega,hle,rfl⟩
      rw [findBestIconLoop_chosen hn hmax hc,Option.some_inj] at h
      exact Or.inl (h ▸ hc)
    · rw [findBestIconLoop,if_pos (by omega)] at h
      cases h

theorem findBestIconLoop_iff (hn : n ≤ data.length) (hmax : n ≤ INT_MAX) {icon : Icon} :
    (∃ fuel, findBestIconLoop data n reqW (iconAt data 0) fuel i = some icon) ↔
      ∃ k, (∀ j < k, Other data n reqW ((behind data)^[j] i)) ∧ Chosen data n reqW ((behind data)^[k] i) icon := by
  constructor
  · rintro ⟨fuel,h⟩
    induction fuel generalizing i with
    | zero => cases h
    | succ fuel ih =>
      obtain hc | ⟨ho,h⟩ := findBestIconLoop_cases hn hmax h
      · exact ⟨0,fun j hj => absurd hj (Nat.not_lt_zero j),hc⟩
      · obtain ⟨k,hother,hc⟩ := ih h
        refine ⟨k + 1,fun j hj => ?_,hc⟩
        cases j with
        | zero => exact ho
        | succ j => exact hother j (Nat.lt_of_succ_lt_succ hj)
  · rintro ⟨k,hother,hc⟩
    induction k generalizing i with
    | zero => exact ⟨1,findBestIconLoop_chosen hn hmax hc 0⟩
    | succ k ih =>
      obtain ⟨fuel,h⟩ := ih (fun j hj => hother (j + 1) (Nat.succ_lt_succ hj)) hc
      exact ⟨fuel + 1,(findBestIconLoop_other hn hmax (hother 0 (Nat.succ_pos k)) fuel).trans h⟩

theorem findBestIcon_none (h : n ≤ 3) (fuel : ℕ) : findBestIcon fuel data n reqW = some none := if_neg (by omega)

theorem findBestIcon_eq (hn3 : 3 < n) (hn : n ≤ data.length) (fuel : ℕ) :
    findBestIcon fuel data n reqW =
      if reqW = 0 then some (some (iconAt data 0))
      else (findBestIconLoop data n reqW (iconAt data 0) fuel 0).map some := by
  rw [findBestIcon,if_pos hn3,element_eq (by omega) (by omega),element_eq (by omega) (by omega)]
  show (if reqW = 0 then _ else _) = _
  split_ifs with h
  · rfl
  · exact Option.map_eq_bind.symm

theorem findBestIcon_iff (hn3 : 3 < n) (hn : n ≤ data.length) (hmax : n ≤ INT_MAX) {found : Option Icon} :
    (∃ fuel, findBestIcon fuel data n reqW = some found) ↔ ∃ icon, found = some icon ∧ Asked data n reqW icon := by
  simp only [findBestIcon_eq hn3 hn,Asked]
  split_ifs with h
  · simp only [Option.some_inj,exists_const,exists_eq_right]
    exact eq_comm
  · constructor
    · rintro ⟨fuel,hloop⟩
      obtain ⟨icon,hicon,rfl⟩ := Option.map_eq_some_iff.1 hloop
      exact ⟨icon,rfl,(findBestIconLoop_iff hn hmax).1 ⟨fuel,hicon⟩⟩
    · rintro ⟨icon,rfl,hasked⟩
      obtain ⟨fuel,hicon⟩ := (findBestIconLoop_iff hn hmax).2 hasked
      exact ⟨fuel,Option.map_eq_some_iff.2 ⟨icon,hicon,rfl⟩⟩

theorem Asked.start_nonneg {icon : Icon} (h : Asked data n reqW icon) : 0 ≤ icon.start := by
  rw [Asked] at h
  split_ifs at h with hz
  · rw [h,iconAt_start]
    omega
  · obtain ⟨k,-,⟨h0,-,-,rfl⟩ | ⟨-,-,rfl⟩⟩ := h
    all_goals
      rw [iconAt_start]
      omega

/-! ## The pixels -/

theorem copyPixels_iff {start : ℤ} (h0 : 0 ≤ start) (size k i : ℕ) (img : List UInt8) :
    (∃ r, copyPixels data start size k i img = some r) ↔
      k = 0 ∨ (start + i + k ≤ data.length ∧ img.length + 4 * k ≤ size) := by
  induction k generalizing i img with
  | zero => exact ⟨fun _ => Or.inl rfl,fun _ => ⟨img,rfl⟩⟩
  | succ k ih =>
    rw [or_iff_right (Nat.succ_ne_zero k)]
    by_cases hlt : start + i < data.length
    · rw [copyPixels,element_eq (by omega) hlt]
      show (∃ r, (if img.length + 4 ≤ size then _ else _) = some r) ↔ _
      split_ifs with hsize
      · rw [ih,List.length_append,List.length_cons,List.length_cons,List.length_cons,List.length_singleton]
        push_cast
        omega
      · refine iff_of_false ?_ (by omega)
        rintro ⟨r,hr⟩
        cases hr
    · rw [copyPixels,element_none (by omega)]
      refine iff_of_false ?_ (by omega)
      rintro ⟨r,hr⟩
      cases hr

/-- The buffer has four bytes for each pixel unless there are 2^30 of them. -/
theorem Icon.pixels_fit_iff (icon : Icon) :
    4 * icon.pixels ≤ (icon.width * icon.height * 4).toNat ↔ icon.pixels < 1073741824 := by
  rw [BitVec.toNat_mul,Icon.pixels]
  show 4 * (icon.width * icon.height).toNat ≤ (icon.width * icon.height).toNat * 4 % 4294967296 ↔ _
  omega

/-- Every index is inside, the selected pixels are, and the buffer is never exceeded, if and only if the
icon that is asked for is complete and smaller than 2^30 pixels. -/
theorem inBounds_iff (data : List (BitVec 64)) (requestedWidth : BitVec 32) :
    InBounds data requestedWidth ↔ Complete data requestedWidth := by
  have hn : ofSize data.length ≤ data.length := ofSize_le data.length
  have hmax : ofSize data.length ≤ INT_MAX := ofSize_le_max data.length
  rw [InBounds,Complete]
  by_cases hn3 : ofSize data.length ≤ 3
  · refine iff_of_true ⟨0,none,none,findBestIcon_none hn3 0,fun icon h => ?_,?_⟩ (Or.inl hn3)
    · cases h
    · rw [netwmWindowGetIcon,findBestIcon_none hn3]
      exact ite_self (pure none)
  · have hlong : ¬ data.length ≤ 2 := by omega
    rw [or_iff_right hn3]
    constructor
    · rintro ⟨fuel,found,r,hfound,hinside,hget⟩
      obtain ⟨icon,rfl,hasked⟩ := (findBestIcon_iff (by omega) hn hmax).1 ⟨fuel,hfound⟩
      rw [netwmWindowGetIcon,if_neg hlong,hfound] at hget
      obtain ⟨img,hcopy,-⟩ : ∃ img, copyPixels data icon.start (icon.width * icon.height * 4).toNat icon.pixels 0 [] =
          some img ∧ some (some (icon,img)) = some r := Option.bind_eq_some_iff.1 hget
      have hfit := (copyPixels_iff hasked.start_nonneg _ _ _ _).1 ⟨img,hcopy⟩
      refine ⟨icon,hasked,(hinside icon rfl).2,?_⟩
      obtain hzero | ⟨-,hsize⟩ := hfit
      · omega
      · exact icon.pixels_fit_iff.1 ((Nat.zero_add _).symm.trans_le hsize)
    · rintro ⟨icon,hasked,hinside,hlt⟩
      obtain ⟨fuel,hfound⟩ := (findBestIcon_iff (by omega) hn hmax).2 ⟨icon,rfl,hasked⟩
      have hend : icon.start + (0 : ℕ) + icon.pixels ≤ data.length := by omega
      obtain ⟨img,hcopy⟩ := (copyPixels_iff hasked.start_nonneg (icon.width * icon.height * 4).toNat icon.pixels 0 []).2
        (Or.inr ⟨hend,(Nat.zero_add _).trans_le (icon.pixels_fit_iff.2 hlt)⟩)
      refine ⟨fuel,some icon,some (icon,img),hfound,fun i hi => ?_,?_⟩
      · cases hi
        exact ⟨hasked.start_nonneg,hinside⟩
      · rw [netwmWindowGetIcon,if_neg hlong,hfound]
        show (copyPixels data icon.start (icon.width * icon.height * 4).toNat icon.pixels 0 []).bind _ = _
        rw [hcopy]
        rfl

/-! ## Properties that are well formed -/

inductive Icons : List (BitVec 64) → Prop
  | nil : Icons []
  | cons (w h : BitVec 64) {pixels rest : List (BitVec 64)}
      (hlen : pixels.length = (w.setWidth 32).toNat * (h.setWidth 32).toNat) (hrest : Icons rest) :
      Icons (w :: h :: (pixels ++ rest))

/-- The icon at the head of what is behind index `i` is complete, and behind it are the others. -/
theorem iconAt_drop {i : ℕ} {w h : BitVec 64} {pixels rest : List (BitVec 64)}
    (hdrop : data.drop i = w :: h :: (pixels ++ rest)) (hshort : data.length < 1073741824)
    (hlen : pixels.length = (w.setWidth 32).toNat * (h.setWidth 32).toNat) :
    (iconAt data i).pixels = pixels.length ∧ i + 2 + pixels.length + rest.length = data.length ∧
      behind data i = (i + 2 + pixels.length : ℕ) ∧ data.drop (i + 2 + pixels.length) = rest := by
  have hlength : data.length - i = pixels.length + rest.length + 2 := by
    rw [← List.length_drop,hdrop,List.length_cons,List.length_cons,List.length_append]
  have hwidth : data.getD (i : ℤ).toNat 0 = w := by
    rw [List.getD_eq_getElem?_getD,Int.toNat_natCast,← Nat.add_zero i,← List.getElem?_drop,hdrop]
    rfl
  have hheight : data.getD ((i : ℤ).toNat + 1) 0 = h := by
    rw [List.getD_eq_getElem?_getD,Int.toNat_natCast,← List.getElem?_drop,hdrop]
    rfl
  have hicon : iconAt data i = ⟨w.setWidth 32,h.setWidth 32,i + 2⟩ := by
    rw [iconAt,hwidth,hheight]
  have hpixels : (iconAt data i).pixels = pixels.length := by
    rw [hicon,Icon.pixels,BitVec.toNat_mul,← hlen]
    exact Nat.mod_eq_of_lt (by omega)
  refine ⟨hpixels,by omega,?_,?_⟩
  · have hproduct : (iconAt data i).width * (iconAt data i).height = BitVec.ofNat 32 pixels.length :=
      BitVec.eq_of_toNat_eq ((BitVec.toNat_ofNat _ _).trans (Nat.mod_eq_of_lt (by omega)) |>.trans hpixels.symm).symm
    have hbehind : behind data i = ofSize (i + 2 + pixels.length) := by
      rw [behind,hproduct,ofSize,BitVec.ofNat_add]
      rfl
    rw [hbehind,ofSize_of_le_max (by rw [INT_MAX]; omega)]
  · rw [Nat.add_assoc,← List.drop_drop,hdrop,Nat.add_comm 2,List.drop_succ_cons,List.drop_succ_cons,List.drop_left]

theorem Icons.first_complete (hshort : data.length < 1073741824) (hlong : 2 < data.length) (h : Icons data) :
    (iconAt data 0).start + (iconAt data 0).pixels ≤ data.length := by
  cases hdata : data with
  | nil =>
    rw [hdata,List.length_nil] at hlong
    omega
  | cons w tail =>
    rw [hdata] at h
    cases h with
    | @cons w h pixels rest hlen hrest =>
      obtain ⟨hpixels,hlength,-,-⟩ := iconAt_drop (show data.drop 0 = _ from hdata) hshort hlen
      rw [← hdata,iconAt_start]
      rw [Nat.cast_zero] at hpixels
      omega

/-- Behind the last icon the first one is chosen. -/
theorem chosen_last (hshort : data.length < 1073741824) (hout : n ≤ i + 2) (hi : i ≤ data.length) :
    Chosen data n reqW i (iconAt data 0) := by
  refine Or.inr ⟨hout,?_,rfl⟩
  rw [INT_MAX]
  omega

/-- From an icon of the property on, one is chosen that is complete. -/
theorem Icons.chosen (hshort : data.length < 1073741824)
    (hfirst : (iconAt data 0).start + (iconAt data 0).pixels ≤ data.length) (reqW : BitVec 32)
    {rest : List (BitVec 64)} (h : Icons rest) {i : ℕ} (hi : i ≤ data.length) (hrest : data.drop i = rest) :
    ∃ k icon, (∀ j < k, Other data data.length reqW ((behind data)^[j] i)) ∧
      Chosen data data.length reqW ((behind data)^[k] i) icon ∧ icon.start + icon.pixels ≤ data.length := by
  induction h generalizing i with
  | nil =>
    have hend : data.length ≤ i := List.drop_eq_nil_iff.mp hrest
    have hout : (data.length : ℤ) ≤ i + 2 := by omega
    exact ⟨0,iconAt data 0,fun j hj => absurd hj (Nat.not_lt_zero j),
      chosen_last hshort hout (Int.ofNat_le.mpr hi),hfirst⟩
  | @cons w h pixels rest hlen hrest' ih =>
    obtain ⟨hpixels,hlength,hbehind,hdropped⟩ := iconAt_drop hrest hshort hlen
    by_cases hin : (i : ℤ) + 2 < data.length
    · by_cases hw : (iconAt data i).width = reqW
      · refine ⟨0,iconAt data i,fun j hj => absurd hj (Nat.not_lt_zero j),Or.inl ⟨Int.natCast_nonneg i,hin,hw,rfl⟩,?_⟩
        rw [iconAt_start,hpixels]
        omega
      · obtain ⟨k,icon,hother,hchosen,hinside⟩ := ih (by omega) hdropped
        rw [← hbehind] at hchosen
        refine ⟨k + 1,icon,fun j hj => ?_,hchosen,hinside⟩
        cases j with
        | zero => exact ⟨Int.natCast_nonneg i,hin,hw⟩
        | succ j =>
          have hj' := hother j (Nat.lt_of_succ_lt_succ hj)
          rwa [← hbehind] at hj'
    · exact ⟨0,iconAt data 0,fun j hj => absurd hj (Nat.not_lt_zero j),
        chosen_last hshort (Int.not_lt.mp hin) (Int.ofNat_le.mpr hi),hfirst⟩

/-- A property of whole icons meets the condition for every width. -/
theorem Icons.complete (h : Icons data) (hshort : data.length < 1073741824) (reqW : BitVec 32) : Complete data reqW := by
  have hn : ofSize data.length = data.length := ofSize_of_le_max (by rw [INT_MAX]; omega)
  rw [Complete,hn]
  by_cases hlong : 2 < data.length
  · have hfirst := h.first_complete hshort hlong
    have hsmall : ∀ icon : Icon, 0 ≤ icon.start → icon.start + icon.pixels ≤ data.length → icon.pixels < 1073741824 := by
      intro icon h0 hinside
      omega
    by_cases hz : reqW = 0
    · have hasked : Asked data data.length reqW (iconAt data 0) := by
        rw [Asked,if_pos hz]
      exact Or.inr ⟨iconAt data 0,hasked,hfirst,hsmall _ hasked.start_nonneg hfirst⟩
    · obtain ⟨k,icon,hother,hchosen,hinside⟩ := Icons.chosen hshort hfirst reqW h (Nat.zero_le _) rfl
      have hasked : Asked data data.length reqW icon := by
        rw [Asked,if_neg hz]
        exact ⟨k,hother,hchosen⟩
      exact Or.inr ⟨icon,hasked,hinside,hsmall _ hasked.start_nonneg hinside⟩
  · exact Or.inl (by omega)

/-- A property whose first icon is said to have a million pixels and has two. -/
theorem not_inBounds : ¬ ∀ (data : List (BitVec 64)) (requestedWidth : BitVec 32),
    2 < data.length → InBounds data requestedWidth := by
  intro h
  obtain ⟨fuel,found,r,hfound,hinside,-⟩ := h [1000,1000,0,0] 0 (by decide)
  have hfirst : findBestIcon fuel [1000,1000,0,0] (ofSize 4) 0 = some (some ⟨1000,1000,2⟩) := rfl
  cases hfirst.symm.trans hfound
  exact absurd (hinside _ rfl).2 (by decide)

end Edelib.Netwm
