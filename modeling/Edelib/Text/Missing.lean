import Edelib.Foundation.CString
import Mathlib.Data.List.GetD

/-! # What the C library may lack

The functions that stand in for `strlcpy`, `strlcat` and `unsetenv`. A type `unsigned long` has `w` bits.
-/
namespace Edelib.Missing
open Foundation

/-! ## Strings -/

structure Dest where
  byte : ℕ → UInt8
  written : List ℕ

def Dest.memcpy (d : Dest) (p : ℕ) (src : List UInt8) : Dest where
  byte i := if p ≤ i then (src[i - p]?).getD (d.byte i) else d.byte i
  written := d.written ++ List.range' p src.length

def Dest.store (d : Dest) (p : ℕ) (c : UInt8) : Dest := d.memcpy p [c]

def memchr (byte : ℕ → UInt8) (c : UInt8) (sz : ℕ) : Option ℕ := (List.range sz).find? (fun i => byte i == c)

def ulong (w n : ℕ) : ℕ := n % 2 ^ w

def edelibStrlcpy (w : ℕ) (dst : Dest) (src : CString) (sz : ℕ) : Dest × ℕ :=
  let len := ulong w src.strlen
  if sz ≠ 0 then
    let s := if len ≥ sz then sz - 1 else len
    (((dst.memcpy 0 (src.bytes.take s)).store s 0),len)
  else (dst,len)

def edelibStrlcat (w : ℕ) (dst : Dest) (src : CString) (sz : ℕ) : Dest × ℕ :=
  let len1 := ulong w src.strlen
  match memchr dst.byte 0 sz with
  | none => (dst,ulong w (sz + len1))
  | some len2 =>
    let ret := ulong w (len1 + len2)
    if ret ≥ sz then
      let len1 := sz - len2 - 1
      (((dst.memcpy len2 (src.bytes.take len1)).store (len2 + len1) 0),ret)
    else (dst.memcpy len2 ((src.bytes ++ [0]).take (len1 + 1)),ret)

def strnlen (byte : ℕ → UInt8) (sz : ℕ) : ℕ := (memchr byte 0 sz).getD sz

structure Source (w : ℕ) where
  text : CString
  fits : text.strlen < 2 ^ w

/-- What is read of the destination and the source are different bytes of one address space. -/
structure CatOperands (w : ℕ) extends Source w where
  dst : ℕ → UInt8
  sz : BitVec w
  apart : strnlen dst sz.toNat + text.strlen < 2 ^ w

/-- The longest prefix of the text that fits is stored with its terminator; nothing else is written. -/
structure Stores (dst : ℕ → UInt8) (dst' : Dest) (sz : ℕ) (text : List UInt8) : Prop where
  inside : ∀ i ∈ dst'.written, i < sz
  begins : ∀ i (h : i < (text.take (sz - 1)).length), dst'.byte i = (text.take (sz - 1))[i]
  ends : dst'.byte (text.take (sz - 1)).length = 0
  frame : ∀ i, (text.take (sz - 1)).length < i → dst'.byte i = dst i

def Untouched (dst : ℕ → UInt8) (dst' : Dest) : Prop := dst'.written = [] ∧ dst'.byte = dst

/-! ### What is written -/

/-- Two copies, one behind the other, are one. -/
theorem Dest.memcpy_append (d : Dest) (p : ℕ) (u v : List UInt8) :
    (d.memcpy p u).memcpy (p + u.length) v = d.memcpy p (u ++ v) := by
  have hbyte : ∀ i, ((d.memcpy p u).memcpy (p + u.length) v).byte i = (d.memcpy p (u ++ v)).byte i := by
    intro i
    simp only [Dest.memcpy]
    by_cases hp : p ≤ i
    · by_cases hu : i - p < u.length
      · rw [if_neg (by omega),if_pos hp,if_pos hp,List.getElem?_append_left hu]
      · rw [if_pos (by omega),if_pos hp,if_pos hp,List.getElem?_append_right (by omega),
          List.getElem?_eq_none (by omega : u.length ≤ i - p),Option.getD_none,Nat.sub_sub]
    · rw [if_neg (by omega),if_neg hp,if_neg hp]
  have hwritten : ((d.memcpy p u).memcpy (p + u.length) v).written = (d.memcpy p (u ++ v)).written := by
    simp only [Dest.memcpy,List.append_assoc,List.length_append]
    rw [List.range'_append_1]
  exact (Dest.mk.injEq _ _ _ _).mpr ⟨funext hbyte,hwritten⟩

theorem Dest.memcpy_store (d : Dest) (p : ℕ) (u : List UInt8) :
    (d.memcpy p u).store (p + u.length) 0 = d.memcpy p (u ++ [0]) := d.memcpy_append p u [0]

/-- The head of the text is there already and the rest of what fits is copied behind it. -/
theorem Stores.memcpy {dst : ℕ → UInt8} {sz : ℕ} {text : List UInt8} (old new : List UInt8) (hsz : 0 < sz)
    (htext : text.take (sz - 1) = old ++ new) (hold : ∀ i (h : i < old.length), dst i = old[i]) :
    Stores dst (Dest.memcpy ⟨dst,[]⟩ old.length (new ++ [0])) sz text := by
  have hfits : old.length + new.length ≤ sz - 1 := by
    rw [← List.length_append,← htext]
    exact List.length_take_le _ _
  constructor
  · intro i hi
    simp only [Dest.memcpy,List.nil_append,List.mem_range'_1,List.length_append,List.length_singleton] at hi
    omega
  · intro i hi
    simp only [htext] at hi ⊢
    simp only [Dest.memcpy]
    by_cases h : i < old.length
    · rw [if_neg (by omega),List.getElem_append_left h,hold i h]
    · have hn : i - old.length < new.length := by
        rw [List.length_append] at hi
        omega
      rw [if_pos (by omega),List.getElem?_append_left hn,List.getElem?_eq_getElem hn,Option.getD_some,
        List.getElem_append_right (by omega)]
  · simp only [htext,Dest.memcpy,List.length_append]
    rw [if_pos (by omega),Nat.add_sub_cancel_left,List.getElem?_append_right (by omega),Nat.sub_self]
    rfl
  · intro i hi
    rw [htext,List.length_append] at hi
    simp only [Dest.memcpy]
    rw [if_pos (by omega),List.getElem?_eq_none (by simp only [List.length_append,List.length_singleton]; omega),
      Option.getD_none]

theorem ulong_of_lt {w n : ℕ} (h : n < 2 ^ w) : ulong w n = n := Nat.mod_eq_of_lt h

/-! ### `strlcpy` -/

theorem edelibStrlcpy_stores {w : ℕ} (src : Source w) (dst : ℕ → UInt8) {sz : ℕ} (hsz : 0 < sz) :
    Stores dst (edelibStrlcpy w ⟨dst,[]⟩ src.text sz).1 sz src.text.bytes := by
  have htake : src.text.bytes.take (if src.text.strlen ≥ sz then sz - 1 else src.text.strlen) =
      src.text.bytes.take (sz - 1) := by
    split_ifs with h
    · rfl
    · have hlen : src.text.bytes.length ≤ sz - 1 := by
        change src.text.strlen ≤ _
        omega
      rw [CString.strlen,List.take_length,List.take_of_length_le hlen]
  have hlength : (if src.text.strlen ≥ sz then sz - 1 else src.text.strlen) =
      (src.text.bytes.take (sz - 1)).length := by
    rw [List.length_take]
    by_cases h : src.text.strlen ≥ sz
    · rw [if_pos h]
      exact (Nat.min_eq_left ((Nat.sub_le _ _).trans h)).symm
    · rw [if_neg h]
      have : src.text.bytes.length = src.text.strlen := rfl
      omega
  have hput := Dest.memcpy_store ⟨dst,[]⟩ 0 (src.text.bytes.take (sz - 1))
  rw [Nat.zero_add] at hput
  simp only [edelibStrlcpy,ulong_of_lt src.fits,if_pos (Nat.pos_iff_ne_zero.mp hsz),htake]
  rw [hlength,hput]
  exact Stores.memcpy [] _ hsz rfl (fun i h => absurd h (Nat.not_lt_zero i))

/-! ### `strlcat` -/

theorem memchr_eq_none {byte : ℕ → UInt8} {sz : ℕ} (h : ∀ i < sz, byte i ≠ 0) : memchr byte 0 sz = none := by
  rw [memchr,List.find?_eq_none]
  intro i hi
  simpa using h i (List.mem_range.mp hi)

theorem memchr_eq_some {byte : ℕ → UInt8} {sz len : ℕ} (hlen : len < sz) (hnul : byte len = 0)
    (hfirst : ∀ i < len, byte i ≠ 0) : memchr byte 0 sz = some len := by
  rw [memchr,List.find?_range_eq_some]
  refine ⟨by simpa using hnul,List.mem_range.mpr hlen,fun i hi => ?_⟩
  simpa using hfirst i hi

theorem edelibStrlcat_stores {w : ℕ} (o : CatOperands w) {len : ℕ} (hlen : len < o.sz.toNat)
    (hnul : o.dst len = 0) (hfirst : ∀ i < len, o.dst i ≠ 0) :
    Stores o.dst (edelibStrlcat w ⟨o.dst,[]⟩ o.text o.sz.toNat).1 o.sz.toNat
      ((List.range len).map o.dst ++ o.text.bytes) ∧
    (edelibStrlcat w ⟨o.dst,[]⟩ o.text o.sz.toNat).2 = len + o.text.strlen := by
  have hmem := memchr_eq_some hlen hnul hfirst
  have hwrap : o.text.strlen + len < 2 ^ w := by
    have := o.apart
    rw [strnlen,hmem,Option.getD_some] at this
    omega
  have hold : ∀ i (h : i < ((List.range len).map o.dst).length), o.dst i = ((List.range len).map o.dst)[i] := by
    intro i h
    simp only [List.getElem_map,List.getElem_range]
  have hoslen : ((List.range len).map o.dst).length = len := by
    rw [List.length_map,List.length_range]
  simp only [edelibStrlcat,hmem,ulong_of_lt o.fits,ulong_of_lt hwrap]
  by_cases hfull : o.text.strlen + len ≥ o.sz.toNat
  · -- what does not fit is left out
    have hnew : (o.text.bytes.take (o.sz.toNat - len - 1)).length = o.sz.toNat - len - 1 := by
      rw [List.length_take]
      have : o.text.bytes.length = o.text.strlen := rfl
      omega
    have hput := Dest.memcpy_store ⟨o.dst,[]⟩ len (o.text.bytes.take (o.sz.toNat - len - 1))
    rw [hnew] at hput
    rw [if_pos hfull,hput]
    refine ⟨?_,Nat.add_comm _ _⟩
    have hfits : ((List.range len).map o.dst ++ o.text.bytes).take (o.sz.toNat - 1) =
        (List.range len).map o.dst ++ o.text.bytes.take (o.sz.toNat - len - 1) := by
      rw [List.take_append,hoslen,List.take_of_length_le (by omega),Nat.sub_right_comm]
    have hstores := Stores.memcpy ((List.range len).map o.dst) (o.text.bytes.take (o.sz.toNat - len - 1))
      (by omega : 0 < o.sz.toNat) hfits hold
    rwa [hoslen] at hstores
  · have htake : (o.text.bytes ++ [0]).take (o.text.strlen + 1) = o.text.bytes ++ [0] :=
      List.take_of_length_le (by rw [List.length_append]; exact Nat.le_refl _)
    rw [if_neg hfull,htake]
    refine ⟨?_,Nat.add_comm _ _⟩
    have hfits : ((List.range len).map o.dst ++ o.text.bytes).take (o.sz.toNat - 1) =
        (List.range len).map o.dst ++ o.text.bytes := by
      refine List.take_of_length_le ?_
      rw [List.length_append,hoslen]
      change len + o.text.strlen ≤ _
      omega
    have hstores := Stores.memcpy ((List.range len).map o.dst) o.text.bytes (by omega : 0 < o.sz.toNat) hfits hold
    rwa [hoslen] at hstores

theorem edelibStrlcat_unterminated {w : ℕ} (o : CatOperands w) (h : ∀ i < o.sz.toNat, o.dst i ≠ 0) :
    Untouched o.dst (edelibStrlcat w ⟨o.dst,[]⟩ o.text o.sz.toNat).1 ∧
    (edelibStrlcat w ⟨o.dst,[]⟩ o.text o.sz.toNat).2 = o.sz.toNat + o.text.strlen := by
  have hmem := memchr_eq_none h
  have hwrap := o.apart
  rw [strnlen,hmem,Option.getD_none] at hwrap
  simp only [edelibStrlcat,hmem,ulong_of_lt o.fits,ulong_of_lt hwrap]
  exact ⟨⟨rfl,rfl⟩,trivial⟩

/-- Both keep inside the size, store what fits and return what they tried to create. -/
theorem strlcpy_strlcat_contract (w : ℕ) :
    (∀ (src : Source w) (dst : ℕ → UInt8) (sz : BitVec w),
      (sz.toNat = 0 → Untouched dst (edelibStrlcpy w ⟨dst,[]⟩ src.text sz.toNat).1) ∧
      (0 < sz.toNat → Stores dst (edelibStrlcpy w ⟨dst,[]⟩ src.text sz.toNat).1 sz.toNat src.text.bytes) ∧
      (edelibStrlcpy w ⟨dst,[]⟩ src.text sz.toNat).2 = src.text.strlen) ∧
    ∀ o : CatOperands w,
      ((∀ i < o.sz.toNat, o.dst i ≠ 0) →
        Untouched o.dst (edelibStrlcat w ⟨o.dst,[]⟩ o.text o.sz.toNat).1 ∧
        (edelibStrlcat w ⟨o.dst,[]⟩ o.text o.sz.toNat).2 = o.sz.toNat + o.text.strlen) ∧
      ∀ len < o.sz.toNat, o.dst len = 0 → (∀ i < len, o.dst i ≠ 0) →
        Stores o.dst (edelibStrlcat w ⟨o.dst,[]⟩ o.text o.sz.toNat).1 o.sz.toNat
          ((List.range len).map o.dst ++ o.text.bytes) ∧
        (edelibStrlcat w ⟨o.dst,[]⟩ o.text o.sz.toNat).2 = len + o.text.strlen := by
  refine ⟨fun src dst sz => ⟨fun hsz => ?_,edelibStrlcpy_stores src dst,?_⟩,
    fun o => ⟨edelibStrlcat_unterminated o,fun len hlen => edelibStrlcat_stores o hlen⟩⟩
  · rw [edelibStrlcpy,hsz]
    exact ⟨rfl,rfl⟩
  · rw [edelibStrlcpy,ulong_of_lt src.fits]
    split_ifs <;> rfl

theorem strlcpy_strlcat_contract_one :
    (edelibStrlcpy 8 ⟨fun _ => 7,[]⟩ ⟨[65,66],by decide⟩ 2).1.byte 0 = 65 ∧
    (edelibStrlcat 8 ⟨fun i => if i = 1 then 0 else 65,[]⟩ ⟨[66],by decide⟩ 2).2 = 2 := by
  have hcontract := strlcpy_strlcat_contract 8
  have hcpy := (hcontract.1 ⟨⟨[65,66],by decide⟩,by decide⟩ (fun _ => 7) 2).2.1 (by decide)
  have hcat := (hcontract.2 ⟨⟨⟨[66],by decide⟩,by decide⟩,fun i => if i = 1 then 0 else 65,2,by decide⟩).2 1
    (by decide) (by decide) (by decide)
  exact ⟨hcpy.begins 0 (by decide),hcat.2⟩

/-! ## The environment -/

def shiftDown : List (Option CString) → Option (List (Option CString) × List (Option CString))
  | _ :: some e :: rest => (shiftDown (some e :: rest)).map (fun moved => (some e :: moved.1,moved.2))
  | _ :: none :: rest => some ([],none :: none :: rest)
  | _ => none

def isNamed (name : CString) (len : ℕ) (e : CString) : Bool :=
  e.strncmp name len == 0 && e.bytes.getD len 0 == 61

theorem length_shiftDown {cells : List (Option CString)} {moved : List (Option CString) × List (Option CString)}
    (h : shiftDown cells = some moved) : moved.2.length ≤ cells.length := by
  induction cells generalizing moved with
  | nil => cases h
  | cons c cells ih =>
    cases cells with
    | nil => cases h
    | cons c' cells =>
      cases c' with
      | none =>
        cases h
        exact Nat.le_refl _
      | some e =>
        obtain ⟨moved',hmoved,rfl⟩ := Option.map_eq_some_iff.mp h
        exact (ih hmoved).trans (Nat.le_succ _)

def unsetLoop (name : CString) (len : ℕ) (cells : List (Option CString)) : Option (List (Option CString)) :=
  match cells with
  | [] => none
  | none :: rest => some (none :: rest)
  | some e :: rest =>
    if isNamed name len e then
      match _h : shiftDown (some e :: rest) with
      | some (passed,c :: cells) =>
        (unsetLoop name len cells).map (fun cells => passed ++ c :: cells)
      | _ => none
    else (unsetLoop name len rest).map (fun cells => some e :: cells)
termination_by cells.length
decreasing_by
  · exact length_shiftDown _h
  · exact Nat.lt_succ_self rest.length

def edelibUnsetenv (name : CString) (environ : List (Option CString)) : Option (ℤ × List (Option CString)) :=
  if 61 ∈ name.bytes then some (-1,environ)
  else (unsetLoop name (name.strlen % 2 ^ 32) environ).map (fun environ => (0,environ))

structure EnvName where
  name : CString
  nonempty : name.bytes ≠ []
  noEquals : 61 ∉ name.bytes

def environOf (entries : List CString) : List (Option CString) := entries.map some ++ [none]

def assigns (name e : CString) : Bool := (name.bytes ++ [61]).isPrefixOf e.bytes

def Unset (name : CString) (entries : List CString) (r : Option (ℤ × List (Option CString))) : Prop :=
  ∃ tail, r = some (0,(entries.filter (fun e => !assigns name e)).map some ++ none :: tail)

/-- The name's length fits and it occurs once at most; or neither it nor what is compared of it occurs. -/
def UnsetWhen (name : CString) (entries : List CString) : Prop :=
  if name.strlen < 2 ^ 32 then (entries.filter (assigns name)).length ≤ 1
  else ∀ e ∈ entries, assigns name e = false ∧ ¬ name.bytes.take (name.strlen % 2 ^ 32) ++ [61] <+: e.bytes

/-! ### One removal -/

theorem shiftDown_entries (e : CString) (rest : List CString) (tail : List (Option CString)) :
    shiftDown (some e :: (rest.map some ++ none :: tail)) = some (rest.map some,none :: none :: tail) := by
  induction rest generalizing e with
  | nil => rfl
  | cons e' rest ih =>
    rw [List.map_cons,List.cons_append,shiftDown,ih]
    rfl

/-- The loop is at the new terminator after a removal, so it ends behind the first entry that it finds. -/
theorem unsetLoop_entries (name : CString) (len : ℕ) (entries : List CString) (tail : List (Option CString)) :
    ∃ tail', unsetLoop name len (entries.map some ++ none :: tail) =
      some ((entries.eraseP (isNamed name len)).map some ++ none :: tail') := by
  induction entries with
  | nil =>
    rw [List.map_nil,List.nil_append,unsetLoop]
    exact ⟨tail,rfl⟩
  | cons e entries ih =>
    rw [List.map_cons,List.cons_append,unsetLoop]
    by_cases he : isNamed name len e = true
    · rw [if_pos he,List.eraseP_cons_of_pos he]
      refine ⟨none :: tail,?_⟩
      split
      · rename_i passed c cells h
        rw [shiftDown_entries] at h
        cases h
        rw [unsetLoop]
        rfl
      · rename_i h
        exact absurd (shiftDown_entries e entries tail) (h _ _ _)
    · obtain ⟨tail',htail⟩ := ih
      rw [if_neg he,List.eraseP_cons_of_neg he,htail]
      exact ⟨tail',rfl⟩

theorem edelibUnsetenv_entries (v : EnvName) (entries : List CString) :
    ∃ tail, edelibUnsetenv v.name (environOf entries) =
      some (0,(entries.eraseP (isNamed v.name (v.name.strlen % 2 ^ 32))).map some ++ none :: tail) := by
  obtain ⟨tail,htail⟩ := unsetLoop_entries v.name (v.name.strlen % 2 ^ 32) entries []
  refine ⟨tail,?_⟩
  rw [edelibUnsetenv,if_neg v.noEquals,environOf,htail]
  rfl

/-! ### What is compared -/

/-- A text that is there with one byte behind it. -/
theorem append_singleton_begins {u es : List UInt8} {c : UInt8} (hc : c ≠ 0) :
    u ++ [c] <+: es ↔ u <+: es ∧ es.getD u.length 0 = c := by
  constructor
  · rintro ⟨t,rfl⟩
    rw [List.append_assoc]
    refine ⟨List.prefix_append _ _,?_⟩
    rw [List.getD_append_right _ _ _ _ (Nat.le_refl _),Nat.sub_self]
    rfl
  · rintro ⟨⟨t,rfl⟩,hget⟩
    rw [List.getD_append_right _ _ _ _ (Nat.le_refl _),Nat.sub_self] at hget
    cases t with
    | nil => exact absurd hget.symm hc
    | cons b t =>
      obtain rfl : b = c := hget
      exact (List.prefix_append_right_inj u).mpr ⟨t,rfl⟩

theorem isNamed_iff {name e : CString} {len : ℕ} (hlen : len ≤ name.strlen) :
    isNamed name len e = true ↔ name.bytes.take len ++ [61] <+: e.bytes := by
  rw [append_singleton_begins (by decide),List.length_take_of_le hlen,isNamed,Bool.and_eq_true,beq_iff_eq,beq_iff_eq,
    CString.strncmp_take_eq_zero hlen]

theorem assigns_iff {name e : CString} : assigns name e = true ↔ name.bytes ++ [61] <+: e.bytes :=
  List.isPrefixOf_iff_prefix

/-- A name whose length fits is compared as it is. -/
theorem isNamed_eq_assigns {name : CString} (h : name.strlen < 2 ^ 32) :
    isNamed name (name.strlen % 2 ^ 32) = assigns name := by
  funext e
  rw [Bool.eq_iff_iff,Nat.mod_eq_of_lt h,isNamed_iff (Nat.le_refl _),assigns_iff,CString.strlen,List.take_length]

/-- What a longer name is mistaken for is no entry of it. -/
theorem assigns_of_isNamed {v : EnvName} {e : CString} {len : ℕ} (hlen : len < v.name.strlen)
    (h : isNamed v.name len e = true) : assigns v.name e = false := by
  rw [isNamed_iff hlen.le,append_singleton_begins (by decide),List.length_take_of_le hlen.le] at h
  rw [Bool.eq_false_iff,ne_eq,assigns_iff]
  rintro ⟨t,ht⟩
  have hget := h.2
  rw [← ht,List.append_assoc,List.getD_append _ _ _ _ hlen,List.getD_eq_getElem _ _ hlen] at hget
  exact v.noEquals (hget ▸ List.getElem_mem hlen)

/-! ### The other entries -/

variable {α : Type}

/-- To remove the first is to remove all where there is one at most. -/
theorem eraseP_eq_filter {p : α → Bool} {l : List α} :
    l.eraseP p = l.filter (fun a => !p a) ↔ (l.filter p).length ≤ 1 := by
  induction l with
  | nil => simp
  | cons a l ih =>
    by_cases ha : p a = true
    · rw [List.eraseP_cons_of_pos ha,List.filter_cons_of_neg (by simpa using ha),List.filter_cons_of_pos ha,
        List.length_cons,Nat.succ_le_succ_iff,Nat.le_zero,List.length_eq_zero_iff,List.filter_eq_nil_iff,
        eq_comm,List.filter_eq_self]
      simp only [Bool.not_eq_true',Bool.not_eq_true]
    · rw [List.eraseP_cons_of_neg ha,List.filter_cons_of_pos (by simpa using ha),List.filter_cons_of_neg ha,
        List.cons_inj_right,ih]

/-- Where what is removed is not what was to be removed, there must be neither. -/
theorem eraseP_eq_filter_of_disjoint {p q : α → Bool} {l : List α} (hpq : ∀ a, p a = true → q a = false) :
    l.eraseP p = l.filter (fun a => !q a) ↔ ∀ a ∈ l, q a = false ∧ ¬ p a = true := by
  constructor
  · intro h
    have hp : ∀ a ∈ l, ¬ p a = true := by
      intro a ha hpa
      obtain ⟨b,l₁,l₂,-,hb,rfl,herase⟩ := List.exists_of_eraseP ha hpa
      have hcount := congrArg (List.countP p) h
      have hkept : List.countP p ((l₁ ++ b :: l₂).filter (fun a => !q a)) = List.countP p (l₁ ++ b :: l₂) := by
        rw [List.countP_filter]
        refine List.countP_congr (fun c _ => ?_)
        simp only [Bool.and_eq_true,Bool.not_eq_true',and_iff_left_iff_imp]
        exact hpq c
      rw [herase,hkept,List.countP_append,List.countP_append,List.countP_cons_of_pos hb] at hcount
      omega
    rw [List.eraseP_of_forall_not hp,eq_comm,List.filter_eq_self] at h
    exact fun a ha => ⟨by simpa using h a ha,hp a ha⟩
  · intro h
    rw [List.eraseP_of_forall_not (fun a ha => (h a ha).2),eq_comm,List.filter_eq_self]
    exact fun a ha => by simpa using (h a ha).1

theorem unset_iff_eraseP (v : EnvName) (entries : List CString) :
    Unset v.name entries (edelibUnsetenv v.name (environOf entries)) ↔
    entries.eraseP (isNamed v.name (v.name.strlen % 2 ^ 32)) = entries.filter (fun e => !assigns v.name e) := by
  obtain ⟨tail,htail⟩ := edelibUnsetenv_entries v entries
  rw [Unset,htail]
  constructor
  · rintro ⟨tail',h⟩
    have hcells := (Prod.mk.inj (Option.some.inj h)).2
    have hread := congrArg (List.takeWhile Option.isSome) hcells
    have hsome (l : List CString) : ∀ a ∈ l.map some, a.isSome = true := by
      intro a ha
      obtain ⟨e,-,rfl⟩ := List.mem_map.mp ha
      rfl
    rw [List.takeWhile_append_of_pos (hsome _),List.takeWhile_append_of_pos (hsome _),
      List.takeWhile_cons_of_neg (by simp),List.append_nil,List.takeWhile_cons_of_neg (by simp),List.append_nil] at hread
    exact List.map_injective_iff.mpr (Option.some_injective _) hread
  · intro h
    exact ⟨tail,by rw [h]⟩

theorem edelibUnsetenv_iff (v : EnvName) (entries : List CString) :
    Unset v.name entries (edelibUnsetenv v.name (environOf entries)) ↔ UnsetWhen v.name entries := by
  rw [unset_iff_eraseP,UnsetWhen]
  split_ifs with hlen
  · rw [isNamed_eq_assigns hlen,eraseP_eq_filter]
  · have hshort : v.name.strlen % 2 ^ 32 < v.name.strlen :=
      (Nat.mod_lt _ (by decide)).trans_le (Nat.le_of_not_lt hlen)
    rw [eraseP_eq_filter_of_disjoint (fun e => assigns_of_isNamed hshort)]
    simp only [isNamed_iff hshort.le]

/-- Of `A=1`, `A=2` the second stays. -/
theorem not_edelibUnsetenv :
    ¬ ∀ (v : EnvName) (entries : List CString), Unset v.name entries (edelibUnsetenv v.name (environOf entries)) := by
  intro h
  have hone := (unset_iff_eraseP ⟨⟨[65],by decide⟩,by decide,by decide⟩ [⟨[65,61,49],by decide⟩,⟨[65,61,50],by decide⟩]).mp
    (h _ _)
  exact absurd (congrArg List.length hone) (by decide)

end Edelib.Missing
