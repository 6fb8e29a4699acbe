import Edelib.Text.Reachable

/-! # The capacity that a longer String needs

The sums are those of 32-bit numbers. Where the bytes do not fit, twice the sum of the capacity and
their number is reserved, which is below 2^32 as long as the sum is below 2^31.
-/
namespace Edelib.Text
open Foundation Blocks

/-- None of the numbers wraps that `append` computes, and the capacity is large enough then. -/
structure StringData.Grows (d : StringData) (len : ℕ) : Prop where
  sum : sizeType (len + d.length) = len + d.length
  doubled : d.capacity < sizeType (len + d.length) → d.grown len = (d.capacity + len) * 2
  buffer : d.capacity < sizeType (len + d.length) → sizeType (d.grown len + 1) = d.grown len + 1
  enough : d.capacity < sizeType (len + d.length) → d.length + len ≤ d.grown len

namespace Member

def appended (s : StringState) : Member → Option ℕ
  | appendLen _ len => some len.toNat
  | append str => (s.strlen str).toOption.map sizeType
  | appendString j => (s.data j).toOption.map StringData.length
  | appendChars num _ => some num.toNat
  | operatorAdd str => (s.strlen str).toOption.map sizeType
  | operatorAddString j => (s.data j).toOption.map StringData.length
  | operatorAddChar _ => some 1
  | _ => none

def Readable (s : StringState) : Member → Prop
  | appendLen str len => ∃ src bytes, s.source str = .ok src ∧ src.read s.mem len.toNat = .ok bytes
  | _ => True

end Member

variable {m : Memory} {d : StringData} {x bytes : List UInt8} {src : Source} {n : ℕ}

theorem StringData.grows_iff (hle : d.length ≤ d.capacity) (hcap : d.capacity < 2147483648) (hn : n < 2147483648) :
    d.Grows n ↔ d.length + n ≤ d.capacity ∨ d.capacity + n < 2147483648 := by
  have hsum : sizeType (n + d.length) = n + d.length := Nat.mod_eq_of_lt (by omega)
  have hgrown : d.grown n = (d.capacity + n) * 2 % 4294967296 := by
    have hplus : sizeType (d.capacity + n) = d.capacity + n := Nat.mod_eq_of_lt (by omega)
    rw [grown,hplus,sizeType]
  constructor
  · intro h
    by_cases hfits : d.length + n ≤ d.capacity
    · exact Or.inl hfits
    · have hdoubled := h.doubled (by omega)
      omega
  · intro h
    have hroom : d.capacity < sizeType (n + d.length) → d.capacity + n < 2147483648 := by omega
    refine ⟨hsum,fun hlt => ?_,fun hlt => ?_,fun hlt => ?_⟩
    · have := hroom hlt
      omega
    · have := hroom hlt
      rw [sizeType]
      omega
    · have := hroom hlt
      omega

theorem StringData.Grows.hasRoom (h : d.Grows n) : d.HasRoom True n := by
  by_cases hlt : d.capacity < sizeType (n + d.length)
  · exact Or.inr (Or.inr ⟨trivial,h.enough hlt⟩)
  · have hsum := h.sum
    exact Or.inr (Or.inl (by omega))

/-! ## What the bytes are read from -/

theorem length_of_source (h : src.read m n = .ok bytes) : bytes.length = n := by
  cases src with
  | text data =>
    rw [Source.read] at h
    split_ifs at h with hle
    cases h
    rw [List.length_take,List.length_append]
    exact Nat.min_eq_left hle
  | chars a => exact Blocks.length_of_read h

/-- No more than its text is read of an argument. -/
theorem read_of_strlen {k : ℕ} (h : src.strlen m = .ok n) (hk : k ≤ n) : ∃ bytes, src.read m k = .ok bytes := by
  cases src with
  | text data =>
    cases h
    have hle : (CString.ofBuf data).strlen ≤ data.length := (CString.ofBuf_begins data).length_le
    exact ⟨_,if_pos (by omega)⟩
  | chars a =>
    rw [Source.strlen] at h
    split at h
    · cases h
    · next b hb =>
      split_ifs at h
      cases h
      have hle : (CString.ofBuf b.data).strlen ≤ b.data.length := (CString.ofBuf_begins b.data).length_le
      exact ⟨_,read_eq hb (hk.trans hle)⟩

/-- What is not disposed with the String is still read after it is. -/
theorem lasting_of_not_has (hread : src.read m bytes.length = .ok bytes)
    (hother : ∀ a, src = .chars a → a < m.fresh ∧ ¬ d.Has a) : Lasting m d src bytes := by
  intro m' hk
  cases src with
  | text data => exact hread
  | chars a =>
    obtain ⟨hlt,hnot⟩ := hother a rfl
    rw [Source.read,Blocks.read] at hread ⊢
    rw [hk.same a hlt hnot]
    exact hread

/-- The characters that are swapped out are freed. -/
theorem reserve_frees {a cap : ℕ} {r : Memory × StringData} (ha : d.Has a) (hgrow : d.capacity < cap)
    (h : reserve m d cap = .ok r) : r.1.block a = none := by
  rw [reserve,if_pos hgrow] at h
  obtain ⟨r₁,-,h⟩ := of_bind_ok h
  obtain ⟨bytes,-,h⟩ := of_bind_ok h
  obtain ⟨m₂,-,h⟩ := of_bind_ok h
  obtain ⟨m₃,hfree,h⟩ := of_bind_ok h
  cases h
  cases d with
  | nullData => exact ha.elim
  | own len cap chars =>
    obtain rfl : a = chars := ha
    rw [dispose,free] at hfree
    split at hfree
    · cases hfree
    · split_ifs at hfree
      cases hfree
      exact if_pos rfl

/-! ## Where there is room no byte is outside -/

theorem appendLen_inside (hm : Literal m) (hx : Contains m x d) (hread : src.read m n = .ok bytes)
    (hfound : ∀ a, src = .chars a → a < m.fresh) (hroom : d.HasRoom True n) :
    appendLen m d src n ≠ .error .outside := by
  obtain rfl := length_of_source hread
  by_cases h0 : bytes.length = 0
  · rw [appendLen,if_pos h0]
    intro herr
    cases herr
  have hok : ∀ {foreign : Prop}, (foreign → Lasting m d src bytes) → d.HasRoom foreign bytes.length →
      appendLen m d src bytes.length ≠ .error .outside := by
    intro foreign hlasting hroom
    obtain ⟨r,hr,-⟩ := appendLen_spec hm.fresh hx hread hlasting h0 hroom
    rw [hr]
    intro herr
    cases herr
  by_cases hfits : d.length + bytes.length ≤ d.capacity
  · exact hok False.elim (Or.inr (Or.inl hfits))
  by_cases hown : ∃ a, src = .chars a ∧ d.Has a
  · -- the bytes that are read are those that were disposed
    obtain ⟨a,rfl,hhas⟩ := hown
    have hcap := hx.capacity_lt
    have hle := hx.length_le
    have hlen := hx.length_eq
    obtain ⟨-,hgrown⟩ := (hroom.resolve_left h0).resolve_left hfits
    have hbound : d.grown bytes.length < 4294967296 := Nat.mod_lt _ (by decide)
    have heven : d.grown bytes.length + 1 ≠ 4294967296 := by
      rw [StringData.grown,sizeType]
      omega
    have hsize := sizeType_add (n := d.length) (k := bytes.length) (by omega)
    obtain ⟨m₁,hm₁,-⟩ := @reserve_spec _ _ _ hx (d.grown bytes.length) (by omega) (by omega)
    have hfreed := reserve_frees hhas (by omega) hm₁
    rw [appendLen,if_neg h0,if_neg (hsize ▸ hfits),← StringData.grown,hm₁,ok_bind]
    dsimp only at hfreed ⊢
    rw [Source.read,Blocks.read,if_neg h0,hfreed]
    intro herr
    cases herr
  · exact hok (fun _ => lasting_of_not_has hread (fun a ha => ⟨hfound a ha,fun hhas => hown ⟨a,ha,hhas⟩⟩)) hroom

theorem appendChars_inside (hm : Literal m) (hx : Contains m x d) (ch : UInt8) (hroom : d.HasRoom True n) :
    appendChars m d n ch ≠ .error .outside := by
  by_cases hnull : n = 0 ∧ d = .nullData
  · -- the terminator is written over the literal
    obtain ⟨rfl,rfl⟩ := hnull
    have hput : appendChars m .nullData 0 ch = putBehind m .nullData [] 0 := rfl
    have hw : m.write nullChars 0 [] = .ok m := rfl
    have hterm : m.write nullChars 0 [STERM] = .error .constant := by
      rw [Blocks.write,hm.chars]
      rfl
    rw [hput,putBehind]
    dsimp only [StringData.chars,StringData.length,StringData.addLength]
    rw [hw,ok_bind,hterm]
    intro herr
    cases herr
  · obtain ⟨r,hr,-⟩ := appendChars_gives hm.fresh hx ch hroom (fun h0 hd => hnull ⟨h0,hd⟩)
    rw [hr]
    intro herr
    cases herr

section Sound
variable {s : StringState} (hs : Sound s)
include hs

theorem Sound.chars_lt (hd : Buffered s.mem d) : d.chars < s.mem.fresh := by
  cases d with
  | nullData => exact hs.literal.fresh
  | own len cap chars => exact (hd.lt_fresh rfl).2

theorem Sound.source_lt {str : CharsArg} (hsrc : s.source str = .ok src) :
    ∀ a, src = .chars a → a < s.mem.fresh := by
  rintro a rfl
  cases str with
  | text data => cases hsrc
  | cStr j =>
    rw [StringState.source] at hsrc
    cases he : s.data j with
    | error e =>
      rw [he] at hsrc
      cases hsrc
    | ok e =>
      rw [he] at hsrc
      cases hsrc
      exact hs.chars_lt (hs.of_data he).2

/-- The two ways in which bytes are appended. -/
theorem Sound.append_inside {i : ℕ} {f : Member} (hx : Contains s.mem x d) (hf : f.appended s = some n)
    (hread : f.Readable s) (hroom : d.HasRoom True n) : f.apply s i d ≠ .error .outside := by
  have hchars : ∀ str : CharsArg, (s.strlen str).toOption.map sizeType = some n →
      (do Text.append s.mem d (← s.source str)) ≠ .error .outside := by
    intro str hf
    obtain ⟨k,hk,rfl⟩ := Option.map_eq_some_iff.mp hf
    rw [StringState.strlen] at hk
    cases hsrc : s.source str with
    | error e =>
      rw [hsrc] at hk
      cases hk
    | ok src =>
      rw [hsrc,ok_bind] at hk
      cases hlen : src.strlen s.mem with
      | error e =>
        rw [hlen] at hk
        cases hk
      | ok k =>
        rw [hlen] at hk
        cases hk
        obtain ⟨bytes,hbytes⟩ := read_of_strlen hlen (Nat.mod_le k 4294967296)
        rw [ok_bind,Text.append,hlen,ok_bind]
        exact appendLen_inside hs.literal hx hbytes (hs.source_lt hsrc) hroom
  have hstring : ∀ j, (s.data j).toOption.map StringData.length = some n →
      (do let str ← s.data j; Text.appendLen s.mem d (.chars str.chars) str.length) ≠ .error .outside := by
    intro j hf
    cases he : s.data j with
    | error e =>
      rw [he] at hf
      cases hf
    | ok e =>
      rw [he] at hf
      cases hf
      obtain ⟨y,hy⟩ := (hs.of_data he).2.contains
      have hbytes := hy.read (Nat.le_refl _)
      rw [← hy.length_eq] at hbytes
      have hread : (.chars e.chars : Source).read s.mem e.length = .ok (y.take e.length) := hbytes
      refine appendLen_inside hs.literal hx hread ?_ hroom
      rintro a ha
      cases ha
      exact hs.chars_lt (hs.of_data he).2
  cases f with
  | appendLen str len =>
    cases hf
    obtain ⟨src,bytes,hsrc,hbytes⟩ := hread
    rw [Member.apply,hsrc,ok_bind]
    exact appendLen_inside hs.literal hx hbytes (hs.source_lt hsrc) hroom
  | append str => exact hchars str hf
  | appendString j => exact hstring j hf
  | appendChars num ch =>
    cases hf
    exact appendChars_inside hs.literal hx ch hroom
  | operatorAdd str => exact hchars str hf
  | operatorAddString j => exact hstring j hf
  | operatorAddChar ch =>
    cases hf
    exact appendChars_inside hs.literal hx ch hroom
  | assignLen => cases hf
  | assign => cases hf
  | assignString => cases hf
  | operatorAssign => cases hf
  | operatorAssignString => cases hf
  | reserve => cases hf
  | clear => cases hf

end Sound

namespace PublicAction

/-- After every run the numbers do not wrap, and no byte is outside of the buffer, if and only if
the bytes fit or the sum that is doubled is below 2^31. -/
theorem run_appendGrows_iff (junk : ℕ → ℕ → UInt8) (acts : List PublicAction) (s : StringState)
    (hrun : Transition.exec step (.initial junk) acts = some s) (i : ℕ) (d : StringData) (hd : s.data i = .ok d)
    (hcap : d.capacity < 2147483648) (f : Member) (len : ℕ) (hf : f.appended s = some len) (hread : f.Readable s)
    (hlen : len < 2147483648) :
    d.Grows len ∧ f.apply s i d ≠ .error .outside ↔ d.length + len ≤ d.capacity ∨ d.capacity + len < 2147483648 := by
  have hs := run_spec hrun
  obtain ⟨x,hx⟩ := (hs.of_data hd).2.contains
  have hle := hx.length_eq.trans_le hx.length_le
  rw [← StringData.grows_iff hle hcap hlen]
  exact and_iff_left_of_imp (fun h => hs.append_inside hx hf hread h.hasRoom)

/-- Three bytes are appended to one, in a buffer of its size. -/
theorem run_appendGrows_iff_letters :
    let f := Member.append (.text [98,99,100])
    ∃ s, Transition.exec step (.initial fun _ _ => 120) [basic (.createFrom 0 (.text [97]))] = some s ∧
      s.data 0 = .ok (.own 1 1 1) ∧
      ((StringData.own 1 1 1).Grows 3 ∧ f.apply s 0 (.own 1 1 1) ≠ .error .outside ↔
        1 + 3 ≤ 1 ∨ 1 + 3 < 2147483648) :=
  ⟨_,rfl,rfl,run_appendGrows_iff (fun _ _ => 120) [basic (.createFrom 0 (.text [97]))] _ rfl 0 (.own 1 1 1) rfl (by decide)
    _ 3 rfl trivial (by decide)⟩

/-- Twice 2^31 is 0. -/
theorem not_run_appendGrows : ¬ ∀ (junk : ℕ → ℕ → UInt8) (acts : List PublicAction) (s : StringState),
    Transition.exec step (.initial junk) acts = some s → ∀ (i : ℕ) (d : StringData), s.data i = .ok d →
      d.capacity < 2147483648 → ∀ (f : Member) (len : ℕ), f.appended s = some len → f.Readable s →
        len < 2147483648 → d.Grows len ∧ f.apply s i d ≠ .error .outside := by
  intro h
  obtain ⟨hgrows,-⟩ := h (fun _ _ => 120) [basic (.createFrom 0 (.text [97]))] _ rfl 0 (.own 1 1 1) rfl (by decide)
    (.appendChars 2147483647 98) 2147483647 rfl trivial (by decide)
  exact absurd (hgrows.doubled (by decide)) (by decide)

end PublicAction
end Edelib.Text
