import Edelib.Text.String

/-! # Strings are byte sequences

A member changes no other memory than that of its String. The condition on a call says that
what it reads is not disposed before, and that there is room and a terminator.
-/
namespace Edelib.Text
open Foundation Blocks

/-! ## Byte sequences -/

abbrev Sequences := ℕ → Option (List UInt8)

def CharsArg.value (xs : Sequences) : CharsArg → Option (List UInt8)
  | text data => some (CString.ofBuf data).bytes
  | cStr j => (xs j).map (fun x => (CString.ofBuf x).bytes)

/-- The sequence after a call; a length is not more than that of the argument. -/
def Member.seq (xs : Sequences) (x : List UInt8) : Member → Option (List UInt8)
  | assignLen str len => (str.value xs).bind (fun b => if len.toNat ≤ b.length then some (b.take len.toNat) else none)
  | assign str => str.value xs
  | assignString j => xs j
  | appendLen str len =>
    (str.value xs).bind (fun b => if len.toNat ≤ b.length then some (x ++ b.take len.toNat) else none)
  | append str => (str.value xs).map (x ++ ·)
  | appendString j => (xs j).map (x ++ ·)
  | appendChars num ch => some (x ++ List.replicate num.toNat ch)
  | operatorAssign str => str.value xs
  | operatorAssignString j => xs j
  | operatorAdd str => (str.value xs).map (x ++ ·)
  | operatorAddString j => (xs j).map (x ++ ·)
  | operatorAddChar ch => some (x ++ [ch])
  | reserve _ => some x
  | clear => some []

namespace StringAction

def seqStep (xs : Sequences) : StringAction → Option Sequences
  | create i => if xs i = none then some (Function.update xs i (some [])) else none
  | createFrom i str =>
    if xs i = none then (str.value xs).map (fun x => Function.update xs i (some x)) else none
  | createCopy i j => if xs i = none then (xs j).map (fun x => Function.update xs i (some x)) else none
  | destroy i => (xs i).map (fun _ => Function.update xs i none)
  | call i f => (xs i).bind (fun x => (f.seq xs x).map (fun y => Function.update xs i (some y)))
  | swap i j => (xs i).bind (fun x => (xs j).map (fun y => Function.update (Function.update xs i (some y)) j (some x)))

structure Refines (s : StringState) (xs : Sequences) : Prop where
  live : ∀ i, s.sdata i = none ↔ xs i = none
  length_le : ∀ i d, s.sdata i = some d → d.length ≤ d.capacity
  terminated : ∀ i d, s.sdata i = some d → ((s.mem.block d.chars).bind (·.data[d.length]?)) = some STERM
  content : ∀ i d x, s.sdata i = some d → xs i = some x → d.length = x.length ∧ s.mem.read d.chars d.length = .ok x
  shared : s.mem.block nullChars = some ⟨[STERM],true⟩

end StringAction

/-! ## The condition on a call -/

def StringState.strlen (s : StringState) (str : CharsArg) : Except Fault ℕ := do (← s.source str).strlen s.mem

def StringData.grown (d : StringData) (len : ℕ) : ℕ := sizeType (sizeType (d.capacity + len) * 2)

/-- There is room for `len` bytes more, or room is made and they are not what is disposed then. -/
def StringData.HasRoom (d : StringData) (foreign : Prop) (len : ℕ) : Prop :=
  len = 0 ∨ d.length + len ≤ d.capacity ∨ foreign ∧ d.length + len ≤ d.grown len

instance (d : StringData) (foreign : Prop) [Decidable foreign] (len : ℕ) : Decidable (d.HasRoom foreign len) :=
  inferInstanceAs (Decidable (_ ∨ _))

namespace Member

def Meets (s : StringState) (i : ℕ) (d : StringData) : Member → Prop
  | assignLen str len => str ≠ .cStr i ∨ len.toNat = 0
  | assign str => ∀ len, s.strlen str = .ok len → len < 4294967296 ∧ (str ≠ .cStr i ∨ len = 0)
  | assignString j => j ≠ i ∨ d.length = 0
  | appendLen str len => d.HasRoom (str ≠ .cStr i) len.toNat
  | append str => ∀ len, s.strlen str = .ok len → d.HasRoom (str ≠ .cStr i) len
  | appendString j => ∀ e, s.data j = .ok e → d.HasRoom (j ≠ i) e.length
  | appendChars num _ => d.HasRoom True num.toNat ∧ (num.toNat = 0 → d ≠ .nullData)
  | operatorAssign str => ∀ len, s.strlen str = .ok len → len < 4294967296 ∧ (str ≠ .cStr i ∨ len = 0)
  | operatorAssignString _ => True
  | operatorAdd str => ∀ len, s.strlen str = .ok len → d.HasRoom (str ≠ .cStr i) len
  | operatorAddString j => ∀ e, s.data j = .ok e → d.HasRoom (j ≠ i) e.length
  | operatorAddChar _ => d.HasRoom True 1
  | reserve cap => cap.toNat ≤ d.capacity ∨ d.length = 0 ∧ cap.toNat < npos
  | clear => True

instance (s : StringState) (i : ℕ) (d : StringData) : (f : Member) → Decidable (f.Meets s i d)
  | assignLen .. => inferInstanceAs (Decidable (_ ∨ _))
  | assign str => inferInstanceAs (Decidable (∀ len, s.strlen str = .ok len → _))
  | assignString .. => inferInstanceAs (Decidable (_ ∨ _))
  | appendLen str len => inferInstanceAs (Decidable (d.HasRoom (str ≠ .cStr i) len.toNat))
  | append str => inferInstanceAs (Decidable (∀ len, s.strlen str = .ok len → _))
  | appendString j => inferInstanceAs (Decidable (∀ e, s.data j = .ok e → _))
  | appendChars .. => inferInstanceAs (Decidable (_ ∧ _))
  | operatorAssign str => inferInstanceAs (Decidable (∀ len, s.strlen str = .ok len → _))
  | operatorAssignString _ => isTrue trivial
  | operatorAdd str => inferInstanceAs (Decidable (∀ len, s.strlen str = .ok len → _))
  | operatorAddString j => inferInstanceAs (Decidable (∀ e, s.data j = .ok e → _))
  | operatorAddChar _ => inferInstanceAs (Decidable (d.HasRoom True 1))
  | reserve _ => inferInstanceAs (Decidable (_ ∨ _))
  | clear => isTrue trivial

def assigned (s : StringState) (i : ℕ) : Member → Option ℕ
  | assignLen _ len => some len.toNat
  | assign str => (s.strlen str).toOption.map sizeType
  | assignString j => (s.data j).toOption.map StringData.length
  | operatorAssign str => (s.strlen str).toOption.map sizeType
  | operatorAssignString j => if j ≠ i then (s.data j).toOption.map StringData.length else none
  | _ => none

end Member

namespace StringAction

def Meets (s : StringState) : StringAction → Prop
  | createFrom _ str => ∀ len, s.strlen str = .ok len → len < 4294967296
  | createCopy _ j => ∀ e, s.data j = .ok e → s.strlen (.cStr j) = .ok e.length
  | call i f => ∀ d, s.data i = .ok d → f.Meets s i d
  | _ => True

instance (s : StringState) : (a : StringAction) → Decidable (a.Meets s)
  | createFrom _ str => inferInstanceAs (Decidable (∀ len, s.strlen str = .ok len → _))
  | createCopy _ j => inferInstanceAs (Decidable (∀ e, s.data j = .ok e → _))
  | call i _ => inferInstanceAs (Decidable (∀ d, s.data i = .ok d → _))
  | create _ => isTrue trivial
  | destroy _ => isTrue trivial
  | swap .. => isTrue trivial

def assigned (s : StringState) : StringAction → Option ℕ
  | createFrom _ str => (s.strlen str).toOption.map sizeType
  | createCopy _ j => (s.strlen (.cStr j)).toOption.map sizeType
  | call i f => f.assigned s i
  | _ => none

def Refused (s : StringState) (a : StringAction) : Prop := ∃ len, a.assigned s = some len ∧ npos / 2 ≤ len

end StringAction

/-! ## The members -/

namespace StringData

def Has : StringData → ℕ → Prop
  | nullData,_ => False
  | own _ _ chars,a => a = chars

end StringData

def Owns (m : Memory) (x : List UInt8) : StringData → Prop
  | .nullData => x = []
  | .own len cap chars =>
    len = x.length ∧ x.length ≤ cap ∧ cap + 1 < 4294967296 ∧ nullChars < chars ∧ m.Area (cap + 1) chars (x ++ [STERM])

/-- The terminator of a buffer that is reserved may be missing. -/
def Contains (m : Memory) (x : List UInt8) : StringData → Prop
  | .nullData => x = []
  | .own len cap chars =>
    len = x.length ∧ x.length ≤ cap ∧ cap + 1 < 4294967296 ∧ nullChars < chars ∧ m.Area (cap + 1) chars x

structure Gives (m : Memory) (d : StringData) (y : List UInt8) (r : Memory × StringData) : Prop where
  owns : Owns r.1 y r.2
  keeps : m.Keeps r.1 d.Has
  own : ∀ a, r.2.Has a → d.Has a ∨ m.fresh ≤ a

variable {m m' : Memory} {d : StringData} {x y : List UInt8}

theorem Contains.length_eq (h : Contains m x d) : d.length = x.length := by
  cases d with
  | nullData =>
    obtain rfl : x = [] := h
    rfl
  | own len cap chars => exact h.1

theorem Contains.length_le (h : Contains m x d) : x.length ≤ d.capacity := by
  cases d with
  | nullData =>
    obtain rfl : x = [] := h
    exact Nat.le_refl _
  | own len cap chars => exact h.2.1

theorem Contains.capacity_lt (h : Contains m x d) : d.capacity + 1 < 4294967296 := by
  cases d with
  | nullData => decide
  | own len cap chars => exact h.2.2.1

theorem Contains.lt_fresh (h : Contains m x d) {a : ℕ} (ha : d.Has a) : nullChars < a ∧ a < m.fresh := by
  cases d with
  | nullData => exact ha.elim
  | own len cap chars =>
    obtain rfl : a = chars := ha
    obtain ⟨-,-,-,hpos,harea⟩ := h
    exact ⟨hpos,harea.lt_fresh⟩

theorem Contains.keeps {S : ℕ → Prop} (h : Contains m x d) (hk : m.Keeps m' S) (hS : ∀ a, d.Has a → ¬ S a) :
    Contains m' x d := by
  cases d with
  | nullData => exact h
  | own len cap chars =>
    obtain ⟨hlen,hle,hcap,hpos,harea⟩ := h
    exact ⟨hlen,hle,hcap,hpos,hk.area harea (hS chars rfl)⟩

theorem Contains.read (h : Contains m x d) {len : ℕ} (hlen : len ≤ x.length) :
    m.read d.chars len = .ok (x.take len) := by
  cases d with
  | nullData =>
    obtain rfl : x = [] := h
    obtain rfl : len = 0 := Nat.le_zero.mp hlen
    rfl
  | own n cap chars =>
    obtain ⟨-,-,-,-,harea⟩ := h
    exact harea.read hlen

theorem Owns.contains (h : Owns m x d) : Contains m x d := by
  cases d with
  | nullData => exact h
  | own len cap chars =>
    obtain ⟨hlen,hle,hcap,hpos,harea⟩ := h
    exact ⟨hlen,hle,hcap,hpos,harea.of_begins (List.prefix_append x [STERM])⟩

theorem Owns.length_eq (h : Owns m x d) : d.length = x.length := h.contains.length_eq

theorem Owns.length_le (h : Owns m x d) : x.length ≤ d.capacity := h.contains.length_le

theorem Owns.capacity_lt (h : Owns m x d) : d.capacity + 1 < 4294967296 := h.contains.capacity_lt

theorem Owns.lt_fresh (h : Owns m x d) {a : ℕ} (ha : d.Has a) : nullChars < a ∧ a < m.fresh := h.contains.lt_fresh ha

theorem Owns.keeps {S : ℕ → Prop} (h : Owns m x d) (hk : m.Keeps m' S) (hS : ∀ a, d.Has a → ¬ S a) :
    Owns m' x d := by
  cases d with
  | nullData => exact h
  | own len cap chars =>
    obtain ⟨hlen,hle,hcap,hpos,harea⟩ := h
    exact ⟨hlen,hle,hcap,hpos,hk.area harea (hS chars rfl)⟩

theorem Owns.read (h : Owns m x d) {len : ℕ} (hlen : len ≤ x.length) : m.read d.chars len = .ok (x.take len) :=
  h.contains.read hlen

theorem Owns.gives (h : Owns m x d) : Gives m d x (m,d) := ⟨h,Keeps.refl m _,fun _ ha => Or.inl ha⟩

theorem dispose_spec (h : Contains m x d) :
    ∃ m', dispose m d = .ok m' ∧ m'.fresh = m.fresh ∧ m.Keeps m' d.Has := by
  cases d with
  | nullData => exact ⟨m,rfl,rfl,Keeps.refl m _⟩
  | own len cap chars =>
    obtain ⟨-,-,-,-,harea⟩ := h
    obtain ⟨m',hm',-,hfresh,hk⟩ := free_spec harea
    exact ⟨m',hm',hfresh,hk⟩

theorem init_spec (m : Memory) {len cap : ℕ} (hlen : len ≤ cap) (hcap : cap + 1 < 4294967296) :
    ∃ m', init m len cap = .ok (m',.own len cap m.fresh) ∧ m'.Area (cap + 1) m.fresh [STERM] ∧
      m.Keeps m' (fun _ => False) := by
  obtain ⟨ha,harea,hk⟩ := alloc_spec m (cap + 1)
  obtain ⟨m₁,hm₁,harea₁,-,hk₁⟩ := harea.write [STERM] (Nat.le_add_left 1 cap)
  refine ⟨m₁,?_,harea₁,hk.trans hk₁ (fun a ha => Or.inr (Nat.le_of_eq ha.symm))⟩
  rw [init,if_pos hlen,sizeType,Nat.mod_eq_of_lt hcap]
  dsimp only
  rw [ha]
  rw [List.length_nil] at hm₁
  rw [hm₁]
  rfl

/-- Where there is room behind what is known of the characters. -/
theorem putBehind_spec {cap chars : ℕ} (harea : m.Area (cap + 1) chars x) (hcap : cap + 1 < 4294967296)
    {bytes : List UInt8} (hfits : x.length + bytes.length ≤ cap) :
    ∃ m', putBehind m (.own x.length cap chars) bytes bytes.length = .ok (m',.own (x ++ bytes).length cap chars) ∧
      m'.Area (cap + 1) chars (x ++ bytes ++ [STERM]) ∧ m.Keeps m' (· = chars) := by
  obtain ⟨m₁,hm₁,harea₁,-,hk₁⟩ := harea.write bytes (Nat.le_succ_of_le hfits)
  have hlen : (x ++ bytes).length = x.length + bytes.length := List.length_append
  obtain ⟨m₂,hm₂,harea₂,-,hk₂⟩ := harea₁.write [STERM] (by rw [hlen]; exact Nat.succ_le_succ hfits)
  refine ⟨m₂,?_,harea₂,hk₁.trans hk₂ (fun a ha => Or.inl ha)⟩
  have hsize : sizeType (x.length + bytes.length) = (x ++ bytes).length := by
    rw [hlen,sizeType,Nat.mod_eq_of_lt (by omega)]
  rw [putBehind]
  dsimp only [StringData.chars,StringData.length,StringData.addLength]
  rw [hm₁,ok_bind,hsize,hm₂]
  rfl

/-- The bytes are copied to the new characters, the terminator only if there are none. -/
theorem reserve_spec (h : Contains m x d) {cap : ℕ} (hgrow : d.capacity < cap) (hcap : cap + 1 < 4294967296) :
    ∃ m', reserve m d cap = .ok (m',.own x.length cap m.fresh) ∧ m'.Area (cap + 1) m.fresh x ∧
      (x = [] → m'.Area (cap + 1) m.fresh (x ++ [STERM])) ∧ m.Keeps m' d.Has := by
  have hle := h.length_le
  obtain ⟨m₁,hm₁,harea₁,hk₁⟩ := init_spec m (Nat.le_of_lt (hle.trans_lt hgrow)) hcap
  have h₁ : Contains m₁ x d := h.keeps hk₁ (fun _ _ => id)
  have hread := h₁.read (Nat.le_refl x.length)
  rw [List.take_length] at hread
  obtain ⟨m₂,hm₂,harea₂,-,hk₂⟩ := (harea₁.of_begins List.nil_prefix).write x (by rw [List.length_nil]; omega)
  have hnew : ∀ a, d.Has a → a ≠ m.fresh := fun a ha => Nat.ne_of_lt (h.lt_fresh ha).2
  have h₂ : Contains m₂ x d := h₁.keeps hk₂ hnew
  obtain ⟨m₃,hm₃,-,hk₃⟩ := dispose_spec h₂
  have hold : ¬ d.Has m.fresh := fun ha => hnew _ ha rfl
  refine ⟨m₃,?_,hk₃.area harea₂ hold,?_,?_⟩
  · rw [reserve,if_pos hgrow,h.length_eq,hm₁,ok_bind]
    dsimp only
    rw [hread,ok_bind]
    rw [List.length_nil] at hm₂
    rw [show (StringData.own x.length cap m.fresh).chars = m.fresh from rfl,hm₂,ok_bind,hm₃]
    rfl
  · rintro rfl
    -- nothing is written over the terminator of the new characters
    obtain rfl : m₁ = m₂ := Except.ok.inj hm₂
    exact hk₃.area harea₁ hold
  · have hk₂' := hk₁.trans hk₂ (fun a ha => Or.inr (Nat.le_of_eq ha.symm))
    exact (hk₂'.mono (fun _ => False.elim)).trans hk₃ (fun a ha => Or.inl ha)

/-- The bytes are still found where the argument points to after the String is disposed. -/
def Lasting (m : Memory) (d : StringData) (str : Source) (bytes : List UInt8) : Prop :=
  ∀ m', m.Keeps m' d.Has → str.read m' bytes.length = .ok bytes

theorem assignLen_gives (hpos : nullChars < m.fresh) (h : Owns m x d) {str : Source} {bytes : List UInt8}
    (hread : Lasting m d str bytes) (hmax : bytes.length < npos / 2) :
    ∃ r, assignLen m d str bytes.length = .ok r ∧ Gives m d bytes r := by
  obtain ⟨m₁,hm₁,hfresh₁,hk₁⟩ := dispose_spec h.contains
  have hcapacity := h.capacity_lt
  rw [npos] at hmax
  obtain ⟨cap,hcap,hinit⟩ : ∃ cap, (bytes.length ≤ cap ∧ cap + 1 < 4294967296) ∧
      (if bytes.length < d.capacity then init m₁ bytes.length d.capacity else init m₁ bytes.length bytes.length) =
        init m₁ bytes.length cap := by
    by_cases hlt : bytes.length < d.capacity
    · exact ⟨d.capacity,⟨Nat.le_of_lt hlt,hcapacity⟩,if_pos hlt⟩
    · exact ⟨bytes.length,⟨Nat.le_refl _,by omega⟩,if_neg hlt⟩
  obtain ⟨m₂,hm₂,harea₂,hk₂⟩ := init_spec m₁ hcap.1 hcap.2
  have hkeeps₂ : m.Keeps m₂ d.Has := hk₁.trans hk₂ (fun _ => False.elim)
  obtain ⟨m₃,hm₃,harea₃,-,hk₃⟩ := (harea₂.of_begins List.nil_prefix).write bytes (by rw [List.length_nil]; omega)
  obtain ⟨m₄,hm₄,harea₄,-,hk₄⟩ := harea₃.write [STERM] (by rw [List.nil_append]; exact Nat.succ_le_succ hcap.1)
  rw [List.nil_append] at hm₄ harea₄
  rw [hfresh₁] at hm₂ harea₄ hm₃ hm₄ hk₃ hk₄
  refine ⟨(m₄,.own bytes.length cap m.fresh),?_,⟨rfl,hcap.1,hcap.2,hpos,harea₄⟩,?_,?_⟩
  · rw [assignLen,if_pos (by rw [npos]; exact hmax),hm₁,ok_bind,hinit,hm₂,ok_bind]
    dsimp only
    rw [hread m₂ hkeeps₂,ok_bind]
    rw [List.length_nil] at hm₃
    rw [show (StringData.own bytes.length cap m.fresh).chars = m.fresh from rfl,hm₃,ok_bind,hm₄]
    rfl
  · have hnew : ∀ a, a = m.fresh → d.Has a ∨ m.fresh ≤ a := fun a ha => Or.inr (Nat.le_of_eq ha.symm)
    exact (hkeeps₂.trans hk₃ hnew).trans hk₄ hnew
  · rintro a rfl
    exact Or.inr (Nat.le_refl _)

theorem putBehind_gives (h : Contains m x d) (hne : d ≠ .nullData) {bytes : List UInt8}
    (hfits : d.length + bytes.length ≤ d.capacity) :
    ∃ r, putBehind m d bytes bytes.length = .ok r ∧ Gives m d (x ++ bytes) r := by
  cases d with
  | nullData => exact absurd rfl hne
  | own len cap chars =>
    obtain ⟨rfl,-,hcap,hchars,harea⟩ := h
    obtain ⟨m',hm',harea',hk⟩ := putBehind_spec harea hcap hfits
    refine ⟨_,hm',⟨rfl,?_,hcap,hchars,harea'⟩,hk,fun a ha => Or.inl ha⟩
    rw [List.length_append]
    exact hfits

theorem sizeType_add {n k : ℕ} (h : n + k < 4294967296) : sizeType (k + n) = n + k := by
  rw [sizeType,Nat.add_comm,Nat.mod_eq_of_lt h]

/-- Bytes are put behind others, and then the terminator is there also. -/
theorem appendLen_spec (hpos : nullChars < m.fresh) (h : Contains m x d) {str : Source} {bytes : List UInt8}
    (hread : str.read m bytes.length = .ok bytes) {foreign : Prop} (hlasting : foreign → Lasting m d str bytes)
    (h0 : bytes.length ≠ 0) (hroom : d.HasRoom foreign bytes.length) :
    ∃ r, appendLen m d str bytes.length = .ok r ∧ Gives m d (x ++ bytes) r := by
  have hlen := h.length_eq
  have hcap := h.capacity_lt
  by_cases hfits : d.length + bytes.length ≤ d.capacity
  · have hne : d ≠ .nullData := by
      rintro rfl
      exact h0 (Nat.le_zero.mp (Nat.le_of_add_left_le hfits))
    have hsize := sizeType_add (n := d.length) (k := bytes.length) (by omega)
    obtain ⟨r,hr,hgives⟩ := putBehind_gives h hne hfits
    exact ⟨r,by rw [appendLen,if_neg h0,if_pos (hsize ▸ hfits),hread,ok_bind,hr],hgives⟩
  · obtain ⟨hforeign,hgrown⟩ := (hroom.resolve_left h0).resolve_left hfits
    have hbound : d.grown bytes.length < 4294967296 := Nat.mod_lt _ (by decide)
    have heven : d.grown bytes.length + 1 ≠ 4294967296 := by
      rw [StringData.grown,sizeType]
      omega
    have hsize := sizeType_add (n := d.length) (k := bytes.length) (by omega)
    obtain ⟨m₁,hm₁,harea₁,-,hk₁⟩ := @reserve_spec _ _ _ h (d.grown bytes.length) (by omega) (by omega)
    obtain ⟨m₂,hm₂,harea₂,hk₂⟩ := @putBehind_spec _ _ _ _ harea₁ (by omega) bytes (by omega)
    refine ⟨(m₂,.own (x ++ bytes).length (d.grown bytes.length) m.fresh),?_,⟨rfl,?_,?_,hpos,harea₂⟩,
      hk₁.trans hk₂ (fun a ha => Or.inr (Nat.le_of_eq ha.symm)),?_⟩
    · rw [appendLen,if_neg h0,if_neg (hsize ▸ hfits),← StringData.grown,hm₁,ok_bind]
      dsimp only
      rw [hlasting hforeign m₁ hk₁,ok_bind,hm₂]
    · rw [List.length_append]
      omega
    · omega
    · rintro a rfl
      exact Or.inr (Nat.le_refl _)

theorem appendLen_gives (hpos : nullChars < m.fresh) (h : Owns m x d) {str : Source} {bytes : List UInt8}
    (hread : str.read m bytes.length = .ok bytes) {foreign : Prop} (hlasting : foreign → Lasting m d str bytes)
    (hroom : d.HasRoom foreign bytes.length) :
    ∃ r, appendLen m d str bytes.length = .ok r ∧ Gives m d (x ++ bytes) r := by
  by_cases h0 : bytes.length = 0
  · obtain rfl := List.length_eq_zero_iff.mp h0
    rw [List.append_nil]
    exact ⟨(m,d),if_pos rfl,h.gives⟩
  · exact appendLen_spec hpos h.contains hread hlasting h0 hroom

theorem reserve_gives (hpos : nullChars < m.fresh) (h : Owns m x d) {cap : ℕ}
    (hmeets : cap ≤ d.capacity ∨ d.length = 0 ∧ cap < npos) :
    ∃ r, reserve m d cap = .ok r ∧ Gives m d x r := by
  by_cases hgrow : d.capacity < cap
  · obtain ⟨h0,hcap⟩ := hmeets.resolve_left (Nat.not_le.mpr hgrow)
    obtain rfl : x = [] := List.length_eq_zero_iff.mp (h.length_eq.symm.trans h0)
    obtain ⟨m',hm',-,harea,hk⟩ := reserve_spec h.contains hgrow (Nat.succ_lt_succ hcap)
    refine ⟨_,hm',⟨rfl,Nat.zero_le _,Nat.succ_lt_succ hcap,hpos,harea rfl⟩,hk,?_⟩
    rintro a rfl
    exact Or.inr (Nat.le_refl _)
  · exact ⟨(m,d),if_neg hgrow,h.gives⟩

/-- Where they do not fit, the characters are put into a block of their own first. -/
theorem appendChars_grown (hpos : nullChars < m.fresh) (h : Contains m x d) {num : ℕ} (ch : UInt8)
    (hgrown : d.length + num ≤ d.grown num) (hfits : ¬ d.length + num ≤ d.capacity) :
    ∃ r, appendChars m d num ch = .ok r ∧ Gives m d (x ++ List.replicate num ch) r := by
  have hnum : (List.replicate num ch).length = num := List.length_replicate
  have hbound : d.grown num < 4294967296 := Nat.mod_lt _ (by decide)
  have hsize := sizeType_add (n := d.length) (k := num) (by omega)
  obtain ⟨ha,harea,hk⟩ := alloc_spec m num
  obtain ⟨m₁,hm₁,harea₁,hfresh₁,hk₁⟩ := harea.write (List.replicate num ch) (by rw [hnum,List.length_nil]; omega)
  rw [List.nil_append] at harea₁
  have hkeeps₁ : m.Keeps m₁ (fun _ => False) := hk.trans hk₁ (fun a ha => Or.inr (Nat.le_of_eq ha.symm))
  have h₁ : Contains m₁ x d := h.keeps hkeeps₁ (fun _ _ => id)
  have hle := h.length_le
  have hlen := h.length_eq
  have hbuff : ¬ d.Has m.fresh := fun hhas => absurd (h.lt_fresh hhas).2 (Nat.lt_irrefl _)
  have hlast : Lasting m₁ d (.chars m.fresh) (List.replicate num ch) := by
    intro m' hk'
    have hread := (hk'.area harea₁ hbuff).read (Nat.le_refl _)
    rwa [List.take_length] at hread
  obtain ⟨r,hr,hgives⟩ := appendLen_spec (hpos.trans_le hkeeps₁.fresh) h₁ (hlast m₁ (Keeps.refl _ _))
    (fun _ => hlast) (by omega) (Or.inr (Or.inr ⟨trivial,by rwa [hnum]⟩))
  obtain ⟨m₂,hm₂,-,-,hk₂⟩ := free_spec (hgives.keeps.area harea₁ hbuff)
  have hother : ∀ a, r.2.Has a → a ≠ m.fresh := by
    rintro a hhas rfl
    rcases hgives.own _ hhas with hold | hnew
    · exact hbuff hold
    · exact absurd harea₁.lt_fresh (Nat.not_lt.mpr hnew)
  refine ⟨(m₂,r.2),?_,hgives.owns.keeps hk₂ hother,?_,fun a hhas => ?_⟩
  · rw [appendChars,if_neg (hsize ▸ hfits)]
    dsimp only
    rw [List.length_nil] at hm₁
    rw [hnum] at hr
    rw [ha,hm₁,ok_bind,hr,ok_bind,hm₂]
    rfl
  · have hkeeps := (hkeeps₁.mono (fun _ => False.elim)).trans hgives.keeps (fun a hhas => Or.inl hhas)
    exact hkeeps.trans hk₂ (fun a hhas => Or.inr (Nat.le_of_eq hhas.symm))
  · exact (hgives.own a hhas).imp_right (fun hnew => hkeeps₁.fresh.trans hnew)

theorem appendChars_gives (hpos : nullChars < m.fresh) (h : Contains m x d) {num : ℕ} (ch : UInt8)
    (hroom : d.HasRoom True num) (hnull : num = 0 → d ≠ .nullData) :
    ∃ r, appendChars m d num ch = .ok r ∧ Gives m d (x ++ List.replicate num ch) r := by
  have hcap := h.capacity_lt
  have hle := h.length_le
  have hlen := h.length_eq
  have hnum : (List.replicate num ch).length = num := List.length_replicate
  by_cases hfits : d.length + num ≤ d.capacity
  · have hne : d ≠ .nullData := by
      rintro rfl
      exact hnull (Nat.le_zero.mp (Nat.le_of_add_left_le hfits)) rfl
    have hsize := sizeType_add (n := d.length) (k := num) (by omega)
    obtain ⟨r,hr,hgives⟩ := putBehind_gives h hne (by rwa [hnum])
    rw [hnum] at hr
    exact ⟨r,by rw [appendChars,if_pos (hsize ▸ hfits),hr],hgives⟩
  · refine appendChars_grown hpos h ch ?_ hfits
    rcases hroom with h0 | hroom | ⟨-,hroom⟩
    · omega
    · exact absurd hroom hfits
    · exact hroom

/-! ## Programs with Strings -/

structure Holds (s : StringState) (xs : Sequences) : Prop where
  fresh : nullChars < s.mem.fresh
  literal : s.mem.block nullChars = some ⟨[STERM],true⟩
  live : ∀ i, s.sdata i = none ↔ xs i = none
  owns : ∀ i d x, s.sdata i = some d → xs i = some x → Owns s.mem x d
  apart : ∀ i j d e a, s.sdata i = some d → s.sdata j = some e → d.Has a → e.Has a → i = j

theorem holds_initial (junk : ℕ → ℕ → UInt8) : Holds (.initial junk) (fun _ => none) where
  fresh := Nat.zero_lt_one
  literal := rfl
  live := fun _ => iff_of_true rfl rfl
  owns := fun _ _ _ hd => by cases hd
  apart := fun _ _ _ _ _ hd => by cases hd

section Holds
variable {s : StringState} {xs : Sequences} {i j : ℕ}

theorem Holds.live_data (hs : Holds s xs) (hx : xs i = some x) :
    ∃ d, s.sdata i = some d ∧ s.data i = .ok d ∧ Owns s.mem x d := by
  cases hd : s.sdata i with
  | none => rw [(hs.live i).mp hd] at hx; cases hx
  | some d => exact ⟨d,rfl,by rw [StringState.data,hd],hs.owns i d x hd hx⟩

theorem Holds.refines (hs : Holds s xs) : StringAction.Refines s xs := by
  have howns : ∀ i d, s.sdata i = some d → ∃ x, xs i = some x ∧ Owns s.mem x d := by
    intro i d hd
    cases hx : xs i with
    | none => rw [(hs.live i).mpr hx] at hd; cases hd
    | some x => exact ⟨x,rfl,hs.owns i d x hd hx⟩
  refine ⟨hs.live,fun i d hd => ?_,fun i d hd => ?_,fun i d x hd hx => ?_,hs.literal⟩
  · obtain ⟨x,-,h⟩ := howns i d hd
    exact h.length_eq.trans_le h.length_le
  · obtain ⟨x,-,h⟩ := howns i d hd
    cases d with
    | nullData =>
      rw [StringData.chars,hs.literal]
      rfl
    | own len cap chars =>
      obtain ⟨rfl,-,-,-,harea⟩ := h
      obtain ⟨data,hdata,-,rest,rfl⟩ := harea.holds
      rw [StringData.chars,hdata,Option.bind_some,StringData.length,List.append_assoc,
        List.getElem?_append_right (Nat.le_refl _),Nat.sub_self]
      rfl
  · have h := hs.owns i d x hd hx
    have hread := h.read (Nat.le_refl _)
    rw [List.take_length,← h.length_eq] at hread
    exact ⟨h.length_eq,hread⟩

theorem strlen_chars (hliteral : m.block nullChars = some ⟨[STERM],true⟩) (h : Owns m x d) :
    (Source.chars d.chars).strlen m = .ok (CString.ofBuf x).strlen := by
  cases d with
  | nullData =>
    obtain rfl : x = [] := h
    rw [Source.strlen,StringData.chars,hliteral]
    rfl
  | own len cap chars =>
    obtain ⟨-,-,-,-,harea⟩ := h
    obtain ⟨data,hdata,-,rest,rfl⟩ := harea.holds
    rw [Source.strlen,StringData.chars,hdata]
    dsimp only
    rw [if_pos (by simp),List.append_assoc]
    exact congrArg (fun t => Except.ok (CString.strlen t)) (CString.ofBuf_append_nul x rest)

theorem lasting_nil (m : Memory) (d : StringData) (str : Source) : Lasting m d str [] := by
  intro m' _
  cases str with
  | text data =>
    rw [List.length_nil,Source.read,if_pos (Nat.zero_le _)]
    rfl
  | chars a => rfl

/-- A `const char*` argument of a call on the String at `i`. -/
theorem Holds.arg (hs : Holds s xs) (hd : ∀ a, d.Has a → s.sdata i = some d) {str : CharsArg} {b : List UInt8}
    (hv : str.value xs = some b) : ∃ src, s.source str = .ok src ∧ src.strlen s.mem = .ok b.length ∧
      ∀ len, len ≤ b.length → src.read s.mem (b.take len).length = .ok (b.take len) ∧
        (str ≠ .cStr i ∨ len = 0 → Lasting s.mem d src (b.take len)) := by
  cases str with
  | text data =>
    cases hv
    have hread : ∀ m' len, len ≤ (CString.ofBuf data).bytes.length →
        (Source.text data).read m' ((CString.ofBuf data).bytes.take len).length =
          .ok ((CString.ofBuf data).bytes.take len) := by
      intro m' len hlen
      have hle := hlen.trans (CString.ofBuf_begins data).length_le
      rw [List.length_take,Nat.min_eq_left hlen,Source.read,if_pos (Nat.le_succ_of_le hle),
        take_of_begins ((CString.ofBuf_begins data).trans (List.prefix_append _ _)) hlen]
    exact ⟨_,rfl,rfl,fun len hlen => ⟨hread _ len hlen,fun _ m' _ => hread m' len hlen⟩⟩
  | cStr j =>
    obtain ⟨x,hx,rfl⟩ := Option.map_eq_some_iff.mp hv
    obtain ⟨e,he,hdata,h⟩ := hs.live_data hx
    refine ⟨.chars e.chars,by rw [StringState.source,hdata]; rfl,strlen_chars hs.literal h,fun len hlen => ?_⟩
    have hread : ∀ m', Owns m' x e → (Source.chars e.chars).read m' ((CString.ofBuf x).bytes.take len).length =
        .ok ((CString.ofBuf x).bytes.take len) := by
      intro m' h'
      rw [List.length_take,Nat.min_eq_left hlen,Source.read,h'.read (hlen.trans (CString.ofBuf_begins x).length_le),
        take_of_begins (CString.ofBuf_begins x) hlen]
    refine ⟨hread _ h,fun hor => ?_⟩
    rcases hor with hne | rfl
    · intro m' hk
      refine hread m' (h.keeps hk (fun a hea hda => hne ?_))
      rw [hs.apart i j d e a (hd a hda) he hda hea]
    · exact lasting_nil _ _ _

theorem Holds.argString (hs : Holds s xs) (hd : ∀ a, d.Has a → s.sdata i = some d) (hy : xs j = some y) :
    ∃ e, s.data j = .ok e ∧ e.length = y.length ∧ (Source.chars e.chars).read s.mem y.length = .ok y ∧
      (Source.chars e.chars).strlen s.mem = .ok (CString.ofBuf y).strlen ∧
      (j ≠ i ∨ e.length = 0 → Lasting s.mem d (.chars e.chars) y) := by
  obtain ⟨e,he,hdata,h⟩ := hs.live_data hy
  have hread : ∀ m', Owns m' y e → (Source.chars e.chars).read m' y.length = .ok y := by
    intro m' h'
    have hread := h'.read (Nat.le_refl y.length)
    rwa [List.take_length] at hread
  refine ⟨e,hdata,h.length_eq,hread _ h,strlen_chars hs.literal h,fun hor => ?_⟩
  rcases hor with hne | h0
  · intro m' hk
    refine hread m' (h.keeps hk (fun a hea hda => hne ?_))
    exact (hs.apart i j d e a (hd a hda) he hda hea).symm
  · rw [h.length_eq,List.length_eq_zero_iff] at h0
    exact h0 ▸ lasting_nil _ _ _

theorem Holds.set (hs : Holds s xs) (h : Owns s.mem x d) (hd : ∀ a, d.Has a → s.sdata i = some d)
    {r : Memory × StringData} (hr : Gives s.mem d y r) : Holds (s.set i r) (Function.update xs i (some y)) := by
  have hother : ∀ k e, k ≠ i → s.sdata k = some e → ∀ a, e.Has a → ¬ d.Has a :=
    fun k e hk he a hea hda => hk (hs.apart k i e d a he (hd a hda) hea hda)
  constructor
  · exact hs.fresh.trans_le hr.keeps.fresh
  · exact (hr.keeps.same _ hs.fresh (fun hda => Nat.lt_irrefl _ (h.lt_fresh hda).1)).trans hs.literal
  · intro k
    by_cases hk : k = i
    · rw [hk,StringState.set_self,Function.update_self]
      exact iff_of_false (Option.some_ne_none _) (Option.some_ne_none _)
    · rw [StringState.set_of_ne s hk,Function.update_of_ne hk]
      exact hs.live k
  · intro k e z he hz
    by_cases hk : k = i
    · rw [hk,StringState.set_self] at he
      rw [hk,Function.update_self] at hz
      cases he
      cases hz
      exact hr.owns
    · rw [StringState.set_of_ne s hk] at he
      rw [Function.update_of_ne hk] at hz
      exact (hs.owns k e z he hz).keeps hr.keeps (hother k e hk he)
  · have hnew : ∀ k e a, k ≠ i → s.sdata k = some e → e.Has a → ¬ r.2.Has a := by
      intro k e a hk he hea hra
      rcases hr.own a hra with hda | hfresh
      · exact hother k e hk he a hea hda
      · cases hz : xs k with
        | none => rw [(hs.live k).mpr hz] at he; cases he
        | some z => exact absurd ((hs.owns k e z he hz).lt_fresh hea).2 (Nat.not_lt.mpr hfresh)
    intro k l e e' a he he' hea hea'
    by_cases hk : k = i
    · by_cases hl : l = i
      · rw [hk,hl]
      · rw [hk,StringState.set_self] at he
        rw [StringState.set_of_ne s hl] at he'
        cases he
        exact absurd hea (hnew l e' a hl he' hea')
    · rw [StringState.set_of_ne s hk] at he
      by_cases hl : l = i
      · rw [hl,StringState.set_self] at he'
        cases he'
        exact absurd hea' (hnew k e a hk he hea)
      · rw [StringState.set_of_ne s hl] at he'
        exact hs.apart k l e e' a he he' hea hea'

theorem Holds.remove (hs : Holds s xs) (i : ℕ) :
    Holds { s with sdata := Function.update s.sdata i none } (Function.update xs i none) := by
  have hlive : ∀ k d, Function.update s.sdata i none k = some d → k ≠ i ∧ s.sdata k = some d := by
    intro k d hk
    by_cases hki : k = i
    · rw [hki,Function.update_self] at hk
      cases hk
    · rw [Function.update_of_ne hki] at hk
      exact ⟨hki,hk⟩
  refine ⟨hs.fresh,hs.literal,fun k => ?_,fun k d x hd hx => ?_,fun k l d e a hd he => ?_⟩
  · dsimp only
    by_cases hk : k = i
    · rw [hk,Function.update_self,Function.update_self]
      exact iff_of_true rfl rfl
    · rw [Function.update_of_ne hk,Function.update_of_ne hk]
      exact hs.live k
  · obtain ⟨hk,hd⟩ := hlive k d hd
    rw [Function.update_of_ne hk] at hx
    exact hs.owns k d x hd hx
  · obtain ⟨-,hd⟩ := hlive k d hd
    obtain ⟨-,he⟩ := hlive l e he
    exact hs.apart k l d e a hd he

/-- Two Strings change places. -/
theorem update_update_apply {α : Type} (f : ℕ → Option α) {i j : ℕ} {u v : α} (hi : f i = some u) (hj : f j = some v)
    (k : ℕ) : Function.update (Function.update f i (some v)) j (some u) k = f (Equiv.swap i j k) := by
  by_cases hkj : k = j
  · rw [hkj,Function.update_self,Equiv.swap_apply_right,hi]
  · rw [Function.update_of_ne hkj]
    by_cases hki : k = i
    · rw [hki,Function.update_self,Equiv.swap_apply_left,hj]
    · rw [Function.update_of_ne hki,Equiv.swap_apply_of_ne_of_ne hki hkj]

theorem Holds.swap (hs : Holds s xs) {e : StringData} (hi : s.sdata i = some d) (hj : s.sdata j = some e)
    (hx : xs i = some x) (hy : xs j = some y) :
    Holds { s with sdata := Function.update (Function.update s.sdata i (some e)) j (some d) }
      (Function.update (Function.update xs i (some y)) j (some x)) := by
  refine ⟨hs.fresh,hs.literal,fun k => ?_,fun k f z hf hz => ?_,fun k l f g a hf hg hfa hga => ?_⟩
  · dsimp only
    rw [update_update_apply _ hi hj,update_update_apply _ hx hy]
    exact hs.live _
  · dsimp only at hf
    rw [update_update_apply _ hi hj] at hf
    rw [update_update_apply _ hx hy] at hz
    exact hs.owns _ f z hf hz
  · dsimp only at hf hg
    rw [update_update_apply _ hi hj] at hf hg
    exact (Equiv.swap i j).injective (hs.apart _ _ f g a hf hg hfa hga)

end Holds

/-! ## Calls -/

/-- The assertion fails on a length, or the sequence is as it has to be. -/
def Outcome (m : Memory) (d : StringData) (assigned : Option ℕ) (y : List UInt8)
    (res : Except Fault (Memory × StringData)) : Prop :=
  (∃ len, assigned = some len ∧ npos / 2 ≤ len ∧ res = .error .assertion) ∨ ∃ r, res = .ok r ∧ Gives m d y r

theorem assignLen_outcome (hpos : nullChars < m.fresh) (h : Owns m x d) {str : Source} {bytes : List UInt8}
    (hlasting : Lasting m d str bytes) :
    Outcome m d (some bytes.length) bytes (assignLen m d str bytes.length) := by
  by_cases hmax : bytes.length < npos / 2
  · exact Or.inr (assignLen_gives hpos h hlasting hmax)
  · exact Or.inl ⟨_,rfl,Nat.not_lt.mp hmax,if_neg hmax⟩

section Calls
variable {s : StringState} {xs : Sequences} {i j : ℕ} (hs : Holds s xs) (h : Owns s.mem x d)
  (hd : ∀ a, d.Has a → s.sdata i = some d)
include hs h hd

theorem Holds.assignLen {str : CharsArg} {b : List UInt8} (hv : str.value xs = some b) {len : ℕ}
    (hlen : len ≤ b.length) (hown : str ≠ .cStr i ∨ len = 0) :
    Outcome s.mem d (some len) (b.take len) (do Text.assignLen s.mem d (← s.source str) len) := by
  obtain ⟨src,hsrc,-,hread⟩ := hs.arg hd hv
  have hout := assignLen_outcome hs.fresh h ((hread len hlen).2 hown)
  rw [List.length_take,Nat.min_eq_left hlen] at hout
  rw [hsrc,ok_bind]
  exact hout

theorem Holds.assign {str : CharsArg} (hv : str.value xs = some y)
    (hmeets : ∀ len, s.strlen str = .ok len → len < 4294967296 ∧ (str ≠ .cStr i ∨ len = 0)) :
    Outcome s.mem d ((s.strlen str).toOption.map sizeType) y (do Text.assign s.mem d (← s.source str)) := by
  obtain ⟨src,hsrc,hstrlen,hread⟩ := hs.arg hd hv
  have hlen : s.strlen str = .ok y.length := by rw [StringState.strlen,hsrc,ok_bind,hstrlen]
  obtain ⟨hlt,hown⟩ := hmeets _ hlen
  have hsize : sizeType y.length = y.length := Nat.mod_eq_of_lt hlt
  obtain ⟨-,hlasting⟩ := hread _ (Nat.le_refl _)
  rw [List.take_length] at hlasting
  have hout := assignLen_outcome hs.fresh h (hlasting hown)
  rw [hsrc,ok_bind,Text.assign,hstrlen,ok_bind,hsize,hlen]
  change Outcome s.mem d (some (sizeType y.length)) y _
  rw [hsize]
  exact hout

theorem Holds.assignString (hv : xs j = some y) (hmeets : j ≠ i ∨ ∀ e, s.data j = .ok e → e.length = 0) :
    Outcome s.mem d ((s.data j).toOption.map StringData.length) y
      (do let str ← s.data j; Text.assignLen s.mem d (.chars str.chars) str.length) := by
  obtain ⟨e,he,hlen,-,-,hlasting⟩ := hs.argString hd hv
  have hout := assignLen_outcome hs.fresh h (hlasting (hmeets.imp_right (fun h0 => h0 e he)))
  rw [he,ok_bind,hlen]
  change Outcome s.mem d (some e.length) y _
  rw [hlen]
  exact hout

theorem Holds.appendLen {str : CharsArg} {b : List UInt8} (hv : str.value xs = some b) {len : ℕ}
    (hlen : len ≤ b.length) (hroom : d.HasRoom (str ≠ .cStr i) len) :
    ∃ r, (do Text.appendLen s.mem d (← s.source str) len) = .ok r ∧ Gives s.mem d (x ++ b.take len) r := by
  obtain ⟨src,hsrc,-,hread⟩ := hs.arg hd hv
  obtain ⟨hnow,hlasting⟩ := hread len hlen
  have htake : (b.take len).length = len := by rw [List.length_take,Nat.min_eq_left hlen]
  rw [hsrc,ok_bind]
  have hout := appendLen_gives hs.fresh h hnow (fun hne => hlasting (Or.inl hne)) (by rwa [htake])
  rwa [htake] at hout

theorem Holds.append {str : CharsArg} {b : List UInt8} (hv : str.value xs = some b)
    (hroom : ∀ len, s.strlen str = .ok len → d.HasRoom (str ≠ .cStr i) len) :
    ∃ r, (do Text.append s.mem d (← s.source str)) = .ok r ∧ Gives s.mem d (x ++ b) r := by
  obtain ⟨src,hsrc,hstrlen,-⟩ := hs.arg hd hv
  have hlen : s.strlen str = .ok b.length := by rw [StringState.strlen,hsrc,ok_bind,hstrlen]
  have hroom := hroom _ hlen
  have hsize : sizeType b.length = b.length := by
    have hcap := h.capacity_lt
    have hgrown : d.grown b.length < 4294967296 := Nat.mod_lt _ (by decide)
    refine Nat.mod_eq_of_lt ?_
    rcases hroom with h0 | hle | ⟨-,hle⟩ <;> omega
  have hout := hs.appendLen h hd hv (Nat.le_refl _) hroom
  rw [List.take_length,hsrc,ok_bind] at hout
  rw [hsrc,ok_bind,Text.append,hstrlen,ok_bind,hsize]
  exact hout

theorem Holds.appendString (hv : xs j = some y) (hroom : ∀ e, s.data j = .ok e → d.HasRoom (j ≠ i) e.length) :
    ∃ r, (do let str ← s.data j; Text.appendLen s.mem d (.chars str.chars) str.length) = .ok r ∧
      Gives s.mem d (x ++ y) r := by
  obtain ⟨e,he,hlen,hread,-,hlasting⟩ := hs.argString hd hv
  have hroom := hroom e he
  rw [he,ok_bind,hlen]
  rw [hlen] at hroom
  exact appendLen_gives hs.fresh h hread (fun hne => hlasting (Or.inl hne)) hroom

end Calls

theorem Member.apply_outcome {s : StringState} {xs : Sequences} {i : ℕ} (hs : Holds s xs) (hd : s.sdata i = some d)
    (hx : xs i = some x) {f : Member} (hy : f.seq xs x = some y) (hmeets : f.Meets s i d) :
    Outcome s.mem d (f.assigned s i) y (f.apply s i d) := by
  have h := hs.owns i d x hd hx
  have hown : ∀ a, d.Has a → s.sdata i = some d := fun _ _ => hd
  have hdata : s.data i = .ok d := by rw [StringState.data,hd]
  cases f with
  | assignLen str len =>
    obtain ⟨b,hv,hb⟩ := Option.bind_eq_some_iff.mp hy
    obtain ⟨hlen,hb⟩ := Option.ite_none_right_eq_some.mp hb
    cases hb
    exact hs.assignLen h hown hv hlen hmeets
  | assign str => exact hs.assign h hown hy hmeets
  | assignString j =>
    refine hs.assignString h hown hy ?_
    by_cases hj : j = i
    · subst hj
      refine Or.inr (fun e he => ?_)
      cases hdata.symm.trans he
      exact hmeets.resolve_left (fun hne => hne rfl)
    · exact Or.inl hj
  | appendLen str len =>
    obtain ⟨b,hv,hb⟩ := Option.bind_eq_some_iff.mp hy
    obtain ⟨hlen,hb⟩ := Option.ite_none_right_eq_some.mp hb
    cases hb
    exact Or.inr (hs.appendLen h hown hv hlen hmeets)
  | append str =>
    obtain ⟨b,hv,rfl⟩ := Option.map_eq_some_iff.mp hy
    exact Or.inr (hs.append h hown hv hmeets)
  | appendString j =>
    obtain ⟨z,hz,rfl⟩ := Option.map_eq_some_iff.mp hy
    exact Or.inr (hs.appendString h hown hz hmeets)
  | appendChars num ch =>
    cases hy
    exact Or.inr (appendChars_gives hs.fresh h.contains ch hmeets.1 hmeets.2)
  | operatorAssign str => exact hs.assign h hown hy hmeets
  | operatorAssignString j =>
    rw [apply,assigned]
    by_cases hj : j = i
    · subst hj
      cases hx.symm.trans hy
      rw [if_neg (fun hne => hne rfl),if_neg (fun hne => hne rfl)]
      exact Or.inr ⟨_,rfl,h.gives⟩
    · rw [if_pos hj,if_pos hj]
      exact hs.assignString h hown hy (Or.inl hj)
  | operatorAdd str =>
    obtain ⟨b,hv,rfl⟩ := Option.map_eq_some_iff.mp hy
    exact Or.inr (hs.append h hown hv hmeets)
  | operatorAddString j =>
    obtain ⟨z,hz,rfl⟩ := Option.map_eq_some_iff.mp hy
    exact Or.inr (hs.appendString h hown hz hmeets)
  | operatorAddChar ch =>
    cases hy
    exact Or.inr (appendChars_gives hs.fresh h.contains ch hmeets (fun h0 => absurd h0 Nat.one_ne_zero))
  | reserve cap =>
    cases hy
    exact Or.inr (reserve_gives hs.fresh h hmeets)
  | clear =>
    cases hy
    obtain ⟨m',hm',-,hk⟩ := dispose_spec h.contains
    exact Or.inr ⟨(m',.nullData),by rw [apply,Text.clear,hm']; rfl,rfl,hk,fun _ => False.elim⟩

namespace StringAction

/-- A call is refused by the assertion, or the Strings hold the sequences after it. -/
def Holding (s : StringState) (xs : Sequences) (a : StringAction) : Prop :=
  a.Refused s ∧ apply s a = .error .assertion ∨ ∃ s', apply s a = .ok s' ∧ Holds s' xs

section Actions
variable {s : StringState} {xs : Sequences} (hs : Holds s xs)
include hs

theorem holding_createFrom {i : ℕ} {str : CharsArg} (hi : xs i = none) (hy : str.value xs = some y)
    (hmeets : (createFrom i str).Meets s) : Holding s (Function.update xs i (some y)) (createFrom i str) := by
  have hnull : Owns s.mem [] .nullData := rfl
  have hne : str ≠ .cStr i := by
    rintro rfl
    rw [CharsArg.value,hi] at hy
    cases hy
  have hassoc : apply s (createFrom i str) =
      (do assign s.mem .nullData (← s.source str)) >>= fun r => pure (s.set i r) := (bind_assoc _ _ _).symm
  rcases hs.assign (i := i) hnull (fun _ => False.elim) hy (fun len hlen => ⟨hmeets len hlen,Or.inl hne⟩) with
    ⟨len,hlen,hmax,herr⟩ | ⟨r,hr,hgives⟩
  · exact Or.inl ⟨⟨len,hlen,hmax⟩,by rw [hassoc,herr]; rfl⟩
  · exact Or.inr ⟨s.set i r,by rw [hassoc,hr]; rfl,hs.set hnull (fun _ => False.elim) hgives⟩

theorem holding_createCopy {i j : ℕ} (hi : xs i = none) (hy : xs j = some y) (hmeets : (createCopy i j).Meets s) :
    Holding s (Function.update xs i (some y)) (createCopy i j) := by
  have hnull : Owns s.mem [] .nullData := rfl
  have hne : j ≠ i := by
    rintro rfl
    rw [hi] at hy
    cases hy
  obtain ⟨e,he,hlen,-,hstrlen,hlasting⟩ := hs.argString (i := i) (d := .nullData) (fun _ => False.elim) hy
  have hstr : s.strlen (.cStr j) = (Source.chars e.chars).strlen s.mem := by
    rw [StringState.strlen,StringState.source,he]
    rfl
  have hfull := hmeets e he
  rw [hstr] at hfull
  rw [Holding,apply,he,ok_bind]
  by_cases h0 : e.length = 0
  · obtain rfl : y = [] := List.length_eq_zero_iff.mp (hlen.symm.trans h0)
    rw [if_neg (fun hne => hne h0)]
    exact Or.inr ⟨_,rfl,hs.set hnull (fun _ => False.elim) hnull.gives⟩
  · have hsize : sizeType e.length = y.length := by
      obtain ⟨e',-,he',h⟩ := hs.live_data hy
      obtain rfl : e = e' := Except.ok.inj (he.symm.trans he')
      have hle := h.length_le
      have hcap := h.capacity_lt
      rw [sizeType,Nat.mod_eq_of_lt] <;> omega
    rw [if_pos h0,assign,hfull,ok_bind,hsize]
    rcases assignLen_outcome hs.fresh hnull (hlasting (Or.inl hne)) with ⟨len,hlen',hmax,herr⟩ | ⟨r,hr,hgives⟩
    · refine Or.inl ⟨⟨len,?_,hmax⟩,by rw [herr]; rfl⟩
      rw [assigned,hstr,hfull,← hlen',← hsize]
      rfl
    · exact Or.inr ⟨s.set i r,by rw [hr]; rfl,hs.set hnull (fun _ => False.elim) hgives⟩

theorem holding_destroy {i : ℕ} (hx : xs i = some x) : Holding s (Function.update xs i none) (destroy i) := by
  obtain ⟨d,hd,hdata,h⟩ := hs.live_data hx
  obtain ⟨m',hm',-,hk⟩ := dispose_spec h.contains
  have hgives : Gives s.mem d [] (m',.nullData) := ⟨rfl,hk,fun _ => False.elim⟩
  have hremove := (hs.set h (fun _ _ => hd) hgives).remove i
  rw [Function.update_idem] at hremove
  refine Or.inr ⟨⟨m',Function.update s.sdata i none⟩,by rw [apply,hdata,ok_bind,hm']; rfl,?_⟩
  rwa [StringState.set,Function.update_idem] at hremove

theorem holding_call {i : ℕ} {f : Member} (hx : xs i = some x) (hy : f.seq xs x = some y)
    (hmeets : (call i f).Meets s) : Holding s (Function.update xs i (some y)) (call i f) := by
  obtain ⟨d,hd,hdata,h⟩ := hs.live_data hx
  rcases Member.apply_outcome hs hd hx hy (hmeets d hdata) with ⟨len,hlen,hmax,herr⟩ | ⟨r,hr,hgives⟩
  · exact Or.inl ⟨⟨len,hlen,hmax⟩,by rw [apply,hdata,ok_bind,herr]; rfl⟩
  · exact Or.inr ⟨s.set i r,by rw [apply,hdata,ok_bind,hr]; rfl,hs.set h (fun _ _ => hd) hgives⟩

end Actions

theorem apply_outcome {s : StringState} {xs xs' : Sequences} {a : StringAction} (hs : Holds s xs)
    (hseq : seqStep xs a = some xs') (hmeets : a.Meets s) : Holding s xs' a := by
  cases a with
  | create i =>
    obtain ⟨-,hxs⟩ := Option.ite_none_right_eq_some.mp hseq
    cases hxs
    have hnull : Owns s.mem [] .nullData := rfl
    exact Or.inr ⟨_,rfl,hs.set hnull (fun _ => False.elim) hnull.gives⟩
  | createFrom i str =>
    obtain ⟨hi,hxs⟩ := Option.ite_none_right_eq_some.mp hseq
    obtain ⟨y,hy,rfl⟩ := Option.map_eq_some_iff.mp hxs
    exact holding_createFrom hs hi hy hmeets
  | createCopy i j =>
    obtain ⟨hi,hxs⟩ := Option.ite_none_right_eq_some.mp hseq
    obtain ⟨y,hy,rfl⟩ := Option.map_eq_some_iff.mp hxs
    exact holding_createCopy hs hi hy hmeets
  | destroy i =>
    obtain ⟨x,hx,rfl⟩ := Option.map_eq_some_iff.mp hseq
    exact holding_destroy hs hx
  | call i f =>
    obtain ⟨x,hx,hxs⟩ := Option.bind_eq_some_iff.mp hseq
    obtain ⟨y,hy,rfl⟩ := Option.map_eq_some_iff.mp hxs
    exact holding_call hs hx hy hmeets
  | swap i j =>
    obtain ⟨x,hx,hxs⟩ := Option.bind_eq_some_iff.mp hseq
    obtain ⟨y,hy,rfl⟩ := Option.map_eq_some_iff.mp hxs
    obtain ⟨d,hd,hdata,-⟩ := hs.live_data hx
    obtain ⟨e,he,hdata',-⟩ := hs.live_data hy
    exact Or.inr ⟨_,by rw [apply,hdata,ok_bind,hdata',ok_bind]; rfl,hs.swap hd he hx hy⟩

theorem run_holds {junk : ℕ → ℕ → UInt8} {acts : List StringAction} {s : StringState}
    (h : Transition.Along step Meets (.initial junk) acts)
    (hrun : Transition.exec step (.initial junk) acts = some s) :
    ∀ xs, Transition.exec seqStep (fun _ => none) acts = some xs → Holds s xs := by
  refine Transition.exec_invariant
    (I := fun acts s => ∀ xs, Transition.exec seqStep (fun _ => none) acts = some xs → Holds s xs)
    (fun xs hxs => ?_) (fun acts a s₁ s₂ _ hs₁ ha hstep xs' hxs' => ?_) h hrun
  · cases hxs
    exact holds_initial junk
  · rw [Transition.exec_snoc] at hxs'
    obtain ⟨xs,hxs,hseq⟩ := Option.bind_eq_some_iff.mp hxs'
    rcases apply_outcome (hs₁ xs hxs) hseq ha with ⟨-,herr⟩ | ⟨s',hok,hs'⟩
    · rw [step,herr] at hstep
      cases hstep
    · rw [step,hok] at hstep
      cases hstep
      exact hs'

/-- In every run whose calls meet the condition the live Strings hold the sequences, and a call
that meets it faults only where the assertion refuses the length. -/
theorem run_holdsBytes (junk : ℕ → ℕ → UInt8) (acts : List StringAction) (xs : Sequences)
    (hseq : Transition.exec seqStep (fun _ => none) acts = some xs)
    (h : Transition.Along step Meets (.initial junk) acts) (s : StringState)
    (hrun : Transition.exec step (.initial junk) acts = some s) :
    Refines s xs ∧ ∀ a xs', seqStep xs a = some xs' → a.Meets s →
      a.Refused s ∧ apply s a = .error .assertion ∨ ∃ s', apply s a = .ok s' ∧ Refines s' xs' := by
  have hs := run_holds h hrun xs hseq
  refine ⟨hs.refines,fun a xs' hxs' ha => ?_⟩
  rcases apply_outcome hs hxs' ha with hrefused | ⟨s',hok,hs'⟩
  · exact Or.inl hrefused
  · exact Or.inr ⟨s',hok,hs'.refines⟩

/-- A String is appended to itself where there is room, assigned, swapped and copied. -/
theorem run_holdsBytes_appended :
    let acts := [createFrom 0 (.text [97,98]),create 1,call 1 (.append (.text [99])),call 1 (.appendString 1),
      call 0 (.operatorAssignString 1),swap 0 1,createCopy 2 0,call 0 .clear,destroy 1]
    ∃ s xs, Transition.exec step (.initial fun _ _ => 120) acts = some s ∧ xs 0 = some [] ∧ xs 1 = none ∧
      xs 2 = some [99,99] ∧ Refines s xs ∧ ∀ a xs', seqStep xs a = some xs' → a.Meets s →
        a.Refused s ∧ apply s a = .error .assertion ∨ ∃ s', apply s a = .ok s' ∧ Refines s' xs' := by
  intro acts
  have hmeets : Transition.Along step Meets (.initial fun _ _ => 120) acts := by decide
  exact ⟨_,_,rfl,rfl,rfl,rfl,run_holdsBytes _ acts _ rfl hmeets _ rfl⟩

/-- The terminator is not copied to the characters that are reserved. -/
theorem not_run_holdsBytes : ¬ ∀ (junk : ℕ → ℕ → UInt8) (acts : List StringAction) (xs : Sequences),
    Transition.exec seqStep (fun _ => none) acts = some xs →
      ∃ s, Transition.exec step (.initial junk) acts = some s ∧ Refines s xs := by
  intro h
  obtain ⟨s,hrun,hs⟩ := h (fun _ _ => 120) [createFrom 0 (.text [97]),call 0 (.reserve 10)] _ rfl
  obtain rfl := Option.some.inj hrun
  exact absurd (hs.terminated 0 (.own 1 10 2) rfl) (by decide)

end StringAction
end Edelib.Text
