import Edelib.Text.Members
import Edelib.Text.StringRefines

/-! # What programs leave

Whatever is called, as long as there is no fault, the length of a live String is not more than its
capacity, its buffer has one byte more than that, and no two Strings have the same buffer.
-/
namespace Edelib.Text
open Foundation Blocks

structure Literal (m : Memory) : Prop where
  fresh : nullChars < m.fresh
  chars : m.block nullChars = some ⟨[STERM],true⟩

def Buffered (m : Memory) : StringData → Prop
  | .nullData => True
  | .own len cap chars => len ≤ cap ∧ cap + 1 < 4294967296 ∧ nullChars < chars ∧ m.Area (cap + 1) chars []

def StringData.buffer (m : Memory) (d : StringData) : List UInt8 := ((m.block d.chars).map (·.data)).getD []

/-- What a call that does not fault leaves: a buffer, and other memory as it was. -/
structure Leaves (m : Memory) (d : StringData) (r : Memory × StringData) : Prop where
  buffered : Buffered r.1 r.2
  keeps : m.Keeps r.1 d.Has
  own : ∀ a, r.2.Has a → d.Has a ∨ m.fresh ≤ a

variable {m m' : Memory} {d : StringData} {x : List UInt8} {r r' : Memory × StringData} {S : ℕ → Prop}

theorem Contains.buffered (h : Contains m x d) : Buffered m d := by
  cases d with
  | nullData => trivial
  | own len cap chars =>
    obtain ⟨rfl,hle,hcap,hpos,harea⟩ := h
    exact ⟨hle,hcap,hpos,harea.of_begins List.nil_prefix⟩

theorem Buffered.contains (h : Buffered m d) : ∃ x, Contains m x d := by
  cases d with
  | nullData => exact ⟨[],rfl⟩
  | own len cap chars =>
    obtain ⟨hle,hcap,hpos,harea⟩ := h
    obtain ⟨data,hdata,hsize,-⟩ := harea.holds
    have hlen : (data.take len).length = len := by
      rw [List.length_take]
      omega
    exact ⟨data.take len,hlen.symm,hlen.trans_le hle,hcap,hpos,harea.lt_fresh,data,hdata,hsize,List.take_prefix _ _⟩

theorem Buffered.lt_fresh (h : Buffered m d) {a : ℕ} (ha : d.Has a) : nullChars < a ∧ a < m.fresh := by
  obtain ⟨x,hx⟩ := h.contains
  exact hx.lt_fresh ha

theorem Buffered.keeps (h : Buffered m d) (hk : m.Keeps m' S) (hS : ∀ a, d.Has a → ¬ S a) : Buffered m' d := by
  obtain ⟨x,hx⟩ := h.contains
  exact (hx.keeps hk hS).buffered

theorem Buffered.capacity_lt (h : Buffered m d) : d.capacity + 1 < 4294967296 := by
  obtain ⟨x,hx⟩ := h.contains
  exact hx.capacity_lt

theorem Buffered.block (hm : Literal m) (hd : Buffered m d) :
    ∃ const, m.block d.chars = some ⟨d.buffer m,const⟩ ∧ (d.buffer m).length = d.capacity + 1 := by
  cases d with
  | nullData =>
    refine ⟨true,?_,?_⟩ <;> rw [StringData.buffer,StringData.chars,hm.chars] <;> rfl
  | own len cap chars =>
    obtain ⟨-,-,-,harea⟩ := hd
    obtain ⟨data,hdata,hsize,-⟩ := harea.holds
    refine ⟨false,?_,?_⟩ <;> rw [StringData.buffer,StringData.chars,hdata]
    · rfl
    · exact hsize

theorem Buffered.bytesFrom_eq (hm : Literal m) (hd : Buffered m d) (i : ℕ) :
    bytesFrom m d.chars i = .ok ((d.buffer m).drop i) := by
  obtain ⟨const,hblock,-⟩ := hd.block hm
  rw [bytesFrom,hblock]

/-- The content is followed by what else is in the buffer. -/
theorem Contains.buffer_eq (hm : Literal m) (hx : Contains m x d) :
    ∃ behind, d.buffer m = x ++ behind ∧ x.length + behind.length = d.capacity + 1 := by
  obtain ⟨const,hblock,hsize⟩ := hx.buffered.block hm
  have hfront : x <+: d.buffer m := by
    cases d with
    | nullData =>
      obtain rfl : x = [] := hx
      exact List.nil_prefix
    | own len cap chars =>
      obtain ⟨-,-,-,-,harea⟩ := hx
      obtain ⟨data,hdata,-,hfront⟩ := harea.holds
      rw [StringData.chars,hdata] at hblock
      cases hblock
      exact hfront
  obtain ⟨behind,hbehind⟩ := hfront
  exact ⟨behind,hbehind.symm,by rw [← List.length_append,hbehind,hsize]⟩

theorem Literal.keeps (h : Literal m) (hk : m.Keeps m' S) (hS : ¬ S nullChars) : Literal m' :=
  ⟨h.fresh.trans_le hk.fresh,(hk.same _ h.fresh hS).trans h.chars⟩

theorem Buffered.leaves (h : Buffered m d) : Leaves m d (m,d) := ⟨h,Keeps.refl m _,fun _ ha => Or.inl ha⟩

theorem Leaves.trans (h : Leaves m d r) (h' : Leaves r.1 r.2 r') : Leaves m d r' where
  buffered := h'.buffered
  keeps := h.keeps.trans h'.keeps h.own
  own := fun a ha => (h'.own a ha).elim (h.own a) (fun hle => Or.inr (h.keeps.fresh.trans hle))

theorem Leaves.literal (h : Leaves m d r) (hm : Literal m) (hd : Buffered m d) : Literal r.1 :=
  hm.keeps h.keeps (fun hnull => Nat.lt_irrefl _ (hd.lt_fresh hnull).1)

theorem Gives.leaves {y : List UInt8} (h : Gives m d y r) : Leaves m d r :=
  ⟨h.owns.contains.buffered,h.keeps,h.own⟩

/-- What is written over the literal is nothing. -/
theorem Literal.of_write (h : Literal m) {i : ℕ} {bytes : List UInt8} (hw : m.write nullChars i bytes = .ok m') :
    bytes = [] := by
  rw [Blocks.write,h.chars] at hw
  split_ifs at hw with h0
  · exact List.length_eq_zero_iff.mp h0
  · cases hw

theorem of_textFrom {size a i : ℕ} {t : CString} (h : m.Area size a []) (ht : textFrom m a i = .ok t) :
    i + t.strlen < size := by
  obtain ⟨data,hdata,rfl,-⟩ := h.holds
  rw [textFrom,hdata] at ht
  dsimp only at ht
  split_ifs at ht with hterm
  cases ht
  obtain ⟨rest,hrest⟩ := CString.ofBuf_begins (data.drop i)
  have hlen : (CString.ofBuf (data.drop i)).strlen + rest.length = data.length - i := by
    rw [← List.length_drop,← hrest,List.length_append,hrest]
    rfl
  cases rest with
  | nil =>
    -- a text without a terminator behind it would hold none
    rw [List.append_nil] at hrest
    exact absurd (hrest ▸ hterm) (CString.ofBuf _).nulFree
  | cons c rest =>
    rw [List.length_cons] at hlen
    omega

/-! ## The members -/

/-- A buffer that holds a terminator has a size. -/
theorem of_init {len cap : ℕ} (hcap : cap < 4294967296) (h : init m len cap = .ok r) :
    len ≤ cap ∧ cap + 1 < 4294967296 := by
  rw [init] at h
  split_ifs at h with hlen
  obtain ⟨m₁,hw,-⟩ := of_bind_ok h
  obtain ⟨ha,harea,-⟩ := alloc_spec m (sizeType (cap + 1))
  have hfits := (ha ▸ harea : Area _ _ (m.alloc (sizeType (cap + 1))).2 []).of_write hw
  have hsize := hfits.2.2 (List.cons_ne_nil _ _)
  rw [sizeType,List.length_singleton] at hsize
  omega

theorem reserve_leaves (hm : Literal m) (hd : Buffered m d) {cap : ℕ} (hcap : cap < 4294967296)
    (h : reserve m d cap = .ok r) : Leaves m d r := by
  by_cases hgrow : d.capacity < cap
  · obtain ⟨x,hx⟩ := hd.contains
    have hinit := h
    rw [reserve,if_pos hgrow] at hinit
    obtain ⟨r₁,hinit,-⟩ := of_bind_ok hinit
    obtain ⟨hlen,hsize⟩ := of_init hcap hinit
    obtain ⟨m₁,hm₁,harea,-,hk⟩ := reserve_spec hx hgrow hsize
    rw [hm₁] at h
    cases h
    refine ⟨⟨hx.length_eq ▸ hlen,hsize,hm.fresh,harea.of_begins List.nil_prefix⟩,hk,?_⟩
    rintro a rfl
    exact Or.inr (Nat.le_refl _)
  · rw [reserve,if_neg hgrow] at h
    cases h
    exact hd.leaves

/-- New characters are filled, and get their terminator. -/
theorem filled_leaves (hm : Literal m) (hk : m.Keeps m' S) {m₁ m₂ m₃ : Memory} {e : StringData} {len cap : ℕ}
    (hcap : cap < 4294967296) (hinit : init m' len cap = .ok (m₁,e)) {bytes : List UInt8}
    (hw : m₁.write e.chars 0 bytes = .ok m₂) (hterm : m₂.write e.chars len [STERM] = .ok m₃) :
    Buffered m₃ e ∧ m.Keeps m₃ S ∧ ∀ a, e.Has a → m.fresh ≤ a := by
  obtain ⟨hlen,hsize⟩ := of_init hcap hinit
  obtain ⟨m₀,hm₀,harea,hk₁⟩ := init_spec m' hlen hsize
  rw [hinit] at hm₀
  cases hm₀
  obtain ⟨harea₂,hk₂,-⟩ := (harea.of_begins List.nil_prefix).of_write hw
  obtain ⟨harea₃,hk₃,-⟩ := harea₂.of_write hterm
  have hnew : ∀ a, a = m'.fresh → S a ∨ m.fresh ≤ a := fun a ha => Or.inr (ha ▸ hk.fresh)
  refine ⟨⟨hlen,hsize,hm.fresh.trans_le hk.fresh,harea₃⟩,?_,fun a ha => ha ▸ hk.fresh⟩
  exact ((hk.trans hk₁ (fun _ => False.elim)).trans hk₂ hnew).trans hk₃ hnew

theorem assignLen_leaves (hm : Literal m) (hd : Buffered m d) {str : Source} {len : ℕ}
    (h : assignLen m d str len = .ok r) : Leaves m d r := by
  obtain ⟨x,hx⟩ := hd.contains
  obtain ⟨m₁,hm₁,-,hk₁⟩ := dispose_spec hx
  have hcapacity := hd.capacity_lt
  rw [assignLen] at h
  split_ifs at h with hmax
  rw [npos] at hmax
  rw [hm₁,ok_bind] at h
  obtain ⟨⟨m₂,e⟩,hinit,h⟩ := of_bind_ok h
  obtain ⟨bytes,-,h⟩ := of_bind_ok h
  obtain ⟨m₃,hw,h⟩ := of_bind_ok h
  obtain ⟨m₄,hterm,h⟩ := of_bind_ok h
  cases h
  obtain ⟨cap,hcap,hinit⟩ : ∃ cap, cap < 4294967296 ∧ init m₁ len cap = .ok (m₂,e) := by
    split_ifs at hinit
    · exact ⟨d.capacity,Nat.lt_of_succ_lt hcapacity,hinit⟩
    · exact ⟨len,by omega,hinit⟩
  obtain ⟨hb,hk,hnew⟩ := filled_leaves hm hk₁ hcap hinit hw hterm
  exact ⟨hb,hk,fun a ha => Or.inr (hnew a ha)⟩

theorem assign_leaves (hm : Literal m) (hd : Buffered m d) {str : Source} (h : assign m d str = .ok r) :
    Leaves m d r := by
  obtain ⟨len,-,h⟩ := of_bind_ok h
  exact assignLen_leaves hm hd h

theorem assignFrom_leaves (hm : Literal m) {index len : ℕ} (h : assignFrom m d index len = .ok r) :
    Leaves m .nullData r := by
  rw [assignFrom] at h
  split_ifs at h with hmax
  rw [npos] at hmax
  obtain ⟨⟨m₂,e⟩,hinit,h⟩ := of_bind_ok h
  obtain ⟨bytes,-,h⟩ := of_bind_ok h
  obtain ⟨m₃,hw,h⟩ := of_bind_ok h
  obtain ⟨m₄,hterm,h⟩ := of_bind_ok h
  cases h
  obtain ⟨hb,hk,hnew⟩ := filled_leaves hm (Keeps.refl m (StringData.Has .nullData)) (by omega) hinit hw hterm
  exact ⟨hb,hk,fun a ha => Or.inr (hnew a ha)⟩

/-- The terminator is written in the buffer, so the length is not more than the capacity. -/
theorem putBehind_leaves (hm : Literal m) (hd : Buffered m d) {bytes : List UInt8} {len : ℕ}
    (h : putBehind m d bytes len = .ok r) : Leaves m d r := by
  obtain ⟨m₁,hw,h⟩ := of_bind_ok h
  obtain ⟨m₂,hterm,h⟩ := of_bind_ok h
  cases h
  cases d with
  | nullData =>
    obtain rfl := hm.of_write hw
    cases hw
    exact absurd (hm.of_write hterm) (List.cons_ne_nil _ _)
  | own n cap chars =>
    obtain ⟨hle,hcap,hpos,harea⟩ := hd
    obtain ⟨harea₁,hk₁,-⟩ := harea.of_write hw
    obtain ⟨harea₂,hk₂,hfits⟩ := harea₁.of_write hterm
    refine ⟨⟨Nat.le_of_succ_le_succ (hfits (List.cons_ne_nil _ _)),hcap,hpos,harea₂⟩,?_,fun a ha => Or.inl ha⟩
    exact hk₁.trans hk₂ (fun a ha => Or.inl ha)

theorem appendLen_leaves (hm : Literal m) (hd : Buffered m d) {str : Source} {len : ℕ}
    (h : appendLen m d str len = .ok r) : Leaves m d r := by
  rw [appendLen] at h
  split_ifs at h
  · cases h
    exact hd.leaves
  · obtain ⟨bytes,-,h⟩ := of_bind_ok h
    exact putBehind_leaves hm hd h
  · obtain ⟨⟨m₁,e⟩,hreserve,h⟩ := of_bind_ok h
    obtain ⟨bytes,-,h⟩ := of_bind_ok h
    have hleaves := reserve_leaves hm hd (Nat.mod_lt _ (by decide)) hreserve
    exact hleaves.trans (putBehind_leaves (hleaves.literal hm hd) hleaves.buffered h)

theorem append_leaves (hm : Literal m) (hd : Buffered m d) {str : Source} (h : append m d str = .ok r) :
    Leaves m d r := by
  obtain ⟨len,-,h⟩ := of_bind_ok h
  exact appendLen_leaves hm hd h

/-- The block that the characters are put into first is freed again. -/
theorem appendChars_leaves (hm : Literal m) (hd : Buffered m d) {num : ℕ} {ch : UInt8}
    (h : appendChars m d num ch = .ok r) : Leaves m d r := by
  rw [appendChars] at h
  split_ifs at h
  · exact putBehind_leaves hm hd h
  · obtain ⟨ha,harea,hk⟩ := alloc_spec m num
    dsimp only at h
    rw [ha] at h
    obtain ⟨m₁,hw,h⟩ := of_bind_ok h
    obtain ⟨⟨m₂,e⟩,happend,h⟩ := of_bind_ok h
    obtain ⟨m₃,hfree,h⟩ := of_bind_ok h
    cases h
    obtain ⟨harea₁,hk₁,-⟩ := harea.of_write hw
    have hkeeps₁ : m.Keeps m₁ (fun _ => False) := hk.trans hk₁ (fun a ha => Or.inr (Nat.le_of_eq ha.symm))
    have hleaves := appendLen_leaves (hm.keeps hkeeps₁ id) (hd.keeps hkeeps₁ (fun _ _ => id)) happend
    have hother : ∀ a, e.Has a → a ≠ m.fresh := by
      rintro a hhas rfl
      rcases hleaves.own _ hhas with hold | hnew
      · exact absurd (hd.lt_fresh hold).2 (Nat.lt_irrefl _)
      · exact absurd harea₁.lt_fresh (Nat.not_lt.mpr hnew)
    have hkeeps := (hkeeps₁.mono (fun _ => False.elim)).trans hleaves.keeps (fun a hhas => Or.inl hhas)
    refine ⟨hleaves.buffered.keeps (keeps_of_free hfree) hother,?_,fun a hhas => ?_⟩
    · exact hkeeps.trans (keeps_of_free hfree) (fun a hhas => Or.inr (Nat.le_of_eq hhas.symm))
    · exact (hleaves.own a hhas).imp_right (fun hnew => hkeeps₁.fresh.trans hnew)

theorem clear_leaves (hd : Buffered m d) (h : clear m d = .ok r) : Leaves m d r := by
  obtain ⟨x,hx⟩ := hd.contains
  obtain ⟨m₁,hm₁,-,hk⟩ := dispose_spec hx
  rw [clear,hm₁] at h
  cases h
  exact ⟨trivial,hk,fun _ => False.elim⟩

/-- A write to the characters of a String. -/
theorem write_leaves (hm : Literal m) (hd : Buffered m d) {i : ℕ} {bytes : List UInt8}
    (hw : m.write d.chars i bytes = .ok m') : Leaves m d (m',d) := by
  cases d with
  | nullData =>
    obtain rfl := hm.of_write hw
    cases hw
    exact hd.leaves
  | own n cap chars =>
    obtain ⟨hle,hcap,hpos,harea⟩ := hd
    obtain ⟨harea₁,hk,-⟩ := harea.of_write hw
    exact ⟨⟨hle,hcap,hpos,harea₁⟩,hk,fun a ha => Or.inl ha⟩

theorem setAt_leaves (hm : Literal m) (hd : Buffered m d) {index : ℕ} {ch : UInt8}
    (h : setAt m d index ch = .ok r) : Leaves m d r := by
  rw [setAt] at h
  split_ifs at h
  obtain ⟨m₁,hw,h⟩ := of_bind_ok h
  cases h
  exact write_leaves hm hd hw

theorem replace_leaves (hm : Literal m) (hd : Buffered m d) {c1 c2 : UInt8} (h : replace m d c1 c2 = .ok r) :
    Leaves m d r := by
  rw [replace] at h
  split_ifs at h
  · cases h
    exact hd.leaves
  · cases h
    exact hd.leaves
  · obtain ⟨bytes,-,h⟩ := of_bind_ok h
    obtain ⟨bytes',-,h⟩ := of_bind_ok h
    obtain ⟨m₁,hw,h⟩ := of_bind_ok h
    cases h
    exact write_leaves hm hd hw

theorem trimBy_leaves (hm : Literal m) (hd : Buffered m d) {f : List UInt8 → List UInt8}
    (h : trimBy f m d = .ok r) : Leaves m d r := by
  rw [trimBy] at h
  split_ifs at h
  · obtain ⟨t,-,h⟩ := of_bind_ok h
    obtain ⟨m₁,hw,h⟩ := of_bind_ok h
    obtain ⟨t',ht',h⟩ := of_bind_ok h
    cases h
    have hleaves := write_leaves hm hd hw
    cases d with
    | nullData => exact hleaves
    | own n cap chars =>
      obtain ⟨hle,hcap,hpos,harea⟩ := hleaves.buffered
      have hlt := of_textFrom harea ht'
      have hsize : sizeType t'.strlen ≤ t'.strlen := Nat.mod_le _ _
      exact ⟨⟨by omega,hcap,hpos,harea⟩,hleaves.keeps,fun a ha => Or.inl ha⟩
  · cases h
    exact hd.leaves

/-- Both operands are put behind what the temporary String holds. -/
theorem concat_leaves (hm : Literal m) {len : ℕ} (hlen : len < 4294967296)
    {s1 s2 : Memory → StringData → Except Fault (Memory × StringData)}
    (h1 : ∀ m d r, Literal m → Buffered m d → s1 m d = .ok r → Leaves m d r)
    (h2 : ∀ m d r, Literal m → Buffered m d → s2 m d = .ok r → Leaves m d r)
    (h : concat m len s1 s2 = .ok r) : Leaves m .nullData r := by
  have hnull : Buffered m .nullData := trivial
  rw [concat] at h
  split_ifs at h
  · obtain ⟨⟨m₁,e₁⟩,hreserve,h⟩ := of_bind_ok h
    obtain ⟨⟨m₂,e₂⟩,hs1,h⟩ := of_bind_ok h
    have hleaves₁ := reserve_leaves hm hnull hlen hreserve
    have hleaves₂ := hleaves₁.trans (h1 _ _ _ (hleaves₁.literal hm hnull) hleaves₁.buffered hs1)
    exact hleaves₂.trans (h2 _ _ _ (hleaves₂.literal hm hnull) hleaves₂.buffered h)
  · cases h
    exact hnull.leaves

/-! ## Runs -/

structure Sound (s : StringState) : Prop where
  literal : Literal s.mem
  buffered : ∀ i d, s.sdata i = some d → Buffered s.mem d
  apart : ∀ i j d e a, s.sdata i = some d → s.sdata j = some e → d.Has a → e.Has a → i = j

theorem sound_initial (junk : ℕ → ℕ → UInt8) : Sound (.initial junk) where
  literal := ⟨Nat.zero_lt_one,rfl⟩
  buffered := fun _ _ hd => by cases hd
  apart := fun _ _ _ _ _ hd => by cases hd

section Sound
variable {s s' : StringState} {i : ℕ} (hs : Sound s)
include hs

theorem Sound.of_data (hd : s.data i = .ok d) : s.sdata i = some d ∧ Buffered s.mem d := by
  rw [StringState.data] at hd
  split at hd
  · cases hd
  · next h =>
    cases hd
    exact ⟨h,hs.buffered i _ h⟩

/-- What a String is changed to, or what a new one is made with. -/
theorem Sound.set (hd : Buffered s.mem d) (hlive : ∀ a, d.Has a → s.sdata i = some d) (hr : Leaves s.mem d r) :
    Sound (s.set i r) := by
  have hother : ∀ k e, k ≠ i → s.sdata k = some e → ∀ a, e.Has a → ¬ d.Has a :=
    fun k e hk he a hea hda => hk (hs.apart k i e d a he (hlive a hda) hea hda)
  have hnew : ∀ k e a, k ≠ i → s.sdata k = some e → e.Has a → ¬ r.2.Has a := by
    intro k e a hk he hea hra
    rcases hr.own a hra with hda | hfresh
    · exact hother k e hk he a hea hda
    · exact absurd ((hs.buffered k e he).lt_fresh hea).2 (Nat.not_lt.mpr hfresh)
  refine ⟨hr.literal hs.literal hd,fun k e he => ?_,fun k l e e' a he he' hea hea' => ?_⟩
  · by_cases hk : k = i
    · rw [hk,StringState.set_self] at he
      cases he
      exact hr.buffered
    · rw [StringState.set_of_ne s hk] at he
      exact (hs.buffered k e he).keeps hr.keeps (hother k e hk he)
  · by_cases hk : k = i
    · by_cases hl : l = i
      · rw [hk,hl]
      · rw [hk,StringState.set_self] at he
        rw [StringState.set_of_ne s hl] at he'
        cases he
        exact absurd hea (hnew l e' a hl he' hea')
    · rw [StringState.set_of_ne s hk] at he
      by_cases hl : l = i
      · rw [hl,StringState.set_self] at he'
        cases he'
        exact absurd hea' (hnew k e a hk he hea)
      · rw [StringState.set_of_ne s hl] at he'
        exact hs.apart k l e e' a he he' hea hea'

theorem Sound.set_new (hr : Leaves s.mem .nullData r) : Sound (s.set i r) :=
  hs.set (d := .nullData) trivial (fun _ => False.elim) hr

theorem Sound.change {f : Memory → StringData → Except Fault (Memory × StringData)}
    (hf : ∀ d r, Buffered s.mem d → f s.mem d = .ok r → Leaves s.mem d r) (h : s.change i f = .ok s') : Sound s' := by
  obtain ⟨d,hd,h⟩ := of_bind_ok h
  obtain ⟨r,hr,h⟩ := of_bind_ok h
  cases h
  obtain ⟨hlive,hb⟩ := hs.of_data hd
  exact hs.set hb (fun _ _ => hlive) (hf d r hb hr)

theorem Sound.destroy {m' : Memory} (hlive : s.sdata i = some d) (h : dispose s.mem d = .ok m') :
    Sound ⟨m',Function.update s.sdata i none⟩ := by
  have hb := hs.buffered i d hlive
  obtain ⟨x,hx⟩ := hb.contains
  obtain ⟨m₁,hm₁,-,hk⟩ := dispose_spec hx
  rw [h] at hm₁
  cases hm₁
  have hother : ∀ k e, Function.update s.sdata i none k = some e → s.sdata k = some e ∧ k ≠ i := by
    intro k e he
    by_cases hk : k = i
    · rw [hk,Function.update_self] at he
      cases he
    · exact ⟨by rwa [Function.update_of_ne hk] at he,hk⟩
  refine ⟨hs.literal.keeps hk (fun hnull => Nat.lt_irrefl _ (hb.lt_fresh hnull).1),fun k e he => ?_,
    fun k l e e' a he he' => hs.apart k l e e' a (hother k e he).1 (hother l e' he').1⟩
  obtain ⟨he,hk'⟩ := hother k e he
  exact (hs.buffered k e he).keeps hk (fun a hea hda => hk' (hs.apart k i e d a he hlive hea hda))

theorem Sound.swap {j : ℕ} {e : StringData} (hi : s.sdata i = some d) (hj : s.sdata j = some e) :
    Sound { s with sdata := Function.update (Function.update s.sdata i (some e)) j (some d) } := by
  have hback : ∀ k, Function.update (Function.update s.sdata i (some e)) j (some d) k = s.sdata (Equiv.swap i j k) := by
    intro k
    by_cases hkj : k = j
    · rw [hkj,Function.update_self,Equiv.swap_apply_right,hi]
    · rw [Function.update_of_ne hkj]
      by_cases hki : k = i
      · rw [hki,Function.update_self,Equiv.swap_apply_left,hj]
      · rw [Function.update_of_ne hki,Equiv.swap_apply_of_ne_of_ne hki hkj]
  refine ⟨hs.literal,fun k f hf => ?_,fun k l f f' a hf hf' ha ha' => ?_⟩
  · exact hs.buffered _ f ((hback k).symm.trans hf)
  · refine (Equiv.swap i j).injective (hs.apart _ _ f f' a ?_ ?_ ha ha')
    · exact (hback k).symm.trans hf
    · exact (hback l).symm.trans hf'

end Sound

theorem Member.apply_leaves {s : StringState} (hs : Sound s) {i : ℕ} (hd : Buffered s.mem d) {f : Member}
    (h : f.apply s i d = .ok r) : Leaves s.mem d r := by
  have hm := hs.literal
  cases f with
  | assignLen str len =>
    obtain ⟨src,-,h⟩ := of_bind_ok h
    exact assignLen_leaves hm hd h
  | assign str =>
    obtain ⟨src,-,h⟩ := of_bind_ok h
    exact assign_leaves hm hd h
  | assignString j =>
    obtain ⟨e,-,h⟩ := of_bind_ok h
    exact assignLen_leaves hm hd h
  | appendLen str len =>
    obtain ⟨src,-,h⟩ := of_bind_ok h
    exact appendLen_leaves hm hd h
  | append str =>
    obtain ⟨src,-,h⟩ := of_bind_ok h
    exact append_leaves hm hd h
  | appendString j =>
    obtain ⟨e,-,h⟩ := of_bind_ok h
    exact appendLen_leaves hm hd h
  | appendChars num ch => exact appendChars_leaves hm hd h
  | operatorAssign str =>
    obtain ⟨src,-,h⟩ := of_bind_ok h
    exact assign_leaves hm hd h
  | operatorAssignString j =>
    rw [Member.apply] at h
    split_ifs at h
    · obtain ⟨e,-,h⟩ := of_bind_ok h
      exact assignLen_leaves hm hd h
    · cases h
      exact hd.leaves
  | operatorAdd str =>
    obtain ⟨src,-,h⟩ := of_bind_ok h
    exact append_leaves hm hd h
  | operatorAddString j =>
    obtain ⟨e,-,h⟩ := of_bind_ok h
    exact appendLen_leaves hm hd h
  | operatorAddChar ch => exact appendChars_leaves hm hd h
  | reserve cap => exact reserve_leaves hm hd cap.isLt h
  | clear => exact clear_leaves hd h

theorem StringAction.apply_sound {s s' : StringState} (hs : Sound s) {a : StringAction} (h : a.apply s = .ok s') :
    Sound s' := by
  have hm := hs.literal
  have hnull : Buffered s.mem .nullData := trivial
  cases a with
  | create i =>
    cases h
    exact hs.set_new hnull.leaves
  | createFrom i str =>
    obtain ⟨src,-,h⟩ := of_bind_ok h
    obtain ⟨r,hr,h⟩ := of_bind_ok h
    cases h
    exact hs.set_new (assign_leaves hm hnull hr)
  | createCopy i j =>
    obtain ⟨e,-,h⟩ := of_bind_ok h
    split_ifs at h
    · obtain ⟨r,hr,h⟩ := of_bind_ok h
      cases h
      exact hs.set_new (assign_leaves hm hnull hr)
    · cases h
      exact hs.set_new hnull.leaves
  | destroy i =>
    obtain ⟨d,hd,h⟩ := of_bind_ok h
    obtain ⟨m',hm',h⟩ := of_bind_ok h
    cases h
    exact hs.destroy (hs.of_data hd).1 hm'
  | call i f => exact hs.change (f := fun _ d => f.apply s i d) (fun d r hd hr => Member.apply_leaves hs hd hr) h
  | swap i j =>
    obtain ⟨d,hd,h⟩ := of_bind_ok h
    obtain ⟨e,he,h⟩ := of_bind_ok h
    cases h
    exact hs.swap (hs.of_data hd).1 (hs.of_data he).1

namespace PublicAction

theorem apply_sound {s s' : StringState} (hs : Sound s) {a : PublicAction} (h : a.apply s = .ok s') : Sound s' := by
  have hm := hs.literal
  have hstring : ∀ e m d r, Literal m → Buffered m d → appendString e m d = .ok r → Leaves m d r :=
    fun _ _ _ _ hm hd h => appendLen_leaves hm hd h
  have htext : ∀ src m d r, Literal m → Buffered m d → append m d src = .ok r → Leaves m d r :=
    fun _ _ _ _ hm hd h => append_leaves hm hd h
  cases a with
  | basic a => exact StringAction.apply_sound hs h
  | setAt i index ch => exact hs.change (f := (Text.setAt · · index.toNat ch)) (fun d r hd hr => setAt_leaves hm hd hr) h
  | replace i c1 c2 => exact hs.change (f := (Text.replace · · c1 c2)) (fun d r hd hr => replace_leaves hm hd hr) h
  | trimLeft i => exact hs.change (fun d r hd hr => trimBy_leaves hm hd hr) h
  | trimRight i =>
    refine hs.change (fun d r hd hr => ?_) h
    obtain ⟨-,-,hr⟩ := of_bind_ok hr
    exact trimBy_leaves hm hd hr
  | trim i =>
    refine hs.change (fun d r hd hr => ?_) h
    obtain ⟨-,-,hr⟩ := of_bind_ok hr
    exact trimBy_leaves hm hd hr
  | printf i text => exact hs.change (f := (Text.printf · · text)) (fun d r hd hr => assign_leaves hm hd hr) h
  | substr t i index num =>
    obtain ⟨d,-,h⟩ := of_bind_ok h
    obtain ⟨r,hr,h⟩ := of_bind_ok h
    cases h
    rw [Text.substr] at hr
    split_ifs at hr <;> exact hs.set_new (assignFrom_leaves hm hr)
  | plus t i j =>
    obtain ⟨s1,-,h⟩ := of_bind_ok h
    obtain ⟨s2,-,h⟩ := of_bind_ok h
    obtain ⟨r,hr,h⟩ := of_bind_ok h
    cases h
    exact hs.set_new (concat_leaves hm (Nat.mod_lt _ (by decide)) (hstring s1) (hstring s2) hr)
  | textPlus t str j =>
    obtain ⟨s1,-,h⟩ := of_bind_ok h
    obtain ⟨s2,-,h⟩ := of_bind_ok h
    obtain ⟨r,hr,h⟩ := of_bind_ok h
    cases h
    obtain ⟨len,-,hr⟩ := of_bind_ok hr
    exact hs.set_new (concat_leaves hm (Nat.mod_lt _ (by decide)) (htext s1) (hstring s2) hr)
  | plusText t i str =>
    obtain ⟨s1,-,h⟩ := of_bind_ok h
    obtain ⟨s2,-,h⟩ := of_bind_ok h
    obtain ⟨r,hr,h⟩ := of_bind_ok h
    cases h
    obtain ⟨len,-,hr⟩ := of_bind_ok hr
    exact hs.set_new (concat_leaves hm (Nat.mod_lt _ (by decide)) (hstring s1) (htext s2) hr)

theorem run_spec {junk : ℕ → ℕ → UInt8} {acts : List PublicAction} {s : StringState}
    (hrun : Transition.exec step (.initial junk) acts = some s) : Sound s := by
  refine Transition.exec_invariant (C := fun _ _ => True) (I := fun _ s => Sound s) (sound_initial junk)
    (fun acts a s₁ s₂ _ hs₁ _ hstep => ?_) (fun _ _ _ _ _ _ => trivial) hrun
  cases h : apply s₁ a with
  | error e =>
    rw [step,h] at hstep
    cases hstep
  | ok s' =>
    rw [step,h] at hstep
    cases hstep
    exact apply_sound hs₁ h

end PublicAction
end Edelib.Text
