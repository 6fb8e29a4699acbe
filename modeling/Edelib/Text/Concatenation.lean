import Edelib.Text.Reachable

/-! # Two Strings are put together

The sum reserves twice the length of its first operand, and is empty where that is 0. With a text
the right length is reserved, so that all bytes fit.
-/
namespace Edelib.Text
open Foundation Blocks

/-! ## Lengths -/

/-- Behind `len` bytes there is room for more, or the capacity that is reserved then has room. -/
def Fits (len cap n : ℕ) : Prop := n = 0 ∨ len + n ≤ cap ∨ len + n ≤ sizeType (sizeType (cap + n) * 2)

def grownTo (len cap n : ℕ) : ℕ := if n = 0 ∨ len + n ≤ cap then cap else sizeType (sizeType (cap + n) * 2)

/-- Two operands have room one after another, where `cap` is reserved for both. -/
def PutTogether (cap a b : ℕ) : Prop := Fits 0 cap a ∧ Fits a (grownTo 0 cap a) b

def Vanishes (a : ℕ) : Prop := a = 0 ∨ a = 2147483648

def PlusMeets (a b : ℕ) : Prop := (a = 0 ∧ b = 0) ∨ ¬ Vanishes a ∧ PutTogether (sizeType (a + a)) a b

def AssocMeets (a b c : ℕ) : Prop :=
  Vanishes a ∧ (Vanishes b ∨ PutTogether (sizeType (b + b)) b c) ∨
  ¬ Vanishes a ∧ PutTogether (sizeType (a + a)) a b ∧ ¬ Vanishes (a + b) ∧
    PutTogether (sizeType (a + b + (a + b))) (a + b) c ∧
    (Vanishes b ∧ b = 0 ∧ c = 0 ∨ ¬ Vanishes b ∧ PutTogether (sizeType (b + b)) b c ∧
      PutTogether (sizeType (a + a)) a (b + c))

instance (len cap n : ℕ) : Decidable (Fits len cap n) := inferInstanceAs (Decidable (_ ∨ _))

instance (cap a b : ℕ) : Decidable (PutTogether cap a b) := inferInstanceAs (Decidable (_ ∧ _))

instance (a : ℕ) : Decidable (Vanishes a) := inferInstanceAs (Decidable (_ ∨ _))

instance (a b : ℕ) : Decidable (PlusMeets a b) := inferInstanceAs (Decidable (_ ∨ _))

instance (a b c : ℕ) : Decidable (AssocMeets a b c) := inferInstanceAs (Decidable (_ ∨ _))

theorem vanishes_iff {a : ℕ} (ha : a < 4294967296) : sizeType (a + a) = 0 ↔ Vanishes a := by
  rw [sizeType,Vanishes]
  omega

theorem putTogether_of_le {cap a b : ℕ} (h : a + b ≤ cap) : PutTogether cap a b := by
  refine ⟨Or.inr (Or.inl (by omega)),?_⟩
  have hfits : a = 0 ∨ 0 + a ≤ cap := Or.inr (by omega)
  rw [grownTo,if_pos hfits]
  exact Or.inr (Or.inl h)

/-- The sum of Strings that are not very long is right, if the first is not empty. -/
theorem plusMeets_of_short {a b : ℕ} (h0 : a ≠ 0) (h : a + a + b < 2147483648) : PlusMeets a b := by
  have hcap : sizeType (a + a) = a + a := Nat.mod_eq_of_lt (by omega)
  have hvanishes : ¬ Vanishes a := by
    rintro (h | h) <;> omega
  refine Or.inr ⟨hvanishes,Or.inr (Or.inl (by omega)),?_⟩
  have hfits : a = 0 ∨ 0 + a ≤ a + a := Or.inr (by omega)
  rw [hcap,grownTo,if_pos hfits]
  refine Or.inr (Or.inr ?_)
  have hsum : sizeType (a + a + b) = a + a + b := Nat.mod_eq_of_lt (by omega)
  rw [hsum,sizeType]
  omega

/-! ## What is put behind a temporary String -/

variable {m m' : Memory} {d s1 s2 s3 : StringData} {x y z bytes : List UInt8} {r : Memory × StringData} {len cap n : ℕ}

theorem hasRoom_iff_fits : d.HasRoom True n ↔ Fits d.length d.capacity n := by
  rw [StringData.HasRoom,Fits,true_and]
  rfl

theorem of_reserve (hd : Buffered m d) (hcap : cap < 4294967296) (h : reserve m d cap = .ok r) :
    r.2.length = d.length ∧ r.2.capacity = max d.capacity cap := by
  by_cases hgrow : d.capacity < cap
  · obtain ⟨x,hx⟩ := hd.contains
    have hinit := h
    rw [reserve,if_pos hgrow] at hinit
    obtain ⟨r₁,hinit,-⟩ := of_bind_ok hinit
    obtain ⟨m₁,hm₁,-⟩ := reserve_spec hx hgrow (of_init hcap hinit).2
    rw [hm₁] at h
    cases h
    exact ⟨hx.length_eq.symm,(Nat.max_eq_right (Nat.le_of_lt hgrow)).symm⟩
  · rw [reserve,if_neg hgrow] at h
    cases h
    exact ⟨rfl,(Nat.max_eq_left (Nat.not_lt.mp hgrow)).symm⟩

theorem of_putBehind (hm : Literal m) (hd : Buffered m d) (h : putBehind m d bytes len = .ok r) :
    r.2.length = sizeType (d.length + len) ∧ r.2.capacity = d.capacity ∧ sizeType (d.length + len) ≤ d.capacity ∧
      (bytes ≠ [] → d.length + bytes.length ≤ d.capacity + 1) := by
  obtain ⟨m₁,hw,h⟩ := of_bind_ok h
  obtain ⟨m₂,hterm,h⟩ := of_bind_ok h
  cases h
  cases d with
  | nullData =>
    obtain rfl := hm.of_write hw
    cases hw
    exact absurd (hm.of_write hterm) (List.cons_ne_nil _ _)
  | own k cap chars =>
    obtain ⟨-,-,-,harea⟩ := hd
    obtain ⟨harea₁,-,hfits⟩ := harea.of_write hw
    obtain ⟨-,-,hlast⟩ := harea₁.of_write hterm
    exact ⟨rfl,rfl,Nat.le_of_succ_le_succ (hlast (List.cons_ne_nil _ _)),hfits⟩

/-- Bytes that are appended have had room. -/
theorem of_appendLen (hm : Literal m) (hd : Buffered m d) {src : Source} (hread : ∀ m' b, src.read m' len = .ok b → b.length = len)
    (h : appendLen m d src len = .ok r) :
    d.HasRoom True len ∧ r.2.capacity = grownTo d.length d.capacity len := by
  obtain ⟨x,hx⟩ := hd.contains
  have hle := hx.length_le
  have hlen := hx.length_eq
  have hcap := hx.capacity_lt
  rw [appendLen] at h
  split_ifs at h with h0 hfits
  · cases h
    exact ⟨Or.inl h0,(if_pos (Or.inl h0)).symm⟩
  · obtain ⟨b,hb,h⟩ := of_bind_ok h
    obtain ⟨-,hcapacity,-,hin⟩ := of_putBehind hm hd h
    have hb' := hread _ _ hb
    have hin := hin (fun hnil => h0 (by rw [← hb',hnil,List.length_nil]))
    have hroom : d.length + len ≤ d.capacity := by
      rw [sizeType] at hfits
      omega
    exact ⟨Or.inr (Or.inl hroom),by rw [hcapacity,grownTo,if_pos (Or.inr hroom)]⟩
  · obtain ⟨⟨m₁,e⟩,hreserve,h⟩ := of_bind_ok h
    obtain ⟨b,hb,h⟩ := of_bind_ok h
    have hbound : d.grown len < 4294967296 := Nat.mod_lt _ (by decide)
    have hleaves := reserve_leaves hm hd hbound hreserve
    obtain ⟨hlength,hcapacity⟩ := of_reserve hd hbound hreserve
    obtain ⟨-,hcapacity',hterm,hin⟩ := of_putBehind (hleaves.literal hm hd) hleaves.buffered h
    have hb' := hread _ _ hb
    have hin := hin (fun hnil => h0 (by rw [← hb',hnil,List.length_nil]))
    dsimp only at hlength hcapacity hcapacity' hterm hin
    have heven : d.grown len + 1 ≠ 4294967296 := by
      rw [StringData.grown,sizeType]
      omega
    rw [hlength,hcapacity] at hterm hin
    rw [Nat.add_comm] at hfits
    -- a sum that does not wrap is more than the old capacity, so it is in the new one
    have hgrown : d.length + len ≤ d.grown len := by
      rw [sizeType] at hterm hfits
      omega
    have hnot : ¬ d.length + len ≤ d.capacity := by
      rw [sizeType] at hfits
      omega
    refine ⟨Or.inr (Or.inr ⟨trivial,hgrown⟩),?_⟩
    rw [hcapacity',hcapacity,grownTo,if_neg (not_or.mpr ⟨h0,hnot⟩)]
    exact Nat.max_eq_right (by omega)

def Puts (m : Memory) (bytes : List UInt8) (f : Memory → StringData → Except Fault (Memory × StringData)) : Prop :=
  ∀ m' d x, m.Keeps m' (fun _ => False) → Literal m' → Contains m' x d → (∀ a, d.Has a → m.fresh ≤ a) →
    (d.HasRoom True bytes.length → ∃ r, f m' d = .ok r ∧ Contains r.1 (x ++ bytes) r.2 ∧ Leaves m' d r) ∧
    ∀ r, f m' d = .ok r → d.HasRoom True bytes.length ∧ r.2.capacity = grownTo d.length d.capacity bytes.length

theorem appendLen_puts {src : Source}
    (hlasting : ∀ m' d, m.Keeps m' (fun _ => False) → (∀ a, d.Has a → m.fresh ≤ a) → Lasting m' d src bytes)
    (hread : ∀ m' b, src.read m' bytes.length = .ok b → b.length = bytes.length) :
    Puts m bytes (fun m' d => appendLen m' d src bytes.length) := by
  intro m' d x hk hm hx hnew
  have hlast := hlasting m' d hk hnew
  refine ⟨fun hroom => ?_,fun r hr => of_appendLen hm hx.buffered hread hr⟩
  by_cases h0 : bytes.length = 0
  · obtain rfl := List.length_eq_zero_iff.mp h0
    rw [List.append_nil]
    exact ⟨(m',d),if_pos rfl,hx,hx.buffered.leaves⟩
  · obtain ⟨r,hr,hgives⟩ := appendLen_spec hm.fresh hx (hlast m' (Keeps.refl m' _)) (fun _ => hlast) h0 hroom
    exact ⟨r,hr,hgives.owns.contains,hgives.leaves⟩

theorem appendString_puts (hy : Contains m y s2) : Puts m y (appendString s2) := by
  have hlasting : ∀ m' d, m.Keeps m' (fun _ => False) → (∀ a, d.Has a → m.fresh ≤ a) →
      Lasting m' d (.chars s2.chars) y := by
    intro m' d hk hnew m'' hk'
    have hother : ∀ a, s2.Has a → ¬ d.Has a :=
      fun a ha hda => absurd (hy.lt_fresh ha).2 (Nat.not_lt.mpr (hnew a hda))
    have hread := ((hy.keeps hk (fun _ _ => id)).keeps hk' hother).read (Nat.le_refl _)
    rwa [List.take_length] at hread
  have hputs := appendLen_puts hlasting (fun m' b hb => Blocks.length_of_read hb)
  rwa [← hy.length_eq] at hputs

theorem append_puts (m : Memory) {t : CString} (ht : t.strlen < 4294967296) :
    Puts m t.bytes (fun m tmp => append m tmp (.text t.bytes)) := by
  have htake : ∀ n, n ≤ t.bytes.length → (t.bytes ++ [STERM]).take n = t.bytes.take n :=
    fun n hn => List.take_append_of_le_length hn
  have hread : ∀ m' : Memory, (Source.text t.bytes).read m' t.bytes.length = .ok t.bytes := by
    intro m'
    rw [Source.read,if_pos (Nat.le_succ _),htake _ (Nat.le_refl _),List.take_length]
  have hputs := appendLen_puts (m := m) (fun m' d _ _ m'' _ => hread m'') (fun m' b hb => by
    rw [hread m'] at hb
    rw [← Except.ok.inj hb])
  have hsize : sizeType t.bytes.length = t.bytes.length := Nat.mod_eq_of_lt ht
  have happend : ∀ m' d, append m' d (.text t.bytes) = appendLen m' d (.text t.bytes) t.bytes.length := by
    intro m' d
    rw [append,Source.strlen,ok_bind,CString.ofBuf_bytes]
    exact congrArg _ hsize
  rwa [funext (fun m' => funext (happend m'))]

/-! ## The sum -/

section concat
variable {f g : Memory → StringData → Except Fault (Memory × StringData)}

theorem concat_ok (hm : Literal m) (hf : Puts m x f) (hg : Puts m y g) (h0 : cap ≠ 0) (hcap : cap < npos)
    (hroom : PutTogether cap x.length y.length) :
    ∃ r, concat m cap f g = .ok r ∧ Contains r.1 (x ++ y) r.2 ∧ Leaves m .nullData r := by
  have hnull : Buffered m .nullData := trivial
  have hgrow : StringData.nullData.capacity < cap := Nat.pos_of_ne_zero h0
  obtain ⟨m₁,hm₁,harea,-,hk⟩ := @reserve_spec m .nullData [] rfl cap hgrow (Nat.succ_lt_succ hcap)
  have hleaves := reserve_leaves hm hnull (Nat.lt_succ_of_lt hcap) hm₁
  have hx₁ : Contains m₁ [] (.own ([] : List UInt8).length cap m.fresh) :=
    ⟨rfl,Nat.zero_le _,Nat.succ_lt_succ hcap,hm.fresh,harea⟩
  obtain ⟨hput₁,hinv₁⟩ := hf m₁ _ [] hk (hleaves.literal hm hnull) hx₁ (fun a ha => (hleaves.own a ha).resolve_left id)
  obtain ⟨r₂,hr₂,hx₂,hleaves₂⟩ := hput₁ (hasRoom_iff_fits.mpr hroom.1)
  have hboth := hleaves.trans hleaves₂
  obtain ⟨hput₂,-⟩ := hg r₂.1 r₂.2 _ hboth.keeps (hboth.literal hm hnull) hx₂ (fun a ha => (hboth.own a ha).resolve_left id)
  have hlen₂ : r₂.2.length = x.length := hx₂.length_eq
  obtain ⟨r₃,hr₃,hx₃,hleaves₃⟩ := hput₂ (hasRoom_iff_fits.mpr (by
    rw [hlen₂,(hinv₁ r₂ hr₂).2]
    exact hroom.2))
  refine ⟨r₃,?_,hx₃,hboth.trans hleaves₃⟩
  rw [concat,if_pos h0,hm₁,ok_bind]
  dsimp only
  rw [hr₂,ok_bind]
  exact hr₃

/-- A sum that is given has had room. -/
theorem of_concat (hm : Literal m) (hf : Puts m x f) (hg : Puts m y g) (h0 : cap ≠ 0) (hcap : cap < 4294967296)
    (h : concat m cap f g = .ok r) : cap < npos ∧ PutTogether cap x.length y.length := by
  have hnull : Buffered m .nullData := trivial
  have hgrow : StringData.nullData.capacity < cap := Nat.pos_of_ne_zero h0
  rw [concat,if_pos h0] at h
  obtain ⟨⟨m₁,d₁⟩,hreserve,h⟩ := of_bind_ok h
  obtain ⟨r₂,hr₂,hr⟩ := of_bind_ok h
  have hinit := hreserve
  rw [reserve,if_pos hgrow] at hinit
  obtain ⟨r₁,hinit,-⟩ := of_bind_ok hinit
  have hsize := (of_init hcap hinit).2
  have hleaves := reserve_leaves hm hnull hcap hreserve
  obtain ⟨m₀,hm₀,harea,-,hk⟩ := @reserve_spec m .nullData [] rfl cap hgrow hsize
  rw [hm₀] at hreserve
  cases hreserve
  have hx₁ : Contains m₁ [] (.own ([] : List UInt8).length cap m.fresh) :=
    ⟨rfl,Nat.zero_le _,hsize,hm.fresh,harea⟩
  obtain ⟨hput₁,hinv₁⟩ := hf m₁ _ [] hk (hleaves.literal hm hnull) hx₁ (fun a ha => (hleaves.own a ha).resolve_left id)
  obtain ⟨hroom₁,hcap₂⟩ := hinv₁ r₂ hr₂
  obtain ⟨r₂',hr₂',hx₂,hleaves₂⟩ := hput₁ hroom₁
  rw [hr₂] at hr₂'
  cases hr₂'
  have hboth := hleaves.trans hleaves₂
  obtain ⟨-,hinv₂⟩ := hg r₂.1 r₂.2 _ hboth.keeps (hboth.literal hm hnull) hx₂ (fun a ha => (hboth.own a ha).resolve_left id)
  have hroom₂ := hasRoom_iff_fits.mp (hinv₂ r hr).1
  have hlen₂ : r₂.2.length = x.length := hx₂.length_eq
  rw [hlen₂,hcap₂] at hroom₂
  exact ⟨Nat.lt_of_succ_lt_succ hsize,hasRoom_iff_fits.mp hroom₁,hroom₂⟩

theorem concat_zero : concat m 0 f g = .ok (m,.nullData) := if_neg (fun h => h rfl)

end concat

def content (r : Except Fault (Memory × StringData)) : Except Fault (List UInt8) := do
  let (m,d) ← r
  m.read d.chars d.length

def IsConcat (r : Except Fault (Memory × StringData)) (x y : List UInt8) : Prop :=
  ∃ q, r = .ok q ∧ q.2.length = x.length + y.length ∧ q.1.read q.2.chars q.2.length = .ok (x ++ y)

theorem Contains.content_eq (h : Contains m x d) : content (.ok (m,d)) = .ok x := by
  have hread := h.read (Nat.le_refl _)
  rwa [List.take_length,← h.length_eq] at hread

theorem isConcat_iff {r : Except Fault (Memory × StringData)} : IsConcat r x y ↔ content r = .ok (x ++ y) := by
  constructor
  · rintro ⟨q,rfl,-,hread⟩
    exact hread
  · intro h
    obtain ⟨q,rfl,hread⟩ := of_bind_ok h
    exact ⟨q,rfl,by rw [← Blocks.length_of_read hread,List.length_append],hread⟩

def PlusGives (x y z : List UInt8) : Prop :=
  Vanishes x.length ∧ z = [] ∨
    ¬ Vanishes x.length ∧ PutTogether (sizeType (x.length + x.length)) x.length y.length ∧ z = x ++ y

theorem plus_ok (hm : Literal m) (hx : Contains m x s1) (hy : Contains m y s2) (h : PlusGives x y z) :
    ∃ r, plus m s1 s2 = .ok r ∧ Contains r.1 z r.2 ∧ Leaves m .nullData r := by
  have hle := hx.length_le
  have hcap := hx.capacity_lt
  have hvanishes := vanishes_iff (a := x.length) (by omega)
  rw [plus,hx.length_eq]
  rcases h with ⟨h,rfl⟩ | ⟨h,hroom,rfl⟩
  · rw [hvanishes.mpr h]
    exact ⟨_,concat_zero,rfl,Buffered.leaves trivial⟩
  · refine concat_ok hm (appendString_puts hx) (appendString_puts hy) (fun h0 => h (hvanishes.mp h0)) ?_ hroom
    rw [sizeType,npos]
    omega

theorem of_plus (hm : Literal m) (hx : Contains m x s1) (hy : Contains m y s2) (h : plus m s1 s2 = .ok r) :
    ∃ z, PlusGives x y z ∧ Contains r.1 z r.2 ∧ Leaves m .nullData r := by
  have hle := hx.length_le
  have hcap := hx.capacity_lt
  have hvanishes := vanishes_iff (a := x.length) (by omega)
  have hgives : ∃ z, PlusGives x y z := by
    by_cases h0 : Vanishes x.length
    · exact ⟨[],Or.inl ⟨h0,rfl⟩⟩
    · rw [plus,hx.length_eq] at h
      obtain ⟨-,hroom⟩ := of_concat hm (appendString_puts hx) (appendString_puts hy) (fun hz => h0 (hvanishes.mp hz))
        (Nat.mod_lt _ (by decide)) h
      exact ⟨_,Or.inr ⟨h0,hroom,rfl⟩⟩
  obtain ⟨z,hz⟩ := hgives
  obtain ⟨r',hr',hspec⟩ := plus_ok hm hx hy hz
  rw [h] at hr'
  cases hr'
  exact ⟨z,hz,hspec⟩

theorem plus_content_iff (hm : Literal m) (hx : Contains m x s1) (hy : Contains m y s2) :
    content (plus m s1 s2) = .ok z ↔ PlusGives x y z := by
  constructor
  · intro h
    obtain ⟨r,hr,hread⟩ := of_bind_ok h
    obtain ⟨z',hz',hcontains,-⟩ := of_plus hm hx hy hr
    have hcontent : content (.ok r) = .ok z' := hcontains.content_eq
    obtain rfl := Except.ok.inj (hread.symm.trans hcontent)
    exact hz'
  · intro h
    obtain ⟨r,hr,hcontains,-⟩ := plus_ok hm hx hy h
    rw [hr]
    exact hcontains.content_eq

theorem plusGives_append_iff : PlusGives x y (x ++ y) ↔ PlusMeets x.length y.length := by
  rw [PlusGives,PlusMeets,List.append_eq_nil_iff,← List.length_eq_zero_iff,← List.length_eq_zero_iff]
  constructor
  · rintro (⟨-,h⟩ | ⟨h,hroom,-⟩)
    · exact Or.inl h
    · exact Or.inr ⟨h,hroom⟩
  · rintro (⟨hx,hy⟩ | ⟨h,hroom⟩)
    · exact Or.inl ⟨Or.inl hx,hx,hy⟩
    · exact Or.inr ⟨h,hroom,rfl⟩

/-! ## The sums with a text -/

/-- What is given has a length that is a `size_type`. -/
theorem IsConcat.length_lt (h : IsConcat (.ok r) x y) (hr : Leaves m .nullData r) : x.length + y.length < npos := by
  obtain ⟨q,hq,hlen,-⟩ := h
  cases hq
  obtain ⟨w,hw⟩ := hr.buffered.contains
  have hle := hw.length_eq.trans_le hw.length_le
  have hcap := hw.capacity_lt
  rw [npos]
  omega

section text
variable {f g : Memory → StringData → Except Fault (Memory × StringData)}

theorem concat_isConcat (hm : Literal m) (hf : Puts m x f) (hg : Puts m y g) (h : x.length + y.length < npos) :
    IsConcat (concat m (sizeType (x.length + y.length)) f g) x y := by
  rw [npos] at h
  have hsize : sizeType (x.length + y.length) = x.length + y.length := Nat.mod_eq_of_lt (by omega)
  rw [hsize,isConcat_iff]
  by_cases h0 : x.length + y.length = 0
  · obtain rfl : x = [] := List.length_eq_zero_iff.mp (by omega)
    obtain rfl : y = [] := List.length_eq_zero_iff.mp (by omega)
    rfl
  · obtain ⟨r,hr,hcontains,-⟩ := concat_ok hm hf hg h0 h (putTogether_of_le (Nat.le_refl _))
    rw [hr]
    exact hcontains.content_eq

/-- Where the sum is too long for a length, nothing is given, or the sum is 0 as such a number. -/
theorem concat_content_of_long (hm : Literal m) (hf : Puts m x f) (hg : Puts m y g)
    (hlong : npos ≤ x.length + y.length) (h : content (concat m (sizeType (x.length + y.length)) f g) = .ok z) :
    sizeType (x.length + y.length) = 0 ∧ z = [] := by
  by_cases h0 : sizeType (x.length + y.length) = 0
  · rw [h0,concat_zero] at h
    exact ⟨h0,(Except.ok.inj h).symm⟩
  · obtain ⟨r,hr,-⟩ := of_bind_ok h
    obtain ⟨hcap,hroom⟩ := of_concat hm hf hg h0 (Nat.mod_lt _ (by decide)) hr
    obtain ⟨r',hr',hcontains,hleaves⟩ := concat_ok hm hf hg h0 hcap hroom
    have hconcat : IsConcat (.ok r') x y := isConcat_iff.mpr hcontains.content_eq
    exact absurd (hconcat.length_lt hleaves) (Nat.not_lt.mpr hlong)

end text

theorem textPlus_eq (t : CString) (s : StringData) : textPlus m (.text t.bytes) s =
    concat m (sizeType (sizeType t.strlen + s.length)) (fun m tmp => append m tmp (.text t.bytes)) (appendString s) := by
  rw [textPlus,Source.strlen,ok_bind,CString.ofBuf_bytes]

theorem plusText_eq (t : CString) (s : StringData) : plusText m s (.text t.bytes) =
    concat m (sizeType (sizeType t.strlen + s.length)) (appendString s) (fun m tmp => append m tmp (.text t.bytes)) := by
  rw [plusText,Source.strlen,ok_bind,CString.ofBuf_bytes]

theorem textPlus_isConcat_iff (hm : Literal m) (t : CString) (hy : Contains m y s2) :
    IsConcat (textPlus m (.text t.bytes) s2) t.bytes y ↔ t.strlen + y.length < npos := by
  rw [textPlus_eq]
  constructor
  · intro h
    obtain ⟨r,hr,-⟩ := id h
    have hleaves := concat_leaves hm (Nat.mod_lt _ (by decide)) (fun m d r hm hd h => append_leaves hm hd h)
      (fun m d r hm hd h => appendLen_leaves hm hd h) hr
    rw [hr] at h
    exact h.length_lt hleaves
  · intro h
    have ht : t.strlen < 4294967296 := by
      rw [npos] at h
      omega
    have hsize : sizeType t.strlen = t.bytes.length := Nat.mod_eq_of_lt ht
    rw [hsize,hy.length_eq]
    exact concat_isConcat hm (append_puts m ht) (appendString_puts hy) h

theorem plusText_isConcat_iff (hm : Literal m) (hx : Contains m x s1) (t : CString) :
    IsConcat (plusText m s1 (.text t.bytes)) x t.bytes ↔ x.length + t.strlen < npos := by
  rw [plusText_eq]
  constructor
  · intro h
    obtain ⟨r,hr,-⟩ := id h
    have hleaves := concat_leaves hm (Nat.mod_lt _ (by decide)) (fun m d r hm hd h => appendLen_leaves hm hd h)
      (fun m d r hm hd h => append_leaves hm hd h) hr
    rw [hr] at h
    exact h.length_lt hleaves
  · intro h
    have ht : t.strlen < 4294967296 := by
      rw [npos] at h
      omega
    have hsize : sizeType t.strlen = t.bytes.length := Nat.mod_eq_of_lt ht
    rw [hsize,hx.length_eq,Nat.add_comm]
    exact concat_isConcat hm (appendString_puts hx) (append_puts m ht) h

/-! ## The laws -/

def Agree (m : Memory) (s1 s2 : StringData) (t1 t2 : CString) : Prop :=
  ∃ z, content (plus m s1 s2) = .ok z ∧ content (textPlus m (.text t1.bytes) s2) = .ok z ∧
    content (plusText m s1 (.text t2.bytes)) = .ok z

def Associates (m : Memory) (s1 s2 s3 : StringData) : Prop :=
  ∃ w, content (do let (m,t) ← plus m s1 s2; plus m t s3) = .ok w ∧
    content (do let (m,t) ← plus m s2 s3; plus m s1 t) = .ok w

theorem agree_iff (hm : Literal m) {t1 t2 : CString} (hx : Contains m t1.bytes s1) (hy : Contains m t2.bytes s2) :
    Agree m s1 s2 t1 t2 ↔ t1.strlen + t2.strlen < npos ∧ PlusMeets t1.strlen t2.strlen ∨
      t1.strlen = 2147483648 ∧ t2.strlen = 2147483648 := by
  have hle₁ := hx.length_le
  have hcap₁ := hx.capacity_lt
  have hle₂ := hy.length_le
  have hcap₂ := hy.capacity_lt
  have ht1 : t1.strlen < 4294967296 := by
    rw [CString.strlen]
    omega
  have ht2 : t2.strlen < 4294967296 := by
    rw [CString.strlen]
    omega
  have hright := @textPlus_isConcat_iff m s2 t2.bytes hm t1 hy
  have hleft := @plusText_isConcat_iff m s1 t1.bytes hm hx t2
  rw [isConcat_iff] at hright hleft
  by_cases hlong : t1.strlen + t2.strlen < npos
  · have hright := hright.mpr hlong
    have hleft := hleft.mpr hlong
    rw [and_iff_right hlong,or_iff_left (by rw [npos] at hlong; omega),CString.strlen,CString.strlen,
      ← plusGives_append_iff,← plus_content_iff hm hx hy]
    constructor
    · rintro ⟨z,hplus,htext,-⟩
      obtain rfl := Except.ok.inj (hright.symm.trans htext)
      exact hplus
    · exact fun hplus => ⟨_,hplus,hright,hleft⟩
  · rw [or_iff_right (fun h => hlong h.1)]
    have hsize₁ : sizeType t1.strlen = t1.bytes.length := Nat.mod_eq_of_lt ht1
    have hsize₂ : sizeType t2.strlen = t2.bytes.length := Nat.mod_eq_of_lt ht2
    constructor
    · rintro ⟨z,hplus,htext,-⟩
      rw [textPlus_eq,hsize₁,hy.length_eq] at htext
      obtain ⟨h0,rfl⟩ := concat_content_of_long hm (append_puts m ht1) (appendString_puts hy)
        (Nat.not_lt.mp hlong) htext
      have hlong' := Nat.not_lt.mp hlong
      rw [npos] at hlong'
      rw [sizeType] at h0
      rcases (plus_content_iff hm hx hy).mp hplus with ⟨hvanishes,-⟩ | ⟨-,-,hnil⟩
      · rw [Vanishes] at hvanishes
        rw [CString.strlen,CString.strlen] at *
        omega
      · have hlength := congrArg List.length hnil
        rw [List.length_nil,List.length_append] at hlength
        rw [CString.strlen,CString.strlen] at *
        omega
    · rintro ⟨h₁,h₂⟩
      have hsum : sizeType (t1.bytes.length + t2.bytes.length) = 0 := by
        rw [CString.strlen] at h₁ h₂
        rw [h₁,h₂]
        rfl
      refine ⟨[],(plus_content_iff hm hx hy).mpr (Or.inl ⟨Or.inr h₁,rfl⟩),?_,?_⟩
      · rw [textPlus_eq,hsize₁,hy.length_eq,hsum,concat_zero]
        rfl
      · rw [plusText_eq,hsize₂,hx.length_eq,Nat.add_comm,hsum,concat_zero]
        rfl

theorem left_content_iff (hm : Literal m) (hx : Contains m x s1) (hy : Contains m y s2) (hz : Contains m z s3)
    {w : List UInt8} : content (do let (m,t) ← plus m s1 s2; plus m t s3) = .ok w ↔
      ∃ u, PlusGives x y u ∧ PlusGives u z w := by
  have hnull : Buffered m .nullData := trivial
  constructor
  · intro h
    obtain ⟨r',hr',-⟩ := of_bind_ok h
    obtain ⟨r,hr,-⟩ := of_bind_ok hr'
    obtain ⟨u,hu,hcontains,hleaves⟩ := of_plus hm hx hy hr
    refine ⟨u,hu,?_⟩
    rw [hr] at h
    exact (plus_content_iff (hleaves.literal hm hnull) hcontains (hz.keeps hleaves.keeps (fun _ _ => id))).mp h
  · rintro ⟨u,hu,hw⟩
    obtain ⟨r,hr,hcontains,hleaves⟩ := plus_ok hm hx hy hu
    rw [hr]
    exact (plus_content_iff (hleaves.literal hm hnull) hcontains (hz.keeps hleaves.keeps (fun _ _ => id))).mpr hw

theorem right_content_iff (hm : Literal m) (hx : Contains m x s1) (hy : Contains m y s2) (hz : Contains m z s3)
    {w : List UInt8} : content (do let (m,t) ← plus m s2 s3; plus m s1 t) = .ok w ↔
      ∃ v, PlusGives y z v ∧ PlusGives x v w := by
  have hnull : Buffered m .nullData := trivial
  constructor
  · intro h
    obtain ⟨r',hr',-⟩ := of_bind_ok h
    obtain ⟨r,hr,-⟩ := of_bind_ok hr'
    obtain ⟨v,hv,hcontains,hleaves⟩ := of_plus hm hy hz hr
    refine ⟨v,hv,?_⟩
    rw [hr] at h
    exact (plus_content_iff (hleaves.literal hm hnull) (hx.keeps hleaves.keeps (fun _ _ => id)) hcontains).mp h
  · rintro ⟨v,hv,hw⟩
    obtain ⟨r,hr,hcontains,hleaves⟩ := plus_ok hm hy hz hv
    rw [hr]
    exact (plus_content_iff (hleaves.literal hm hnull) (hx.keeps hleaves.keeps (fun _ _ => id)) hcontains).mpr hw

/-- Both ways give a sum, and the two are equal, by the lengths alone. -/
theorem plusGives_assoc_iff : (∃ w, (∃ u, PlusGives x y u ∧ PlusGives u z w) ∧ ∃ v, PlusGives y z v ∧ PlusGives x v w) ↔
    AssocMeets x.length y.length z.length := by
  have hnil : Vanishes ([] : List UInt8).length := Or.inl rfl
  have hpos : ¬ Vanishes x.length → x ≠ [] := by
    rintro h rfl
    exact h hnil
  rw [AssocMeets]
  constructor
  · rintro ⟨w,⟨u,hu,hw⟩,v,hv,hw'⟩
    rcases hw' with ⟨hx,rfl⟩ | ⟨hx,hroomv,rfl⟩
    · refine Or.inl ⟨hx,?_⟩
      rcases hv with ⟨hy,-⟩ | ⟨-,hroom,-⟩
      · exact Or.inl hy
      · exact Or.inr hroom
    · refine Or.inr ⟨hx,?_⟩
      rcases hu with ⟨hx',-⟩ | ⟨-,hroomu,rfl⟩
      · exact absurd hx' hx
      rcases hw with ⟨-,hw⟩ | ⟨hxy,hroomw,hw⟩
      · exact absurd (List.append_eq_nil_iff.mp hw).1 (hpos hx)
      rw [List.length_append] at hxy hroomw
      refine ⟨hroomu,hxy,hroomw,?_⟩
      rcases hv with ⟨hy,rfl⟩ | ⟨hy,hroom,rfl⟩
      · refine Or.inl ⟨hy,?_⟩
        rw [List.append_assoc] at hw
        have hyz := List.append_cancel_left hw
        obtain ⟨rfl,rfl⟩ := List.append_eq_nil_iff.mp hyz.symm
        exact ⟨rfl,rfl⟩
      · rw [List.length_append] at hroomv
        exact Or.inr ⟨hy,hroom,hroomv⟩
  · rintro (⟨hx,hyz⟩ | ⟨hx,hroomu,hxy,hroomw,hyz⟩)
    · refine ⟨[],⟨[],Or.inl ⟨hx,rfl⟩,Or.inl ⟨hnil,rfl⟩⟩,?_⟩
      by_cases hy : Vanishes y.length
      · exact ⟨[],Or.inl ⟨hy,rfl⟩,Or.inl ⟨hx,rfl⟩⟩
      · exact ⟨_,Or.inr ⟨hy,hyz.resolve_left hy,rfl⟩,Or.inl ⟨hx,rfl⟩⟩
    · refine ⟨x ++ y ++ z,⟨x ++ y,Or.inr ⟨hx,hroomu,rfl⟩,Or.inr ⟨?_,?_,rfl⟩⟩,?_⟩
      · rwa [List.length_append]
      · rwa [List.length_append]
      rcases hyz with ⟨hy,hy0,hz0⟩ | ⟨hy,hroom,hroomv⟩
      · obtain rfl := List.length_eq_zero_iff.mp hy0
        obtain rfl := List.length_eq_zero_iff.mp hz0
        exact ⟨[],Or.inl ⟨hy,rfl⟩,Or.inr ⟨hx,hroomu,by rw [List.append_nil]⟩⟩
      · refine ⟨y ++ z,Or.inr ⟨hy,hroom,rfl⟩,Or.inr ⟨hx,?_,List.append_assoc _ _ _⟩⟩
        rwa [List.length_append]

theorem associates_iff (hm : Literal m) (hx : Contains m x s1) (hy : Contains m y s2) (hz : Contains m z s3) :
    Associates m s1 s2 s3 ↔ AssocMeets x.length y.length z.length := by
  rw [← plusGives_assoc_iff,Associates]
  exact exists_congr (fun w => and_congr (left_content_iff hm hx hy hz) (right_content_iff hm hx hy hz))

namespace PublicAction

/-- After every run the sums are right, agree, and are associative with the empty String as
identity, each if and only if the lengths meet its condition. -/
theorem run_plus_iff (junk : ℕ → ℕ → UInt8) (acts : List PublicAction) (s : StringState)
    (hrun : Transition.exec step (.initial junk) acts = some s) (i j k : ℕ) (s1 s2 s3 : StringData)
    (h1 : s.data i = .ok s1) (h2 : s.data j = .ok s2) (h3 : s.data k = .ok s3) (t1 t2 : CString) :
    ∃ x y z, content (.ok (s.mem,s1)) = .ok x ∧ content (.ok (s.mem,s2)) = .ok y ∧ content (.ok (s.mem,s3)) = .ok z ∧
      (IsConcat (Text.plus s.mem s1 s2) x y ↔ PlusMeets x.length y.length) ∧
      (IsConcat (Text.textPlus s.mem (.text t1.bytes) s2) t1.bytes y ↔ t1.strlen + y.length < npos) ∧
      (IsConcat (Text.plusText s.mem s1 (.text t2.bytes)) x t2.bytes ↔ x.length + t2.strlen < npos) ∧
      (t1.bytes = x → t2.bytes = y → (Agree s.mem s1 s2 t1 t2 ↔
        x.length + y.length < npos ∧ PlusMeets x.length y.length ∨ x.length = 2147483648 ∧ y.length = 2147483648)) ∧
      (Associates s.mem s1 s2 s3 ↔ AssocMeets x.length y.length z.length) ∧
      (y = [] → (content (Text.plus s.mem s1 s2) = .ok x ↔ PlusMeets x.length 0)) ∧
      (x = [] → (content (Text.plus s.mem s1 s2) = .ok y ↔ y = [])) := by
  have hs := run_spec hrun
  have hm := hs.literal
  obtain ⟨x,hx⟩ := (hs.of_data h1).2.contains
  obtain ⟨y,hy⟩ := (hs.of_data h2).2.contains
  obtain ⟨z,hz⟩ := (hs.of_data h3).2.contains
  have hplus : ∀ w, content (Text.plus s.mem s1 s2) = .ok w ↔ PlusGives x y w := fun w => plus_content_iff hm hx hy
  refine ⟨x,y,z,hx.content_eq,hy.content_eq,hz.content_eq,?_,textPlus_isConcat_iff hm t1 hy,
    plusText_isConcat_iff hm hx t2,?_,associates_iff hm hx hy hz,?_,?_⟩
  · rw [isConcat_iff,hplus,plusGives_append_iff]
  · rintro rfl rfl
    exact agree_iff hm hx hy
  · rintro rfl
    have hsum := plusGives_append_iff (x := x) (y := [])
    rw [List.append_nil] at hsum
    rw [hplus,hsum,List.length_nil]
  · rintro rfl
    have hsum := plusGives_append_iff (x := []) (y := y)
    rw [List.nil_append] at hsum
    rw [hplus,hsum,PlusMeets,List.length_nil,List.length_eq_zero_iff,and_iff_right rfl]
    exact or_iff_left (fun h => h.1 (Or.inl rfl))

/-- Three letters are added. -/
theorem run_plus_iff_letters :
    ∃ s, Transition.exec step (.initial fun _ _ => 120)
        [basic (.createFrom 0 (.text [97])),basic (.createFrom 1 (.text [98])),basic (.createFrom 2 (.text [99]))] = some s ∧
      IsConcat (Text.plus s.mem (.own 1 1 1) (.own 1 1 2)) [97] [98] ∧
      Associates s.mem (.own 1 1 1) (.own 1 1 2) (.own 1 1 3) := by
  obtain ⟨x,y,z,hx,hy,hz,hplus,-,-,-,hassoc,-⟩ := run_plus_iff (fun _ _ => 120)
    [basic (.createFrom 0 (.text [97])),basic (.createFrom 1 (.text [98])),basic (.createFrom 2 (.text [99]))] _ rfl 0 1 2
    (.own 1 1 1) (.own 1 1 2) (.own 1 1 3) rfl rfl rfl (.ofBuf [97]) (.ofBuf [98])
  obtain rfl : [97] = x := Except.ok.inj hx
  obtain rfl : [98] = y := Except.ok.inj hy
  obtain rfl : [99] = z := Except.ok.inj hz
  exact ⟨_,rfl,hplus.mpr (by decide),hassoc.mpr (by decide)⟩

/-- A letter is added to the empty String. -/
theorem not_run_plus : ¬ ∀ (junk : ℕ → ℕ → UInt8) (acts : List PublicAction) (s : StringState),
    Transition.exec step (.initial junk) acts = some s → ∀ (i j : ℕ) (s1 s2 : StringData) (x y : List UInt8),
      s.data i = .ok s1 → s.data j = .ok s2 → content (.ok (s.mem,s1)) = .ok x → content (.ok (s.mem,s2)) = .ok y →
        IsConcat (Text.plus s.mem s1 s2) x y := by
  intro h
  obtain ⟨q,hq,hlen,-⟩ := h (fun _ _ => 120) [basic (.create 0),basic (.createFrom 1 (.text [97]))] _ rfl 0 1
    .nullData (.own 1 1 1) [] [97] rfl rfl rfl rfl
  rw [← Except.ok.inj hq] at hlen
  exact absurd hlen (by decide)

end PublicAction
end Edelib.Text
