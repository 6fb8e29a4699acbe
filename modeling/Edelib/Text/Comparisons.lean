import Edelib.Text.Reachable

/-! # The order of Strings

The operators compare the texts that the buffers begin with; `==` compares the lengths before. They
are the operators of one order where the texts tell the contents apart.
-/
namespace Edelib.Text
open Foundation Blocks

/-! ## Two buffers -/

def SameText (u v : List UInt8) : Prop := ∃ t, STERM ∉ t ∧ t ++ [STERM] <+: u ∧ t ++ [STERM] <+: v

def DifferInText (u v : List UInt8) : Prop := ∃ t a b, STERM ∉ t ∧ a ≠ b ∧ t ++ [a] <+: u ∧ t ++ [b] <+: v

theorem sameText_cons {a b : UInt8} {u v : List UInt8} :
    SameText (a :: u) (b :: v) ↔ a = b ∧ (a = STERM ∨ SameText u v) := by
  constructor
  · rintro ⟨t,ht,hu,hv⟩
    cases t with
    | nil =>
      obtain ⟨rfl,-⟩ := List.cons_prefix_cons.mp hu
      obtain ⟨rfl,-⟩ := List.cons_prefix_cons.mp hv
      exact ⟨rfl,Or.inl rfl⟩
    | cons c t =>
      obtain ⟨rfl,hu'⟩ := List.cons_prefix_cons.mp hu
      obtain ⟨rfl,hv'⟩ := List.cons_prefix_cons.mp hv
      exact ⟨rfl,Or.inr ⟨t,fun hmem => ht (List.mem_cons_of_mem _ hmem),hu',hv'⟩⟩
  · rintro ⟨rfl,h⟩
    by_cases ha : a = STERM
    · exact ⟨[],List.not_mem_nil,ha ▸ List.cons_prefix_cons.mpr ⟨rfl,List.nil_prefix⟩,
        ha ▸ List.cons_prefix_cons.mpr ⟨rfl,List.nil_prefix⟩⟩
    · obtain ⟨t,ht,hu,hv⟩ := h.resolve_left ha
      refine ⟨a :: t,?_,List.cons_prefix_cons.mpr ⟨rfl,hu⟩,List.cons_prefix_cons.mpr ⟨rfl,hv⟩⟩
      rw [List.mem_cons]
      exact not_or.mpr ⟨Ne.symm ha,ht⟩

theorem differInText_cons {a b : UInt8} {u v : List UInt8} :
    DifferInText (a :: u) (b :: v) ↔ a ≠ b ∨ a ≠ STERM ∧ DifferInText u v := by
  constructor
  · rintro ⟨t,c,c',ht,hne,hu,hv⟩
    cases t with
    | nil =>
      obtain ⟨rfl,-⟩ := List.cons_prefix_cons.mp hu
      obtain ⟨rfl,-⟩ := List.cons_prefix_cons.mp hv
      exact Or.inl hne
    | cons e t =>
      obtain ⟨rfl,hu'⟩ := List.cons_prefix_cons.mp hu
      obtain ⟨rfl,hv'⟩ := List.cons_prefix_cons.mp hv
      rw [List.mem_cons,not_or] at ht
      exact Or.inr ⟨Ne.symm ht.1,t,c,c',ht.2,hne,hu',hv'⟩
  · intro h
    by_cases hab : a = b
    · obtain ⟨ha,t,c,c',ht,hne,hu,hv⟩ := h.resolve_left (fun hne => hne hab)
      refine ⟨a :: t,c,c',?_,hne,List.cons_prefix_cons.mpr ⟨rfl,hu⟩,List.cons_prefix_cons.mpr ⟨hab,hv⟩⟩
      rw [List.mem_cons]
      exact not_or.mpr ⟨Ne.symm ha,ht⟩
    · exact ⟨[],a,b,List.not_mem_nil,hab,List.cons_prefix_cons.mpr ⟨rfl,List.nil_prefix⟩,
        List.cons_prefix_cons.mpr ⟨rfl,List.nil_prefix⟩⟩

theorem not_sameText_nil (u : List UInt8) : ¬ SameText [] u ∧ ¬ SameText u [] := by
  constructor
  · rintro ⟨t,-,hu,-⟩
    exact absurd (List.prefix_nil.mp hu) (List.append_ne_nil_of_right_ne_nil _ (List.cons_ne_nil _ _))
  · rintro ⟨t,-,-,hu⟩
    exact absurd (List.prefix_nil.mp hu) (List.append_ne_nil_of_right_ne_nil _ (List.cons_ne_nil _ _))

theorem not_differInText_nil (u : List UInt8) : ¬ DifferInText [] u ∧ ¬ DifferInText u [] := by
  constructor
  · rintro ⟨t,a,b,-,-,hu,-⟩
    exact absurd (List.prefix_nil.mp hu) (List.append_ne_nil_of_right_ne_nil _ (List.cons_ne_nil _ _))
  · rintro ⟨t,a,b,-,-,-,hu⟩
    exact absurd (List.prefix_nil.mp hu) (List.append_ne_nil_of_right_ne_nil _ (List.cons_ne_nil _ _))

theorem DifferInText.of_begins {u u' v v' : List UInt8} (h : DifferInText u v) (hu : u <+: u') (hv : v <+: v') :
    DifferInText u' v' := by
  obtain ⟨t,a,b,ht,hne,ha,hb⟩ := h
  exact ⟨t,a,b,ht,hne,ha.trans hu,hb.trans hv⟩

/-- The terminator tells a text from a longer one. -/
theorem differInText_of_ne {x y : List UInt8} (hx : STERM ∉ x) (hy : STERM ∉ y) (hne : x ≠ y) :
    DifferInText (x ++ [STERM]) (y ++ [STERM]) := by
  induction x generalizing y with
  | nil =>
    cases y with
    | nil => exact absurd rfl hne
    | cons b y => exact differInText_cons.mpr (Or.inl (fun h => hy (h ▸ List.mem_cons_self)))
  | cons a x ih =>
    cases y with
    | nil => exact differInText_cons.mpr (Or.inl (fun h => hx (h ▸ List.mem_cons_self)))
    | cons b y =>
      rw [List.mem_cons,not_or] at hx hy
      by_cases hab : a = b
      · exact differInText_cons.mpr (Or.inr ⟨Ne.symm hx.1,ih hx.2 hy.2 (fun h => hne (by rw [hab,h]))⟩)
      · exact differInText_cons.mpr (Or.inl hab)

/-- The loop goes on over a byte that both have and that is no terminator. -/
theorem strcmp_cons_self {a : UInt8} (ha : a ≠ STERM) (u v : List UInt8) : strcmp (a :: u) (a :: v) = strcmp u v := by
  rw [strcmp,if_neg (not_or.mpr ⟨fun hne => hne rfl,ha⟩)]

theorem strcmp_eq_zero {u v : List UInt8} : strcmp u v = .ok 0 ↔ SameText u v := by
  induction u generalizing v with
  | nil => exact iff_of_false nofun (not_sameText_nil v).1
  | cons a u ih =>
    cases v with
    | nil => exact iff_of_false nofun (not_sameText_nil _).2
    | cons b v =>
      rw [sameText_cons]
      by_cases hab : a = b
      · obtain rfl := hab
        by_cases ha : a = STERM
        · rw [strcmp,if_pos (Or.inr ha),Int.sub_self]
          exact iff_of_true rfl ⟨rfl,Or.inl ha⟩
        · rw [strcmp_cons_self ha,ih,and_iff_right rfl,or_iff_right ha]
      · rw [strcmp,if_pos (Or.inl hab)]
        refine iff_of_false (fun h => ?_) (fun h => hab h.1)
        exact CString.toNat_sub_ne_zero hab (Except.ok.inj h)

theorem strcmp_ne_zero {u v : List UInt8} : (∃ c, c ≠ 0 ∧ strcmp u v = .ok c) ↔ DifferInText u v := by
  induction u generalizing v with
  | nil => exact iff_of_false (fun ⟨_,_,h⟩ => nomatch h) (not_differInText_nil v).1
  | cons a u ih =>
    cases v with
    | nil => exact iff_of_false (fun ⟨_,_,h⟩ => nomatch h) (not_differInText_nil _).2
    | cons b v =>
      rw [differInText_cons]
      by_cases hab : a = b
      · obtain rfl := hab
        by_cases ha : a = STERM
        · rw [strcmp,if_pos (Or.inr ha),Int.sub_self]
          refine iff_of_false ?_ ?_
          · rintro ⟨c,hc,h⟩
            exact hc (Except.ok.inj h).symm
          · rintro (hne | ⟨hne,-⟩)
            · exact hne rfl
            · exact hne ha
        · rw [strcmp_cons_self ha,ih]
          exact ⟨fun h => Or.inr ⟨ha,h⟩,fun h => (h.resolve_left (fun hne => hne rfl)).2⟩
      · rw [strcmp,if_pos (Or.inl hab)]
        exact iff_of_true ⟨_,CString.toNat_sub_ne_zero hab,rfl⟩ (Or.inl hab)

/-- Where two texts are in order and two more, the first and the last are found to be. -/
theorem strcmp_trans {u v w : List UInt8} {c c' : ℤ} (h : strcmp u v = .ok c) (hc : c < 0)
    (h' : strcmp v w = .ok c') (hc' : c' < 0) : ∃ c'', strcmp u w = .ok c'' ∧ c'' < 0 := by
  induction u generalizing v w with
  | nil => cases h
  | cons a u ih =>
    cases v with
    | nil => cases h
    | cons b v =>
      cases w with
      | nil => cases h'
      | cons e w =>
        by_cases hab : a = b
        · obtain rfl := hab
          by_cases ha : a = STERM
          · rw [strcmp,if_pos (Or.inr ha),Int.sub_self] at h
            obtain rfl := Except.ok.inj h
            exact absurd hc (Int.lt_irrefl 0)
          · rw [strcmp_cons_self ha] at h
            by_cases hae : a = e
            · obtain rfl := hae
              rw [strcmp_cons_self ha] at h' ⊢
              exact ih h h'
            · rw [strcmp,if_pos (Or.inl hae)] at h' ⊢
              exact ⟨c',h',hc'⟩
        · rw [strcmp,if_pos (Or.inl hab)] at h
          obtain rfl := Except.ok.inj h
          by_cases hbe : b = e
          · obtain rfl := hbe
            rw [strcmp,if_pos (Or.inl hab)]
            exact ⟨_,rfl,hc⟩
          · rw [strcmp,if_pos (Or.inl hbe)] at h'
            obtain rfl := Except.ok.inj h'
            have hae : a ≠ e := by
              rintro rfl
              omega
            rw [strcmp,if_pos (Or.inl hae)]
            exact ⟨_,rfl,by omega⟩

/-! ## Two Strings -/

structure Comparison where
  lt : Bool
  eq : Bool
  gt : Bool
  le : Bool
  ge : Bool
  ne : Bool

def Ordered (m : Memory) (d e : StringData) (x y : List UInt8) : Prop :=
  ∃ c : Comparison, (less m d e = .ok c.lt ∧ equal m d e = .ok c.eq ∧ greater m d e = .ok c.gt ∧
      lessEqual m d e = .ok c.le ∧ greaterEqual m d e = .ok c.ge ∧ notEqual m d e = .ok c.ne) ∧
    [c.lt,c.eq,c.gt].count true = 1 ∧ c.ne = !c.eq ∧ c.le = (c.lt || c.eq) ∧ c.ge = (c.gt || c.eq) ∧
    (c.eq = true ↔ x = y)

def ToldApart (m : Memory) (d e : StringData) (x y : List UInt8) : Prop :=
  x = y ∧ SameText (d.buffer m) (e.buffer m) ∨ x ≠ y ∧ DifferInText (d.buffer m) (e.buffer m)

variable {m : Memory} {d e f : StringData} {x y : List UInt8}

theorem compare_eq (hm : Literal m) (hd : Buffered m d) (he : Buffered m e) :
    compare m d e = strcmp (d.buffer m) (e.buffer m) := by
  rw [compare,hd.bytesFrom_eq hm 0,ok_bind,he.bytesFrom_eq hm 0,ok_bind,List.drop_zero,List.drop_zero]

/-- Where the texts are compared with a result, `==` is false for different lengths. -/
theorem equal_of_compare {c : ℤ} (h : compare m d e = .ok c) :
    equal m d e = .ok (decide (d.length = e.length ∧ c = 0)) := by
  rw [equal]
  by_cases hlen : d.length = e.length
  · rw [if_pos hlen,h,ok_bind]
    simp only [hlen,true_and]
    rfl
  · rw [if_neg hlen]
    simp only [hlen,false_and,decide_false]
    rfl

theorem ordered_iff_compare (hlen : x = y → d.length = e.length) :
    Ordered m d e x y ↔ ∃ c, compare m d e = .ok c ∧ (c = 0 ↔ x = y) := by
  constructor
  · rintro ⟨b,⟨hlt,heq,hgt,hle,-,hne⟩,hone,hneg,-,-,hcontent⟩
    obtain ⟨c,hc,hlt⟩ := of_bind_ok hlt
    refine ⟨c,hc,?_⟩
    rw [equal_of_compare hc] at heq
    rw [notEqual,hc] at hne
    have heq := Except.ok.inj heq
    have hne := Except.ok.inj hne
    rw [← hcontent,← Bool.not_eq_false,← Bool.not_eq_true',← hneg,← hne]
    simp
  · rintro ⟨c,hc,hzero⟩
    have hz : (d.length = e.length ∧ c = 0) ↔ c = 0 := and_iff_right_of_imp (fun h0 => hlen (hzero.mp h0))
    refine ⟨⟨decide (c < 0),decide (c = 0),decide (c > 0),decide (c ≤ 0),decide (c ≥ 0),decide (c ≠ 0)⟩,
      ⟨?_,?_,?_,?_,?_,?_⟩,?_,?_,?_,?_,?_⟩
    · rw [less,hc]
      rfl
    · rw [equal_of_compare hc]
      simp only [hz]
    · rw [greater,hc]
      rfl
    · rw [lessEqual,hc]
      rfl
    · rw [greaterEqual,hc]
      rfl
    · rw [notEqual,hc]
      rfl
    · rcases lt_trichotomy c 0 with h | rfl | h
      · have h1 : ¬ c = 0 := by omega
        have h2 : ¬ c > 0 := by omega
        simp [h,h1,h2]
      · rfl
      · have h1 : ¬ c = 0 := by omega
        have h2 : ¬ c < 0 := by omega
        simp [h,h1,h2]
    · simp
    · rw [← Bool.decide_or,decide_eq_decide]
      exact Int.le_iff_lt_or_eq
    · rw [← Bool.decide_or,decide_eq_decide]
      omega
    · rw [decide_eq_true_eq]
      exact hzero

theorem ordered_iff (hm : Literal m) (hd : Contains m x d) (he : Contains m y e) :
    Ordered m d e x y ↔ ToldApart m d e x y := by
  have hlen : x = y → d.length = e.length := by
    rintro rfl
    exact hd.length_eq.trans he.length_eq.symm
  rw [ordered_iff_compare hlen,compare_eq hm hd.buffered he.buffered,ToldApart,← strcmp_eq_zero,← strcmp_ne_zero]
  constructor
  · rintro ⟨c,hc,hzero⟩
    by_cases hxy : x = y
    · exact Or.inl ⟨hxy,hzero.mpr hxy ▸ hc⟩
    · exact Or.inr ⟨hxy,c,fun h0 => hxy (hzero.mp h0),hc⟩
  · rintro (⟨hxy,hc⟩ | ⟨hxy,c,hne,hc⟩)
    · exact ⟨0,hc,iff_of_true rfl hxy⟩
    · exact ⟨c,hc,iff_of_false hne hxy⟩

theorem of_less (h : less m d e = .ok true) : ∃ c, compare m d e = .ok c ∧ c < 0 := by
  obtain ⟨c,hc,h⟩ := of_bind_ok h
  exact ⟨c,hc,of_decide_eq_true (Except.ok.inj h)⟩

theorem less_trans (hm : Literal m) (hd : Buffered m d) (he : Buffered m e) (hf : Buffered m f)
    (h : less m d e = .ok true) (h' : less m e f = .ok true) : less m d f = .ok true := by
  obtain ⟨c,hc,hneg⟩ := of_less h
  obtain ⟨c',hc',hneg'⟩ := of_less h'
  rw [compare_eq hm hd he] at hc
  rw [compare_eq hm he hf] at hc'
  obtain ⟨c'',hc'',hneg''⟩ := strcmp_trans hc hneg hc' hneg'
  rw [less,compare_eq hm hd hf,hc'',ok_bind,decide_eq_true hneg'']
  rfl

/-- Contents without a terminator in them are told apart if there is one behind them. -/
theorem ordered_of_nulFree (hm : Literal m) (hd : Owns m x d) (he : Owns m y e) (hx : STERM ∉ x) (hy : STERM ∉ y) :
    Ordered m d e x y := by
  have hbuffer : ∀ {d x}, Owns m x d → x ++ [STERM] <+: d.buffer m := by
    intro d x hd
    cases d with
    | nullData =>
      obtain rfl : x = [] := hd
      rw [StringData.buffer,StringData.chars,hm.chars]
      exact List.prefix_rfl
    | own len cap chars =>
      obtain ⟨-,-,-,-,harea⟩ := hd
      obtain ⟨data,hdata,-,hfront⟩ := harea.holds
      rw [StringData.buffer,StringData.chars,hdata]
      exact hfront
  refine (ordered_iff hm hd.contains he.contains).mpr ?_
  by_cases hxy : x = y
  · obtain rfl := hxy
    exact Or.inl ⟨rfl,x,hx,hbuffer hd,hbuffer he⟩
  · exact Or.inr ⟨hxy,(differInText_of_ne hx hy hxy).of_begins (hbuffer hd) (hbuffer he)⟩

namespace PublicAction

/-- After every run the operators are those of one order for two Strings if and only if the texts
tell the contents apart; `<` is transitive. -/
theorem run_ordered_iff (junk : ℕ → ℕ → UInt8) (acts : List PublicAction) (s : StringState)
    (hrun : Transition.exec step (.initial junk) acts = some s) (i j k : ℕ) (d e f : StringData)
    (hd : s.data i = .ok d) (he : s.data j = .ok e) (hf : s.data k = .ok f) :
    (∃ x y, s.mem.read d.chars d.length = .ok x ∧ s.mem.read e.chars e.length = .ok y ∧
      (Ordered s.mem d e x y ↔ ToldApart s.mem d e x y)) ∧
    (less s.mem d e = .ok true → less s.mem e f = .ok true → less s.mem d f = .ok true) := by
  have hs := run_spec hrun
  obtain ⟨-,hd⟩ := hs.of_data hd
  obtain ⟨-,he⟩ := hs.of_data he
  obtain ⟨-,hf⟩ := hs.of_data hf
  obtain ⟨x,hx⟩ := hd.contains
  obtain ⟨y,hy⟩ := he.contains
  have hread : ∀ {x d}, Contains s.mem x d → s.mem.read d.chars d.length = .ok x := by
    intro x d hx
    have hread := hx.read (Nat.le_refl _)
    rwa [List.take_length,← hx.length_eq] at hread
  exact ⟨⟨x,y,hread hx,hread hy,ordered_iff hs.literal hx hy⟩,less_trans hs.literal hd he hf⟩

/-- Two letters, and then two of one. -/
theorem run_ordered_iff_letters :
    ∃ s, Transition.exec step (.initial fun _ _ => 120)
        [basic (.createFrom 0 (.text [97])),basic (.createFrom 1 (.text [98])),basic (.createFrom 2 (.text [98,98]))] = some s ∧
      (∃ x y, s.mem.read 1 1 = .ok x ∧ s.mem.read 2 1 = .ok y ∧
        (Ordered s.mem (.own 1 1 1) (.own 1 1 2) x y ↔ ToldApart s.mem (.own 1 1 1) (.own 1 1 2) x y)) ∧
      (less s.mem (.own 1 1 1) (.own 1 1 2) = .ok true → less s.mem (.own 1 1 2) (.own 2 2 3) = .ok true →
        less s.mem (.own 1 1 1) (.own 2 2 3) = .ok true) :=
  ⟨_,rfl,run_ordered_iff (fun _ _ => 120)
    [basic (.createFrom 0 (.text [97])),basic (.createFrom 1 (.text [98])),basic (.createFrom 2 (.text [98,98]))]
    _ rfl 0 1 2 (.own 1 1 1) (.own 1 1 2) (.own 2 2 3) rfl rfl rfl⟩

/-- A NUL byte that is appended ends the text, not the content. -/
theorem not_run_ordered : ¬ ∀ (junk : ℕ → ℕ → UInt8) (acts : List PublicAction) (s : StringState),
    Transition.exec step (.initial junk) acts = some s → ∀ (i j : ℕ) (d e : StringData) (x y : List UInt8),
      s.data i = .ok d → s.data j = .ok e → s.mem.read d.chars d.length = .ok x →
        s.mem.read e.chars e.length = .ok y → Ordered s.mem d e x y := by
  intro h
  obtain ⟨c,⟨hlt,heq,hgt,-⟩,hone,-⟩ := h (fun _ _ => 120)
    [basic (.create 0),basic (.create 1),basic (.call 1 (.appendChars 1 0))] _ rfl 0 1 .nullData (.own 1 2 2) [] [0]
    rfl rfl rfl rfl
  rw [← Except.ok.inj hlt,← Except.ok.inj heq,← Except.ok.inj hgt] at hone
  exact absurd hone (by decide)

end PublicAction
end Edelib.Text
