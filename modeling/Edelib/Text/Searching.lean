import Edelib.Text.Reachable

/-! # Parts of a String, and where they are found

`substr` takes as many bytes as it is asked for, and only `npos` stands for the rest. The functions
that search go on behind the content where there is no terminator.
-/
namespace Edelib.Text
open Foundation Blocks

/-- What a search from an offset gives: the least position, or `npos` if there is none. -/
def FindsFirst (P : ℕ → Prop) (offset : ℕ) (r : Except Fault ℕ) : Prop :=
  ∃ n, r = .ok n ∧ (n = npos ↔ ∀ p, offset ≤ p → ¬ P p) ∧ (n ≠ npos → IsLeast {p | offset ≤ p ∧ P p} n)

theorem findsFirst_of_least {P : ℕ → Prop} {offset p : ℕ} (hp : IsLeast {p | offset ≤ p ∧ P p} p) (hlt : p < npos) :
    FindsFirst P offset (.ok p) := by
  refine ⟨p,rfl,iff_of_false (Nat.ne_of_lt hlt) (fun h => h p hp.1.1 hp.1.2),fun _ => hp⟩

theorem findsFirst_of_none {P : ℕ → Prop} {offset : ℕ} (h : ∀ p, offset ≤ p → ¬ P p) :
    FindsFirst P offset (.ok npos) := ⟨npos,rfl,iff_of_true rfl h,fun hne => absurd rfl hne⟩

/-- Where there is none only `npos` is right. -/
theorem findsFirst_iff_of_none {P : ℕ → Prop} {offset : ℕ} {r : Except Fault ℕ} (h : ∀ p, offset ≤ p → ¬ P p) :
    FindsFirst P offset r ↔ r = .ok npos := by
  constructor
  · rintro ⟨n,hr,hnone,-⟩
    rw [hr,hnone.mpr h]
  · rintro rfl
    exact findsFirst_of_none h

/-! ## The loops -/

theorem infix_iff_drop {str t : List UInt8} : str <:+: t ↔ ∃ p, str <+: t.drop p := by
  rw [List.infix_iff_prefix_suffix]
  constructor
  · rintro ⟨u,hu,hsuffix⟩
    exact ⟨_,List.suffix_iff_eq_drop.mp hsuffix ▸ hu⟩
  · rintro ⟨p,hp⟩
    exact ⟨_,hp,List.drop_suffix p t⟩

theorem strstr_some {str t : List UInt8} {p : ℕ} (h : strstr str t = some p) :
    p ≤ t.length ∧ str <+: t.drop p ∧ ∀ q, q < p → ¬ str <+: t.drop q := by
  induction t generalizing p with
  | nil =>
    rw [strstr] at h
    split_ifs at h with hnil
    cases h
    exact ⟨Nat.le_refl _,hnil ▸ List.nil_prefix,fun q hq => absurd hq (Nat.not_lt_zero q)⟩
  | cons c t ih =>
    rw [strstr] at h
    split_ifs at h with hhere
    · cases h
      exact ⟨Nat.zero_le _,hhere,fun q hq => absurd hq (Nat.not_lt_zero q)⟩
    · obtain ⟨p,hp,rfl⟩ := Option.map_eq_some_iff.mp h
      obtain ⟨hle,hthere,hfirst⟩ := ih hp
      refine ⟨Nat.succ_le_succ hle,hthere,fun q hq => ?_⟩
      cases q with
      | zero => exact hhere
      | succ q => exact hfirst q (Nat.lt_of_succ_lt_succ hq)

theorem strstr_none {str t : List UInt8} (h : strstr str t = none) : ¬ str <:+: t := by
  induction t with
  | nil =>
    rw [strstr] at h
    split_ifs at h with hnil
    exact fun hin => hnil (List.infix_nil.mp hin)
  | cons c t ih =>
    rw [strstr] at h
    split_ifs at h with hhere
    rw [List.infix_cons_iff]
    exact not_or.mpr ⟨hhere,ih (Option.map_eq_none_iff.mp h)⟩

/-- A text that occurs in the first part is found there. -/
theorem strstr_append {str t u : List UInt8} {p : ℕ} (h : strstr str (t ++ u) = some p) (hin : str <:+: t) :
    str <+: t.drop p ∧ ∀ q, str <+: t.drop q → p ≤ q := by
  have hdrop : ∀ q, t.drop q <+: (t ++ u).drop q := by
    intro q
    rw [List.drop_append]
    exact List.prefix_append _ _
  obtain ⟨-,hthere,hfirst⟩ := strstr_some h
  have hle : ∀ q, str <+: t.drop q → p ≤ q :=
    fun q hq => Nat.le_of_not_lt (fun hlt => hfirst q hlt (hq.trans (hdrop q)))
  obtain ⟨q,hq⟩ := infix_iff_drop.mp hin
  refine ⟨List.prefix_of_prefix_length_le hthere (hdrop p) ?_,hle⟩
  have hlen := hq.length_le
  have hpq := hle q hq
  rw [List.length_drop] at hlen ⊢
  omega

section findLoop
variable {ch : UInt8} {offset length : ℕ}

/-- The loop goes on over bytes that are neither the character nor the terminator. -/
theorem findLoop_append {t : List UInt8} (ht : STERM ∉ t) (hch : ch ∉ t) (u : List UInt8) {i : ℕ}
    (hi : i + t.length ≤ length) : findLoop ch offset length (t ++ u) i = findLoop ch offset length u (i + t.length) := by
  induction t generalizing i with
  | nil => rfl
  | cons c t ih =>
    rw [List.mem_cons,not_or] at ht hch
    rw [List.length_cons] at hi
    rw [List.cons_append,findLoop,if_pos ⟨Ne.symm ht.1,by omega⟩,if_neg (Ne.symm hch.1),ih ht.2 hch.2 (by omega),
      List.length_cons,Nat.add_assoc,Nat.add_comm 1]

/-- It ends without a result at a terminator, or after as many bytes as the String has. -/
theorem findLoop_npos {u : List UInt8} {i : ℕ} (hi : i ≤ length) (hu : i + offset + u.length ≤ npos) :
    findLoop ch offset length u i = .ok npos ↔ ∃ t c rest, u = t ++ c :: rest ∧ STERM ∉ t ∧ ch ∉ t ∧
      i + t.length ≤ length ∧ (c = STERM ∨ i + t.length = length) := by
  constructor
  · intro h
    induction u generalizing i with
    | nil => cases h
    | cons c u ih =>
      rw [findLoop] at h
      rw [List.length_cons] at hu
      split_ifs at h with hgo hfound
      · rw [npos] at h hu
        have hsize := Except.ok.inj h
        rw [sizeType] at hsize
        omega
      · obtain ⟨t,c',rest,rfl,ht,hch,hle,hend⟩ := ih hgo.2 (by omega) h
        refine ⟨c :: t,c',rest,rfl,?_,?_,?_,hend.imp_right (fun heq => ?_)⟩
        · rw [List.mem_cons]
          exact not_or.mpr ⟨Ne.symm hgo.1,ht⟩
        · rw [List.mem_cons]
          exact not_or.mpr ⟨Ne.symm hfound,hch⟩
        · rw [List.length_cons]
          omega
        · rw [List.length_cons]
          omega
      · refine ⟨[],c,u,rfl,List.not_mem_nil,List.not_mem_nil,hi,?_⟩
        rw [List.length_nil]
        by_cases hc : c = STERM
        · exact Or.inl hc
        · have hlt : ¬ i < length := fun hlt => hgo ⟨hc,hlt⟩
          exact Or.inr (by omega)
  · rintro ⟨t,c,rest,rfl,ht,hch,hle,hend⟩
    rw [findLoop_append ht hch _ hle,findLoop,if_neg]
    · rfl
    · rintro ⟨hne,hlt⟩
      rcases hend with hc | heq
      · exact hne hc
      · omega

end findLoop

/-! ## Queries -/

variable {m : Memory} {d : StringData} {x : List UInt8} {r : Memory × StringData}

theorem Contains.readFrom_eq (hx : Contains m x d) {i len : ℕ} (h : i + len ≤ x.length) :
    readFrom m d.chars i len = .ok ((x.drop i).take len) := by
  rw [readFrom]
  by_cases h0 : len = 0
  · rw [if_pos h0,h0,List.take_zero]
  · cases d with
    | nullData =>
      obtain rfl : x = [] := hx
      rw [List.length_nil] at h
      omega
    | own n cap chars =>
      obtain ⟨-,-,-,-,harea⟩ := hx
      obtain ⟨data,hdata,-,rest,rfl⟩ := harea.holds
      rw [if_neg h0,StringData.chars,hdata]
      dsimp only
      rw [if_pos (by rw [List.length_append]; omega),List.drop_append_of_le_length (by omega),
        List.take_append_of_le_length (by rw [List.length_drop]; omega)]

theorem of_assignFrom {index len : ℕ} (h : assignFrom m d index len = .ok r) : len < npos / 2 ∧ r.2.length = len := by
  rw [assignFrom] at h
  split_ifs at h with hmax
  have hcap : len < 4294967296 := by
    rw [npos] at hmax
    omega
  obtain ⟨⟨m₁,e⟩,hinit,h⟩ := of_bind_ok h
  obtain ⟨bytes,-,h⟩ := of_bind_ok h
  obtain ⟨m₂,-,h⟩ := of_bind_ok h
  obtain ⟨m₃,-,h⟩ := of_bind_ok h
  cases h
  obtain ⟨m₀,hm₀,-⟩ := init_spec m (Nat.le_refl len) (of_init hcap hinit).2
  rw [hm₀] at hinit
  cases hinit
  exact ⟨hmax,rfl⟩

theorem assignFrom_gives (hm : Literal m) (hx : Contains m x d) {index len : ℕ} (hin : index + len ≤ x.length)
    (hmax : len < npos / 2) : ∃ r, assignFrom m d index len = .ok r ∧ Gives m .nullData ((x.drop index).take len) r := by
  have hcap : len + 1 < 4294967296 := by
    rw [npos] at hmax
    omega
  have hlen : ((x.drop index).take len).length = len := by
    rw [List.length_take,List.length_drop]
    omega
  obtain ⟨m₁,hm₁,harea₁,hk₁⟩ := init_spec m (Nat.le_refl len) hcap
  have hread := (hx.keeps hk₁ (fun _ _ => id)).readFrom_eq hin
  obtain ⟨m₂,hm₂,harea₂,-,hk₂⟩ := (harea₁.of_begins List.nil_prefix).write ((x.drop index).take len)
    (by rw [List.length_nil,hlen]; omega)
  obtain ⟨m₃,hm₃,harea₃,-,hk₃⟩ := harea₂.write [STERM] (by rw [List.nil_append,hlen,List.length_singleton])
  rw [List.length_nil] at hm₂
  rw [List.nil_append] at hm₃ harea₃
  rw [hlen] at hm₃
  have hnew : ∀ a, a = m.fresh → StringData.Has .nullData a ∨ m.fresh ≤ a := fun a ha => Or.inr (Nat.le_of_eq ha.symm)
  refine ⟨(m₃,.own len len m.fresh),?_,⟨hlen.symm,Nat.le_of_eq hlen,hcap,hm.fresh,harea₃⟩,
    (((hk₁.mono (fun _ => False.elim)).trans hk₂ hnew).trans hk₃ hnew),fun a ha => Or.inr (Nat.le_of_eq ha.symm)⟩
  rw [assignFrom,if_pos hmax,hm₁,ok_bind]
  dsimp only
  rw [hread,ok_bind,show (StringData.own len len m.fresh).chars = m.fresh from rfl,hm₂,ok_bind,hm₃]
  rfl

inductive Query
  | substr (index num : BitVec 32)
  | find (str : CString) (offset : BitVec 32)
  | findChar (ch : UInt8) (offset : BitVec 32)

namespace Query

def Asked (d : StringData) : Query → Prop
  | substr index _ => index.toNat ≤ d.length
  | find _ offset => offset.toNat < d.length
  | findChar _ offset => offset.toNat < d.length

instance (d : StringData) : (q : Query) → Decidable (q.Asked d)
  | substr index _ => inferInstanceAs (Decidable (index.toNat ≤ d.length))
  | find _ offset => inferInstanceAs (Decidable (offset.toNat < d.length))
  | findChar _ offset => inferInstanceAs (Decidable (offset.toNat < d.length))

def Lawful (m : Memory) (d : StringData) (x : List UInt8) : Query → Prop
  | substr index num => ∃ r, Text.substr m d index.toNat num.toNat = .ok r ∧
      r.1.read r.2.chars r.2.length = .ok ((x.drop index.toNat).take (min num.toNat (d.length - index.toNat)))
  | find str offset => FindsFirst (fun p => str.bytes <+: x.drop p) offset.toNat (Text.find m d str offset.toNat)
  | findChar ch offset => FindsFirst (fun p => x[p]? = some ch) offset.toNat (Text.findChar m d ch offset.toNat)

/-- No more bytes are asked for than there are, and the search does not find anything behind them. -/
def Meets (m : Memory) (d : StringData) (x : List UInt8) : Query → Prop
  | substr index num => (num.toNat = npos ∨ num.toNat ≤ d.length - index.toNat) ∧
      min num.toNat (d.length - index.toNat) < npos / 2
  | find str offset =>
    let behind := (d.buffer m).drop d.length
    STERM ∈ behind ∧ (str.bytes <:+: x.drop offset.toNat ∨
      ¬ str.bytes <:+: x.drop offset.toNat ++ (CString.ofBuf behind).bytes)
  | findChar ch offset => ch ∈ x.drop offset.toNat ∨
      ∃ t c rest, (d.buffer m).drop d.length = t ++ c :: rest ∧ STERM ∉ t ∧ ch ∉ t ∧ t.length ≤ offset.toNat ∧
        (c = STERM ∨ t.length = offset.toNat)

section lawful
variable (hm : Literal m) (hx : Contains m x d)
include hm hx

theorem substr_iff {index num : BitVec 32} (hindex : index.toNat ≤ d.length) :
    Lawful m d x (substr index num) ↔ Meets m d x (substr index num) := by
  have hlen := hx.length_eq
  have hle := hx.length_le
  have hcap := hx.capacity_lt
  have hrest : sizeType (d.length + 4294967296 - index.toNat) = d.length - index.toNat := by
    rw [sizeType]
    omega
  rw [Lawful,Meets,Text.substr]
  constructor
  · rintro ⟨r,hr,hread⟩
    have hcount := Blocks.length_of_read hread
    rw [List.length_take,List.length_drop] at hcount
    split_ifs at hr with hnpos
    · rw [hrest] at hr
      obtain ⟨hmax,-⟩ := of_assignFrom hr
      exact ⟨Or.inl hnpos,by omega⟩
    · obtain ⟨hmax,hlength⟩ := of_assignFrom hr
      exact ⟨Or.inr (by omega),by omega⟩
  · rintro ⟨hnum,hmax⟩
    have hgives : ∃ r, (if num.toNat = npos then assignFrom m d index.toNat (sizeType (d.length + 4294967296 - index.toNat))
        else assignFrom m d index.toNat num.toNat) = .ok r ∧
          Gives m .nullData ((x.drop index.toNat).take (min num.toNat (d.length - index.toNat))) r := by
      by_cases hnpos : num.toNat = npos
      · have hmin : min num.toNat (d.length - index.toNat) = d.length - index.toNat := by
          rw [hnpos,npos]
          omega
        rw [if_pos hnpos,hrest,hmin]
        exact assignFrom_gives hm hx (by omega) (hmin ▸ hmax)
      · have hmin : min num.toNat (d.length - index.toNat) = num.toNat := Nat.min_eq_left (hnum.resolve_left hnpos)
        rw [if_neg hnpos,hmin]
        exact assignFrom_gives hm hx (by omega) (hmin ▸ hmax)
    obtain ⟨r,hr,hgives⟩ := hgives
    have hread := hgives.owns.read (Nat.le_refl _)
    rw [List.take_length,← hgives.owns.length_eq] at hread
    exact ⟨r,hr,hread⟩

theorem find_iff {str : CString} {offset : BitVec 32} (hnul : STERM ∉ x) (hoffset : offset.toNat < d.length) :
    Lawful m d x (find str offset) ↔ Meets m d x (find str offset) := by
  obtain ⟨behind,hbuffer,hsize⟩ := hx.buffer_eq hm
  obtain ⟨const,hblock,-⟩ := hx.buffered.block hm
  have hlen := hx.length_eq
  have hcap := hx.capacity_lt
  have hdrop : (d.buffer m).drop d.length = behind := by rw [hbuffer,hlen,List.drop_left]
  have hfrom : (d.buffer m).drop offset.toNat = x.drop offset.toNat ++ behind := by
    rw [hbuffer,List.drop_append_of_le_length (by omega)]
  have hnul' : STERM ∉ x.drop offset.toNat := fun h => hnul (List.mem_of_mem_drop h)
  have hmem : STERM ∈ (d.buffer m).drop offset.toNat ↔ STERM ∈ behind := by
    rw [hfrom,List.mem_append,or_iff_right hnul']
  have htext : (CString.ofBuf ((d.buffer m).drop offset.toNat)).bytes =
      x.drop offset.toNat ++ (CString.ofBuf behind).bytes := by
    rw [hfrom]
    refine List.takeWhile_append_of_pos (fun c hc => ?_)
    rw [decide_eq_true_eq]
    rintro rfl
    exact hnul' hc
  rw [Lawful,Meets,hdrop]
  by_cases hterm : STERM ∈ behind
  · have hfind : Text.find m d str offset.toNat =
        (strstr str.bytes (x.drop offset.toNat ++ (CString.ofBuf behind).bytes)).elim (.ok npos)
          (fun p => .ok (sizeType (offset.toNat + p))) := by
      rw [Text.find,if_neg (Nat.not_le.mpr hoffset),textFrom,hblock]
      dsimp only
      rw [if_pos (hmem.mpr hterm),ok_bind,htext]
      cases strstr str.bytes (x.drop offset.toNat ++ (CString.ofBuf behind).bytes) <;> rfl
    have hbehind : (CString.ofBuf behind).bytes.length < behind.length := by
      obtain ⟨rest,hrest⟩ := CString.ofBuf_begins behind
      rcases rest with _ | ⟨c,rest⟩
      · rw [List.append_nil] at hrest
        exact absurd (hrest ▸ hterm) (CString.ofBuf _).nulFree
      · rw [← congrArg List.length hrest,List.length_append,List.length_cons]
        omega
    rw [hfind,and_iff_right hterm]
    by_cases hin : str.bytes <:+: x.drop offset.toNat
    · -- the first place is in the content, where there is one
      refine iff_of_true ?_ (Or.inl hin)
      cases hstr : strstr str.bytes (x.drop offset.toNat ++ (CString.ofBuf behind).bytes) with
      | none => exact absurd (hin.trans (List.prefix_append _ _).isInfix) (strstr_none hstr)
      | some p =>
        obtain ⟨hp,-,-⟩ := strstr_some hstr
        obtain ⟨hthere,hfirst⟩ := strstr_append hstr hin
        rw [List.length_append,List.length_drop] at hp
        have hpos : sizeType (offset.toNat + p) = offset.toNat + p := Nat.mod_eq_of_lt (by omega)
        rw [Option.elim_some,hpos]
        refine findsFirst_of_least ⟨⟨Nat.le_add_right _ _,?_⟩,fun q hq => ?_⟩ (by rw [npos]; omega)
        · rwa [← List.drop_drop]
        · obtain ⟨hle,hq⟩ := hq
          rw [← Nat.add_sub_of_le hle,← List.drop_drop] at hq
          have := hfirst _ hq
          omega
    · rw [or_iff_right hin,findsFirst_iff_of_none]
      · cases hstr : strstr str.bytes (x.drop offset.toNat ++ (CString.ofBuf behind).bytes) with
        | none => exact iff_of_true rfl (strstr_none hstr)
        | some p =>
          obtain ⟨hp,hthere,-⟩ := strstr_some hstr
          refine iff_of_false (fun h => ?_) (fun h => h (infix_iff_drop.mpr ⟨p,hthere⟩))
          have hpos := Except.ok.inj h
          rw [List.length_append,List.length_drop] at hp
          rw [npos,sizeType] at hpos
          omega
      · intro p hp hfront
        refine hin (infix_iff_drop.mpr ⟨p - offset.toNat,?_⟩)
        rwa [List.drop_drop,Nat.add_sub_of_le hp]
  · refine iff_of_false ?_ (fun h => hterm h.1)
    rintro ⟨n,hn,-⟩
    rw [Text.find,if_neg (Nat.not_le.mpr hoffset),textFrom,hblock] at hn
    dsimp only at hn
    rw [if_neg (fun h => hterm (hmem.mp h))] at hn
    cases hn

theorem findChar_iff {ch : UInt8} {offset : BitVec 32} (hnul : STERM ∉ x) (hoffset : offset.toNat < d.length) :
    Lawful m d x (findChar ch offset) ↔ Meets m d x (findChar ch offset) := by
  obtain ⟨behind,hbuffer,hsize⟩ := hx.buffer_eq hm
  have hlen := hx.length_eq
  have hcap := hx.capacity_lt
  have hdrop : (d.buffer m).drop d.length = behind := by rw [hbuffer,hlen,List.drop_left]
  have hnul' : STERM ∉ x.drop offset.toNat := fun h => hnul (List.mem_of_mem_drop h)
  have hrest : (x.drop offset.toNat).length = d.length - offset.toNat := by rw [List.length_drop,hlen]
  have hfind : Text.findChar m d ch offset.toNat =
      findLoop ch offset.toNat d.length (x.drop offset.toNat ++ behind) 0 := by
    rw [Text.findChar,if_neg (Nat.not_le.mpr hoffset),hx.buffered.bytesFrom_eq hm,ok_bind,hbuffer,
      List.drop_append_of_le_length (by omega)]
  rw [Lawful,Meets,hdrop,hfind]
  by_cases hin : ch ∈ x.drop offset.toNat
  · refine iff_of_true ?_ (Or.inl hin)
    obtain ⟨t,rest,heq,hfirst⟩ := List.eq_append_cons_of_mem hin
    have ht : STERM ∉ t := fun h => hnul' (heq ▸ List.mem_append_left _ h)
    have hch : ch ≠ STERM := fun h => hnul' (h ▸ hin)
    have hlength := congrArg List.length heq
    rw [hrest,List.length_append,List.length_cons] at hlength
    have hpos : sizeType (0 + t.length + offset.toNat) = offset.toNat + t.length := by
      rw [sizeType]
      omega
    have hx' : ∀ p, x[offset.toNat + p]? = (t ++ ch :: rest)[p]? := fun p => by rw [← heq,List.getElem?_drop]
    rw [heq,List.append_assoc,findLoop_append ht hfirst _ (by omega),List.cons_append,findLoop,
      if_pos ⟨hch,by omega⟩,if_pos rfl,hpos]
    refine findsFirst_of_least ⟨⟨Nat.le_add_right _ _,?_⟩,fun p hp => ?_⟩ (by rw [npos]; omega)
    · rw [hx',List.getElem?_append_right (Nat.le_refl _),Nat.sub_self]
      rfl
    · obtain ⟨hle,hp⟩ := hp
      rw [← Nat.add_sub_of_le hle,hx'] at hp
      by_contra hlt
      rw [List.getElem?_append_left (by omega)] at hp
      exact hfirst (List.mem_of_getElem? hp)
  · rw [or_iff_right hin,findsFirst_iff_of_none,findLoop_append hnul' hin behind (by omega),
      findLoop_npos (by omega) (by rw [npos]; omega)]
    · refine exists_congr (fun t => exists_congr (fun c => exists_congr (fun rest => ?_)))
      refine and_congr_right (fun _ => and_congr_right (fun _ => and_congr_right (fun _ => ?_)))
      refine and_congr (by omega) (or_congr Iff.rfl (by omega))
    · intro p hp hget
      rw [← Nat.add_sub_of_le hp,← List.getElem?_drop] at hget
      exact hin (List.mem_of_getElem? hget)

end lawful

/-- Where the terminator is behind the content, every search is right. -/
theorem lawful_of_owns (hm : Literal m) (h : Owns m x d) (hnul : STERM ∉ x) (str : CString) (ch : UInt8)
    {offset : BitVec 32} (hoffset : offset.toNat < d.length) :
    Lawful m d x (find str offset) ∧ Lawful m d x (findChar ch offset) := by
  obtain ⟨rest,hbehind⟩ : ∃ rest, (d.buffer m).drop d.length = STERM :: rest := by
    cases d with
    | nullData => exact absurd hoffset (Nat.not_lt_zero _)
    | own len cap chars =>
      obtain ⟨rfl,-,-,-,harea⟩ := h
      obtain ⟨data,hdata,-,rest,rfl⟩ := harea.holds
      refine ⟨rest,?_⟩
      rw [StringData.buffer,StringData.chars,hdata,StringData.length,Option.map_some,Option.getD_some,List.append_assoc,
        List.drop_left]
      rfl
  have hnil : (CString.ofBuf (STERM :: rest)).bytes = [] := rfl
  refine ⟨(find_iff hm h.contains hnul hoffset).mpr ?_,(findChar_iff hm h.contains hnul hoffset).mpr (Or.inr ?_)⟩
  · rw [Meets,hbehind,hnil,List.append_nil]
    exact ⟨List.mem_cons_self,Classical.em _⟩
  · exact ⟨[],STERM,rest,hbehind,List.not_mem_nil,List.not_mem_nil,Nat.zero_le _,Or.inl rfl⟩

end Query

namespace PublicAction

/-- After every run a query of a String without NUL bytes gives what it gives for the sequence, if
and only if it meets the condition. -/
theorem run_query_iff (junk : ℕ → ℕ → UInt8) (acts : List PublicAction) (s : StringState)
    (hrun : Transition.exec step (.initial junk) acts = some s) (i : ℕ) (d : StringData) (hd : s.data i = .ok d)
    (x : List UInt8) (hread : s.mem.read d.chars d.length = .ok x) (hnul : STERM ∉ x) (q : Query) (hq : q.Asked d) :
    q.Lawful s.mem d x ↔ q.Meets s.mem d x := by
  have hs := run_spec hrun
  obtain ⟨y,hy⟩ := (hs.of_data hd).2.contains
  have hread' := hy.read (Nat.le_refl _)
  rw [List.take_length,← hy.length_eq,hread] at hread'
  obtain rfl := Except.ok.inj hread'
  cases q with
  | substr index num => exact Query.substr_iff hs.literal hy hq
  | find str offset => exact Query.find_iff hs.literal hy hnul hq
  | findChar ch offset => exact Query.findChar_iff hs.literal hy hnul hq

/-- The last of three letters is looked for. -/
theorem run_query_iff_letters :
    let q := Query.findChar 99 1
    ∃ s, Transition.exec step (.initial fun _ _ => 120) [basic (.createFrom 0 (.text [97,98,99]))] = some s ∧
      s.data 0 = .ok (.own 3 3 1) ∧ s.mem.read 1 3 = .ok [97,98,99] ∧
      (q.Lawful s.mem (.own 3 3 1) [97,98,99] ↔ q.Meets s.mem (.own 3 3 1) [97,98,99]) :=
  ⟨_,rfl,rfl,rfl,run_query_iff (fun _ _ => 120) [basic (.createFrom 0 (.text [97,98,99]))] _ rfl 0 (.own 3 3 1) rfl
    [97,98,99] rfl (by decide) _ (by decide)⟩

/-- Two bytes are asked for of one, and the second is the terminator. -/
theorem not_run_query : ¬ ∀ (junk : ℕ → ℕ → UInt8) (acts : List PublicAction) (s : StringState),
    Transition.exec step (.initial junk) acts = some s → ∀ (i : ℕ) (d : StringData), s.data i = .ok d →
      ∀ x : List UInt8, s.mem.read d.chars d.length = .ok x → STERM ∉ x → ∀ q : Query, q.Asked d →
        q.Lawful s.mem d x := by
  intro h
  obtain ⟨r,hr,hread⟩ := h (fun _ _ => 120) [basic (.createFrom 0 (.text [97,98,99]))] _ rfl 0 (.own 3 3 1) rfl
    [97,98,99] rfl (by decide) (.substr 2 2) (by decide)
  have hlen := Blocks.length_of_read hread
  rw [← Except.ok.inj hr] at hlen
  exact absurd hlen (by decide)

end PublicAction
end Edelib.Text
