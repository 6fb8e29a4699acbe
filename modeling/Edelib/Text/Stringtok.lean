import Edelib.Text.Concatenation
import Edelib.Text.Searching
import Mathlib.Data.List.Forall2

/-! # Strings are split into tokens

Two loops move over delimiters and over what is not one, by index; a token is copied into the
container from a temporary String, which cannot have `npos / 2` bytes.
-/
namespace Edelib.Text
open Foundation Blocks

def charAt (m : Memory) (d : StringData) (index : ℕ) : Except Fault UInt8 :=
  if index < d.length then do
    let bytes ← bytesFrom m d.chars index
    bytes.head?.elim (.error .outside) .ok
  else .error .assertion

/-- The terminator is found too. -/
def strchr (ws : CString) (c : UInt8) : Bool := decide (c ∈ ws.bytes ++ [STERM])

/-- The two inner loops: from index `i` over delimiters, or over what is not one. -/
def scan (m : Memory) (str : StringData) (ws : CString) (delimiters : Bool) : ℕ → ℕ → Except Fault (Option ℕ)
  | 0,_ => pure none
  | fuel + 1,i =>
    if i < str.length then do
      let c ← charAt m str i
      if strchr ws c = delimiters then scan m str ws delimiters fuel (sizeType (i + 1)) else pure (some i)
    else pure (some i)

/-- `push_back` with a String that is destroyed after it. -/
def pushBack (m : Memory) (c : List StringData) (tmp : StringData) : Except Fault (Memory × List StringData) := do
  let (m,copy) ← (if tmp.length ≠ 0 then assign m .nullData (.chars tmp.chars) else pure (m,.nullData))
  let m ← dispose m tmp
  pure (m,c ++ [copy])

def stringtokLoop (str : StringData) (ws : CString) (n : ℕ) :
    ℕ → Memory → List StringData → ℕ → Except Fault (Option (Memory × List StringData))
  | 0,_,_,_ => pure none
  | fuel + 1,m,c,i =>
    if i < str.length then do
      let some i ← scan m str ws true n i | pure none
      if i = str.length then pure (some (m,c))
      else do
        let some j ← scan m str ws false n (sizeType (i + 1)) | pure none
        let (m,tmp) ← substr m str i (sizeType (j + 4294967296 - i))
        let (m,c) ← pushBack m c tmp
        stringtokLoop str ws n fuel m c (sizeType (j + 1))
    else pure (some (m,c))

def stringtok (fuel : ℕ) (m : Memory) (c : List StringData) (str : StringData) (ws : CString) :
    Except Fault (Option (Memory × List StringData)) :=
  stringtokLoop str ws fuel fuel m c 0

/-! ## The tokens -/

variable {m m' : Memory} {d : StringData} {x : List UInt8} {ws : CString} {c : List StringData}

theorem stringtok_runs (str ws : List UInt8) : Separated.Runs (· ∈ ws) str (StrUtil.stringtok str ws) := by
  induction hn : str.length using Nat.strong_induction_on generalizing str with
  | _ n ih =>
    subst hn
    have hgap : ∀ c ∈ str.takeWhile (fun c => decide (c ∈ ws)), c ∈ ws :=
      fun c hc => by simpa using List.mem_takeWhile_imp hc
    have hstr := (List.takeWhile_append_dropWhile (p := fun c => decide (c ∈ ws)) (l := str)).symm
    rw [StrUtil.stringtok]
    split
    · next hnil =>
      rw [hnil,List.append_nil] at hstr
      rw [hstr]
      exact .nil hgap
    · next c rest hcons =>
      have hc : c ∉ ws := by
        have hhead := List.head?_dropWhile_not (fun c => decide (c ∈ ws)) str
        rw [hcons] at hhead
        simpa using hhead
      have hrest := (List.takeWhile_append_dropWhile (p := fun c => decide (c ∉ ws)) (l := rest)).symm
      have hlen := congrArg List.length hstr
      rw [hcons,List.length_append,List.length_cons] at hlen
      have hrun : ∀ b ∈ c :: rest.takeWhile (fun c => decide (c ∉ ws)), b ∉ ws :=
        List.forall_mem_cons.mpr ⟨hc,fun b hb => by simpa using List.mem_takeWhile_imp hb⟩
      rw [hcons,hrest,← List.cons_append,← List.append_assoc] at hstr
      rw [hstr]
      have hnext := List.head?_dropWhile_not (fun c => decide (c ∉ ws)) rest
      have hshort := congrArg List.length hrest
      rw [List.length_append] at hshort
      cases htail : rest.dropWhile (fun c => decide (c ∉ ws)) with
      | nil => exact .cons hgap (List.cons_ne_nil _ _) hrun (fun c hd => absurd hd (Option.not_mem_none c)) (ih 0 (by omega) [] rfl)
      | cons d tail =>
        rw [htail] at hnext hshort
        have hd : d ∈ ws := by simpa using hnext
        rw [List.length_cons] at hshort
        exact .cons hgap (List.cons_ne_nil _ _) hrun (fun b hb => Option.some.inj hb ▸ hd)
          ((ih tail.length (by omega) tail rfl).skip hd)

/-- Delimiters in front make no difference. -/
theorem stringtok_dropWhile (str ws : List UInt8) :
    StrUtil.stringtok (str.dropWhile (fun c => decide (c ∈ ws))) ws = StrUtil.stringtok str ws := by
  rw [StrUtil.stringtok,List.dropWhile_idempotent,StrUtil.stringtok]

theorem drop_takeWhile (p : UInt8 → Bool) (str : List UInt8) (i : ℕ) :
    str.drop (i + ((str.drop i).takeWhile p).length) = (str.drop i).dropWhile p := by
  rw [← List.drop_drop]
  nth_rewrite 2 [← List.takeWhile_append_dropWhile (p := p) (l := str.drop i)]
  rw [List.drop_left]

/-! ## One pass of the loops -/

section pass
variable (hm : Literal m) (hx : Contains m x d)
include hm hx

theorem charAt_eq {i : ℕ} {b : UInt8} {rest : List UInt8} (h : x.drop i = b :: rest) : charAt m d i = .ok b := by
  have hi : i < x.length := by
    by_contra hle
    rw [List.drop_eq_nil_of_le (Nat.not_lt.mp hle)] at h
    cases h
  obtain ⟨behind,hbuffer,-⟩ := hx.buffer_eq hm
  rw [charAt,hx.length_eq,if_pos hi,hx.buffered.bytesFrom_eq hm,hbuffer,List.drop_append_of_le_length (Nat.le_of_lt hi),h]
  rfl

theorem scan_eq {delimiters : Bool} {p : UInt8 → Bool} (hp : ∀ c ∈ x, strchr ws c = delimiters ↔ p c = true) {fuel i : ℕ}
    (hi : i ≤ x.length) (hfuel : x.length - i < fuel) :
    scan m d ws delimiters fuel i = .ok (some (i + ((x.drop i).takeWhile p).length)) := by
  have hlen := hx.length_eq
  have hle := hx.length_le
  have hcap := hx.capacity_lt
  induction fuel generalizing i with
  | zero => exact absurd hfuel (Nat.not_lt_zero _)
  | succ fuel ih =>
    rw [scan]
    cases hdrop : x.drop i with
    | nil =>
      have hge := List.drop_eq_nil_iff.mp hdrop
      rw [if_neg (by omega)]
      rfl
    | cons b rest =>
      have hlt : i < x.length := by
        have hlength := congrArg List.length hdrop
        rw [List.length_drop,List.length_cons] at hlength
        omega
      have hnext : x.drop (i + 1) = rest := by
        rw [← List.drop_drop,hdrop,List.drop_one,List.tail_cons]
      have hmem : b ∈ x := List.mem_of_mem_drop (hdrop ▸ List.mem_cons_self)
      have hsize : sizeType (i + 1) = i + 1 := Nat.mod_eq_of_lt (by omega)
      rw [if_pos (hlen ▸ hlt),charAt_eq hm hx hdrop,ok_bind]
      by_cases hb : p b = true
      · rw [if_pos ((hp b hmem).mpr hb),hsize,ih hlt (by omega),hnext,List.takeWhile_cons_of_pos hb,List.length_cons]
        exact congrArg (fun n => Except.ok (some n)) (by omega)
      · rw [if_neg (fun h => hb ((hp b hmem).mp h)),List.takeWhile_cons_of_neg hb]
        rfl

end pass

theorem strchr_iff {c : UInt8} (hc : c ≠ STERM) : strchr ws c = true ↔ c ∈ ws.bytes := by
  rw [strchr,decide_eq_true_eq,List.mem_append,List.mem_singleton,or_iff_left hc]

/-- The copy is another String than the temporary one. -/
theorem pushBack_spec {r : Memory × StringData} {tok : List UInt8} (hm : Literal m) (h : Gives m .nullData tok r)
    (hnul : STERM ∉ tok) (hmax : tok.length < npos / 2) (c : List StringData) :
    ∃ m' e, pushBack r.1 c r.2 = .ok (m',c ++ [e]) ∧ Contains m' tok e ∧ m.Keeps m' (fun _ => False) := by
  obtain ⟨m₁,tmp⟩ := r
  have hnull : Buffered m .nullData := trivial
  have hm₁ : Literal m₁ := h.leaves.literal hm hnull
  have hlen : tmp.length = tok.length := h.owns.length_eq
  have hcopy : ∃ r, (if tmp.length ≠ 0 then assign m₁ .nullData (.chars tmp.chars) else pure (m₁,.nullData)) = .ok r ∧
      Gives m₁ .nullData tok r := by
    by_cases h0 : tmp.length ≠ 0
    · have hstrlen := strlen_chars hm₁.chars h.owns
      rw [CString.ofBuf_eq hnul] at hstrlen
      have hsize : sizeType tok.length = tok.length := Nat.mod_eq_of_lt (by rw [npos] at hmax; omega)
      have hlasting : Lasting m₁ .nullData (.chars tmp.chars) tok := by
        intro m' hk
        have hread := (h.owns.keeps hk (fun _ _ => id)).read (Nat.le_refl _)
        rwa [List.take_length] at hread
      have hown : Owns m₁ [] .nullData := rfl
      obtain ⟨r,hr,hgives⟩ := assignLen_gives hm₁.fresh hown hlasting hmax
      refine ⟨r,?_,hgives⟩
      rw [if_pos h0,assign,hstrlen,ok_bind]
      rw [← hsize] at hr
      exact hr
    · have htok : tok = [] := List.length_eq_zero_iff.mp (by omega)
      have hown : Owns m₁ tok .nullData := htok
      exact ⟨_,if_neg h0,hown.gives⟩
  obtain ⟨⟨m₂,e⟩,hr,hgives⟩ := hcopy
  have htmp := h.owns.keeps hgives.keeps (fun _ _ => id)
  obtain ⟨m₃,hm₃,-,hk₃⟩ := dispose_spec htmp.contains
  have hnew : ∀ a, tmp.Has a → m.fresh ≤ a := fun a ha => (h.own a ha).resolve_left id
  refine ⟨m₃,e,?_,hgives.owns.contains.keeps hk₃ (fun a hea hta => ?_),?_⟩
  · rw [pushBack]
    dsimp only
    rw [hr,ok_bind]
    dsimp only at hm₃ ⊢
    rw [hm₃]
    rfl
  · exact absurd (h.owns.lt_fresh hta).2 (Nat.not_lt.mpr ((hgives.own a hea).resolve_left id))
  · exact (h.keeps.trans hgives.keeps (fun _ => False.elim)).trans hk₃ (fun a ha => Or.inr (hnew a ha))

/-- What `substr` is asked for is between two indices. -/
theorem substr_eq {i j : ℕ} (hcap : j < npos) (hij : i ≤ j) :
    substr m d i (sizeType (j + 4294967296 - i)) = assignFrom m d i (j - i) := by
  rw [npos] at hcap
  have hnum : sizeType (j + 4294967296 - i) = j - i := by
    rw [sizeType]
    omega
  rw [hnum,substr,if_neg (by rw [npos]; omega)]

/-! ## All passes -/

/-- The tokens of what is left are put behind those that are in the container. -/
def PutsTokens (m : Memory) (c : List StringData) (tokens : List (List UInt8))
    (r : Except Fault (Option (Memory × List StringData))) : Prop :=
  ∃ m' ds, r = .ok (some (m',c ++ ds)) ∧ List.Forall₂ (Contains m') tokens ds ∧ m.Keeps m' (fun _ => False)

def Assignable (tok : List UInt8) : Prop := tok.length < npos / 2

instance (tok : List UInt8) : Decidable (Assignable tok) := inferInstanceAs (Decidable (_ < _))

theorem PutsTokens.cons {tok : List UInt8} {tokens : List (List UInt8)} {e : StringData}
    {r : Except Fault (Option (Memory × List StringData))} (he : Contains m' tok e) (hk : m.Keeps m' (fun _ => False))
    (h : PutsTokens m' (c ++ [e]) tokens r) : PutsTokens m c (tok :: tokens) r := by
  obtain ⟨m₂,ds,hr,hds,hk₂⟩ := h
  refine ⟨m₂,e :: ds,?_,.cons (he.keeps hk₂ (fun _ _ => id)) hds,hk.trans hk₂ (fun _ => False.elim)⟩
  rw [hr,List.append_assoc,List.singleton_append]

/-- The two scans find the next token, or come to the end. -/
theorem scans_eq (hm : Literal m) (hx : Contains m x d) (hnul : STERM ∉ x) {n i : ℕ} (hn : x.length < n) (hi : i < x.length) :
    (scan m d ws true n i = .ok (some x.length) ∧ StrUtil.stringtok (x.drop i) ws.bytes = []) ∨
    ∃ i' j, scan m d ws true n i = .ok (some i') ∧ scan m d ws false n (sizeType (i' + 1)) = .ok (some j) ∧
      i ≤ i' ∧ i' < j ∧ j ≤ x.length ∧ StrUtil.stringtok (x.drop i) ws.bytes =
        (x.drop i').take (j - i') :: StrUtil.stringtok (x.drop (j + 1)) ws.bytes := by
  have hle := hx.length_le
  have hcap := hx.capacity_lt
  have hne : ∀ b ∈ x, b ≠ STERM := fun b hb h => hnul (h ▸ hb)
  have hin : ∀ b ∈ x, strchr ws b = true ↔ decide (b ∈ ws.bytes) = true :=
    fun b hb => (strchr_iff (hne b hb)).trans decide_eq_true_iff.symm
  have hskip := scan_eq hm hx hin (Nat.le_of_lt hi) (Nat.lt_of_le_of_lt (Nat.sub_le x.length i) hn)
  have hdrop := drop_takeWhile (fun c => decide (c ∈ ws.bytes)) x i
  have hbound := (List.takeWhile_prefix (fun c => decide (c ∈ ws.bytes)) (l := x.drop i)).length_le
  have hhead := List.head?_dropWhile_not (fun c => decide (c ∈ ws.bytes)) (x.drop i)
  rw [List.length_drop] at hbound
  rw [← hdrop] at hhead
  rw [← stringtok_dropWhile,← hdrop,hskip]
  obtain ⟨i',hi'⟩ : ∃ i', i' = i + ((x.drop i).takeWhile (fun c => decide (c ∈ ws.bytes))).length := ⟨_,rfl⟩
  rw [← hi'] at hhead ⊢
  cases hrest : x.drop i' with
  | nil =>
    have hend : i' = x.length := by
      have hge := List.drop_eq_nil_iff.mp hrest
      omega
    exact Or.inl ⟨by rw [hend],StrUtil.stringtok_nil _⟩
  | cons b rest =>
    have hlength := congrArg List.length hrest
    rw [List.length_drop,List.length_cons] at hlength
    have hb : b ∉ ws.bytes := by
      rw [hrest] at hhead
      simpa using hhead
    have hnext : x.drop (i' + 1) = rest := by rw [← List.drop_drop,hrest,List.drop_one,List.tail_cons]
    have hsize : sizeType (i' + 1) = i' + 1 := Nat.mod_eq_of_lt (by omega)
    have hout : ∀ b ∈ x, strchr ws b = false ↔ decide (b ∉ ws.bytes) = true :=
      fun b hb => by rw [← Bool.not_eq_true,strchr_iff (hne b hb),decide_eq_true_iff]
    have hle' : i' + 1 ≤ x.length := by omega
    have hscan := scan_eq hm hx hout hle' (Nat.lt_of_le_of_lt (Nat.sub_le x.length (i' + 1)) hn)
    have hdrop' := drop_takeWhile (fun c => decide (c ∉ ws.bytes)) x (i' + 1)
    have hbound' := (List.takeWhile_prefix (fun c => decide (c ∉ ws.bytes)) (l := rest)).length_le
    rw [hnext] at hscan hdrop'
    obtain ⟨j,hj⟩ : ∃ j, j = i' + 1 + (rest.takeWhile (fun c => decide (c ∉ ws.bytes))).length := ⟨_,rfl⟩
    rw [← hj] at hscan hdrop'
    refine Or.inr ⟨i',j,rfl,by rw [hsize]; exact hscan,by omega,by omega,by omega,?_⟩
    have hcount : j - i' = (rest.takeWhile (fun c => decide (c ∉ ws.bytes))).length + 1 := by omega
    rw [StrUtil.stringtok_cons hb,← hdrop',List.drop_drop,hcount,hrest,List.take_succ_cons,
      ← List.prefix_iff_eq_take.mp (List.takeWhile_prefix _)]

theorem stringtokLoop_spec (hm : Literal m) (hx : Contains m x d) (hnul : STERM ∉ x) {n fuel i : ℕ} (hn : x.length < n)
    (hi : i ≤ x.length + 1) (hfuel : x.length + 1 - i < fuel) (c : List StringData) :
    let tokens := StrUtil.stringtok (x.drop i) ws.bytes
    ((∀ tok ∈ tokens, Assignable tok) → PutsTokens m c tokens (stringtokLoop d ws n fuel m c i)) ∧
      ((∃ tok ∈ tokens, ¬ Assignable tok) → stringtokLoop d ws n fuel m c i = .error .assertion) := by
  induction fuel generalizing m c i with
  | zero => exact absurd hfuel (Nat.not_lt_zero _)
  | succ fuel ih =>
    have hlen := hx.length_eq
    have hle := hx.length_le
    have hcap := hx.capacity_lt
    have hnil : ∀ r, r = .ok (some (m,c)) → ((∀ tok ∈ ([] : List (List UInt8)), Assignable tok) → PutsTokens m c [] r) ∧
        ((∃ tok ∈ ([] : List (List UInt8)), ¬ Assignable tok) → r = .error .assertion) := by
      rintro r rfl
      exact ⟨fun _ => ⟨m,[],by rw [List.append_nil],.nil,Keeps.refl m _⟩,fun ⟨_,htok,_⟩ => absurd htok List.not_mem_nil⟩
    rw [stringtokLoop,hlen]
    by_cases hlt : i < x.length
    · rw [if_pos hlt]
      rcases @scans_eq _ _ _ ws hm hx hnul _ _ hn hlt with ⟨hend,htokens⟩ | ⟨i',j,hskip,hscan,hi',hij,hj,htokens⟩
      · rw [htokens,hend,ok_bind]
        exact hnil _ (if_pos rfl)
      · have hlast : sizeType (j + 1) = j + 1 := Nat.mod_eq_of_lt (by omega)
        have hshort : Assignable ((x.drop i').take (j - i')) ↔ j - i' < npos / 2 := by
          rw [Assignable,List.length_take_of_le (by rw [List.length_drop]; omega)]
        rw [htokens,hskip,ok_bind]
        dsimp only
        rw [if_neg (by omega),hscan,ok_bind]
        dsimp only
        rw [substr_eq (by rw [npos]; omega) (Nat.le_of_lt hij),hlast]
        by_cases hmax : j - i' < npos / 2
        · have hin : i' + (j - i') ≤ x.length := by omega
          obtain ⟨r,hr,hgives⟩ := assignFrom_gives hm hx hin hmax
          obtain ⟨m₂,e,hpush,he,hk₂⟩ := pushBack_spec hm hgives
            (fun h => hnul (List.mem_of_mem_drop (List.mem_of_mem_take h))) (hshort.mpr hmax) c
          obtain ⟨hputs,herr⟩ := ih (hm.keeps hk₂ id) (hx.keeps hk₂ (fun _ _ => id)) (i := j + 1) (by omega) (by omega)
            (c ++ [e])
          rw [hr,ok_bind,hpush,ok_bind]
          refine ⟨fun hall => (hputs (List.forall_mem_cons.mp hall).2).cons he hk₂,?_⟩
          rintro ⟨tok,htok,hlong⟩
          rcases List.mem_cons.mp htok with rfl | htok
          · exact absurd (hshort.mpr hmax) hlong
          · exact herr ⟨tok,htok,hlong⟩
        · have hrefused : assignFrom m d i' (j - i') = .error .assertion := if_neg hmax
          rw [hrefused]
          exact ⟨fun hall => absurd (hshort.mp (List.forall_mem_cons.mp hall).1) hmax,fun _ => rfl⟩
    · rw [if_neg hlt,List.drop_eq_nil_of_le (Nat.not_lt.mp hlt),StrUtil.stringtok_nil]
      exact hnil _ rfl

/-! ## Programs -/

def Splits (m : Memory) (d : StringData) (ws : CString) (x : List UInt8) (tokens : List (List UInt8)) : Prop :=
  ∃ m' ds, stringtok (x.length + 2) m [] d ws = .ok (some (m',ds)) ∧
    List.Forall₂ (fun tok e => content (.ok (m',e)) = .ok tok) tokens ds ∧ content (.ok (m',d)) = .ok x

theorem splits_iff (hm : Literal m) (hx : Contains m x d) (hnul : STERM ∉ x) {tokens : List (List UInt8)}
    (hruns : Separated.Runs (· ∈ ws.bytes) x tokens) : Splits m d ws x tokens ↔ ∀ tok ∈ tokens, Assignable tok := by
  obtain rfl := (stringtok_runs x ws.bytes).unique hruns
  obtain ⟨hputs,herr⟩ := @stringtokLoop_spec m d x ws hm hx hnul (x.length + 2) (x.length + 2) 0 (by omega) (Nat.zero_le _)
    (by omega) []
  rw [List.drop_zero] at hputs herr
  constructor
  · rintro ⟨m',ds,hr,-,-⟩ tok htok
    by_contra hlong
    have hrefused := herr ⟨tok,htok,hlong⟩
    rw [stringtok,hrefused] at hr
    cases hr
  · intro hall
    obtain ⟨m',ds,hr,hds,hk⟩ := hputs hall
    exact ⟨m',ds,hr,hds.imp (fun _ _ h => h.content_eq),(hx.keeps hk (fun _ _ => id)).content_eq⟩

namespace PublicAction

/-- After every run a String without NUL bytes is split into its runs between delimiters, if and only
if each can be assigned to a String. -/
theorem run_stringtok_iff (junk : ℕ → ℕ → UInt8) (acts : List PublicAction) (s : StringState)
    (hrun : Transition.exec step (.initial junk) acts = some s) (i : ℕ) (d : StringData) (hd : s.data i = .ok d)
    (x : List UInt8) (hx : content (.ok (s.mem,d)) = .ok x) (hnul : STERM ∉ x) (ws : CString) :
    ∃ tokens, Separated.Runs (· ∈ ws.bytes) x tokens ∧
      (∀ tokens', Separated.Runs (· ∈ ws.bytes) x tokens' → tokens' = tokens) ∧
      (Splits s.mem d ws x tokens ↔ ∀ tok ∈ tokens, Assignable tok) := by
  have hs := run_spec hrun
  obtain ⟨y,hy⟩ := (hs.of_data hd).2.contains
  obtain rfl : y = x := Except.ok.inj (hy.content_eq.symm.trans hx)
  have hruns := stringtok_runs y ws.bytes
  exact ⟨_,hruns,fun tokens' h => h.unique hruns,splits_iff hs.literal hy hnul hruns⟩

/-- A search path with an empty entry. -/
theorem run_stringtok_iff_path :
    ∃ s, Transition.exec step (.initial fun _ _ => 120) [basic (.createFrom 0 (.text [97,58,58,98]))] = some s ∧
      ∃ tokens, Separated.Runs (· ∈ (CString.ofBuf [58]).bytes) [97,58,58,98] tokens ∧
        (∀ tokens', Separated.Runs (· ∈ (CString.ofBuf [58]).bytes) [97,58,58,98] tokens' → tokens' = tokens) ∧
        (Splits s.mem (.own 4 4 1) (.ofBuf [58]) [97,58,58,98] tokens ↔ ∀ tok ∈ tokens, Assignable tok) :=
  ⟨_,rfl,run_stringtok_iff (fun _ _ => 120) [basic (.createFrom 0 (.text [97,58,58,98]))] _ rfl 0 (.own 4 4 1) rfl
    [97,58,58,98] rfl (by decide) (.ofBuf [58])⟩

/-- A String of `npos / 2` bytes without a delimiter. -/
theorem not_run_stringtok : ¬ ∀ (junk : ℕ → ℕ → UInt8) (acts : List PublicAction) (s : StringState),
    Transition.exec step (.initial junk) acts = some s → ∀ (i : ℕ) (d : StringData), s.data i = .ok d →
      ∀ x : List UInt8, content (.ok (s.mem,d)) = .ok x → STERM ∉ x → ∀ ws : CString,
        ∃ tokens, Separated.Runs (· ∈ ws.bytes) x tokens ∧ Splits s.mem d ws x tokens := by
  intro h
  have hm : Literal (StringState.initial fun _ _ => 120).mem := (sound_initial _).literal
  have hnull : Contains (StringState.initial fun _ _ => 120).mem [] .nullData := rfl
  obtain ⟨r,hr,hgives⟩ := @appendChars_gives _ _ _ hm.fresh hnull 2147483647 97 (by decide) (by decide)
  obtain ⟨s₀,hs₀⟩ : ∃ s₀, s₀ = (StringState.initial fun _ _ => 120).set 0 ((StringState.initial fun _ _ => 120).mem,.nullData) :=
    ⟨_,rfl⟩
  have hdata : s₀.data 0 = .ok .nullData := by
    rw [hs₀]
    rfl
  have hcall : apply s₀ (basic (.call 0 (.appendChars 2147483647 97))) = .ok (s₀.set 0 r) := by
    rw [apply,StringAction.apply,hdata,ok_bind,Member.apply]
    have hnum : Text.appendChars s₀.mem .nullData (2147483647 : BitVec 32).toNat 97 = .ok r := by
      rw [hs₀]
      exact hr
    rw [hnum]
    rfl
  have hrun : Transition.exec step (.initial fun _ _ => 120)
      [basic (.create 0),basic (.call 0 (.appendChars 2147483647 97))] = some (s₀.set 0 r) := by
    have hcreate : step (.initial fun _ _ => 120) (basic (.create 0)) = some s₀ := by
      rw [hs₀]
      rfl
    rw [Transition.exec,List.foldlM_cons,hcreate,Option.bind_eq_bind,Option.bind_some,List.foldlM_cons,step,hcall]
    rfl
  have hlong : STERM ∉ List.replicate 2147483647 97 := fun h => absurd (List.eq_of_mem_replicate h) (by decide)
  have hcontains := hgives.owns.contains
  rw [List.nil_append] at hcontains
  have hlive : (s₀.set 0 r).data 0 = .ok r.2 := by rw [StringState.data,StringState.set_self]
  obtain ⟨tokens,hruns,hsplits⟩ := h _ _ _ hrun 0 r.2 hlive _ hcontains.content_eq hlong .empty
  have hne : List.replicate 2147483647 (97 : UInt8) ≠ [] :=
    fun h => absurd (congrArg List.length h) (by rw [List.length_replicate]; decide)
  have hone : Separated.Runs (· ∈ CString.empty.bytes) (List.replicate 2147483647 97) [List.replicate 2147483647 97] :=
    .single hne (fun _ _ => List.not_mem_nil)
  obtain rfl := hone.unique hruns
  have hassignable := (splits_iff (hgives.leaves.literal hm trivial) hcontains hlong hruns).mp hsplits _ List.mem_cons_self
  rw [Assignable,List.length_replicate] at hassignable
  exact absurd hassignable (by decide)

end PublicAction
end Edelib.Text
