import Mathlib.Algebra.Order.Ring.Int
import Mathlib.Data.List.Basic

/-! # Separated parts

Parts are written one after the other with a separator before or after each. A tokenizer
that splits at separators and drops what is empty finds the parts again, provided no part
is empty or holds a separator.
-/
namespace Edelib.Foundation.Separated
variable {α : Type*} {sep : α} {parts : List (List α)}

def leading (sep : α) (parts : List (List α)) : List α := parts.flatMap (fun part => sep :: part)

def trailing (sep : α) (parts : List (List α)) : List α := parts.flatMap (fun part => part ++ [sep])

@[simp] theorem leading_cons (part : List α) : leading sep (part :: parts) = sep :: (part ++ leading sep parts) := rfl

@[simp] theorem trailing_cons (part : List α) :
    trailing sep (part :: parts) = part ++ sep :: trailing sep parts := by
  simp [trailing]

def Proper (sep : α) (parts : List (List α)) : Prop := ∀ part ∈ parts, part ≠ [] ∧ sep ∉ part

theorem filter_proper (h : Proper sep parts) : parts.filter (fun tok => !tok.isEmpty) = parts := by
  refine List.filter_eq_self.mpr (fun part hpart => ?_)
  simpa using (h part hpart).1

/-- Behind what is held of the first part comes its separator or more of the part. -/
theorem trailing_eq_append_cons {held stream : List α} {c : α} (h : trailing sep parts = held ++ c :: stream)
    (hheld : sep ∉ held) (hparts : ∀ part ∈ parts, sep ∉ part) :
    ∃ part rest, parts = part :: rest ∧
      (c = sep ∧ held = part ∧ stream = trailing sep rest ∨ c ≠ sep ∧ held ++ [c] <+: part) := by
  cases parts with
  | nil => exact absurd h.symm (by simp [trailing])
  | cons part rest =>
    refine ⟨part,rest,rfl,?_⟩
    have hpart : sep ∉ part := hparts part List.mem_cons_self
    rw [trailing_cons,List.append_eq_append_iff] at h
    rcases h with ⟨more,hmore,heq⟩ | ⟨more,hmore,heq⟩
    · cases more with
      | nil =>
        obtain ⟨rfl,rfl⟩ := List.cons.inj heq
        exact Or.inl ⟨rfl,by rw [hmore,List.append_nil],rfl⟩
      | cons s more =>
        obtain ⟨rfl,-⟩ := List.cons.inj heq
        exact absurd (hmore ▸ List.mem_append_right part List.mem_cons_self) hheld
    · cases more with
      | nil =>
        obtain ⟨rfl,rfl⟩ := List.cons.inj heq
        exact Or.inl ⟨rfl,by rw [hmore,List.append_nil],rfl⟩
      | cons s more =>
        obtain ⟨rfl,-⟩ := List.cons.inj heq
        refine Or.inr ⟨fun hc => ?_,more,by rw [hmore,List.append_assoc,List.singleton_append]⟩
        exact hpart (hmore ▸ List.mem_append_right held (hc ▸ List.mem_cons_self))

/-! ## Runs -/

/-- The runs of a sequence without delimiters, in order: before each there are only delimiters, and one
follows it unless it is at the end. -/
inductive Runs (delimiter : α → Prop) : List α → List (List α) → Prop
  | nil {gap : List α} (hgap : ∀ c ∈ gap, delimiter c) : Runs delimiter gap []
  | cons {gap run rest : List α} {runs : List (List α)} (hgap : ∀ c ∈ gap, delimiter c) (hne : run ≠ [])
      (hrun : ∀ c ∈ run, ¬ delimiter c) (hrest : ∀ c ∈ rest.head?, delimiter c) (h : Runs delimiter rest runs) :
      Runs delimiter (gap ++ run ++ rest) (run :: runs)

section runs
variable {delimiter : α → Prop} {str : List α} {runs runs' : List (List α)}

/-- Without a delimiter there is one run. -/
theorem Runs.single (hne : str ≠ []) (h : ∀ c ∈ str, ¬ delimiter c) : Runs delimiter str [str] := by
  have hone : Runs delimiter ([] ++ str ++ []) [str] :=
    .cons (fun c hc => absurd hc List.not_mem_nil) hne h (fun c hc => absurd hc (Option.not_mem_none c))
      (.nil (fun c hc => absurd hc List.not_mem_nil))
  rwa [List.nil_append,List.append_nil] at hone

/-- A delimiter is put in front. -/
theorem Runs.skip {c : α} (hc : delimiter c) (h : Runs delimiter str runs) : Runs delimiter (c :: str) runs := by
  cases h with
  | nil hgap => exact .nil (List.forall_mem_cons.mpr ⟨hc,hgap⟩)
  | cons hgap hne hrun hrest h => exact .cons (List.forall_mem_cons.mpr ⟨hc,hgap⟩) hne hrun hrest h

/-- What is before the first element that is not a delimiter is determined. -/
theorem append_cons_inj {gap gap' str str' : List α} {c c' : α} (hgap : ∀ c ∈ gap, delimiter c)
    (hgap' : ∀ c ∈ gap', delimiter c) (hc : ¬ delimiter c) (hc' : ¬ delimiter c')
    (h : gap ++ c :: str = gap' ++ c' :: str') : gap = gap' ∧ c :: str = c' :: str' := by
  induction gap generalizing gap' with
  | nil =>
    cases gap' with
    | nil => exact ⟨rfl,h⟩
    | cons d gap' =>
      obtain ⟨rfl,-⟩ := List.cons.inj h
      exact absurd (hgap' _ List.mem_cons_self) hc
  | cons d gap ih =>
    cases gap' with
    | nil =>
      obtain ⟨rfl,-⟩ := List.cons.inj h
      exact absurd (hgap _ List.mem_cons_self) hc'
    | cons d' gap' =>
      obtain ⟨rfl,htail⟩ := List.cons.inj h
      obtain ⟨rfl,hstr⟩ := ih (fun c hc => hgap c (List.mem_cons_of_mem _ hc))
        (fun c hc => hgap' c (List.mem_cons_of_mem _ hc)) htail
      exact ⟨rfl,hstr⟩

/-- A run goes on up to the next delimiter. -/
theorem append_rest_inj {run run' rest rest' : List α} (hrun : ∀ c ∈ run, ¬ delimiter c) (hrun' : ∀ c ∈ run', ¬ delimiter c)
    (hrest : ∀ c ∈ rest.head?, delimiter c) (hrest' : ∀ c ∈ rest'.head?, delimiter c) (h : run ++ rest = run' ++ rest') :
    run = run' ∧ rest = rest' := by
  induction run generalizing run' with
  | nil =>
    cases run' with
    | nil => exact ⟨rfl,h⟩
    | cons c run' =>
      rw [List.nil_append] at h
      rw [h] at hrest
      exact absurd (hrest c rfl) (hrun' c List.mem_cons_self)
  | cons c run ih =>
    cases run' with
    | nil =>
      rw [List.nil_append] at h
      rw [← h] at hrest'
      exact absurd (hrest' c rfl) (hrun c List.mem_cons_self)
    | cons c' run' =>
      obtain ⟨rfl,htail⟩ := List.cons.inj h
      obtain ⟨rfl,hstr⟩ := ih (fun c hc => hrun c (List.mem_cons_of_mem _ hc))
        (fun c hc => hrun' c (List.mem_cons_of_mem _ hc)) htail
      exact ⟨rfl,hstr⟩

theorem Runs.unique (h : Runs delimiter str runs) (h' : Runs delimiter str runs') : runs = runs' := by
  induction h generalizing runs' with
  | @nil gap hgap =>
    generalize hs : gap = str at h'
    cases h' with
    | nil => rfl
    | @cons gap' run rest runs hgap' hne hrun hrest h =>
      obtain ⟨c,hc⟩ := List.exists_mem_of_ne_nil run hne
      exact absurd (hgap c (by rw [hs]; simp [hc])) (hrun c hc)
  | @cons gap run rest runs hgap hne hrun hrest h ih =>
    generalize hs : gap ++ run ++ rest = str at h'
    obtain ⟨c,run,rfl⟩ := List.exists_cons_of_ne_nil hne
    cases h' with
    | @nil gap' hgap' =>
      exact absurd (hgap' c (by rw [← hs]; simp)) (hrun c List.mem_cons_self)
    | @cons gap' run' rest' runs' hgap' hne' hrun' hrest' h' =>
      obtain ⟨c',run',rfl⟩ := List.exists_cons_of_ne_nil hne'
      rw [List.append_assoc,List.append_assoc] at hs
      obtain ⟨-,hboth⟩ := append_cons_inj hgap hgap' (hrun c List.mem_cons_self) (hrun' c' List.mem_cons_self) hs
      obtain ⟨hhead,rfl⟩ := append_rest_inj hrun hrun' hrest hrest' hboth
      rw [hhead,ih h']

end runs

/-! ## Where the parts begin -/

def offset (parts : List (List α)) (i : ℕ) : ℕ := ((parts.take i).map (fun part => part.length + 1)).sum

@[simp] theorem offset_zero (parts : List (List α)) : offset parts 0 = 0 := rfl

@[simp] theorem offset_nil (i : ℕ) : offset ([] : List (List α)) i = 0 := by
  rw [offset,List.take_nil]
  rfl

@[simp] theorem offset_cons_succ (part : List α) (parts : List (List α)) (i : ℕ) :
    offset (part :: parts) (i + 1) = part.length + 1 + offset parts i := rfl

theorem offset_succ (parts : List (List α)) {i : ℕ} (h : i < parts.length) :
    offset parts (i + 1) = offset parts i + (parts[i].length + 1) := by
  rw [offset,List.take_add_one,List.getElem?_eq_getElem h,List.map_append,List.sum_append]
  rfl

def unlessEmpty (part : List α) : List (List α) := [part].filter (fun tok => !tok.isEmpty)

theorem flatten_unlessEmpty (part : List α) : (unlessEmpty part).flatten = part := by
  cases part with
  | nil => rfl
  | cons c part => exact List.append_nil _

variable [BEq α]

def tokens (sep : α) (str : List α) : List (List α) := (str.splitOn sep).filter (fun tok => !tok.isEmpty)

variable [LawfulBEq α]

theorem splitOn_append_leading {part : List α} (hpart : sep ∉ part) (h : Proper sep parts) :
    (part ++ leading sep parts).splitOn sep = part :: parts := by
  induction parts generalizing part with
  | nil => simpa [leading] using List.splitOn_eq_singleton hpart
  | cons next parts ih =>
    obtain ⟨⟨-,hnext⟩,hparts⟩ := List.forall_mem_cons.mp h
    rw [leading_cons,List.splitOn_append_cons_self_of_not_mem hpart,ih hnext hparts]

theorem tokens_leading (h : Proper sep parts) : tokens sep (leading sep parts) = parts := by
  have hsplit : (leading sep parts).splitOn sep = [] :: parts := splitOn_append_leading List.not_mem_nil h
  rw [tokens,hsplit,List.filter_cons_of_neg (by simp),filter_proper h]

/-- What follows a separator is the parts found in it, each behind one. -/
theorem leading_splitOn (str : List α) : leading sep (str.splitOn sep) = sep :: str := by
  have hjoin : ∀ (first : List α) (rest : List (List α)),
      leading sep (first :: rest) = sep :: [sep].intercalate (first :: rest) := by
    intro first rest
    induction rest generalizing first with
    | nil => simp [leading]
    | cons next rest ih =>
      rw [leading_cons,ih,List.intercalate_cons_cons]
      simp
  cases hs : str.splitOn sep with
  | nil => exact absurd hs (List.splitOn_ne_nil sep str)
  | cons first rest => rw [hjoin,← hs,List.intercalate_splitOn]

/-- The string up to its first separator, and the parts of what is behind. -/
theorem splitOn_cases (sep : α) (str : List α) :
    (sep ∉ str ∧ str.splitOn sep = [str]) ∨
      ∃ first rest, sep ∉ first ∧ str = first ++ sep :: rest ∧ str.splitOn sep = first :: rest.splitOn sep := by
  by_cases h : sep ∈ str
  · obtain ⟨first,rest,rfl,hfirst⟩ := List.eq_append_cons_of_mem h
    exact Or.inr ⟨first,rest,hfirst,rfl,List.splitOn_append_cons_self_of_not_mem hfirst rest⟩
  · exact Or.inl ⟨h,List.splitOn_eq_singleton h⟩

/-- The parts are found up to the first separator and behind it. -/
theorem tokens_cases (sep : α) (str : List α) :
    (sep ∉ str ∧ tokens sep str = unlessEmpty str) ∨ ∃ first rest, sep ∉ first ∧ str = first ++ sep :: rest ∧
      tokens sep str = unlessEmpty first ++ tokens sep rest := by
  obtain ⟨hnone,hsplit⟩ | ⟨first,rest,hfirst,hstr,hsplit⟩ := splitOn_cases sep str
  · exact .inl ⟨hnone,by rw [tokens,hsplit,unlessEmpty]⟩
  · refine .inr ⟨first,rest,hfirst,hstr,?_⟩
    rw [tokens,hsplit,unlessEmpty,tokens,← List.filter_append,List.singleton_append]

theorem tokens_append_cons {first : List α} (hfirst : sep ∉ first) (rest : List α) :
    tokens sep (first ++ sep :: rest) = unlessEmpty first ++ tokens sep rest := by
  rw [tokens,List.splitOn_append_cons_self_of_not_mem hfirst,unlessEmpty,tokens,← List.filter_append,List.singleton_append]

/-- A text is cut at any of its separators. -/
theorem tokens_append_separator (str rest : List α) :
    tokens sep (str ++ sep :: rest) = tokens sep str ++ tokens sep rest := by
  induction hlen : str.length using Nat.strong_induction_on generalizing str with
  | _ len ih =>
    obtain ⟨hstr,htokens⟩ | ⟨first,str,hfirst,rfl,htokens⟩ := tokens_cases sep str
    · rw [tokens_append_cons hstr,htokens]
    · have hlt : str.length < len := by
        rw [← hlen,List.length_append,List.length_cons]
        omega
      rw [List.append_assoc,List.cons_append,tokens_append_cons hfirst,ih _ hlt str rfl,htokens,List.append_assoc]

theorem tokens_of_not_mem {str : List α} (h : sep ∉ str) : tokens sep str = unlessEmpty str := by
  rw [tokens,List.splitOn_eq_singleton h,unlessEmpty]

/-- Separators at the end do not matter. -/
theorem tokens_append_separators {gap : List α} (hgap : ∀ c ∈ gap, c = sep) (str : List α) :
    tokens sep (str ++ gap) = tokens sep str := by
  have hnone : ∀ gap : List α, (∀ c ∈ gap, c = sep) → tokens sep gap = [] := by
    intro gap hgap
    induction gap with
    | nil => exact tokens_of_not_mem List.not_mem_nil
    | cons c gap ih =>
      obtain ⟨rfl,hgap⟩ := List.forall_mem_cons.mp hgap
      have hcons := tokens_append_cons (List.not_mem_nil (a := c)) gap
      rw [List.nil_append] at hcons
      rw [hcons,ih hgap]
      rfl
  induction hn : str.length using Nat.strong_induction_on generalizing str with
  | _ n ih =>
    obtain ⟨hstr,htokens⟩ | ⟨first,rest,hfirst,rfl,htokens⟩ := tokens_cases sep str
    · cases gap with
      | nil => rw [List.append_nil]
      | cons c gap =>
        obtain ⟨rfl,hgap⟩ := List.forall_mem_cons.mp hgap
        rw [tokens_append_cons hstr,htokens,hnone gap hgap,List.append_nil]
    · have hlt : rest.length < n := by
        rw [← hn,List.length_append,List.length_cons]
        omega
      rw [List.append_assoc,List.cons_append,tokens_append_cons hfirst,htokens,ih _ hlt rest rfl]

/-- The parts hold what is no separator. -/
theorem flatten_tokens (sep : α) (str : List α) : (tokens sep str).flatten = str.filter (fun c => !(c == sep)) := by
  have hfilter : ∀ part : List α, sep ∉ part → part.filter (fun c => !(c == sep)) = part := by
    intro part hpart
    refine List.filter_eq_self.mpr (fun c hc => ?_)
    have hne : ¬ (c == sep) = true := fun heq => hpart (eq_of_beq heq ▸ hc)
    rw [Bool.not_eq_true] at hne
    rw [hne]
    rfl
  induction hn : str.length using Nat.strong_induction_on generalizing str with
  | _ n ih =>
    obtain ⟨hstr,htokens⟩ | ⟨first,rest,hfirst,rfl,htokens⟩ := tokens_cases sep str
    · rw [htokens,flatten_unlessEmpty,hfilter str hstr]
    · have hlt : rest.length < n := by
        rw [← hn,List.length_append,List.length_cons]
        omega
      rw [htokens,List.flatten_append,flatten_unlessEmpty,ih _ hlt rest rfl,List.filter_append,hfilter first hfirst,
        List.filter_cons_of_neg (by simp)]

/-- More of a string does not change its parts if and only if that is separators. -/
theorem tokens_append_iff (sep : α) (str gap : List α) :
    tokens sep (str ++ gap) = tokens sep str ↔ ∀ c ∈ gap, c = sep := by
  constructor
  · intro h
    have hflatten := congrArg List.flatten h
    rw [flatten_tokens,flatten_tokens,List.filter_append] at hflatten
    have hnil : gap.filter (fun c => !(c == sep)) = [] := List.append_right_eq_self.mp hflatten
    intro c hc
    have hkeep := List.filter_eq_nil_iff.mp hnil c hc
    simpa using hkeep
  · exact fun h => tokens_append_separators h str

theorem offset_le_iff (sep : α) (str : List α) (i : ℕ) :
    offset (str.splitOn sep) i ≤ str.length ↔ i < (str.splitOn sep).length := by
  induction i generalizing str with
  | zero => exact iff_of_true (Nat.zero_le _) (List.length_pos_iff.mpr (List.splitOn_ne_nil sep str))
  | succ i ih =>
    obtain ⟨-,hsplit⟩ | ⟨first,rest,-,rfl,hsplit⟩ := splitOn_cases sep str
    · rw [hsplit,offset_cons_succ,offset_nil,List.length_singleton]
      omega
    · have hrest := ih rest
      rw [hsplit,offset_cons_succ,List.length_append,List.length_cons,List.length_cons]
      omega

/-- From where a part begins, it and those after it are found. -/
theorem splitOn_drop (sep : α) (str : List α) {i : ℕ} (h : i < (str.splitOn sep).length) :
    (str.drop (offset (str.splitOn sep) i)).splitOn sep = (str.splitOn sep).drop i := by
  induction i generalizing str with
  | zero => rfl
  | succ i ih =>
    obtain ⟨-,hsplit⟩ | ⟨first,rest,-,rfl,hsplit⟩ := splitOn_cases sep str
    · rw [hsplit,List.length_singleton] at h
      omega
    · rw [hsplit,List.length_cons] at h
      have hdrop : (first ++ sep :: rest).drop (first.length + 1 + offset (rest.splitOn sep) i) =
          rest.drop (offset (rest.splitOn sep) i) := by
        rw [← List.drop_drop,← List.drop_drop,List.drop_left]
        rfl
      rw [hsplit,offset_cons_succ,hdrop,ih rest (by omega),List.drop_succ_cons]

end Edelib.Foundation.Separated
