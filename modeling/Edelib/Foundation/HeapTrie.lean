import Mathlib.Algebra.Order.Ring.Nat
import Mathlib.Data.Nat.Bitwise
import Mathlib.Data.Nat.Find
import Mathlib.Logic.Function.Basic

/-! # Binary tries numbered as heaps

The root has the number 0, and below `n` are `2 n + 1` and `2 n + 2`. A number goes down by its bits, the lowest first,
as long as the nodes are marked; it ends at a leaf. The leaves are told apart by the bits that led to them.
-/
namespace Edelib.Foundation.HeapTrie

def node (h : ℕ) : ℕ → ℕ
  | 0 => 0
  | l + 1 => 2 * node h l + (if h.testBit l then 2 else 1)

structure Leaf (marks : ℕ → Bool) (h l : ℕ) : Prop where
  above : ∀ i < l, marks (node h i) = true
  unmarked : marks (node h l) = false

def Closed (marks : ℕ → Bool) : Prop := ∀ h l, marks (node h (l + 1)) = true → marks (node h l) = true

def mark (marks : ℕ → Bool) (n : ℕ) : ℕ → Bool := Function.update marks n true

variable {marks : ℕ → Bool} {h h' l l' : ℕ}

theorem node_bounds (h l : ℕ) : 2 ^ l ≤ node h l + 1 ∧ node h l + 1 < 2 ^ (l + 1) := by
  induction l with
  | zero => exact ⟨le_rfl,by rw [node]; decide⟩
  | succ l ih =>
    rw [node,Nat.pow_succ,Nat.pow_succ 2 (l + 1)]
    split_ifs <;> omega

theorem mod_succ (h l : ℕ) : h % 2 ^ (l + 1) = h % 2 ^ l + (if h.testBit l then 2 ^ l else 0) := by
  rw [Nat.mod_pow_succ,← Nat.toNat_testBit]
  cases h.testBit l with
  | false => rw [Bool.toNat_false,Nat.mul_zero,if_neg Bool.false_ne_true]
  | true => rw [Bool.toNat_true,Nat.mul_one,if_pos rfl]

theorem testBit_of_mod_eq (hmod : h % 2 ^ (l + 1) = h' % 2 ^ (l + 1)) : h.testBit l = h'.testBit l := by
  have hbit := congrArg (fun x => x.testBit l) hmod
  simpa only [Nat.testBit_mod_two_pow,Nat.lt_succ_self,decide_true,Bool.true_and] using hbit

theorem mod_of_mod_succ (hmod : h % 2 ^ (l + 1) = h' % 2 ^ (l + 1)) : h % 2 ^ l = h' % 2 ^ l := by
  have hdvd : 2 ^ l ∣ 2 ^ (l + 1) := ⟨2,Nat.pow_succ 2 l⟩
  rw [← Nat.mod_mod_of_dvd h hdvd,hmod,Nat.mod_mod_of_dvd h' hdvd]

theorem mod_of_le (hle : l ≤ l') (hmod : h % 2 ^ l' = h' % 2 ^ l') : h % 2 ^ l = h' % 2 ^ l := by
  have hdvd : 2 ^ l ∣ 2 ^ l' := Nat.pow_dvd_pow 2 hle
  rw [← Nat.mod_mod_of_dvd h hdvd,hmod,Nat.mod_mod_of_dvd h' hdvd]

theorem node_congr (hmod : h % 2 ^ l = h' % 2 ^ l) : node h l = node h' l := by
  induction l with
  | zero => rfl
  | succ l ih => rw [node,node,ih (mod_of_mod_succ hmod),testBit_of_mod_eq hmod]

/-- A node tells the level and the low bits. -/
theorem node_inj (heq : node h l = node h' l') : l = l' ∧ h % 2 ^ l = h' % 2 ^ l := by
  have hlevel : l = l' := by
    obtain ⟨hlo,hhi⟩ := node_bounds h l
    obtain ⟨hlo',hhi'⟩ := node_bounds h' l'
    rw [heq] at hlo hhi
    have h₁ := (Nat.pow_lt_pow_iff_right (by decide : 1 < 2)).mp (hlo.trans_lt hhi')
    have h₂ := (Nat.pow_lt_pow_iff_right (by decide : 1 < 2)).mp (hlo'.trans_lt hhi)
    omega
  subst hlevel
  refine ⟨rfl,?_⟩
  induction l with
  | zero => rw [Nat.pow_zero,Nat.mod_one,Nat.mod_one]
  | succ l ih =>
    rw [node,node] at heq
    have hbit : h.testBit l = h'.testBit l := by
      cases hb : h.testBit l <;> cases hb' : h'.testBit l <;> simp only [hb,hb',if_true,Bool.false_eq_true,if_false] at heq
      all_goals first | rfl | omega
    have hnode : node h l = node h' l := by
      rw [hbit] at heq
      omega
    rw [mod_succ,mod_succ,ih hnode,hbit]

theorem Leaf.unique (hl : Leaf marks h l) (hl' : Leaf marks h l') : l = l' := by
  rcases Nat.lt_trichotomy l l' with hlt | rfl | hgt
  · exact absurd (hl'.above l hlt) (by rw [hl.unmarked]; exact Bool.false_ne_true)
  · rfl
  · exact absurd (hl.above l' hgt) (by rw [hl'.unmarked]; exact Bool.false_ne_true)

theorem Leaf.congr (hl : Leaf marks h l) (hmod : h % 2 ^ l = h' % 2 ^ l) : Leaf marks h' l := by
  constructor
  · intro i hi
    rw [← node_congr (mod_of_le hi.le hmod)]
    exact hl.above i hi
  · rw [← node_congr hmod]
    exact hl.unmarked

/-- Two leaves with the same low bits are one. -/
theorem Leaf.apart (hl : Leaf marks h l) (hl' : Leaf marks h' l') (hpage : h % 2 ^ l = h' % 2 ^ l') : l = l' := by
  have hle : ∀ {h h' l l' : ℕ}, Leaf marks h l → Leaf marks h' l' → h % 2 ^ l = h' % 2 ^ l' → l' ≤ l := by
    intro h h' l l' hl hl' hpage
    by_contra hlt
    have hmod : h % 2 ^ l = h' % 2 ^ l := by
      have hdvd : 2 ^ l ∣ 2 ^ l' := Nat.pow_dvd_pow 2 (by omega)
      rw [← Nat.mod_mod_of_dvd h' hdvd,← hpage,Nat.mod_mod]
    have habove := hl'.above l (by omega)
    rw [← node_congr hmod,hl.unmarked] at habove
    cases habove
  exact le_antisymm (hle hl' hl hpage.symm) (hle hl hl' hpage)

theorem leaf_root (hno : ∀ n, marks n = false) (h : ℕ) : Leaf marks h 0 :=
  ⟨fun _ hi => absurd hi (Nat.not_lt_zero _),hno _⟩

/-! ## Marking a leaf -/

theorem mark_self (n : ℕ) : mark marks n n = true := Function.update_self ..

theorem mark_of_ne {n m : ℕ} (hne : m ≠ n) : mark marks n m = marks m := Function.update_of_ne hne ..

theorem mark_of_marked {n m : ℕ} (hm : marks m = true) : mark marks n m = true := by
  by_cases hne : m = n
  · rw [hne,mark_self]
  · rw [mark_of_ne hne,hm]

/-- The numbers that ended at the leaf end one level below. -/
theorem Leaf.below (hl : Leaf marks h l) (hclosed : Closed marks) (hmod : h' % 2 ^ l = h % 2 ^ l) :
    Leaf (mark marks (node h l)) h' (l + 1) := by
  have hleaf := hl.congr hmod.symm
  constructor
  · intro i hi
    rcases Nat.lt_succ_iff_lt_or_eq.mp hi with hlt | rfl
    · exact mark_of_marked (hleaf.above i hlt)
    · rw [node_congr hmod,mark_self]
  · have hne : node h' (l + 1) ≠ node h l := fun heq => by
      have := (node_inj heq).1
      omega
    rw [mark_of_ne hne]
    by_contra hmarked
    have habove := hclosed h' l (Bool.eq_true_of_not_eq_false hmarked)
    rw [hleaf.unmarked] at habove
    cases habove

/-- The other numbers end where they ended. -/
theorem Leaf.beside (hl' : Leaf marks h' l') (hne : ¬ (l' = l ∧ h' % 2 ^ l = h % 2 ^ l)) :
    Leaf (mark marks (node h l)) h' l' := by
  refine ⟨fun i hi => mark_of_marked (hl'.above i hi),?_⟩
  rw [mark_of_ne,hl'.unmarked]
  intro heq
  obtain ⟨rfl,hmod⟩ := node_inj heq
  exact hne ⟨rfl,hmod⟩

theorem Closed.mark (hclosed : Closed marks) (hl : Leaf marks h l) : Closed (mark marks (node h l)) := by
  intro h' l' hmarked
  by_cases heq : node h' (l' + 1) = node h l
  · obtain ⟨rfl,hmod⟩ := node_inj heq
    rw [node_congr (mod_of_mod_succ hmod)]
    exact mark_of_marked (hl.above l' (Nat.lt_succ_self l'))
  · rw [mark_of_ne heq] at hmarked
    exact mark_of_marked (hclosed h' l' hmarked)

/-- The leaves after marking. -/
theorem leaf_mark_cases (hclosed : Closed marks) (hl : Leaf marks h l) (hl' : Leaf (mark marks (node h l)) h' l') :
    (h' % 2 ^ l = h % 2 ^ l ∧ l' = l + 1) ∨ (Leaf marks h' l' ∧ ¬ (l' = l ∧ h' % 2 ^ l = h % 2 ^ l)) := by
  by_cases hmod : h' % 2 ^ l = h % 2 ^ l
  · exact .inl ⟨hmod,hl'.unique (hl.below hclosed hmod)⟩
  · refine .inr ⟨?_,fun hboth => hmod hboth.2⟩
    constructor
    · intro i hi
      have habove := hl'.above i hi
      by_cases heq : node h' i = node h l
      · obtain ⟨rfl,hmod'⟩ := node_inj heq
        exact absurd hmod' hmod
      · rwa [mark_of_ne heq] at habove
    · have hun := hl'.unmarked
      by_cases heq : node h' l' = node h l
      · rw [heq,mark_self] at hun
        cases hun
      · rwa [mark_of_ne heq] at hun

/-- Where only low nodes are marked every number ends soon. -/
theorem exists_leaf (b : ℕ) (hlow : ∀ n, marks n = true → n + 1 < 2 ^ b) (h : ℕ) : ∃ l ≤ b, Leaf marks h l := by
  have hex : ∃ l, marks (node h l) = false := by
    refine ⟨b,?_⟩
    by_contra hmarked
    have hlt := hlow _ (Bool.eq_true_of_not_eq_false hmarked)
    have hle := (node_bounds h b).1
    omega
  refine ⟨Nat.find hex,?_,?_,Nat.find_spec hex⟩
  · by_contra hlt
    have hmarked := Nat.find_min hex (Nat.lt_of_not_le hlt)
    have hlow := hlow _ (Bool.eq_true_of_not_eq_false hmarked)
    have hle := (node_bounds h b).1
    omega
  · exact fun i hi => Bool.eq_true_of_not_eq_false (Nat.find_min hex hi)

end Edelib.Foundation.HeapTrie
