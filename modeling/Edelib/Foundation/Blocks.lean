import Mathlib.Algebra.Order.Ring.Int
import Mathlib.Data.List.Infix

/-! # Blocks of memory

A block is allocated with whatever the memory held there. To read a freed block, to write to a
constant one and to reach over the end of a block are faults.
-/
namespace Edelib.Foundation

inductive Fault
  | freed
  | constant
  | outside
  | assertion
  deriving DecidableEq

theorem ok_bind {β γ : Type} (b : β) (f : β → Except Fault γ) : (Except.ok b >>= f) = f b := rfl

theorem of_bind_ok {β γ : Type} {e : Except Fault β} {f : β → Except Fault γ} {c : γ} (h : (e >>= f) = .ok c) :
    ∃ b, e = .ok b ∧ f b = .ok c := by
  cases e with
  | error e => cases h
  | ok b => exact ⟨b,rfl,h⟩

/-- Of a computation that has one result a property can be checked there. -/
instance decidableOk {β : Type} {P : β → Prop} [∀ b, Decidable (P b)] :
    (e : Except Fault β) → Decidable (∀ b, e = .ok b → P b)
  | .ok b => decidable_of_iff (P b) ⟨fun h _ hb => Except.ok.inj hb ▸ h,fun h => h b rfl⟩
  | .error _ => isTrue (fun _ h => nomatch h)

structure Region (α : Type) where
  data : List α
  const : Bool

/-- The memory, with the address that is allocated next and what is found at each. -/
structure Blocks (α : Type) where
  block : ℕ → Option (Region α)
  fresh : ℕ
  junk : ℕ → ℕ → α

namespace Blocks
variable {α : Type}

def put (m : Blocks α) (a : ℕ) (b : Option (Region α)) : Blocks α :=
  { m with block := fun a' => if a' = a then b else m.block a' }

def alloc (m : Blocks α) (n : ℕ) : Blocks α × ℕ :=
  ({ m.put m.fresh (some ⟨(List.range n).map (m.junk m.fresh),false⟩) with fresh := m.fresh + 1 },m.fresh)

def free (m : Blocks α) (a : ℕ) : Except Fault (Blocks α) :=
  match m.block a with
  | none => .error .freed
  | some b => if b.const then .error .constant else .ok (m.put a none)

/-- Nothing is read where no element is asked for. -/
def read (m : Blocks α) (a len : ℕ) : Except Fault (List α) :=
  if len = 0 then .ok []
  else match m.block a with
    | none => .error .freed
    | some b => if len ≤ b.data.length then .ok (b.data.take len) else .error .outside

def write (m : Blocks α) (a i : ℕ) (bs : List α) : Except Fault (Blocks α) :=
  if bs.length = 0 then .ok m
  else match m.block a with
    | none => .error .freed
    | some b =>
      if b.const then .error .constant
      else if i + bs.length ≤ b.data.length then
        .ok (m.put a (some { b with data := b.data.take i ++ bs ++ b.data.drop (i + bs.length) }))
      else .error .outside

structure Keeps (m m' : Blocks α) (S : ℕ → Prop) : Prop where
  fresh : m.fresh ≤ m'.fresh
  same : ∀ a, a < m.fresh → ¬ S a → m'.block a = m.block a

structure Area (m : Blocks α) (size a : ℕ) (xs : List α) : Prop where
  lt_fresh : a < m.fresh
  holds : ∃ data, m.block a = some ⟨data,false⟩ ∧ data.length = size ∧ xs <+: data

variable {m m' m'' : Blocks α} {S S' : ℕ → Prop} {size a : ℕ} {xs : List α}

theorem Keeps.refl (m : Blocks α) (S : ℕ → Prop) : Keeps m m S := ⟨Nat.le_refl _,fun _ _ _ => rfl⟩

theorem Keeps.mono (h : Keeps m m' S) (hS : ∀ a, S a → S' a) : Keeps m m' S' :=
  ⟨h.fresh,fun a ha hnot => h.same a ha (fun hs => hnot (hS a hs))⟩

/-- A second change may be to blocks that the first has allocated. -/
theorem Keeps.trans (h : Keeps m m' S) (h' : Keeps m' m'' S') (hS : ∀ a, S' a → S a ∨ m.fresh ≤ a) :
    Keeps m m'' S := by
  refine ⟨h.fresh.trans h'.fresh,fun a ha hSa => ?_⟩
  have hS' : ¬ S' a := fun hs => (hS a hs).elim hSa (fun hle => absurd ha (Nat.not_lt.mpr hle))
  exact (h'.same a (ha.trans_le h.fresh) hS').trans (h.same a ha hSa)

theorem Keeps.area (h : Keeps m m' S) (ha : Area m size a xs) (hS : ¬ S a) : Area m' size a xs := by
  obtain ⟨data,hdata,hsize⟩ := ha.holds
  exact ⟨ha.lt_fresh.trans_le h.fresh,data,(h.same a ha.lt_fresh hS).trans hdata,hsize⟩

theorem Area.of_begins {ys : List α} (h : Area m size a xs) (hys : ys <+: xs) : Area m size a ys := by
  obtain ⟨data,hdata,hsize,hxs⟩ := h.holds
  exact ⟨h.lt_fresh,data,hdata,hsize,hys.trans hxs⟩

theorem alloc_spec (m : Blocks α) (n : ℕ) :
    (m.alloc n).2 = m.fresh ∧ Area (m.alloc n).1 n m.fresh [] ∧ Keeps m (m.alloc n).1 (fun _ => False) := by
  refine ⟨rfl,⟨Nat.lt_succ_self _,_,if_pos rfl,?_,List.nil_prefix⟩,⟨Nat.le_succ _,fun a ha _ => ?_⟩⟩
  · rw [List.length_map,List.length_range]
  · exact if_neg (Nat.ne_of_lt ha)

theorem free_spec (h : Area m size a xs) :
    ∃ m', m.free a = .ok m' ∧ m'.block a = none ∧ m'.fresh = m.fresh ∧ Keeps m m' (· = a) := by
  obtain ⟨data,hdata,-⟩ := h.holds
  refine ⟨m.put a none,?_,if_pos rfl,rfl,⟨Nat.le_refl _,fun b _ hb => if_neg hb⟩⟩
  rw [free,hdata]
  rfl

theorem read_eq {b : Region α} (hb : m.block a = some b) {len : ℕ} (hlen : len ≤ b.data.length) :
    m.read a len = .ok (b.data.take len) := by
  rw [read]
  by_cases h0 : len = 0
  · rw [if_pos h0,h0,List.take_zero]
  · rw [if_neg h0,hb]
    exact if_pos hlen

theorem length_of_read {len : ℕ} (h : m.read a len = .ok xs) : xs.length = len := by
  rw [read] at h
  by_cases h0 : len = 0
  · rw [if_pos h0] at h
    cases h
    exact h0.symm
  · rw [if_neg h0] at h
    split at h
    · cases h
    · split_ifs at h with hle
      cases h
      exact List.length_take_of_le hle

theorem take_of_begins {xs ys : List α} (h : xs <+: ys) {len : ℕ} (hlen : len ≤ xs.length) :
    ys.take len = xs.take len := by
  obtain ⟨rest,rfl⟩ := h
  exact List.take_append_of_le_length hlen

theorem Area.read (h : Area m size a xs) {len : ℕ} (hlen : len ≤ xs.length) : m.read a len = .ok (xs.take len) := by
  obtain ⟨data,hdata,-,hxs⟩ := h.holds
  rw [read_eq hdata (hlen.trans hxs.length_le),take_of_begins hxs hlen]

theorem Area.write (h : Area m size a xs) (bs : List α) (hfits : xs.length + bs.length ≤ size) :
    ∃ m', m.write a xs.length bs = .ok m' ∧ Area m' size a (xs ++ bs) ∧ m'.fresh = m.fresh ∧ Keeps m m' (· = a) := by
  obtain ⟨data,hdata,hsize,hxs⟩ := h.holds
  rw [Blocks.write]
  by_cases h0 : bs.length = 0
  · obtain rfl := List.length_eq_zero_iff.mp h0
    rw [List.append_nil]
    exact ⟨m,if_pos rfl,h,rfl,Keeps.refl m _⟩
  · have htake : data.take xs.length = xs := (List.prefix_iff_eq_take.mp hxs).symm
    refine ⟨m.put a (some ⟨xs ++ bs ++ data.drop (xs.length + bs.length),false⟩),?_,⟨h.lt_fresh,_,if_pos rfl,?_,?_⟩,rfl,
      Nat.le_refl _,fun b _ hb => if_neg hb⟩
    · rw [if_neg h0,hdata]
      dsimp only
      rw [if_neg Bool.false_ne_true,if_pos (hsize ▸ hfits),htake]
    · rw [List.length_append,List.length_append,List.length_drop]
      omega
    · exact List.prefix_append _ _

theorem keeps_put (m : Blocks α) (a : ℕ) (b : Option (Region α)) : Keeps m (m.put a b) (· = a) :=
  ⟨Nat.le_refl _,fun _ _ hb => if_neg hb⟩

theorem keeps_of_free (h : m.free a = .ok m') : Keeps m m' (· = a) := by
  rw [free] at h
  split at h
  · cases h
  · split_ifs at h
    cases h
    exact keeps_put m a none

/-- A write that is no fault stays in the block. -/
theorem Area.of_write (h : Area m size a xs) {i : ℕ} {bs : List α} (hw : m.write a i bs = .ok m') :
    Area m' size a [] ∧ Keeps m m' (· = a) ∧ (bs ≠ [] → i + bs.length ≤ size) := by
  obtain ⟨data,hdata,hsize,-⟩ := h.holds
  rw [Blocks.write] at hw
  by_cases h0 : bs.length = 0
  · rw [if_pos h0] at hw
    cases hw
    exact ⟨h.of_begins List.nil_prefix,Keeps.refl m _,fun hne => absurd (List.length_eq_zero_iff.mp h0) hne⟩
  · rw [if_neg h0,hdata] at hw
    dsimp only at hw
    rw [if_neg Bool.false_ne_true] at hw
    split_ifs at hw with hfits
    cases hw
    refine ⟨⟨h.lt_fresh,_,if_pos rfl,?_,List.nil_prefix⟩,keeps_put m a _,fun _ => hsize ▸ hfits⟩
    rw [List.length_append,List.length_append,List.length_take,List.length_drop]
    omega

end Blocks
end Edelib.Foundation
