import Mathlib.Algebra.Order.Ring.Int
import Mathlib.Data.List.Infix
import Mathlib.Data.List.Nodup
import Mathlib.Data.List.Perm.Basic

/-! # Finite trees of paths

A tree is given by its nodes, each the labels from the root to it. A walk that lists a node and then
what is below each of its children lists every node once.
-/
namespace Edelib.Foundation

structure PathTree (α : Type*) where
  nodes : List (List α)
  nodup : nodes.Nodup
  root : [] ∈ nodes
  parent : ∀ p a, p ++ [a] ∈ nodes → p ∈ nodes

namespace PathTree
variable {α : Type*} (T : PathTree α)

structure Below (p : List α) (qs : List (List α)) : Prop where
  nodup : qs.Nodup
  mem_iff : ∀ q, q ∈ qs ↔ q ∈ T.nodes ∧ p <+: q

structure Under (p : List α) (names : List α) (qs : List (List α)) : Prop where
  nodup : qs.Nodup
  mem_iff : ∀ q, q ∈ qs ↔ q ∈ T.nodes ∧ ∃ a ∈ names, p ++ [a] <+: q

variable {T} {p : List α} {names : List α} {qs rs : List (List α)}

theorem mem_of_begins {q : List α} (hq : q ∈ T.nodes) (hp : p <+: q) : p ∈ T.nodes := by
  obtain ⟨tail,rfl⟩ := hp
  induction tail using List.reverseRecOn with
  | nil => rwa [List.append_nil] at hq
  | append_singleton tail a ih =>
    rw [← List.append_assoc] at hq
    exact ih (T.parent _ a hq)

/-- There is a level that no node is below. -/
theorem exists_depth (T : PathTree α) : ∃ depth, ∀ q ∈ T.nodes, q.length ≤ depth := by
  induction T.nodes with
  | nil => exact ⟨0,fun q hq => absurd hq List.not_mem_nil⟩
  | cons p nodes ih =>
    obtain ⟨depth,hdepth⟩ := ih
    refine ⟨max p.length depth,fun q hq => ?_⟩
    rcases List.mem_cons.mp hq with rfl | hq
    · exact Nat.le_max_left _ _
    · exact (hdepth q hq).trans (Nat.le_max_right _ _)

theorem under_nil (p : List α) : T.Under p [] [] :=
  ⟨List.nodup_nil,fun _ => iff_of_false List.not_mem_nil (fun ⟨_,_,ha,_⟩ => List.not_mem_nil ha)⟩

/-- Below two children of a node there is no node in common. -/
theorem label_unique {a b : α} {q : List α} (ha : p ++ [a] <+: q) (hb : p ++ [b] <+: q) : a = b := by
  have hlen : (p ++ [a]).length = (p ++ [b]).length := by
    rw [List.length_append,List.length_append]
    rfl
  have heq := (List.prefix_of_prefix_length_le ha hb hlen.le).eq_of_length hlen
  exact List.singleton_inj.mp (List.append_cancel_left heq)

theorem Under.cons {a : α} (ha : a ∉ names) (hbelow : T.Below (p ++ [a]) qs) (hunder : T.Under p names rs) :
    T.Under p (a :: names) (qs ++ rs) := by
  constructor
  · refine List.nodup_append'.mpr ⟨hbelow.nodup,hunder.nodup,fun q hq hr => ?_⟩
    obtain ⟨-,b,hb,hqb⟩ := (hunder.mem_iff q).mp hr
    exact ha (label_unique ((hbelow.mem_iff q).mp hq).2 hqb ▸ hb)
  · intro q
    rw [List.mem_append,hbelow.mem_iff,hunder.mem_iff,← and_or_left,List.exists_mem_cons_iff]

/-- A node comes before what is below its children. -/
theorem Under.below (hp : p ∈ T.nodes) (hnames : ∀ a, p ++ [a] ∈ T.nodes → a ∈ names) (h : T.Under p names qs) :
    T.Below p (p :: qs) := by
  constructor
  · refine List.nodup_cons.mpr ⟨fun hmem => ?_,h.nodup⟩
    obtain ⟨-,a,-,ha⟩ := (h.mem_iff p).mp hmem
    have hle := ha.length_le
    rw [List.length_append,List.length_singleton] at hle
    omega
  · intro q
    rw [List.mem_cons,h.mem_iff]
    constructor
    · rintro (rfl | ⟨hq,a,-,ha⟩)
      · exact ⟨hp,List.prefix_refl _⟩
      · exact ⟨hq,(List.prefix_append p [a]).trans ha⟩
    · rintro ⟨hq,⟨tail,rfl⟩⟩
      cases tail with
      | nil => exact Or.inl (List.append_nil p)
      | cons a tail =>
        have ha : p ++ [a] <+: p ++ a :: tail := (List.prefix_append_right_inj p).mpr ⟨tail,rfl⟩
        exact Or.inr ⟨hq,a,hnames a (mem_of_begins hq ha),ha⟩

/-- From the root on there are all nodes. -/
theorem Below.perm (h : T.Below [] qs) : qs.Perm T.nodes := by
  rw [List.perm_ext_iff_of_nodup h.nodup T.nodup]
  intro q
  rw [h.mem_iff]
  exact and_iff_left List.nil_prefix

end PathTree
end Edelib.Foundation
