import Mathlib.Algebra.Order.Ring.Int
import Mathlib.Data.List.Basic
import Mathlib.Data.List.Induction

/-! # Runs of a transition function

A run takes its steps in the order of a list of actions; a step that is not possible
ends it without a result. An invariant may speak of the actions taken so far, and a
run may be held to a condition on each action in the state where it is taken.
-/
namespace Edelib.Foundation.Transition
variable {σ α : Type*} (step : σ → α → Option σ)

def exec (s : σ) (acts : List α) : Option σ := acts.foldlM step s

theorem exec_snoc (s : σ) (acts : List α) (a : α) :
    exec step s (acts ++ [a]) = (exec step s acts).bind (fun s' => step s' a) := by
  simp only [exec,List.foldlM_append,List.foldlM_cons,List.foldlM_nil,Option.bind_eq_bind]
  cases List.foldlM step s acts with
  | none => rfl
  | some s' => simp

theorem exec_append (s : σ) (acts acts' : List α) :
    exec step s (acts ++ acts') = (exec step s acts).bind (fun s' => exec step s' acts') := List.foldlM_append ..

/-- An action that leaves the state can be taken as often as one likes. -/
theorem exec_replicate {s : σ} {a : α} (h : step s a = some s) (n : ℕ) : exec step s (List.replicate n a) = some s := by
  induction n with
  | zero => rfl
  | succ n ih => rw [List.replicate_succ,exec,List.foldlM_cons,h,Option.bind_eq_bind,Option.bind_some,← exec,ih]

def Along (C : σ → α → Prop) (s : σ) (acts : List α) : Prop :=
  ∀ before a after, acts = before ++ a :: after → ∀ s', exec step s before = some s' → C s' a

variable {step}

theorem Along.of_append {C : σ → α → Prop} {s : σ} {acts acts' : List α}
    (h : Along step C s (acts ++ acts')) : Along step C s acts := by
  rintro before a after rfl s' hs'
  exact h before a (after ++ acts') (by simp) s' hs'

theorem Along.init {C : σ → α → Prop} {s : σ} {acts : List α} {a : α}
    (h : Along step C s (acts ++ [a])) : Along step C s acts := h.of_append

theorem Along.last {C : σ → α → Prop} {s s' : σ} {acts : List α} {a : α}
    (h : Along step C s (acts ++ [a])) (hrun : exec step s acts = some s') : C s' a :=
  h acts a [] rfl s' hrun

theorem Along.snoc {C : σ → α → Prop} {s s' : σ} {acts : List α} {a : α} (h : Along step C s acts)
    (hrun : exec step s acts = some s') (ha : C s' a) : Along step C s (acts ++ [a]) := by
  intro before b after heq t ht
  rcases List.eq_nil_or_concat after with rfl | ⟨after,c,rfl⟩
  · obtain ⟨rfl,hb⟩ := List.append_inj' heq rfl
    obtain rfl : a = b := by simpa using hb
    rw [hrun] at ht
    cases ht
    exact ha
  · have hsplit : acts ++ [a] = (before ++ b :: after) ++ [c] := by
      rw [heq,List.append_assoc,List.cons_append,List.concat_eq_append]
    exact h before b after (List.append_inj' hsplit rfl).1 t ht

theorem along_nil (C : σ → α → Prop) (s : σ) : Along step C s [] := by
  intro before a after heq
  simp at heq

theorem along_cons {C : σ → α → Prop} {s : σ} {a : α} {acts : List α} :
    Along step C s (a :: acts) ↔ C s a ∧ ∀ s', step s a = some s' → Along step C s' acts := by
  constructor
  · intro h
    refine ⟨h [] a acts rfl s rfl,?_⟩
    rintro s' hs' before b after rfl t ht
    exact h (a :: before) b after rfl t (by simpa [exec,hs'] using ht)
  · rintro ⟨ha,h⟩ before b after heq t ht
    cases before with
    | nil =>
      cases heq
      cases ht
      exact ha
    | cons c before =>
      cases heq
      obtain ⟨s',hs',ht⟩ := Option.bind_eq_some_iff.mp ht
      exact h s' hs' before b after rfl t ht

/-- A run whose every step is possible has a result. -/
theorem Along.exec {C : σ → α → Prop} {s : σ} {acts : List α} (h : Along step C s acts)
    (hC : ∀ s a, C s a → ∃ s', step s a = some s') : ∃ s', exec step s acts = some s' := by
  induction acts generalizing s with
  | nil => exact ⟨s,rfl⟩
  | cons a acts ih =>
    obtain ⟨ha,hacts⟩ := along_cons.mp h
    obtain ⟨s₁,hs₁⟩ := hC s a ha
    obtain ⟨s',hs'⟩ := ih (hacts s₁ hs₁)
    exact ⟨s',by simpa [Transition.exec,hs₁] using hs'⟩

/-- A run whose every step keeps an invariant and takes away from a measure is no longer than
the measure. -/
theorem exec_length_le {μ : σ → ℕ} {I : σ → Prop} (hI : ∀ s a s', I s → step s a = some s' → I s' ∧ μ s' < μ s)
    {s s' : σ} (h0 : I s) {acts : List α} (hrun : exec step s acts = some s') : acts.length ≤ μ s := by
  induction acts generalizing s with
  | nil => exact Nat.zero_le _
  | cons a acts ih =>
    obtain ⟨s₁,hs₁,hrest⟩ := Option.bind_eq_some_iff.mp hrun
    obtain ⟨h₁,hlt⟩ := hI s a s₁ h0 hs₁
    have hle := ih h₁ hrest
    rw [List.length_cons]
    omega

/-- If every state that is not final has a step, and steps take away from a measure, some run
goes on to a final state. -/
theorem exec_final {μ : σ → ℕ} (hμ : ∀ s a s', step s a = some s' → μ s' < μ s) {Final : σ → Prop} {s s₁ : σ}
    {acts : List α} (hrun : exec step s acts = some s₁)
    (hgo : ∀ acts s', exec step s acts = some s' → ¬ Final s' → ∃ a s'', step s' a = some s'') :
    ∃ acts s', exec step s acts = some s' ∧ Final s' := by
  by_cases hfinal : Final s₁
  · exact ⟨acts,s₁,hrun,hfinal⟩
  · obtain ⟨a,s₂,hs₂⟩ := hgo acts s₁ hrun hfinal
    have hrun₂ : exec step s (acts ++ [a]) = some s₂ := by rw [exec_snoc,hrun,Option.bind_some,hs₂]
    have hlt := hμ s₁ a s₂ hs₂
    exact exec_final hμ hrun₂ hgo
termination_by μ s₁

/-- A run is finite, so its condition can be checked step by step. -/
instance decidableAlong {C : σ → α → Prop} [∀ s a, Decidable (C s a)] :
    (s : σ) → (acts : List α) → Decidable (Along step C s acts)
  | s, [] => isTrue (along_nil C s)
  | s, a :: acts =>
    match h : step s a with
    | none => decidable_of_iff (C s a) (by simp [along_cons,h])
    | some s' =>
      have := decidableAlong (C := C) s' acts
      decidable_of_iff (C s a ∧ Along step C s' acts) (by simp [along_cons,h])

/-- Where a condition says, in the states that an invariant allows and of the steps that an
assumption admits, what a law demands, and a lawful step keeps the invariant, a run of admitted
steps is lawful if and only if it meets the condition. -/
theorem along_iff_of {A L C : σ → α → Prop} {I : σ → Prop} (hiff : ∀ s a, I s → A s a → (L s a ↔ C s a))
    (hkeep : ∀ s a s', I s → A s a → L s a → step s a = some s' → I s') {s : σ} (h0 : I s) {acts : List α}
    (hA : Along step A s acts) : Along step L s acts ↔ Along step C s acts := by
  induction acts generalizing s with
  | nil => exact iff_of_true (along_nil L s) (along_nil C s)
  | cons a acts ih =>
    obtain ⟨hmeets,hmeetsAll⟩ := along_cons.mp hA
    rw [along_cons,along_cons,← hiff s a h0 hmeets]
    refine and_congr_right (fun ha => forall_congr' (fun s' => forall_congr' (fun hs' => ?_)))
    exact ih (hkeep s a s' h0 hmeets ha hs') (hmeetsAll s' hs')

/-- Where a condition says, in the states that an invariant allows, what a law demands of
a step, and a lawful step keeps the invariant, a run is lawful if and only if it meets the
condition. -/
theorem along_iff {L C : σ → α → Prop} {I : σ → Prop} (hiff : ∀ s a, I s → (L s a ↔ C s a))
    (hkeep : ∀ s a s', I s → L s a → step s a = some s' → I s') {s : σ} (h0 : I s) {acts : List α} :
    Along step L s acts ↔ Along step C s acts :=
  along_iff_of (A := fun _ _ => True) (fun s a hs _ => hiff s a hs) (fun s a s' hs _ => hkeep s a s' hs) h0
    (fun _ _ _ _ _ _ => trivial)

/-- A run that meets a condition is lawful, where the condition gives the law in the states
that an invariant allows, and a step that meets it keeps the invariant. -/
theorem Along.imp {L C : σ → α → Prop} {I : σ → Prop} (hlaw : ∀ s a, I s → C s a → L s a)
    (hkeep : ∀ s a s', I s → C s a → step s a = some s' → I s') {s : σ} (h0 : I s) {acts : List α}
    (h : Along step C s acts) : Along step L s acts := by
  induction acts generalizing s with
  | nil => exact along_nil L s
  | cons a acts ih =>
    obtain ⟨ha,hacts⟩ := along_cons.mp h
    exact along_cons.mpr ⟨hlaw s a h0 ha,fun s' hs' => ih (hkeep s a s' h0 ha hs') (hacts s' hs')⟩

/-- What holds initially and is kept by every step that meets the condition holds
after every run whose steps meet it. -/
theorem exec_invariant {C : σ → α → Prop} {I : List α → σ → Prop} {s : σ} (h0 : I [] s)
    (hstep : ∀ acts a s₁ s₂, exec step s acts = some s₁ → I acts s₁ → C s₁ a → step s₁ a = some s₂ →
      I (acts ++ [a]) s₂)
    {acts : List α} {s' : σ} (hC : Along step C s acts) (hrun : exec step s acts = some s') :
    I acts s' := by
  induction acts using List.reverseRecOn generalizing s' with
  | nil =>
    cases hrun
    exact h0
  | append_singleton acts a ih =>
    rw [exec_snoc] at hrun
    obtain ⟨s₁,hrun₁,hlast⟩ := Option.bind_eq_some_iff.mp hrun
    exact hstep acts a s₁ s' hrun₁ (ih hC.init hrun₁) (hC.last hrun₁) hlast

end Edelib.Foundation.Transition
