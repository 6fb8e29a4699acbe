import Mathlib.Data.List.Basic

/-! # Scanners

A scanner takes some elements at a step and puts as many out, after a look at all that is left. Where no step goes
beyond a separator unless it ends there, what is on the two sides of the separator can be scanned one after the other.
-/
namespace Edelib.Foundation

structure Scanner (σ α β : Type) where
  step : σ → α → List α → List β × σ × List α
  paced : ∀ s c text, (step s c text).1.length + (step s c text).2.2.length = text.length + 1
  moves : ∀ s c text, (step s c text).2.2.length ≤ text.length

namespace Scanner
variable {σ α β : Type} (sc : Scanner σ α β)

def scan : ℕ → σ → List α → List β × σ
  | 0,s,_ => ([],s)
  | _ + 1,s,[] => ([],s)
  | n + 1,s,c :: text =>
    ((sc.step s c text).1 ++ (scan n (sc.step s c text).2.1 (sc.step s c text).2.2).1,
      (scan n (sc.step s c text).2.1 (sc.step s c text).2.2).2)

def run (s : σ) (text : List α) : List β × σ := sc.scan text.length s text

theorem run_nil (s : σ) : sc.run s [] = ([],s) := rfl

/-- There are no more steps than elements. -/
theorem scan_eq {n : ℕ} {s : σ} {text : List α} (h : text.length ≤ n) : sc.scan n s text = sc.run s text := by
  have hany : ∀ n m s (text : List α), text.length ≤ n → text.length ≤ m → sc.scan n s text = sc.scan m s text := by
    intro n
    induction n with
    | zero =>
      intro m s text hn _
      obtain rfl := List.length_eq_zero_iff.mp (Nat.le_zero.mp hn)
      cases m <;> rfl
    | succ n ih =>
      intro m s text hn hm
      cases text with
      | nil => cases m <;> rfl
      | cons c text =>
        rw [List.length_cons] at hn hm
        obtain ⟨m,rfl⟩ : ∃ k, m = k + 1 := ⟨m - 1,by omega⟩
        have hmoves := sc.moves s c text
        rw [scan,scan,ih m _ _ (by omega) (by omega)]
  exact hany n text.length s text h Nat.le.refl

theorem run_cons (s : σ) (c : α) (text : List α) : sc.run s (c :: text) =
    ((sc.step s c text).1 ++ (sc.run (sc.step s c text).2.1 (sc.step s c text).2.2).1,
      (sc.run (sc.step s c text).2.1 (sc.step s c text).2.2).2) := by
  rw [run,List.length_cons,scan,sc.scan_eq (sc.moves s c text)]

/-- What holds for what is left by a step holds for all. -/
theorem induction {motive : σ → List α → Prop} (nil : ∀ s, motive s [])
    (cons : ∀ s c text, motive (sc.step s c text).2.1 (sc.step s c text).2.2 → motive s (c :: text)) (s : σ)
    (text : List α) : motive s text := by
  have hle : ∀ n s (text : List α), text.length ≤ n → motive s text := by
    intro n
    induction n with
    | zero =>
      intro s text hn
      obtain rfl := List.length_eq_zero_iff.mp (Nat.le_zero.mp hn)
      exact nil s
    | succ n ih =>
      intro s text hn
      cases text with
      | nil => exact nil s
      | cons c text =>
        rw [List.length_cons] at hn
        exact cons s c text (ih _ _ (Nat.le_trans (sc.moves s c text) (by omega)))
  exact hle text.length s text Nat.le.refl

/-- As much is put out as is taken. -/
theorem length_run (s : σ) (text : List α) : (sc.run s text).1.length = text.length := by
  induction s, text using sc.induction with
  | nil s => rfl
  | cons s c text ih =>
    have hpaced := sc.paced s c text
    rw [run_cons,List.length_append,ih,List.length_cons,hpaced]

/-- What a step keeps is kept to the end. -/
theorem run_keeps {I : σ → Prop} (h : ∀ s c text, I s → I (sc.step s c text).2.1) {s : σ} (hs : I s)
    (text : List α) : I (sc.run s text).2 := by
  induction s, text using sc.induction with
  | nil s => exact hs
  | cons s c text ih =>
    rw [run_cons]
    exact ih (h s c text hs)

/-- In settled states a step stops before a separator, or behind one that it reaches as the end of what is scanned. -/
structure Splits (Settled : σ → Prop) (sep : α) (fin : σ → β × σ) : Prop where
  stops : ∀ s rest, Settled s → sc.step s sep rest = ([(fin s).1],(fin s).2,rest)
  step : ∀ s c text rest, Settled s →
    Settled (sc.step s c text).2.1 ∧ sc.step s c (text ++ sep :: rest) =
      ((sc.step s c text).1,(sc.step s c text).2.1,(sc.step s c text).2.2 ++ sep :: rest) ∨
    (sc.step s c text).2.2 = [] ∧ sc.step s c (text ++ sep :: rest) =
      ((sc.step s c text).1 ++ [(fin (sc.step s c text).2.1).1],(fin (sc.step s c text).2.1).2,rest)

variable {sc} {Settled : σ → Prop} {sep : α} {fin : σ → β × σ}

/-- What is behind a separator is scanned from where the separator leads. -/
theorem Splits.run_append (h : sc.Splits Settled sep fin) {s : σ} (hs : Settled s) (text rest : List α) :
    sc.run s (text ++ sep :: rest) =
      ((sc.run s text).1 ++ (fin (sc.run s text).2).1 :: (sc.run (fin (sc.run s text).2).2 rest).1,
        (sc.run (fin (sc.run s text).2).2 rest).2) := by
  induction s, text using sc.induction with
  | nil s =>
    rw [List.nil_append,run_cons,h.stops s rest hs,run_nil]
    rfl
  | cons s c text ih =>
    rw [List.cons_append,run_cons,run_cons sc s c text]
    obtain ⟨hsettled,heq⟩ | ⟨hnil,heq⟩ := h.step s c text rest hs
    · rw [heq]
      dsimp only
      rw [ih hsettled,List.append_assoc]
    · rw [heq,hnil,run_nil]
      dsimp only
      rw [List.append_nil,List.append_assoc]
      rfl

end Scanner

end Edelib.Foundation
