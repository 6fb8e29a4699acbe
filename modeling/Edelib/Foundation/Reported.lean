import Mathlib.Data.List.Basic

/-! # Results with reported errors

A function gives a value, fails after it reported errors, or has no result. What stands in the way of a value is
given without the texts of the errors, by an obstacle.
-/
namespace Edelib.Foundation

inductive Reported (α : Type*)
  | value (a : α)
  | refused (errors : List String)
  | aborted

namespace Reported
variable {α β : Type*}

def bind (r : Reported α) (f : α → Reported β) : Reported β :=
  match r with
  | value a => f a
  | refused errors => refused errors
  | aborted => aborted

def map (f : α → β) (r : Reported α) : Reported β := r.bind (fun a => value (f a))

def orReport (r : Reported α) (error : String) : Reported α :=
  match r with
  | refused errors => refused (errors ++ [error])
  | r => r

/-- A silent obstacle fails without an error. -/
inductive Obstacle
  | silent | reported | fatal
deriving DecidableEq

def Obstacle.within : Obstacle → Obstacle
  | silent => reported
  | reported => reported
  | fatal => fatal

def Settles (P : α → Prop) : Option Obstacle → Reported α → Prop
  | none, value a => P a
  | some .silent, refused errors => errors = []
  | some .reported, refused errors => errors ≠ []
  | some .fatal, aborted => True
  | _, _ => False

variable {P : α → Prop} {Q : β → Prop} {o o' : Option Obstacle} {r : Reported α}

theorem elim_aborted (a : Option α) (f : α → Reported β) : a.elim aborted f = (a.elim aborted value).bind f := by
  cases a <;> rfl

/-- The first obstacle decides. -/
theorem Settles.bind {f : α → Reported β} (h : Settles P o r) (hf : ∀ a, P a → Settles Q o' (f a)) :
    Settles Q (o.or o') (r.bind f) := by
  cases r with
  | value a =>
    cases o with
    | none => exact hf a h
    | some o => cases o <;> exact h.elim
  | refused errors =>
    cases o with
    | none => exact h.elim
    | some o => cases o <;> exact h
  | aborted =>
    cases o with
    | none => exact h.elim
    | some o => cases o <;> exact h

theorem Settles.imp {P' : α → Prop} (h : Settles P o r) (hP : ∀ a, P a → P' a) : Settles P' o r := by
  cases r with
  | value a =>
    cases o with
    | none => exact hP a h
    | some o => cases o <;> exact h.elim
  | refused errors =>
    cases o with
    | none => exact h.elim
    | some o => cases o <;> exact h
  | aborted =>
    cases o with
    | none => exact h.elim
    | some o => cases o <;> exact h

theorem Settles.map {f : α → β} (h : Settles P o r) (hf : ∀ a, P a → Q (f a)) : Settles Q o (r.map f) := by
  have hbind : Settles Q (o.or none) (r.bind (fun a => value (f a))) := h.bind hf
  rwa [Option.or_none] at hbind

theorem Settles.orReport (h : Settles P o r) (error : String) :
    Settles P (o.map Obstacle.within) (r.orReport error) := by
  cases r with
  | value a =>
    cases o with
    | none => exact h
    | some o => cases o <;> exact h.elim
  | refused errors =>
    cases o with
    | none => exact h.elim
    | some o =>
      cases o with
      | silent => exact List.append_ne_nil_of_right_ne_nil errors (List.cons_ne_nil error [])
      | reported => exact List.append_ne_nil_of_right_ne_nil errors (List.cons_ne_nil error [])
      | fatal => exact h.elim
  | aborted =>
    cases o with
    | none => exact h.elim
    | some o => cases o <;> exact h

end Reported

end Edelib.Foundation
