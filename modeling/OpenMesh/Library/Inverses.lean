import Mathlib

namespace OpenMesh.Library.Inverses

variable {α β : Type*} {f : α → Option β} {g : β → Option α} {a : α} {b : β}

/-- Two partial functions, each of which takes back what the other does. -/
def Inverse (f : α → Option β) (g : β → Option α) : Prop := ∀ a b, f a = some b ↔ g b = some a

theorem inverse_empty : Inverse (fun _ : α => (none : Option β)) (fun _ => none) := by
  intro a b
  simp

/-- A pair can be entered on both sides if it is there, or if neither of the two is. -/
def Free (f : α → Option β) (g : β → Option α) (a : α) (b : β) : Prop :=
  f a = some b ∨ f a = none ∧ g b = none

variable [DecidableEq α] [DecidableEq β]

/-- Entered on both sides, a pair does no harm exactly if it is free. -/
theorem inverse_update (h : Inverse f g) :
    Inverse (Function.update f a (some b)) (Function.update g b (some a)) ↔ Free f g a b := by
  constructor
  · intro after
    cases hf : f a with
    | some b' =>
      left
      by_contra hne
      have hb : b' ≠ b := fun hb => hne (by rw [hf, hb])
      have hback : Function.update g b (some a) b' = some a := by
        rw [Function.update_of_ne hb]
        exact (h a b').mp hf
      have hforth := (after a b').mpr hback
      rw [Function.update_self] at hforth
      exact hb (Option.some.inj hforth).symm
    | none =>
      refine Or.inr ⟨hf, ?_⟩
      cases hg : g b with
      | none => rfl
      | some a' =>
        have ha : a' ≠ a := by
          rintro rfl
          rw [(h _ _).mpr hg] at hf
          cases hf
        have hforth : Function.update f a (some b) a' = some b := by
          rw [Function.update_of_ne ha]
          exact (h a' b).mpr hg
        have hback := (after a' b).mp hforth
        rw [Function.update_self] at hback
        exact absurd (Option.some.inj hback).symm ha
  · intro free a' b'
    by_cases ha : a' = a <;> by_cases hb : b' = b
    · rw [ha, hb, Function.update_self, Function.update_self]
      exact iff_of_true rfl rfl
    · rw [ha, Function.update_self, Function.update_of_ne hb, ← h, Option.some.injEq]
      refine iff_of_false (Ne.symm hb) fun hf => ?_
      obtain hsame | ⟨hnone, -⟩ := free
      · exact hb (Option.some.inj (hf.symm.trans hsame))
      · cases hf.symm.trans hnone
    · rw [hb, Function.update_self, Function.update_of_ne ha, h, Option.some.injEq]
      refine iff_of_false (fun hg => ?_) (Ne.symm ha)
      obtain hsame | ⟨-, hnone⟩ := free
      · exact ha (Option.some.inj (hg.symm.trans ((h a b).mp hsame)))
      · cases hg.symm.trans hnone
    · rw [Function.update_of_ne ha, Function.update_of_ne hb]
      exact h a' b'

omit [DecidableEq β] in
theorem Free.keeps (free : Free f g a b) {a' : α} {b' : β} (h : f a' = some b') :
    Function.update f a (some b) a' = some b' := by
  by_cases ha : a' = a
  · subst ha
    rw [Function.update_self]
    obtain hsame | ⟨hnone, -⟩ := free
    · exact hsame.symm.trans h
    · cases hnone.symm.trans h
  · rw [Function.update_of_ne ha, h]

end OpenMesh.Library.Inverses
