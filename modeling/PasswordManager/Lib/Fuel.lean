import Mathlib.Order.Basic

/-!
# Loops with fuel

A loop that may not end takes fuel and returns `none` when there is none left. Such a program
returns a value when every amount of fuel from some bound on gives it.
-/

namespace Fuel

variable {α β : Type}

/-- The program returns `a`. -/
def Yields (F : Nat → Option α) (a : α) : Prop := ∃ bound, ∀ fuel, bound ≤ fuel → F fuel = some a

theorem Yields.pure (a : α) : Yields (fun _ => some a) a := ⟨0, fun _ _ => rfl⟩

theorem Yields.unique {F : Nat → Option α} {a a' : α} (h : Yields F a) (h' : Yields F a') : a = a' := by
  obtain ⟨bound, h⟩ := h
  obtain ⟨bound', h'⟩ := h'
  have heq := (h _ (Nat.le_max_left bound bound')).symm.trans (h' _ (Nat.le_max_right bound bound'))
  exact Option.some.inj heq

/-- One turn of a loop costs one unit. -/
theorem Yields.succ {F G : Nat → Option α} {a : α} (hturn : ∀ fuel, F (fuel + 1) = G fuel)
    (h : Yields G a) : Yields F a := by
  obtain ⟨bound, h⟩ := h
  refine ⟨bound + 1, fun fuel hfuel => ?_⟩
  obtain ⟨fuel, rfl⟩ := Nat.exists_eq_add_of_le' (Nat.le_of_add_left_le hfuel)
  rw [hturn]
  exact h fuel (by omega)

theorem Yields.last {F : Nat → Option α} {a : α} (hturn : ∀ fuel, F (fuel + 1) = some a) :
    Yields F a :=
  .succ hturn (.pure a)

theorem Yields.bind {F : Nat → Option α} {G : α → Nat → Option β} {a : α} {b : β}
    (hF : Yields F a) (hG : Yields (G a) b) : Yields (fun fuel => F fuel >>= fun a => G a fuel) b := by
  obtain ⟨bound, hF⟩ := hF
  obtain ⟨bound', hG⟩ := hG
  refine ⟨bound + bound', fun fuel hfuel => ?_⟩
  show (F fuel).bind (fun a => G a fuel) = some b
  rw [hF fuel (Nat.le_of_add_right_le hfuel)]
  exact hG fuel (Nat.le_of_add_left_le hfuel)

theorem Yields.map {F : Nat → Option α} {a : α} (f : α → β) (h : Yields F a) :
    Yields (fun fuel => (F fuel).map f) (f a) := by
  obtain ⟨bound, h⟩ := h
  exact ⟨bound, fun fuel hfuel => by simp only [h fuel hfuel, Option.map_some]⟩

end Fuel
