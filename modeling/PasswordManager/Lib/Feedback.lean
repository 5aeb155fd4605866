import Mathlib.Algebra.Group.Basic

/-!
# Registers with feedback

A word is the word `k` places before it plus a function of the word just before it. So a window of `k` words
gives the words on both sides of it.
-/

namespace Feedback

variable {A : Type*} [AddGroup A]

def Follows (k : Nat) (g : Nat → A → A) (bound : Nat) (u : Nat → A) : Prop :=
  ∀ i, i + k < bound → u (i + k) = u i + g (i + k) (u (i + k - 1))

variable {k bound m : Nat} {g : Nat → A → A} {u v : Nat → A}

theorem agree_after (hu : Follows k g bound u) (hv : Follows k g bound v) (hk : 0 < k)
    (h : ∀ i, m ≤ i → i < m + k → u i = v i) : ∀ i, m ≤ i → i < bound → u i = v i := by
  intro i
  induction i using Nat.strongRecOn with
  | ind i ih =>
    intro hm hi
    by_cases hwindow : i < m + k
    · exact h i hm hwindow
    · obtain ⟨j, rfl⟩ : ∃ j, i = j + k := ⟨i - k, by omega⟩
      rw [hu j hi, hv j hi, ih j (by omega) (by omega) (by omega),
        ih (j + k - 1) (by omega) (by omega) (by omega)]

/-- The window is moved down one word at a time. -/
theorem agree_before (hu : Follows k g bound u) (hv : Follows k g bound v) (hk : 1 < k)
    (hm : m + k ≤ bound) (h : ∀ i, m ≤ i → i < m + k → u i = v i) :
    ∀ n, ∀ i, m ≤ i + n → i < m + k → u i = v i := by
  intro n
  induction n with
  | zero => exact h
  | succ n ih =>
    intro i hi hlt
    by_cases hlast : m ≤ i + n
    · exact ih i hlast hlt
    · have hsum : u i + g (i + k) (u (i + k - 1)) = v i + g (i + k) (v (i + k - 1)) := by
        rw [← hu i (by omega), ← hv i (by omega)]
        exact ih (i + k) (by omega) (by omega)
      rw [ih (i + k - 1) (by omega) (by omega)] at hsum
      exact add_right_cancel hsum

theorem agree (hu : Follows k g bound u) (hv : Follows k g bound v) (hk : 1 < k) (hm : m + k ≤ bound)
    (h : ∀ i, m ≤ i → i < m + k → u i = v i) {i : Nat} (hi : i < bound) : u i = v i := by
  rcases Nat.lt_or_ge i m with hlt | hge
  · exact agree_before hu hv hk hm h m i (by omega) (by omega)
  · exact agree_after hu hv (by omega) h i hge hi

end Feedback
