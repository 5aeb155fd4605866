import Mathlib.Order.Basic
import Mathlib.Tactic.Common

/-! # Intervals, each of which starts where the one before it ends -/

namespace Tiles

/-- The first `n` intervals lie side by side. -/
def Adjacent (start size : Nat → Nat) (n : Nat) : Prop := ∀ k < n, start (k + 1) = start k + size k

variable {start size : Nat → Nat} {n : Nat} (h : Adjacent start size n)
include h

theorem start_mono {j k : Nat} (hjk : j ≤ k) (hk : k ≤ n) : start j ≤ start k := by
  induction k with
  | zero =>
    obtain rfl := Nat.le_zero.mp hjk
    exact Nat.le_refl _
  | succ k ih =>
    rcases Nat.lt_or_eq_of_le hjk with hlt | rfl
    · have hprev := ih (by omega) (by omega)
      have hnext := h k (by omega)
      omega
    · exact Nat.le_refl _

/-- Every place of the range lies in one interval. -/
theorem exists_tile {a : Nat} (hlow : start 0 ≤ a) (hhigh : a < start n) :
    ∃ k < n, start k ≤ a ∧ a < start k + size k := by
  induction n with
  | zero => omega
  | succ n ih =>
    by_cases hlast : start n ≤ a
    · exact ⟨n, by omega, hlast, by rw [← h n (by omega)]; exact hhigh⟩
    · obtain ⟨k, hk, hin⟩ := ih (fun k hk => h k (by omega)) (by omega)
      exact ⟨k, by omega, hin⟩

theorem within {a k : Nat} (hk : k < n) (hlow : start k ≤ a) (hhigh : a < start k + size k) :
    start 0 ≤ a ∧ a < start n := by
  have hfirst := start_mono h (Nat.zero_le k) (by omega)
  have hlast := start_mono h (show k + 1 ≤ n from hk) (Nat.le_refl n)
  rw [h k hk] at hlast
  omega

/-- No place lies in two. -/
theorem unique_tile {a j k : Nat} (hj : j < n) (hk : k < n) (hja : start j ≤ a ∧ a < start j + size j)
    (hka : start k ≤ a ∧ a < start k + size k) : j = k := by
  rcases Nat.lt_trichotomy j k with hlt | heq | hlt
  · have hle := start_mono h (show j + 1 ≤ k from hlt) (by omega)
    rw [h j hj] at hle
    omega
  · exact heq
  · have hle := start_mono h (show k + 1 ≤ j from hlt) (by omega)
    rw [h k hk] at hle
    omega

end Tiles
