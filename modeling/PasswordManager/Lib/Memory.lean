import Mathlib.Data.List.Basic
import Mathlib.Logic.Function.Basic

/-!
# Regions of a flat memory

A loop that writes one cell after the other, and what it leaves when its reads do not meet its writes.
-/

namespace Memory

variable {α : Type*}

/-- The cells from `p` on, `n` of them. -/
def load (m : Nat → α) (p n : Nat) : List α := (List.range n).map fun i => m (p + i)

def put (m : Nat → α) (p n : Nat) (f : Nat → α) : Nat → α :=
  fun a => if p ≤ a ∧ a < p + n then f (a - p) else m a

/-- `f m i` is written to cell `p + i`, for each `i` below `n` in turn. -/
def fill (m : Nat → α) (p n : Nat) (f : (Nat → α) → Nat → α) : Nat → α :=
  (List.range n).foldl (fun m i => Function.update m (p + i) (f m i)) m

@[simp] theorem length_load (m : Nat → α) (p n : Nat) : (load m p n).length = n := by
  simp [load]

theorem load_add (m : Nat → α) (p n k : Nat) : load m p (n + k) = load m p n ++ load m (p + n) k := by
  simp [load, List.range_add, Function.comp_def, Nat.add_assoc]

theorem take_load (m : Nat → α) (p : Nat) {n k : Nat} (h : n ≤ k) : (load m p k).take n = load m p n := by
  rw [← Nat.add_sub_cancel' h, load_add, List.take_left' (length_load m p n)]

theorem load_congr {m m' : Nat → α} {p n : Nat} (h : ∀ a, p ≤ a → a < p + n → m a = m' a) :
    load m p n = load m' p n := by
  apply List.map_congr_left
  intro i hi
  exact h (p + i) (Nat.le_add_right p i) (Nat.add_lt_add_left (List.mem_range.mp hi) p)

theorem put_inside (m : Nat → α) {p n i : Nat} (f : Nat → α) (h : i < n) : put m p n f (p + i) = f i := by
  rw [put, if_pos (by omega), Nat.add_sub_cancel_left]

theorem put_outside (m : Nat → α) {p n a : Nat} (f : Nat → α) (h : a < p ∨ p + n ≤ a) :
    put m p n f a = m a := by
  rw [put, if_neg (by omega)]

theorem put_succ (m : Nat → α) (p n : Nat) (f : Nat → α) :
    put m p (n + 1) f = Function.update (put m p n f) (p + n) (f n) := by
  funext a
  by_cases hlast : a = p + n
  · rw [hlast, put_inside m f (Nat.lt_succ_self n), Function.update_self]
  · rw [Function.update_of_ne hlast, put, put]
    by_cases hin : p ≤ a ∧ a < p + n
    · rw [if_pos hin, if_pos (by omega)]
    · rw [if_neg hin, if_neg (by omega)]

theorem fill_outside (m : Nat → α) {p n a : Nat} (f : (Nat → α) → Nat → α) (h : a < p ∨ p + n ≤ a) :
    fill m p n f a = m a := by
  induction n with
  | zero => rfl
  | succ n ih =>
    rw [fill, List.range_succ, List.foldl_append, List.foldl_cons, List.foldl_nil, ← fill,
      Function.update_of_ne (by omega), ih (by omega)]

/-- The rule for the loop: what is written to a cell must not depend on the cells before it. -/
theorem fill_eq {m : Nat → α} {p n : Nat} {f : (Nat → α) → Nat → α}
    (h : ∀ i < n, f (put m p i (f m)) i = f m i) : fill m p n f = put m p n (f m) := by
  induction n with
  | zero =>
    funext a
    rw [put_outside m _ (by omega)]
    rfl
  | succ n ih =>
    have hbefore := ih fun i hi => h i (by omega)
    rw [put_succ, fill, List.range_succ, List.foldl_append, List.foldl_cons, List.foldl_nil, ← fill, hbefore,
      h n (Nat.lt_succ_self n)]

/-- Copying upwards is right unless the target starts inside the source. -/
theorem fill_copy (m : Nat → α) {dst src n : Nat} (h : dst ≤ src ∨ src + n ≤ dst) :
    fill m dst n (fun m i => m (src + i)) = put m dst n fun i => m (src + i) := by
  apply fill_eq
  intro i hi
  exact put_outside m _ (by omega)

end Memory
