import Mathlib.Data.List.TakeDrop
import Mathlib.Tactic.Common

/-!
# NOR flash cells

Programming a cell can only clear bits of it, and erasing sets all of them.
-/

namespace Nor

variable {w : Nat}

/-- The content of an erased cell. -/
def blank : BitVec w := BitVec.allOnes w

@[simp] theorem and_blank (b : BitVec w) : b &&& blank = b := BitVec.and_allOnes

@[simp] theorem blank_and (b : BitVec w) : blank &&& b = b := BitVec.allOnes_and

/-- Programs `data` into the cells from `a` on. -/
def burn (c : Nat → BitVec w) (a : Nat) (data : List (BitVec w)) : Nat → BitVec w :=
  fun x => c x &&& if a ≤ x then data.getD (x - a) blank else blank

def wipe (region : Nat → Prop) [DecidablePred region] (c : Nat → BitVec w) : Nat → BitVec w :=
  fun x => if region x then blank else c x

def read (c : Nat → BitVec w) (a n : Nat) : List (BitVec w) := (List.range n).map fun i => c (a + i)

/-- The cells from `a` on hold exactly `data`. -/
def Holds (c : Nat → BitVec w) (a : Nat) (data : List (BitVec w)) : Prop :=
  read c a data.length = data

instance (c : Nat → BitVec w) (a : Nat) (data : List (BitVec w)) : Decidable (Holds c a data) :=
  inferInstanceAs (Decidable (_ = _))

/-! ## Reading -/

@[simp] theorem length_read (c : Nat → BitVec w) (a n : Nat) : (read c a n).length = n := by
  simp [read]

@[simp] theorem getElem_read (c : Nat → BitVec w) (a n i : Nat) (h : i < (read c a n).length) :
    (read c a n)[i] = c (a + i) := by
  simp [read]

theorem read_congr {c c' : Nat → BitVec w} {a n : Nat} (h : ∀ x, a ≤ x → x < a + n → c x = c' x) :
    read c a n = read c' a n := by
  apply List.map_congr_left
  intro i hi
  have hn := List.mem_range.mp hi
  exact h _ (by omega) (by omega)

theorem read_add (c : Nat → BitVec w) (a m n : Nat) :
    read c a (m + n) = read c a m ++ read c (a + m) n := by
  apply List.ext_getElem
  · simp
  · intro i h _
    simp only [length_read] at h
    by_cases hi : i < m
    · simp [List.getElem_append_left, hi]
    · rw [List.getElem_append_right (by simp; omega)]
      simp only [getElem_read, length_read]
      congr 1
      omega

theorem read_eq_iff {c c' : Nat → BitVec w} {a n : Nat} :
    read c a n = read c' a n ↔ ∀ x, a ≤ x → x < a + n → c x = c' x := by
  refine ⟨fun h x hx hx' => ?_, read_congr⟩
  have hcell := List.map_inj_left.mp h (x - a) (List.mem_range.mpr (by omega))
  rwa [Nat.add_sub_cancel' hx] at hcell

theorem take_read (c : Nat → BitVec w) (a : Nat) {k n : Nat} (h : k ≤ n) :
    (read c a n).take k = read c a k := by
  rw [← Nat.add_sub_cancel' h, read_add, List.take_left' (length_read c a k)]

theorem drop_read (c : Nat → BitVec w) (a : Nat) {k n : Nat} (h : k ≤ n) :
    (read c a n).drop k = read c (a + k) (n - k) := by
  conv_lhs => rw [← Nat.add_sub_cancel' h, read_add, List.drop_left' (length_read c a k)]

theorem holds_iff {c : Nat → BitVec w} {a : Nat} {data : List (BitVec w)} :
    Holds c a data ↔ ∀ i (h : i < data.length), c (a + i) = data[i] := by
  constructor
  · intro h i hi
    have hr := List.getElem_of_eq h (by simpa using hi)
    simpa using hr
  · intro h
    apply List.ext_getElem
    · simp
    · intro i _ hi
      simp [h i hi]

theorem Holds.read {c : Nat → BitVec w} {a n : Nat} {data : List (BitVec w)} (h : Holds c a data)
    (hn : n = data.length) : read c a n = data := by
  rw [hn]; exact h

theorem Holds.congr {c c' : Nat → BitVec w} {a : Nat} {data : List (BitVec w)} (h : Holds c a data)
    (hc : ∀ x, a ≤ x → x < a + data.length → c x = c' x) : Holds c' a data := by
  rw [Holds, ← read_congr hc]
  exact h

theorem Holds.unique {c : Nat → BitVec w} {a : Nat} {l l' : List (BitVec w)} (h : Holds c a l)
    (h' : Holds c a l') (hlen : l.length = l'.length) : l = l' := by
  rw [← h, hlen]
  exact h'

theorem holds_append {c : Nat → BitVec w} {a : Nat} {l r : List (BitVec w)} :
    Holds c a (l ++ r) ↔ Holds c a l ∧ Holds c (a + l.length) r := by
  simp only [Holds, List.length_append, read_add]
  constructor
  · intro h
    exact List.append_inj h (by simp)
  · rintro ⟨hl, hr⟩
    rw [hl, hr]

/-! ## Programming -/

theorem burn_nil (c : Nat → BitVec w) (a : Nat) : burn c a [] = c := by
  funext x
  simp [burn]

theorem burn_outside {c : Nat → BitVec w} {a x : Nat} {data : List (BitVec w)}
    (h : x < a ∨ a + data.length ≤ x) : burn c a data x = c x := by
  unfold burn
  split
  · rw [List.getD_eq_getElem?_getD, List.getElem?_eq_none (by omega), Option.getD_none, and_blank]
  · simp

theorem burn_at (c : Nat → BitVec w) (a i : Nat) (data : List (BitVec w)) (h : i < data.length) :
    burn c a data (a + i) = c (a + i) &&& data[i] := by
  simp [burn, List.getD_eq_getElem?_getD, h]

theorem burn_cons (c : Nat → BitVec w) (a : Nat) (d : BitVec w) (ds : List (BitVec w)) :
    burn c a (d :: ds) = burn (burn c a [d]) (a + 1) ds := by
  funext x
  unfold burn
  rcases Nat.lt_trichotomy x a with hx | rfl | hx
  · simp [show ¬ a ≤ x by omega, show ¬ a + 1 ≤ x by omega]
  · simp [show ¬ x + 1 ≤ x by omega]
  · obtain ⟨k, rfl⟩ : ∃ k, x = a + 1 + k := ⟨x - (a + 1), by omega⟩
    simp [show a + 1 + k - a = k + 1 by omega, show a ≤ a + 1 + k by omega]

theorem burn_append (c : Nat → BitVec w) (a : Nat) (l r : List (BitVec w)) :
    burn c a (l ++ r) = burn (burn c a l) (a + l.length) r := by
  induction l generalizing c a with
  | nil => simp [burn_nil]
  | cons d ds ih =>
    rw [List.cons_append, burn_cons, ih, ← burn_cons, List.length_cons, Nat.add_assoc,
      Nat.add_comm 1]

theorem burn_cons_blank (c : Nat → BitVec w) (a : Nat) (ds : List (BitVec w)) :
    burn c a (blank :: ds) = burn c (a + 1) ds := by
  have h : burn c a [blank] = c := by
    funext x
    unfold burn
    split
    · cases x - a <;> simp
    · simp
  rw [burn_cons, h]

theorem burn_replicate_blank (c : Nat → BitVec w) (a n : Nat) :
    burn c a (List.replicate n blank) = c := by
  induction n generalizing a with
  | zero => exact burn_nil c a
  | succ n ih => rw [List.replicate_succ, burn_cons_blank, ih]

/-- The list filled up to a length with what erased cells hold. -/
def fill (n : Nat) (l : List (BitVec w)) : List (BitVec w) := l ++ List.replicate (n - l.length) blank

theorem length_fill {n : Nat} {l : List (BitVec w)} (h : l.length ≤ n) : (fill n l).length = n := by
  simp only [fill, List.length_append, List.length_replicate]
  omega

theorem burn_fill (c : Nat → BitVec w) (a n : Nat) (l : List (BitVec w)) :
    burn c a (fill n l) = burn c a l := by
  rw [fill, burn_append, burn_replicate_blank]

theorem fill_length (l : List (BitVec w)) : fill l.length l = l := by simp [fill]

theorem getElem_fill {n i : Nat} {l : List (BitVec w)} (h : l.length ≤ i)
    (hi : i < (fill n l).length) : (fill n l)[i] = blank := by
  simp [fill, List.getElem_append_right h]

theorem holds_burn {c : Nat → BitVec w} {a : Nat} {data : List (BitVec w)}
    (h : ∀ x, a ≤ x → x < a + data.length → c x = blank) : Holds (burn c a data) a data := by
  rw [holds_iff]
  intro i hi
  rw [burn_at _ _ _ _ hi, h _ (by omega) (by omega), blank_and]

/-! ## Programming erased cells -/

/-- The `n` cells from `a` on are erased. -/
def Blank (c : Nat → BitVec w) (a n : Nat) : Prop := ∀ x, a ≤ x → x < a + n → c x = blank

/-- What ordinary memory does: `data` goes to the cells from `a` on, whatever they hold. -/
def put (c : Nat → BitVec w) (a : Nat) (data : List (BitVec w)) : Nat → BitVec w :=
  fun x => if a ≤ x then data.getD (x - a) (c x) else c x

theorem Blank.within {c : Nat → BitVec w} {a n a' n' : Nat} (h : Blank c a n) (hlow : a ≤ a')
    (hhigh : a' + n' ≤ a + n) : Blank c a' n' :=
  fun x hx hx' => h x (by omega) (by omega)

theorem Blank.congr {c c' : Nat → BitVec w} {a n : Nat} (h : Blank c a n)
    (hc : ∀ x, a ≤ x → x < a + n → c' x = c x) : Blank c' a n :=
  fun x hx hx' => (hc x hx hx').trans (h x hx hx')

/-- Only erased cells can be programmed like ordinary memory. -/
theorem Blank.burn {c : Nat → BitVec w} {a : Nat} {data : List (BitVec w)} (h : Blank c a data.length) :
    burn c a data = put c a data := by
  funext x
  by_cases hin : a ≤ x ∧ x < a + data.length
  · obtain ⟨i, rfl⟩ := Nat.exists_eq_add_of_le hin.1
    have hi : i < data.length := by omega
    rw [burn_at _ _ _ _ hi, h _ hin.1 hin.2, blank_and]
    simp [put, List.getD_eq_getElem?_getD, hi]
  · rw [burn_outside (by omega), put]
    split
    · rw [List.getD_eq_getElem?_getD, List.getElem?_eq_none (by omega), Option.getD_none]
    · rfl

/-! ## Doing it twice -/

theorem wipe_wipe (region : Nat → Prop) [DecidablePred region] (c : Nat → BitVec w) :
    wipe region (wipe region c) = wipe region c := by
  funext x
  unfold wipe
  split <;> rfl

theorem burn_burn (c : Nat → BitVec w) (a : Nat) (data : List (BitVec w)) :
    burn (burn c a data) a data = burn c a data := by
  funext x
  unfold burn
  rw [BitVec.and_assoc, BitVec.and_self]

end Nor
