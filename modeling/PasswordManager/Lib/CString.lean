import Mathlib.Data.List.TakeWhile
import Mathlib.Tactic.Common

/-!
# Terminated strings in buffers

A buffer is a list over any type, and `z` is the element that ends a string.
-/

namespace CString

variable {α : Type*} [DecidableEq α] (z : α)

/-- What stands before the first `z`. -/
def str (l : List α) : List α := l.takeWhile (· ≠ z)

def strlen (l : List α) : Nat := (str z l).length

/-- The source up to and with its terminator. The rest of the destination stays. -/
def strcpy (dst src : List α) : List α :=
  src.take (strlen z src + 1) ++ dst.drop (strlen z src + 1)

variable {z}

theorem not_mem_str (l : List α) : z ∉ str z l := by
  intro h
  simpa using List.mem_takeWhile_imp h

theorem str_eq_self {s : List α} (h : z ∉ s) : str z s = s := by
  rw [str, List.takeWhile_eq_self_iff]
  intro x hx
  simpa using ne_of_mem_of_not_mem hx h

theorem str_append_cons {s : List α} (h : z ∉ s) (t : List α) : str z (s ++ z :: t) = s := by
  rw [str, List.takeWhile_append_of_pos]
  · simp
  · intro x hx
    simpa using ne_of_mem_of_not_mem hx h

/-- A string in a buffer is the one whose elements stand there, with the end. -/
theorem str_eq_iff {s l : List α} (hs : z ∉ s) (hlen : s.length < l.length) :
    str z l = s ↔ ∀ k, k ≤ s.length → l.getD k z = s.getD k z := by
  induction s generalizing l with
  | nil =>
    cases l with
    | nil => cases hlen
    | cons x l =>
      simp [str]
  | cons y s ih =>
    cases l with
    | nil => cases hlen
    | cons x l =>
      have hy : y ≠ z := fun h => hs (h ▸ List.mem_cons_self)
      have hrest := ih (fun h => hs (List.mem_cons_of_mem _ h)) (Nat.lt_of_succ_lt_succ hlen)
      constructor
      · intro hstr k hk
        have hx : x ≠ z := by
          rintro rfl
          simp [str] at hstr
        simp only [str, List.takeWhile_cons, hx, ne_eq, not_false_eq_true, decide_true, if_true,
          List.cons.injEq] at hstr
        obtain ⟨rfl, hstr⟩ := hstr
        cases k with
        | zero => rfl
        | succ k => exact hrest.mp hstr k (Nat.le_of_succ_le_succ hk)
      · intro hall
        obtain rfl : x = y := hall 0 (Nat.zero_le _)
        have hstr := hrest.mpr fun k hk => hall (k + 1) (Nat.succ_le_succ hk)
        simp only [str, List.takeWhile_cons, hy, ne_eq, not_false_eq_true, decide_true, if_true]
        exact congrArg _ hstr

theorem str_append_terminator (s t : List α) : str z (s ++ z :: t) = str z s := by
  induction s with
  | nil => simp [str]
  | cons x s ih =>
    by_cases hx : x = z
    · simp [str, hx]
    · have hstep : ∀ l : List α, str z (x :: l) = x :: str z l := fun l => by simp [str, hx]
      rw [List.cons_append, hstep, hstep, ih]

theorem eq_str_append {l : List α} (h : z ∈ l) :
    l = str z l ++ z :: l.drop (strlen z l + 1) := by
  induction l with
  | nil => simp at h
  | cons x l ih =>
    by_cases hx : x = z
    · subst hx
      simp [str, strlen]
    · have hl : z ∈ l := by simpa [Ne.symm hx] using h
      have hs : str z (x :: l) = x :: str z l := by simp [str, hx]
      rw [strlen, hs]
      simpa [strlen] using ih hl

theorem str_append {l : List α} (h : z ∈ l) (t : List α) : str z (l ++ t) = str z l := by
  have hsplit : l ++ t = str z l ++ z :: (l.drop (strlen z l + 1) ++ t) := by
    rw [← List.cons_append, ← List.append_assoc, ← eq_str_append h]
  rw [hsplit, str_append_cons (not_mem_str l)]

theorem strlen_lt {l : List α} (h : z ∈ l) : strlen z l < l.length := by
  have hl := congrArg List.length (eq_str_append h)
  simp only [List.length_append, List.length_cons] at hl
  rw [strlen]
  omega

theorem take_strlen_succ {l : List α} (h : z ∈ l) : l.take (strlen z l + 1) = str z l ++ [z] := by
  calc l.take (strlen z l + 1)
      = (str z l ++ z :: l.drop (strlen z l + 1)).take (strlen z l + 1) :=
        congrArg _ (eq_str_append h)
    _ = str z l ++ [z] := by rw [strlen, List.take_length_add_append]; simp

theorem strcpy_eq {src : List α} (h : z ∈ src) (dst : List α) :
    strcpy z dst src = str z src ++ z :: dst.drop (strlen z src + 1) := by
  rw [strcpy, take_strlen_succ h, List.append_assoc, List.singleton_append]

theorem str_strcpy {src : List α} (h : z ∈ src) (dst : List α) :
    str z (strcpy z dst src) = str z src := by
  rw [strcpy_eq h, str_append_cons (not_mem_str src)]

theorem mem_strcpy {src : List α} (h : z ∈ src) (dst : List α) : z ∈ strcpy z dst src := by
  simp [strcpy_eq h]

theorem length_strcpy {src dst : List α} (h : z ∈ src) (hl : strlen z src < dst.length) :
    (strcpy z dst src).length = dst.length := by
  rw [strcpy_eq h, List.length_append, List.length_cons, List.length_drop, ← strlen]
  omega

/-! ## Two ends of a string -/

theorem str_eq_self_iff {s : List α} : str z s = s ↔ z ∉ s :=
  ⟨fun h => h ▸ not_mem_str s, str_eq_self⟩

theorem str_comm (c : α) (l : List α) : str z (str c l) = str c (str z l) := by
  simp only [str, List.takeWhile_takeWhile, and_comm]

/-- The terminator is in the part before the first `c` exactly when no `c` is in the string. -/
theorem mem_str_iff {c : α} (hzc : z ≠ c) {l : List α} (h : z ∈ l) : z ∈ str c l ↔ c ∉ str z l := by
  constructor
  · intro hz
    obtain ⟨rest, hl⟩ : str c l <+: l := List.takeWhile_prefix _
    have hsplit : l = str z (str c l) ++ z :: ((str c l).drop (strlen z (str c l) + 1) ++ rest) := by
      rw [← List.cons_append, ← List.append_assoc, ← eq_str_append hz, hl]
    have hstr : str z l = str z (str c l) := by
      conv_lhs => rw [hsplit]
      exact str_append_cons (not_mem_str _) _
    rw [str_comm] at hstr
    exact str_eq_self_iff.mp hstr.symm
  · intro hc
    rw [eq_str_append h, str, List.takeWhile_append_of_pos]
    · simp [hzc]
    · intro x hx
      simpa using ne_of_mem_of_not_mem hx hc

/-! ## A string read from a block of memory -/

/-- What stands in the block. Where the string has no end there, it goes on behind the block. -/
structure Text (α : Type*) where
  val : List α
  ended : Bool
  deriving DecidableEq

variable (z) in
def text (block : List α) : Text α := ⟨str z block, z ∈ block⟩

variable (z) in
def Text.read (behind : List α) (t : Text α) : List α := if t.ended then t.val else t.val ++ str z behind

theorem read_text (block behind : List α) : (text z block).read z behind = str z (block ++ behind) := by
  by_cases h : z ∈ block
  · simp [text, Text.read, h, str_append h]
  · have hblock : str z block = block := str_eq_self h
    have hboth : str z (block ++ behind) = block ++ str z behind := by
      rw [str, List.takeWhile_append_of_pos]
      · rfl
      · intro x hx
        simpa using ne_of_mem_of_not_mem hx h
    simp [text, Text.read, h, hblock, hboth]

theorem Text.read_ended {t : Text α} (h : t.ended = true) (behind : List α) : t.read z behind = t.val :=
  if_pos h

theorem Text.ended_of_read {t : Text α} {x : α} (hx : x ≠ z) (h : t.read z [x] = t.read z []) :
    t.ended = true := by
  by_contra hopen
  simp [Text.read, hopen, str, hx] at h

/-- The strings without `z` that may be read. -/
theorem Text.exists_read {t : Text α} {s : List α} (hs : z ∉ s) :
    (∃ behind, t.read z behind = s) ↔ if t.ended then t.val = s else t.val <+: s := by
  unfold Text.read
  split
  · simp
  · constructor
    · rintro ⟨behind, rfl⟩
      exact List.prefix_append _ _
    · rintro ⟨rest, rfl⟩
      exact ⟨rest, by rw [str_eq_self fun h => hs (List.mem_append_right _ h)]⟩

end CString
