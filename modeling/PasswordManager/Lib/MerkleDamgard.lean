import Mathlib.Data.List.Infix
import Mathlib.Data.List.TakeDrop
import Mathlib.Tactic.Common

/-!
# Hashing by blocks

A function that takes a state and a block to a state is folded over the whole blocks of a list.
When no padded list is the end of another one, a collision of the hash is one of the function.
-/

namespace MerkleDamgard

variable {α σ : Type*} (B : Nat) (compress : σ → List α → σ)

/-- The first `n` blocks. -/
def absorb : Nat → σ → List α → σ
  | 0, s, _ => s
  | n + 1, s, l => absorb n (compress s (l.take B)) (l.drop B)

/-- All whole blocks. -/
def blocks (s : σ) (l : List α) : σ := absorb B compress (l.length / B) s l

/-- What stands behind the whole blocks. -/
def rest (l : List α) : List α := l.drop (B * (l.length / B))

/-- Hashing `l` from `s` takes block `b` in state `t`. -/
def Takes (s : σ) (l : List α) (t : σ) (b : List α) : Prop :=
  ∃ n, B * (n + 1) ≤ l.length ∧ t = absorb B compress n s l ∧ b = (l.drop (B * n)).take B

/-- Two lists whose hashing shows a collision of the block function. -/
def Collide (s : σ) (l l' : List α) : Prop :=
  ∃ t b t' b', Takes B compress s l t b ∧ Takes B compress s l' t' b' ∧ (t, b) ≠ (t', b') ∧
    compress t b = compress t' b'

/-! ## Lists in pieces -/

section
variable {B} {compress} {s s' : σ} {l l' : List α} {m n : Nat}

theorem length_rest (l : List α) : (rest B l).length = l.length % B := by
  have h := Nat.mod_add_div l.length B
  rw [rest, List.length_drop]
  omega

theorem absorb_add (m n : Nat) (s : σ) (l : List α) :
    absorb B compress (m + n) s l = absorb B compress n (absorb B compress m s l) (l.drop (B * m)) := by
  induction m generalizing s l with
  | zero => simp [absorb]
  | succ m ih =>
    rw [Nat.add_right_comm, absorb, ih, absorb, List.drop_drop, Nat.mul_succ, Nat.add_comm B]

theorem absorb_append (h : B * n ≤ l.length) (s : σ) (l' : List α) :
    absorb B compress n s (l ++ l') = absorb B compress n s l := by
  induction n generalizing s l with
  | zero => rfl
  | succ n ih =>
    rw [Nat.mul_succ] at h
    have hrest : B * n ≤ (l.drop B).length := by rw [List.length_drop]; omega
    rw [absorb, absorb, List.take_append_of_le_length (by omega), List.drop_append_of_le_length (by omega),
      ih hrest]

/-- The whole blocks of the first piece, and those of what it leaves with the second one. -/
theorem count_append (hB : 0 < B) (l l' : List α) :
    (l ++ l').length / B = l.length / B + (rest B l ++ l').length / B := by
  have h := Nat.mod_add_div l.length B
  calc (l ++ l').length / B
      = ((rest B l ++ l').length + B * (l.length / B)) / B := by
        rw [List.length_append, List.length_append, length_rest]
        congr 1
        omega
    _ = l.length / B + (rest B l ++ l').length / B := by rw [Nat.add_mul_div_left _ _ hB, Nat.add_comm]

theorem rest_append (l l' : List α) : rest B (l ++ l') = rest B (rest B l ++ l') := by
  rcases Nat.eq_zero_or_pos B with rfl | hB
  · simp [rest]
  have hl : B * (l.length / B) ≤ l.length := Nat.mul_div_le _ _
  rw [rest, count_append hB, Nat.mul_add, ← List.drop_drop, List.drop_append_of_le_length hl, rest, rest]

/-- The blocks of a list that comes in two pieces. -/
theorem blocks_append (s : σ) (l l' : List α) :
    blocks B compress s (l ++ l') = blocks B compress (blocks B compress s l) (rest B l ++ l') := by
  rcases Nat.eq_zero_or_pos B with rfl | hB
  · simp [blocks, absorb]
  have hl : B * (l.length / B) ≤ l.length := Nat.mul_div_le _ _
  rw [blocks, count_append hB, absorb_add, absorb_append hl, List.drop_append_of_le_length hl]
  rfl

theorem rest_block {b : List α} (hB : 0 < B) (hb : b.length = B) : rest B b = [] := by
  rw [rest, hb, Nat.div_self hB, Nat.mul_one, ← hb, List.drop_length]

theorem blocks_cons {b : List α} (hB : 0 < B) (hb : b.length = B) (s : σ) (l : List α) :
    blocks B compress s (b ++ l) = blocks B compress (compress s b) l := by
  have hone : blocks B compress s b = compress s b := by
    rw [blocks, hb, Nat.div_self hB, absorb, absorb, List.take_of_length_le hb.le]
  rw [blocks_append, hone, rest_block hB hb, List.nil_append]

theorem rest_cons {b : List α} (hB : 0 < B) (hb : b.length = B) (l : List α) :
    rest B (b ++ l) = rest B l := by
  rw [rest_append, rest_block hB hb, List.nil_append]

theorem blocks_of_lt (h : l.length < B) : blocks B compress s l = s := by
  rw [blocks, Nat.div_eq_of_lt h]
  rfl

theorem rest_of_lt (h : l.length < B) : rest B l = l := by
  rw [rest, Nat.div_eq_of_lt h, Nat.mul_zero, List.drop_zero]

/-! ## Collisions -/

theorem absorb_last (n : Nat) (s : σ) {l b : List α} (hl : l.length = B * n) (hb : b.length = B) :
    absorb B compress (n + 1) s (l ++ b) = compress (absorb B compress n s l) b := by
  rw [absorb_add, absorb_append hl.ge, ← hl, List.drop_left]
  simp [absorb, ← hb]

theorem exists_last (hl : l.length = B * (n + 1)) :
    ∃ first last, l = first ++ last ∧ first.length = B * n ∧ last.length = B := by
  rw [Nat.mul_succ] at hl
  refine ⟨l.take (B * n), l.drop (B * n), (List.take_append_drop _ _).symm, ?_, ?_⟩
  · rw [List.length_take]
    omega
  · rw [List.length_drop]
    omega

theorem Takes.append {t : σ} {b : List α} (h : Takes B compress s l t b) (l' : List α) :
    Takes B compress s (l ++ l') t b := by
  obtain ⟨n, hlength, ht, hb⟩ := h
  rw [Nat.mul_succ] at hlength
  refine ⟨n, ?_, ?_, ?_⟩
  · rw [Nat.mul_succ, List.length_append]
    omega
  · rw [ht, absorb_append (by omega)]
  · rw [hb, List.drop_append_of_le_length (by omega),
      List.take_append_of_le_length (by rw [List.length_drop]; omega)]

theorem takes_last {first last : List α} (hfirst : first.length = B * n) (hlast : last.length = B) :
    Takes B compress s (first ++ last) (absorb B compress n s first) last := by
  refine ⟨n, ?_, ?_, ?_⟩
  · rw [List.length_append, Nat.mul_succ, hfirst, hlast]
  · rw [absorb_append hfirst.ge]
  · rw [List.drop_left' hfirst, List.take_of_length_le hlast.le]

theorem Collide.symm (h : Collide B compress s l l') : Collide B compress s l' l := by
  obtain ⟨t, b, t', b', htakes, htakes', hne, heq⟩ := h
  exact ⟨t', b', t, b, htakes', htakes, hne.symm, heq.symm⟩

/-- Of two lists that end in one state, the shorter one is the end of the other, or they collide. -/
theorem suffix_or_collide (hmn : m ≤ n) (hl : l.length = B * m) (hl' : l'.length = B * n)
    (h : absorb B compress m s l = absorb B compress n s l') : l <:+ l' ∨ Collide B compress s l l' := by
  induction m generalizing n l l' with
  | zero =>
    obtain rfl : l = [] := List.length_eq_zero_iff.mp (by simpa using hl)
    exact Or.inl List.nil_suffix
  | succ m ih =>
    obtain ⟨n, rfl⟩ : ∃ k, n = k + 1 := ⟨n - 1, by omega⟩
    obtain ⟨first, last, rfl, hfirst, hlast⟩ := exists_last hl
    obtain ⟨first', last', rfl, hfirst', hlast'⟩ := exists_last hl'
    rw [absorb_last m s hfirst hlast, absorb_last n s hfirst' hlast'] at h
    by_cases heq : (absorb B compress m s first, last) = (absorb B compress n s first', last')
    · obtain ⟨hstate, rfl⟩ := Prod.mk.inj heq
      rcases ih (by omega) hfirst hfirst' hstate with hsuffix | hcollide
      · obtain ⟨before, rfl⟩ := hsuffix
        exact Or.inl ⟨before, (List.append_assoc ..).symm⟩
      · obtain ⟨t, b, t', b', htakes, htakes', hcollide⟩ := hcollide
        exact Or.inr ⟨t, b, t', b', htakes.append last, htakes'.append last, hcollide⟩
    · exact Or.inr ⟨_, _, _, _, takes_last hfirst hlast, takes_last hfirst' hlast', heq, h⟩

/-- A collision of the hash is one of the block function, when no padded list ends in another one. -/
theorem collide_of_blocks {μ : Type*} {pad : μ → List α} (hpad : ∀ x, B ∣ (pad x).length)
    (hsuffix : ∀ x y, pad x <:+ pad y → x = y) {x y : μ} (hne : x ≠ y)
    (h : blocks B compress s (pad x) = blocks B compress s (pad y)) :
    Collide B compress s (pad x) (pad y) := by
  have hx : (pad x).length = B * ((pad x).length / B) := (Nat.mul_div_cancel' (hpad x)).symm
  have hy : (pad y).length = B * ((pad y).length / B) := (Nat.mul_div_cancel' (hpad y)).symm
  rcases Nat.le_total ((pad x).length / B) ((pad y).length / B) with hle | hle
  · exact (suffix_or_collide hle hx hy h).resolve_left fun hend => hne (hsuffix x y hend)
  · exact ((suffix_or_collide hle hy hx h.symm).resolve_left fun hend => hne (hsuffix y x hend).symm).symm

end

end MerkleDamgard
