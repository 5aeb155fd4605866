import Mathlib.Algebra.CharP.Algebra
import Mathlib.Algebra.CharP.Two
import Mathlib.Algebra.Field.ZMod
import Mathlib.RingTheory.AdjoinRoot

/-!
# Bits as elements of a ring

In a ring of characteristic two, the bits of a vector choose powers of an element. The vectors stand for
all elements of the ring that is got by adjoining a root.
-/

open Polynomial

namespace BinaryRing

/-! ## Sums of powers -/

section
variable {R : Type*} [CommRing R] (α : R) {w : Nat}

def value (b : BitVec w) : R := ∑ i ∈ Finset.range w, if b.getLsbD i then α ^ i else 0

/-- The bits are moved up. Instead of the one that falls out, `red` is added. -/
def double (red b : BitVec w) : BitVec w := b <<< 1 ^^^ if b.getLsbD (w - 1) then red else 0#w

/-- `x` times the lowest `n` bits of `y`. -/
def product (red x y : BitVec w) : Nat → BitVec w
  | 0 => 0#w
  | n + 1 => product red x y n ^^^ if y.getLsbD n then (double red)^[n] x else 0#w

@[simp] theorem value_zero : value α 0#w = 0 := by simp [value]

theorem value_one (hw : 0 < w) : value α (1 : BitVec w) = 1 := by
  obtain ⟨n, rfl⟩ : ∃ n, w = n + 1 := ⟨w - 1, by omega⟩
  rw [value, Finset.sum_range_succ']
  simp [BitVec.getLsbD_one]

theorem value_shiftLeft {n : Nat} (b : BitVec (n + 1)) :
    value α (b <<< 1) + (if b.getLsbD n then α ^ (n + 1) else 0) = α * value α b := by
  rw [value, value, Finset.sum_range_succ', Finset.sum_range_succ (fun i => if b.getLsbD i then _ else _),
    mul_add, Finset.mul_sum]
  have hlow : ∀ i ∈ Finset.range n, (if (b <<< 1).getLsbD (i + 1) then α ^ (i + 1) else 0) =
      α * if b.getLsbD i then α ^ i else 0 := by
    intro i hi
    have hlt := Finset.mem_range.mp hi
    rw [BitVec.getLsbD_shiftLeft]
    simp only [Nat.succ_lt_succ hlt, Nat.add_sub_cancel, decide_true,
      show ¬ i + 1 < 1 by omega, decide_false, Bool.not_false, Bool.true_and, pow_succ', mul_ite, mul_zero]
  rw [Finset.sum_congr rfl hlow]
  simp [pow_succ']

section
variable [CharP R 2]

theorem value_xor (a b : BitVec w) : value α (a ^^^ b) = value α a + value α b := by
  rw [value, value, value, ← Finset.sum_add_distrib]
  refine Finset.sum_congr rfl fun i _ => ?_
  rw [BitVec.getLsbD_xor]
  cases a.getLsbD i <;> cases b.getLsbD i <;> simp [CharTwo.add_self_eq_zero]

variable {α} {red : BitVec w} (hα : α ^ w = value α red)
include hα

theorem value_double (hw : 0 < w) (b : BitVec w) : value α (double red b) = α * value α b := by
  obtain ⟨n, rfl⟩ : ∃ n, w = n + 1 := ⟨w - 1, by omega⟩
  rw [double, value_xor, ← value_shiftLeft, Nat.add_sub_cancel, hα]
  congr 1
  split
  · rfl
  · exact value_zero α

theorem value_double_iterate (hw : 0 < w) (n : Nat) (b : BitVec w) :
    value α ((double red)^[n] b) = α ^ n * value α b := by
  induction n with
  | zero => simp
  | succ n ih => rw [Function.iterate_succ_apply', value_double hα hw, ih, pow_succ', mul_assoc]

theorem value_product_range (hw : 0 < w) (x y : BitVec w) (n : Nat) :
    value α (product red x y n) =
      value α x * ∑ i ∈ Finset.range n, if y.getLsbD i then α ^ i else 0 := by
  induction n with
  | zero => simp [product]
  | succ n ih =>
    rw [product, value_xor, ih, Finset.sum_range_succ, mul_add]
    congr 1
    split
    · rw [value_double_iterate hα hw, mul_comm]
    · rw [value_zero, mul_zero]

theorem value_product (hw : 0 < w) (x y : BitVec w) :
    value α (product red x y w) = value α x * value α y := value_product_range hα hw x y w

end

end

/-! ## The ring of a modulus -/

section
variable {w : Nat} (red : BitVec w)

noncomputable def modulus : (ZMod 2)[X] := X ^ w + value X red

abbrev Quotient : Type := AdjoinRoot (modulus red)

noncomputable def element (b : BitVec w) : Quotient red := value (AdjoinRoot.root (modulus red)) b

theorem degree_value_lt (b : BitVec w) : (value (X : (ZMod 2)[X]) b).degree < w := by
  refine (degree_lt_iff_coeff_zero _ w).mpr fun i hi => ?_
  rw [value, finsetSum_coeff]
  refine Finset.sum_eq_zero fun j hj => ?_
  have hlt := Finset.mem_range.mp hj
  split
  · rw [coeff_X_pow, if_neg (by omega)]
  · exact coeff_zero i

theorem coeff_value {b : BitVec w} {i : Nat} (hi : i < w) :
    (value (X : (ZMod 2)[X]) b).coeff i = if b.getLsbD i then 1 else 0 := by
  rw [value, finsetSum_coeff, Finset.sum_eq_single i]
  · split <;> simp
  · intro j _ hj
    split
    · rw [coeff_X_pow, if_neg hj.symm]
    · exact coeff_zero i
  · intro hnone
    exact absurd (Finset.mem_range.mpr hi) hnone

theorem modulus_monic : (modulus red).Monic := monic_X_pow_add (degree_value_lt red)

theorem degree_modulus : (modulus red).degree = w := by
  have hlow : (value (X : (ZMod 2)[X]) red).degree < (X ^ w : (ZMod 2)[X]).degree := by
    rw [degree_X_pow]
    exact degree_value_lt red
  rw [modulus, degree_add_eq_left_of_degree_lt hlow, degree_X_pow]

theorem element_eq (b : BitVec w) : element red b = AdjoinRoot.mk (modulus red) (value X b) := by
  rw [element, value, value, map_sum]
  refine Finset.sum_congr rfl fun i _ => ?_
  split
  · rw [map_pow, AdjoinRoot.mk_X]
  · rw [map_zero]

/-- Two vectors never stand for one element. -/
theorem element_injective : Function.Injective (element red) := by
  intro a b h
  rw [element_eq, element_eq, AdjoinRoot.mk_eq_mk] at h
  have hdegree : (value (X : (ZMod 2)[X]) a - value X b).degree < (modulus red).degree := by
    rw [degree_modulus]
    exact (degree_sub_le _ _).trans_lt (max_lt (degree_value_lt a) (degree_value_lt b))
  have hpolynomials : value (X : (ZMod 2)[X]) a = value X b := by
    by_contra hne
    exact (modulus_monic red).not_dvd_of_degree_lt (sub_ne_zero.mpr hne) hdegree h
  apply BitVec.eq_of_getLsbD_eq
  intro i hi
  have hcoeff := congrArg (fun p : (ZMod 2)[X] => p.coeff i) hpolynomials
  rw [coeff_value hi, coeff_value hi] at hcoeff
  revert hcoeff
  cases a.getLsbD i <;> cases b.getLsbD i <;> simp

theorem exists_bits (f : Nat → Bool) (w : Nat) : ∃ b : BitVec w, ∀ i < w, b.getLsbD i = f i := by
  induction w with
  | zero => exact ⟨0#0, fun i hi => absurd hi (Nat.not_lt_zero i)⟩
  | succ w ih =>
    obtain ⟨b, hb⟩ := ih
    refine ⟨BitVec.cons (f w) b, fun i hi => ?_⟩
    rw [BitVec.getLsbD_cons]
    split
    next heq => rw [heq]
    next hne => exact hb i (by omega)

/-- Every element is the one of a vector. -/
theorem element_surjective : Function.Surjective (element red) := by
  intro x
  obtain ⟨p, rfl⟩ := AdjoinRoot.mk_surjective x
  set r := p %ₘ modulus red with hr
  have hdegree : r.degree < w := by
    rw [← degree_modulus red]
    exact degree_modByMonic_lt p (modulus_monic red)
  obtain ⟨b, hb⟩ := exists_bits (fun i => decide (r.coeff i = 1)) w
  have hpolynomial : value X b = r := by
    ext i
    rcases Nat.lt_or_ge i w with hi | hi
    · rw [coeff_value hi, hb i hi]
      generalize r.coeff i = c
      revert c
      decide
    · rw [coeff_eq_zero_of_degree_lt ((degree_value_lt b).trans_le (by exact_mod_cast hi)),
        coeff_eq_zero_of_degree_lt (hdegree.trans_le (by exact_mod_cast hi))]
  refine ⟨b, ?_⟩
  have hsplit : value X b - p = modulus red * -(p /ₘ modulus red) := by
    conv_lhs => rw [hpolynomial, ← modByMonic_add_div p (modulus red)]
    rw [hr, sub_add_cancel_left, mul_neg]
  rw [element_eq, AdjoinRoot.mk_eq_mk]
  exact ⟨_, hsplit⟩

variable (hw : 0 < w)
include hw

theorem nontrivial_quotient : Nontrivial (Quotient red) := by
  apply AdjoinRoot.nontrivial
  rw [degree_modulus]
  exact_mod_cast hw.ne'

theorem charP_quotient : CharP (Quotient red) 2 := by
  have := nontrivial_quotient red hw
  exact charP_of_injective_algebraMap (algebraMap (ZMod 2) (Quotient red)).injective 2

theorem root_pow : AdjoinRoot.root (modulus red) ^ w = element red red := by
  have := charP_quotient red hw
  have hroot : AdjoinRoot.mk (modulus red) (modulus red) = 0 := AdjoinRoot.mk_self
  rw [modulus, map_add, map_pow, AdjoinRoot.mk_X] at hroot
  rw [element_eq]
  exact CharTwo.add_eq_zero.mp hroot

end

end BinaryRing
