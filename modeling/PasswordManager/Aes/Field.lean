import Mathlib.LinearAlgebra.Matrix.Circulant
import PasswordManager.Aes.Proofs
import PasswordManager.Lib.BinaryRing

/-!
# The cipher over the field

The bytes stand for the polynomials modulo `x^8 + x^4 + x^3 + x + 1`. There the table of the S-box is an
inverse and the two column maps are matrices.
-/

open BinaryRing

namespace PasswordManager.Aes

abbrev GF : Type := BinaryRing.Quotient (0x1b : Byte)

abbrev Grid : Type := Matrix (Fin 4) (Fin 4) GF

noncomputable def field (b : Byte) : GF := element 0x1b b

theorem field_injective : Function.Injective field := element_injective _

/-! ## Sums and products -/

instance : CharP GF 2 := charP_quotient _ (Nat.zero_lt_succ 7)

@[simp] theorem field_zero : field 0 = 0 := value_zero _

@[simp] theorem field_one : field 1 = 1 := value_one _ (Nat.zero_lt_succ 7)

theorem field_xor (a b : Byte) : field (a ^^^ b) = field a + field b := value_xor _ a b

theorem xtime_double : xtime = double 0x1b := by
  funext x
  exact xtime_eq x

theorem field_product (x y : Byte) : field (product 0x1b x y 8) = field x * field y :=
  value_product (root_pow _ (Nat.zero_lt_succ 7)) (Nat.zero_lt_succ 7) x y

theorem field_xtime (x : Byte) : field (xtime x) = field 2 * field x := by
  have hdouble : ∀ b : Byte, field (double 0x1b b) = AdjoinRoot.root _ * field b :=
    value_double (root_pow _ (Nat.zero_lt_succ 7)) (Nat.zero_lt_succ 7)
  have htwo : double (0x1b : Byte) 1 = 2 := by decide
  rw [xtime_double, hdouble, ← htwo, hdouble, field_one, mul_one]

/-! ## The table of the S-box -/

def affine (b : Byte) : Byte :=
  b ^^^ b.rotateLeft 1 ^^^ b.rotateLeft 2 ^^^ b.rotateLeft 3 ^^^ b.rotateLeft 4 ^^^ 0x63

def unaffine (b : Byte) : Byte := b.rotateLeft 1 ^^^ b.rotateLeft 3 ^^^ b.rotateLeft 6 ^^^ 0x05

theorem affine_unaffine : ∀ b : Byte, affine (unaffine b) = b := by decide +kernel

theorem product_sbox : ∀ b : Byte,
    product 0x1b b (unaffine (getSBoxValue b)) 8 = if b = 0 then 0 else 1 := by
  decide +kernel

/-- The inverses are the ones that the table gives. -/
theorem isField : IsField GF where
  exists_pair_ne := (nontrivial_quotient (0x1b : Byte) (Nat.zero_lt_succ 7)).exists_pair_ne
  mul_comm := mul_comm
  mul_inv_cancel := by
    intro x hx
    obtain ⟨b, rfl⟩ := element_surjective (0x1b : Byte) x
    have hb : b ≠ 0 := fun h0 => hx (by rw [h0]; exact field_zero)
    have h := field_product b (unaffine (getSBoxValue b))
    rw [product_sbox, if_neg hb, field_one] at h
    exact ⟨field (unaffine (getSBoxValue b)), h.symm⟩

theorem modulus_irreducible : Irreducible (modulus (0x1b : Byte)) := by
  have hmax := Ideal.Quotient.maximal_of_isField _ isField
  have hprime := (Ideal.span_singleton_prime (modulus_monic (0x1b : Byte)).ne_zero).mp hmax.isPrime
  exact hprime.irreducible

instance : Fact (Irreducible (modulus (0x1b : Byte))) := ⟨modulus_irreducible⟩

theorem field_unaffine (b : Byte) : field (unaffine (getSBoxValue b)) = (field b)⁻¹ := by
  have h := field_product b (unaffine (getSBoxValue b))
  rw [product_sbox] at h
  split at h
  next hzero =>
    rw [hzero, field_zero, inv_zero]
    have hbyte : unaffine (getSBoxValue 0) = 0 := by decide
    rw [hbyte, field_zero]
  next =>
    rw [field_one] at h
    exact (inv_eq_of_mul_eq_one_right h.symm).symm

noncomputable def byte : GF → Byte := Function.invFun field

theorem byte_field (b : Byte) : byte (field b) = b := Function.leftInverse_invFun field_injective b

noncomputable def sub (x : GF) : GF := field (affine (byte x⁻¹))

theorem field_getSBoxValue (b : Byte) : field (getSBoxValue b) = sub (field b) := by
  rw [sub, ← field_unaffine, byte_field, affine_unaffine]

noncomputable def unsub (x : GF) : GF := (field (unaffine (byte x)))⁻¹

theorem field_getSBoxInvert (b : Byte) : field (getSBoxInvert b) = unsub (field b) := by
  have h := field_unaffine (getSBoxInvert b)
  rw [getSBoxValue_getSBoxInvert] at h
  rw [unsub, byte_field, h, inv_inv]

/-! ## The layers -/

/-- Entry `row`, `col` is the byte `(*state)[col][row]`. -/
noncomputable def state (s : Block) : Grid :=
  Matrix.of fun row col => field s[4 * col.val + row.val]

def turnRows (m : Grid) : Grid := Matrix.of fun row col => m row (col + row)

def turnBack (m : Grid) : Grid := Matrix.of fun row col => m row (col - row)

noncomputable def mixer : Grid := Matrix.circulant ![field 2, 1, 1, field 3]

noncomputable def unmixer : Grid :=
  Matrix.circulant ![field 0x0e, field 0x09, field 0x0d, field 0x0b]

def keyBlock (roundKey : List Byte) (round : Nat) : Block :=
  Vector.ofFn fun k => roundKey.getD (round * 16 + k) 0

noncomputable def roundGrid (roundKey : List Byte) (round : Nat) : Grid := state (keyBlock roundKey round)

theorem state_injective : Function.Injective state := by
  intro s t h
  refine Vector.ext fun i hi => ?_
  have hentry := congrFun (congrFun h ⟨i % 4, Nat.mod_lt i (by omega)⟩) ⟨i / 4, by omega⟩
  have hindex : 4 * (i / 4) + i % 4 = i := Nat.div_add_mod i 4
  simp only [state, Matrix.of_apply, hindex] at hentry
  exact field_injective hentry

theorem state_addRoundKey (roundKey : List Byte) (round : Nat) (s : Block) :
    state (addRoundKey roundKey round s) = state s + state (keyBlock roundKey round) := by
  ext row col
  simp [state, addRoundKey, keyBlock, field_xor]

theorem state_subBytes (s : Block) : state (subBytes s) = (state s).map sub := by
  ext row col
  simp [state, subBytes, field_getSBoxValue]

theorem state_shiftRows (s : Block) : state (shiftRows s) = turnRows (state s) := by
  ext row col
  fin_cases row <;> fin_cases col <;> rfl

theorem state_invSubBytes (s : Block) : state (invSubBytes s) = (state s).map unsub := by
  ext row col
  simp [state, invSubBytes, field_getSBoxInvert]

theorem state_invShiftRows (s : Block) : state (invShiftRows s) = turnBack (state s) := by
  ext row col
  fin_cases row <;> fin_cases col <;> rfl

theorem field_three : field 3 = field 2 + 1 := by
  rw [← field_one, ← field_xor]
  rfl

theorem mixer_eq : mixer = Matrix.circulant ![field 2, 1, 1, field 2 + 1] := by rw [mixer, field_three]

theorem state_mixColumns (s : Block) : state (mixColumns s) = mixer * state s := by
  ext row col
  rw [Matrix.mul_apply, Fin.sum_univ_four, mixColumns, mixer_eq]
  simp only [state, onColumns, mixColumn_eq, mixRow]
  fin_cases row <;> fin_cases col <;>
    · simp [Matrix.circulant, field_xor, field_xtime]
      ring

/-- A power of two is shifted up by doubling. -/
theorem field_high : field 8 = field 2 ^ 3 ∧ field 4 = field 2 ^ 2 := by
  have hfour : field 4 = field 2 ^ 2 := by
    rw [pow_two, ← field_xtime]
    rfl
  refine ⟨?_, hfour⟩
  rw [pow_succ', ← hfour, ← field_xtime]
  rfl

theorem unmixer_eq : unmixer = Matrix.circulant ![field 2 ^ 3 + field 2 ^ 2 + field 2, field 2 ^ 3 + 1,
    field 2 ^ 3 + field 2 ^ 2 + 1, field 2 ^ 3 + field 2 + 1] := by
  simp only [unmixer, ← field_high.1, ← field_high.2, ← field_one, ← field_xor]
  rfl

theorem state_invMixColumns (s : Block) : state (invMixColumns s) = unmixer * state s := by
  ext row col
  rw [Matrix.mul_apply, Fin.sum_univ_four, invMixColumns, unmixer_eq]
  simp only [state, onColumns, invMixColumn_eq, invMixRow]
  fin_cases row <;> fin_cases col <;>
    · simp [Matrix.circulant, field_xor, field_xtime]
      ring

/-! ## The rounds -/

/-- The rounds of the standard, where `k` gives the key of each round. -/
noncomputable def specRounds (k : Nat → Grid) :
    Nat → Grid → Grid
  | 0, m => m
  | n + 1, m => mixer * turnRows ((specRounds k n m).map sub) + k (n + 1)

noncomputable def specCipher (k : Nat → Grid) (m : Grid) :
    Grid :=
  turnRows ((specRounds k 9 (m + k 0)).map sub) + k 10

theorem state_rounds (roundKey : List Byte) (n : Nat) (s : Block) :
    state (rounds roundKey n s) = specRounds (roundGrid roundKey) n (state s) := by
  induction n with
  | zero => rfl
  | succ n ih =>
    rw [rounds, state_addRoundKey, state_mixColumns, state_shiftRows, state_subBytes, ih]
    rfl

theorem state_cipher (roundKey : List Byte) (s : Block) :
    state (cipher roundKey s) = specCipher (roundGrid roundKey) (state s) := by
  rw [cipher, state_addRoundKey, state_shiftRows, state_subBytes, state_rounds, state_addRoundKey]
  rfl

noncomputable def specInvRounds (k : Nat → Grid) :
    Nat → Grid → Grid
  | 0, m => m
  | n + 1, m => specInvRounds k n (unmixer * ((turnBack m).map unsub + k (n + 1)))

noncomputable def specInvCipher (k : Nat → Grid) (m : Grid) :
    Grid :=
  (turnBack (specInvRounds k 9 (m + k 10))).map unsub + k 0

theorem state_invRounds (roundKey : List Byte) (n : Nat) (s : Block) :
    state (invRounds roundKey n s) = specInvRounds (roundGrid roundKey) n (state s) := by
  induction n generalizing s with
  | zero => rfl
  | succ n ih =>
    rw [invRounds, ih, state_invMixColumns, state_addRoundKey, state_invSubBytes, state_invShiftRows]
    rfl

theorem state_invCipher (roundKey : List Byte) (s : Block) :
    state (invCipher roundKey s) = specInvCipher (roundGrid roundKey) (state s) := by
  rw [invCipher, state_addRoundKey, state_invSubBytes, state_invShiftRows, state_invRounds, state_addRoundKey]
  rfl

end PasswordManager.Aes
