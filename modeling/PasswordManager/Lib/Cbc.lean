import Mathlib.Logic.Function.Basic

/-!
# Cipher block chaining

The block cipher is any pair of maps, and `mix` is any operation that undoes itself.
-/

namespace Cbc

variable {β : Type*} (mix : β → β → β)

def encrypt (cipher : β → β) : β → List β → List β
  | _, [] => []
  | iv, p :: ps => cipher (mix p iv) :: encrypt cipher (cipher (mix p iv)) ps

def decrypt (invCipher : β → β) : β → List β → List β
  | _, [] => []
  | iv, c :: cs => mix (invCipher c) iv :: decrypt invCipher c cs

@[simp] theorem length_encrypt (cipher : β → β) (iv : β) (ps : List β) :
    (encrypt mix cipher iv ps).length = ps.length := by
  induction ps generalizing iv with
  | nil => rfl
  | cons p ps ih => simp [encrypt, ih]

@[simp] theorem length_decrypt (invCipher : β → β) (iv : β) (cs : List β) :
    (decrypt mix invCipher iv cs).length = cs.length := by
  induction cs generalizing iv with
  | nil => rfl
  | cons c cs ih => simp [decrypt, ih]

variable {mix} {cipher invCipher : β → β}

/-- Behind a block of the ciphertext, only that block counts. -/
theorem decrypt_behind (iv c : β) (cs ds : List β) :
    decrypt mix invCipher iv (cs ++ c :: ds) =
      decrypt mix invCipher iv (cs ++ [c]) ++ decrypt mix invCipher c ds := by
  induction cs generalizing iv with
  | nil => rfl
  | cons c' cs ih => rw [List.cons_append, decrypt, ih, List.cons_append, decrypt, List.cons_append]

theorem decrypt_encrypt (hmix : ∀ a b, mix (mix a b) b = a)
    (hinv : Function.LeftInverse invCipher cipher) (iv : β) (ps : List β) :
    decrypt mix invCipher iv (encrypt mix cipher iv ps) = ps := by
  induction ps generalizing iv with
  | nil => rfl
  | cons p ps ih => rw [encrypt, decrypt, hinv, hmix, ih]

theorem encrypt_decrypt (hmix : ∀ a b, mix (mix a b) b = a)
    (hinv : Function.RightInverse invCipher cipher) (iv : β) (cs : List β) :
    encrypt mix cipher iv (decrypt mix invCipher iv cs) = cs := by
  induction cs generalizing iv with
  | nil => rfl
  | cons c cs ih => rw [decrypt, encrypt, hmix, hinv, ih]

end Cbc
