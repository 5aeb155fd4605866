import Mathlib.Data.List.GetD
import PasswordManager.Aes.Field
import PasswordManager.Lib.Feedback

/-!
# The key schedule over the field

The 44 words come from a register with feedback. So the cipher is the one of the standard for every key, and
each round key gives away the key.
-/

open Feedback

namespace PasswordManager.Aes

/-! ## The words of the standard -/

/-- What is added to the word four places before word `i`. `t` is the word before it. -/
noncomputable def core (i : Nat) (t : Fin 4 → GF) : Fin 4 → GF :=
  if i % 4 = 0 then (fun row => sub (t (row + 1))) + Pi.single 0 (field 2 ^ (i / 4 - 1)) else t

noncomputable def specWord (key : Grid) (i : Nat) : Fin 4 → GF :=
  if h : i < 4 then fun row => key row ⟨i, h⟩ else specWord key (i - 4) + core i (specWord key (i - 1))
termination_by i

theorem specWord_first (key : Grid) (col : Fin 4) : specWord key col = fun row => key row col := by
  rw [specWord, dif_pos col.isLt]

noncomputable def specKeys (key : Grid) (round : Nat) : Grid :=
  Matrix.of fun row col => specWord key (4 * round + col) row

/-! ## The words of the code -/

noncomputable def word (roundKey : List Byte) (i : Nat) : Fin 4 → GF :=
  fun row => field (roundKey.getD (4 * i + row) 0)

def expanded (key : List Byte) (n : Nat) : List Byte := (List.range' 4 n).foldl expandWord (key.take 16)

theorem expanded_succ (key : List Byte) (n : Nat) :
    expanded key (n + 1) = expandWord (expanded key n) (4 + n) := by
  rw [expanded, List.range'_concat, List.foldl_append, Nat.one_mul]
  rfl

theorem length_expandWord (roundKey : List Byte) (i : Nat) :
    (expandWord roundKey i).length = roundKey.length + 4 := by
  simp [expandWord]

theorem length_expanded {key : List Byte} (h : 16 ≤ key.length) (n : Nat) :
    (expanded key n).length = 16 + 4 * n := by
  induction n with
  | zero => simp [expanded, h]
  | succ n ih => rw [expanded_succ, length_expandWord, ih]; omega

theorem rcon_succ : ∀ r < 9, rcon.getD (r + 2) 0 = xtime (rcon.getD (r + 1) 0) := by decide

theorem field_rcon {r : Nat} (h : r < 10) : field (rcon.getD (r + 1) 0) = field 2 ^ r := by
  induction r with
  | zero => exact field_one
  | succ r ih => rw [rcon_succ r (by omega), field_xtime, ih (by omega), pow_succ']

theorem word_expandWord_of_lt {roundKey : List Byte} {i j : Nat} (hlength : roundKey.length = 4 * i)
    (hj : j < i) : word (expandWord roundKey i) j = word roundKey j := by
  funext row
  have hlt : 4 * j + row < roundKey.length := by omega
  rw [word, word, expandWord, List.getD_append _ _ _ _ hlt]

theorem word_expandWord {roundKey : List Byte} {i : Nat} (hlength : roundKey.length = 4 * i)
    (hi : 4 ≤ i) (hlast : i < 44) :
    word (expandWord roundKey i) i = word roundKey (i - 4) + core i (word roundKey (i - 1)) := by
  obtain ⟨j, rfl⟩ : ∃ j, i = j + 4 := ⟨i - 4, by omega⟩
  have hnew : ∀ f : Nat → Byte, ∀ row : Fin 4,
      (roundKey ++ (List.range 4).map f).getD (4 * (j + 4) + row) 0 = f row := by
    intro f row
    rw [List.getD_append_right _ _ _ _ (by omega), hlength, Nat.add_sub_cancel_left]
    fin_cases row <;> rfl
  have hconstant := field_rcon (r := j / 4) (by omega)
  rw [List.getD_eq_getElem?_getD] at hconstant
  funext row
  rw [word, expandWord, hnew, field_xor]
  unfold core
  split
  next hturn =>
    fin_cases row
    · simp [word, field_xor, field_getSBoxValue, Nat.mul_comm]
      exact hconstant
    all_goals simp [word, field_getSBoxValue, Nat.mul_comm]
  next hturn =>
    fin_cases row <;> simp [word, Nat.mul_comm]

theorem word_expanded {key : List Byte} (h : 16 ≤ key.length) {n m i : Nat} (hnm : n ≤ m)
    (hi : i < 4 + n) : word (expanded key m) i = word (expanded key n) i := by
  induction m, hnm using Nat.le_induction with
  | base => rfl
  | succ m hm ih =>
    have hlength := length_expanded h m
    rw [expanded_succ, word_expandWord_of_lt (by omega) (by omega), ih]

theorem follows_keyExpansion {key : List Byte} (h : 16 ≤ key.length) :
    Follows 4 core 44 (word (keyExpansion key)) := by
  intro i hi
  have hword := @word_expandWord (expanded key i) (i + 4)
    (by rw [length_expanded h]; omega) (by omega) hi
  have hnext : expandWord (expanded key i) (i + 4) = expanded key (i + 1) := by
    rw [expanded_succ, Nat.add_comm 4]
  have hold : ∀ j < 4 + i, word (keyExpansion key) j = word (expanded key i) j :=
    fun j hj => word_expanded h (show i ≤ 40 by omega) hj
  have hnew : word (keyExpansion key) (i + 4) = word (expanded key (i + 1)) (i + 4) :=
    word_expanded h (by omega) (by omega)
  rw [hnew, ← hnext, hword, Nat.add_sub_cancel, hold i (by omega), hold (i + 4 - 1) (by omega)]

theorem follows_specWord (key : Grid) (bound : Nat) : Follows 4 core bound (specWord key) := by
  intro i _
  rw [specWord, dif_neg (by omega), Nat.add_sub_cancel]

theorem word_keyExpansion {key : List Byte} (h : 16 ≤ key.length) {i : Nat} (hi : i < 4) :
    word (keyExpansion key) i = word key i := by
  have hfirst : word (expanded key 40) i = word (expanded key 0) i :=
    word_expanded h (Nat.zero_le 40) (by omega)
  rw [keyExpansion, ← expanded, hfirst]
  funext row
  simp [word, expanded, show 4 * i + row.val < 16 by omega]

/-! ## The schedule -/

theorem roundGrid_keyExpansion (key : Block) {round : Nat} (h : round ≤ 10) :
    roundGrid (keyExpansion key.toList) round = specKeys (state key) round := by
  have hkey : 16 ≤ key.toList.length := by simp
  have hwords : ∀ i < 44, word (keyExpansion key.toList) i = specWord (state key) i := by
    intro i hi
    apply agree (follows_keyExpansion hkey) (follows_specWord (state key) 44) (by omega)
      (show 0 + 4 ≤ 44 by omega) _ hi
    intro i _ hi
    rw [word_keyExpansion hkey (by omega), specWord, dif_pos (by omega)]
    funext row
    simp [word, state, show 4 * i + row.val < 16 by omega]
  ext row col
  have hentry := congrFun (hwords (4 * round + col) (by omega)) row
  simp only [specKeys, Matrix.of_apply, ← hentry]
  simp [roundGrid, state, keyBlock, word, Nat.mul_add, Nat.mul_comm, Nat.mul_left_comm, Nat.add_assoc]

theorem specCipher_congr {k l : Nat → Grid} (h : ∀ round ≤ 10, k round = l round) (m : Grid) :
    specCipher k m = specCipher l m := by
  have hrounds : ∀ n ≤ 10, specRounds k n = specRounds l n := by
    intro n
    induction n with
    | zero => exact fun _ => rfl
    | succ n ih =>
      intro hn
      funext m
      rw [specRounds, specRounds, ih (by omega), h (n + 1) hn]
  rw [specCipher, specCipher, hrounds 9 (by omega), h 0 (by omega), h 10 le_rfl]

theorem specInvCipher_congr {k l : Nat → Grid} (h : ∀ round ≤ 10, k round = l round) (m : Grid) :
    specInvCipher k m = specInvCipher l m := by
  have hrounds : ∀ n ≤ 10, specInvRounds k n = specInvRounds l n := by
    intro n
    induction n with
    | zero => exact fun _ => rfl
    | succ n ih =>
      intro hn
      funext m
      rw [specInvRounds, specInvRounds, ih (by omega), h (n + 1) hn]
  rw [specInvCipher, specInvCipher, hrounds 9 (by omega), h 0 (by omega), h 10 le_rfl]

/-- Both directions are the ones of the standard, for every key and every block. -/
theorem cipher_standard (key s : Block) :
    state (cipher (keyExpansion key.toList) s) = specCipher (specKeys (state key)) (state s) ∧
      state (invCipher (keyExpansion key.toList) s) = specInvCipher (specKeys (state key)) (state s) := by
  have hkeys : ∀ round ≤ 10, roundGrid (keyExpansion key.toList) round = specKeys (state key) round :=
    fun _ h => roundGrid_keyExpansion key h
  rw [state_cipher, state_invCipher]
  exact ⟨specCipher_congr hkeys _, specInvCipher_congr hkeys _⟩

theorem round_key_reveals (round : Fin 11) :
    Function.Injective fun key : Block => keyBlock (keyExpansion key.toList) round := by
  intro key other h
  have hround : roundGrid (keyExpansion key.toList) round = roundGrid (keyExpansion other.toList) round :=
    congrArg state h
  rw [roundGrid_keyExpansion key (by omega), roundGrid_keyExpansion other (by omega)] at hround
  have hfirst : ∀ i < 4, specWord (state key) i = specWord (state other) i := by
    intro i hi
    apply agree (follows_specWord (state key) 44) (follows_specWord (state other) 44) (by omega)
      (show 4 * round.val + 4 ≤ 44 by omega) _ (by omega)
    intro j hj hlast
    funext row
    have hentry := congrFun (congrFun hround row) ⟨j - 4 * round.val, by omega⟩
    simp only [specKeys, Matrix.of_apply, Nat.add_sub_cancel' hj] at hentry
    exact hentry
  apply state_injective
  ext row col
  have hcolumn := hfirst col col.isLt
  rw [specWord_first, specWord_first] at hcolumn
  exact congrFun hcolumn row

end PasswordManager.Aes
