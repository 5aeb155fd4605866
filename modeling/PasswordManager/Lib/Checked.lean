import PasswordManager.Lib.CString
import Mathlib.Data.List.Induction
import Mathlib.Data.List.TakeDrop

/-!
# Buffers with checked indices

A loop over a buffer gives `none` as soon as it reads or writes an index outside.
-/

namespace Checked

variable {α : Type*} {m n : Nat}

abbrev Buffer (α : Type*) (n : Nat) := { l : List α // l.length = n }

def read (b : Buffer α n) (i : Nat) : Option α := b.val[i]?

def write (b : Buffer α n) (i : Nat) (x : α) : Option (Buffer α n) :=
  if i < n then some ⟨b.val.set i x, by rw [List.length_set, b.property]⟩ else none

/-- `dst[i] = src[i]` for the given indices. -/
def copy (dst : Buffer α n) (src : Buffer α m) (indices : List Nat) : Option (Buffer α n) :=
  indices.foldlM (fun dst i => do write dst i (← read src i)) dst

def fill (dst : Buffer α n) (indices : List Nat) (x : α) : Option (Buffer α n) :=
  indices.foldlM (fun dst i => write dst i x) dst

/-- The elements one after the other, from the start of the buffer. -/
def store (dst : Buffer α n) (xs : List α) : Option (Buffer α n) :=
  xs.zipIdx.foldlM (fun dst p => write dst p.2 p.1) dst

/-! ## Terminated strings -/

section
variable [DecidableEq α] (z : α)

/-- The end of the list is the first index outside. -/
def strlen : List α → Option Nat
  | [] => none
  | x :: l => if x = z then some 0 else (strlen l).map (· + 1)

def strcpy (dst : Buffer α n) (src : Buffer α m) : Option (Buffer α n) :=
  (strlen z src.val).bind fun size => copy dst src (List.range (size + 1))

/-- Whether two strings are the same, read until they differ or end. -/
def strcmp : List α → List α → Option Bool
  | x :: one, y :: two =>
    if x ≠ y then some false else if x = z then some true else strcmp one two
  | _, _ => none

end

/-! ## What the loops do -/

/-- A buffer with `done` written from the start. -/
structure Begun (dst : Buffer α n) (done : List α) (b : Buffer α n) : Prop where
  room : done.length ≤ n
  val : b.val = done ++ dst.val.drop done.length

theorem Begun.nil (dst : Buffer α n) : Begun dst [] dst := ⟨Nat.zero_le _, rfl⟩

theorem Begun.write {dst b : Buffer α n} {done : List α} (h : Begun dst done b)
    (hroom : done.length < n) (x : α) :
    ∃ b', write b done.length x = some b' ∧ Begun dst (done ++ [x]) b' := by
  have hdst : done.length < dst.val.length := by rw [dst.property]; exact hroom
  refine ⟨_, if_pos hroom, by simpa using Nat.succ_le_of_lt hroom, ?_⟩
  calc b.val.set done.length x
      = done ++ (dst.val.drop done.length).set 0 x := by
        rw [h.val, List.set_append_right _ _ le_rfl, Nat.sub_self]
    _ = done ++ x :: dst.val.drop (done.length + 1) := by
        rw [List.drop_eq_getElem_cons hdst, List.set_cons_zero]
    _ = done ++ [x] ++ dst.val.drop (done ++ [x]).length := by simp

theorem copy_range (dst : Buffer α n) (src : Buffer α m) {k : Nat} (hn : k ≤ n) (hm : k ≤ m) :
    ∃ b, copy dst src (List.range k) = some b ∧ Begun dst (src.val.take k) b := by
  induction k with
  | zero => exact ⟨dst, rfl, .nil dst⟩
  | succ k ih =>
    obtain ⟨b, hcopy, hb⟩ := ih (by omega) (by omega)
    have hk : k < src.val.length := by rw [src.property]; omega
    have hlen : (src.val.take k).length = k := List.length_take_of_le hk.le
    obtain ⟨b', hwrite, hb'⟩ := hb.write (by rw [hlen]; omega) src.val[k]
    refine ⟨b', ?_, by rwa [List.take_succ_eq_append_getElem hk]⟩
    rw [copy, List.range_succ, List.foldlM_append]
    change (copy dst src (List.range k) >>= _) = _
    rw [hcopy]
    rw [hlen] at hwrite
    simp [read, hk, hwrite]

theorem fill_range (dst : Buffer α n) {k j : Nat} (h : k + j ≤ n) (x : α) :
    ∃ b, fill dst (List.range' k j) x = some b ∧
      Begun dst (dst.val.take k ++ List.replicate j x) b := by
  have hlen : ∀ j, (dst.val.take k ++ List.replicate j x).length = k + j := fun j => by
    rw [List.length_append, List.length_take_of_le (by rw [dst.property]; omega),
      List.length_replicate]
  induction j with
  | zero =>
    refine ⟨dst, rfl, (hlen 0).trans_le h, ?_⟩
    rw [hlen]
    simp
  | succ j ih =>
    obtain ⟨b, hfill, hb⟩ := ih (by omega)
    obtain ⟨b', hwrite, hb'⟩ := hb.write (by rw [hlen]; omega) x
    refine ⟨b', ?_, by rwa [List.replicate_succ', ← List.append_assoc]⟩
    rw [fill, List.range'_concat, List.foldlM_append]
    change (fill dst (List.range' k j) x >>= _) = _
    rw [hfill]
    rw [hlen] at hwrite
    simp [hwrite]

theorem store_concat (dst : Buffer α n) (xs : List α) (x : α) :
    store dst (xs ++ [x]) = (store dst xs).bind fun b => write b xs.length x := by
  rw [store, List.zipIdx_append, List.foldlM_append]
  simp [store]

/-- Storing stays inside exactly when there is room for everything. -/
theorem store_spec (dst : Buffer α n) (xs : List α) :
    (xs.length ≤ n → ∃ b, store dst xs = some b ∧ Begun dst xs b) ∧
      (n < xs.length → store dst xs = none) := by
  induction xs using List.reverseRecOn with
  | nil => exact ⟨fun _ => ⟨dst, rfl, .nil dst⟩, fun h => absurd h (Nat.not_lt_zero _)⟩
  | append_singleton xs x ih =>
    rw [List.length_append, List.length_singleton, store_concat]
    constructor
    · intro h
      obtain ⟨b, hstore, hb⟩ := ih.1 (by omega)
      rw [hstore]
      exact hb.write (by omega) x
    · intro h
      rcases Nat.lt_or_ge n xs.length with hlong | hfits
      · rw [ih.2 hlong]
        rfl
      · obtain ⟨b, hstore, -⟩ := ih.1 hfits
        rw [hstore]
        exact if_neg (by omega)

theorem foldlM_eq_some {β ι : Type*} {f : β → ι → Option β} {g : β → ι → β} {l : List ι}
    (h : ∀ i ∈ l, ∀ b, f b i = some (g b i)) (b : β) : l.foldlM f b = some (l.foldl g b) := by
  induction l generalizing b with
  | nil => rfl
  | cons i l ih =>
    rw [List.foldlM_cons, h i (List.mem_cons_self ..), List.foldl_cons]
    exact ih (fun i hi => h i (List.mem_cons_of_mem _ hi)) _

/-! ## What the string functions do -/

section
variable [DecidableEq α] {z : α}

theorem strlen_eq {l : List α} (h : z ∈ l) : strlen z l = some (CString.strlen z l) := by
  induction l with
  | nil => simp at h
  | cons x l ih =>
    by_cases hx : x = z
    · simp [strlen, CString.strlen, CString.str, hx]
    · have hl : z ∈ l := by simpa [Ne.symm hx] using h
      rw [strlen, if_neg hx, ih hl]
      simp [CString.strlen, CString.str, hx]

/-- A string that is terminated in its buffer is copied into any buffer of at least that size. -/
theorem strcpy_eq (dst : Buffer α n) {src : Buffer α m} (h : z ∈ src.val) (hmn : m ≤ n) :
    ∃ b, strcpy z dst src = some b ∧ b.val = CString.strcpy z dst.val src.val := by
  have hlt : CString.strlen z src.val < m := by
    have := CString.strlen_lt h
    rwa [src.property] at this
  obtain ⟨b, hcopy, hb⟩ := copy_range dst src (k := CString.strlen z src.val + 1) (by omega) hlt
  refine ⟨b, ?_, ?_⟩
  · rw [strcpy, strlen_eq h]
    exact hcopy
  · rw [hb.val, CString.strcpy, List.length_take_of_le (by rw [src.property]; exact hlt)]

/-- One terminator is enough. -/
theorem strcmp_eq {one two : List α} (hlen : one.length = two.length) (h : z ∈ two) :
    strcmp z one two = some (decide (CString.str z one = CString.str z two)) := by
  induction two generalizing one with
  | nil => simp at h
  | cons y two ih =>
    obtain ⟨x, one, rfl⟩ := List.exists_cons_of_length_eq_add_one hlen
    rw [strcmp]
    by_cases hxy : x = y
    · subst hxy
      by_cases hx : x = z
      · simp [CString.str, hx]
      · have hrest : z ∈ two := by simpa [Ne.symm hx] using h
        rw [if_neg (by simp), if_neg hx, ih (by simpa using hlen) hrest]
        simp [CString.str, hx]
    · rw [if_pos hxy]
      by_cases hx : x = z
      · have hy : y ≠ z := fun hy => hxy (hx.trans hy.symm)
        simp [CString.str, hx, hy]
      · by_cases hy : y = z <;> simp [CString.str, hx, hy, hxy]

end

end Checked
