import Mathlib.Data.List.Induction
import Mathlib.Data.List.Perm.Basic
import Mathlib.Data.Multiset.AddSub

/-!
# Last matches and removal by a swap

A list used as an unordered array: the last entry takes the place of the one removed.
-/

namespace Lists

variable {α : Type*}

/-- The index of the last entry with `p`. -/
def lastIdx? (p : α → Bool) (l : List α) : Option Nat :=
  (List.range l.length).foldl (fun r i => if l[i]?.any p then some i else r) none

/-- The last entry moves to place `i`. -/
def swapRemove (l : List α) (i : Nat) : List α :=
  (match l.getLast? with
    | some x => l.set i x
    | none => l).dropLast

/-! ## The last match -/

theorem lastIdx?_nil (p : α → Bool) : lastIdx? p [] = none := rfl

theorem lastIdx?_concat (p : α → Bool) (l : List α) (x : α) :
    lastIdx? p (l ++ [x]) = if p x then some l.length else lastIdx? p l := by
  simp only [lastIdx?, List.length_append, List.length_singleton, List.range_succ,
    List.foldl_append, List.foldl_cons, List.foldl_nil]
  rw [List.getElem?_append_right (Nat.le_refl _)]
  simp only [Nat.sub_self, List.getElem?_cons_zero, Option.any_some]
  split
  · rfl
  · apply List.foldl_ext
    intro r i hi
    rw [List.getElem?_append_left (List.mem_range.mp hi)]

theorem lastIdx?_map {β : Type*} (p : β → Bool) (f : α → β) (l : List α) :
    lastIdx? p (l.map f) = lastIdx? (fun x => p (f x)) l := by
  induction l using List.reverseRecOn with
  | nil => rfl
  | append_singleton l x ih =>
    rw [List.map_append, List.map_singleton, lastIdx?_concat, lastIdx?_concat, ih, List.length_map]

theorem lastIdx?_eq_some {p : α → Bool} {l : List α} {i : Nat} :
    lastIdx? p l = some i ↔
      ∃ h : i < l.length, p l[i] ∧ ∀ j (hj : j < l.length), i < j → p l[j] = false := by
  induction l using List.reverseRecOn with
  | nil => simp [lastIdx?_nil]
  | append_singleton l x ih =>
    rw [lastIdx?_concat]
    cases hx : p x with
    | true =>
      simp only [if_true, Option.some.injEq]
      constructor
      · rintro rfl
        refine ⟨by simp, by simpa using hx, fun j hj hlt => ?_⟩
        simp only [List.length_append, List.length_singleton] at hj
        omega
      · rintro ⟨h, -, hlater⟩
        by_contra hne
        simp only [List.length_append, List.length_singleton] at h
        have hf := hlater l.length (by simp) (by omega)
        simp [hx] at hf
    | false =>
      simp only [Bool.false_eq_true, if_false, ih, List.length_append, List.length_singleton]
      constructor
      · rintro ⟨h, hp, hlater⟩
        refine ⟨by omega, by simpa [List.getElem_append_left h] using hp, fun j hj hlt => ?_⟩
        by_cases hjl : j < l.length
        · simpa [List.getElem_append_left hjl] using hlater j hjl hlt
        · rw [List.getElem_append_right (by omega)]
          simpa using hx
      · rintro ⟨h, hp, hlater⟩
        have hi : i < l.length := by
          by_contra hge
          rw [List.getElem_append_right (by omega)] at hp
          simp [hx] at hp
        refine ⟨hi, by simpa [List.getElem_append_left hi] using hp, fun j hj hlt => ?_⟩
        simpa [List.getElem_append_left hj] using hlater j (by omega) hlt

theorem lastIdx?_lt {p : α → Bool} {l : List α} {i : Nat} (h : lastIdx? p l = some i) :
    i < l.length := (lastIdx?_eq_some.mp h).1

theorem lastIdx?_append_cons {p : α → Bool} {l₁ l₂ : List α} {x : α} (hx : p x)
    (h : ∀ y ∈ l₂, p y = false) : lastIdx? p (l₁ ++ x :: l₂) = some l₁.length := by
  induction l₂ using List.reverseRecOn with
  | nil => rw [lastIdx?_concat, if_pos hx]
  | append_singleton l₂ y ih =>
    rw [← List.cons_append, ← List.append_assoc, lastIdx?_concat, h y (by simp)]
    exact ih fun z hz => h z (by simp [hz])

theorem getElem?_lastIdx? (p : α → Bool) (l : List α) :
    (lastIdx? p l).bind (fun i => l[i]?) = (l.filter p).getLast? := by
  induction l using List.reverseRecOn with
  | nil => rfl
  | append_singleton l x ih =>
    rw [lastIdx?_concat, List.filter_append]
    cases hx : p x with
    | true => simp [hx]
    | false =>
      rw [if_neg Bool.false_ne_true, List.filter_singleton, hx, cond_false, List.append_nil, ← ih]
      apply Option.bind_congr
      intro i hi
      rw [List.getElem?_append_left (lastIdx?_lt hi)]

theorem split_of_lastIdx? {p : α → Bool} {l : List α} {i : Nat} (h : lastIdx? p l = some i) :
    ∃ l₁ x l₂, l = l₁ ++ x :: l₂ ∧ l₁.length = i ∧ p x ∧ ∀ y ∈ l₂, p y = false := by
  obtain ⟨hi, hp, hlater⟩ := lastIdx?_eq_some.mp h
  refine ⟨l.take i, l[i], l.drop (i + 1), ?_, by simp; omega, hp, fun y hy => ?_⟩
  · simp
  · obtain ⟨j, hj, rfl⟩ := List.mem_iff_getElem.mp hy
    rw [List.getElem_drop]
    exact hlater _ _ (by omega)

theorem lastIdx?_eq_none {p : α → Bool} {l : List α} :
    lastIdx? p l = none ↔ ∀ x ∈ l, p x = false := by
  induction l using List.reverseRecOn with
  | nil => simp [lastIdx?_nil]
  | append_singleton l x ih =>
    rw [lastIdx?_concat]
    cases hx : p x <;> simp [ih, hx, or_imp, forall_and]

theorem modify_append_cons (f : α → α) (l₁ l₂ : List α) (x : α) :
    (l₁ ++ x :: l₂).modify l₁.length f = l₁ ++ f x :: l₂ := by
  induction l₁ with
  | nil => rfl
  | cons y l₁ ih => rw [List.cons_append, List.length_cons, List.modify_succ_cons, ih]; rfl

theorem map_modify {β : Type*} {f : α → β} {g : α → α} (g' : β → β) (h : ∀ x, f (g x) = g' (f x))
    (l : List α) (i : Nat) : (l.modify i g).map f = (l.map f).modify i g' := by
  apply List.ext_getElem?
  intro j
  simp only [List.getElem?_map, List.getElem?_modify]
  cases l[j]? with
  | none => rfl
  | some x => by_cases hij : i = j <;> simp [hij, h]

/-! ## Removal -/

theorem swapRemove_concat (l : List α) (x : α) (i : Nat) :
    swapRemove (l ++ [x]) i = l.set i x := by
  simp only [swapRemove, List.getLast?_concat]
  by_cases h : i < l.length
  · simp [List.set_append_left _ _ h]
  · rw [List.set_append_right _ _ (by omega), List.set_eq_of_length_le (by omega : l.length ≤ i)]
    cases i - l.length <;> simp

theorem map_swapRemove {β : Type*} (f : α → β) (l : List α) (i : Nat) :
    (swapRemove l i).map f = swapRemove (l.map f) i := by
  induction l using List.reverseRecOn with
  | nil => rfl
  | append_singleton l x ih => rw [List.map_append, List.map_singleton, swapRemove_concat,
      swapRemove_concat, List.map_set]

/-- The entry taken out and the entries left are those there were. -/
theorem cons_swapRemove_perm (l : List α) (i : Nat) (h : i < l.length) :
    (l[i] :: swapRemove l i).Perm l := by
  induction l using List.reverseRecOn with
  | nil => simp at h
  | append_singleton l x ih =>
    rw [swapRemove_concat]
    by_cases hi : i < l.length
    · rw [List.getElem_append_left hi]
      calc (l[i] :: l.set i x).Perm (l[i] :: x :: l.eraseIdx i) :=
            (List.set_perm_cons_eraseIdx hi x).cons _
        _ |>.Perm (x :: l[i] :: l.eraseIdx i) := List.Perm.swap ..
        _ |>.Perm (x :: l) := (List.getElem_cons_eraseIdx_perm hi).cons _
        _ |>.Perm (l ++ [x]) := (List.perm_append_singleton x l).symm
    · have he : i = l.length := by simp at h; omega
      subst he
      rw [List.set_eq_of_length_le (Nat.le_refl _)]
      simpa using (List.perm_append_singleton x l).symm

theorem coe_swapRemove (l : List α) (i : Nat) (h : i < l.length) :
    (l : Multiset α) = l[i] ::ₘ (swapRemove l i : Multiset α) := by
  rw [Multiset.cons_coe]
  exact Multiset.coe_eq_coe.mpr (cons_swapRemove_perm l i h).symm

theorem mem_of_mem_swapRemove {l : List α} {i : Nat} {x : α} (h : x ∈ swapRemove l i) : x ∈ l := by
  induction l using List.reverseRecOn with
  | nil => simp [swapRemove] at h
  | append_singleton l y ih =>
    rw [swapRemove_concat] at h
    rcases List.mem_or_eq_of_mem_set h with hl | rfl
    · exact List.mem_append_left _ hl
    · simp

end Lists
