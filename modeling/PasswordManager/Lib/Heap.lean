import Mathlib.Data.List.Basic

/-!
# A heap of blocks

Blocks are taken and released. What the heap does after a block was released that nobody had taken is
not defined: it is corrupted from then on.
-/

structure Heap (β : Type*) where
  taken : List β
  corrupted : Bool

namespace Heap

variable {β : Type*} [DecidableEq β] {h : Heap β} {b b' : β}

def allocate (h : Heap β) (b : β) : Heap β := { h with taken := b :: h.taken }

def release (h : Heap β) (b : β) : Heap β :=
  if b ∈ h.taken then { h with taken := h.taken.erase b } else { h with corrupted := true }

@[simp] theorem release_allocate (h : Heap β) (b : β) : (h.allocate b).release b = h := by
  simp [allocate, release]

theorem release_of_not_mem (hb : b ∉ h.taken) : (h.release b).corrupted = true := by
  simp [release, hb]

theorem not_mem_release_allocate (hb : b ∉ h.taken) : b ∉ ((h.allocate b).release b).taken := by
  rwa [release_allocate]

/-- A block is released that was released before. Either it was still free, or the object that is in it
now is gone. -/
theorem release_again (hb : b ∉ h.taken) (hb' : b' ∉ h.taken) :
    ((h.allocate b').release b).corrupted = true ∨ b' ∉ ((h.allocate b').release b).taken := by
  by_cases heq : b' = b
  · subst heq
    exact .inr (not_mem_release_allocate hb')
  · exact .inl (release_of_not_mem (by simp [allocate, Ne.symm heq, hb]))

end Heap
