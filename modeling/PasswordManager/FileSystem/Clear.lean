import PasswordManager.FileSystem.Directory
import PasswordManager.Sectors
import PasswordManager.Slots.Safes

/-!
# Clearing the file system

The sectors that are cleared are not only those of the files: three of the four slots lie in them. The
buffer sector is not cleared, and the first slot lies there.
-/

open Nor

namespace PasswordManager.FileSystem

open FlashDriver Fuel Alike Vault Slots

def fsSectorRoot : Nat := 4
def fsSectorRoof : Nat := 10

/-- `clearFS` from the `n`-th sector on. What `erase` returns is not looked at. -/
def clearFrom (f : Flash) (n : Nat) : Nat → Flash
  | 0 => f
  | count + 1 => clearFrom (erase f n).2 (n + 1) count

def clearFS (f : Flash) : Flash := clearFrom f fsSectorRoot (fsSectorRoof + 1 - fsSectorRoot)

/-! ## What is cleared -/

section
variable {f : Flash}

theorem erase_cells (f : Flash) (sector : Int) (x : Nat) :
    (erase f sector).2.cells x =
      if f.accepts f.trace.length = true ∧ InSector sector x then blank else f.cells x := by
  unfold FlashDriver.erase Flash.issue
  by_cases haccepts : f.accepts f.trace.length = true
  · simp [haccepts, Op.apply, wipe]
  · simp [haccepts]

theorem clearFrom_cells (f : Flash) (n count x : Nat) :
    (clearFrom f n count).cells x =
      if ∃ k < count, f.accepts (f.trace.length + k) = true ∧ InSector (n + k : Nat) x then blank
      else f.cells x := by
  induction count generalizing f n with
  | zero => simp [clearFrom]
  | succ count ih =>
    have htrace : (erase f n).2.trace.length = f.trace.length + 1 := by simp [FlashDriver.erase, Flash.issue]
    have haccepts : (erase f n).2.accepts = f.accepts := rfl
    have hsplit : (∃ k < count + 1, f.accepts (f.trace.length + k) = true ∧ InSector (n + k : Nat) x) ↔
        (f.accepts f.trace.length = true ∧ InSector n x) ∨
          ∃ k < count, f.accepts (f.trace.length + 1 + k) = true ∧ InSector (n + 1 + k : Nat) x := by
      rw [Nat.exists_lt_succ_left]
      simp only [Nat.add_zero, Nat.add_assoc, Nat.add_comm 1]
    rw [clearFrom, ih, htrace, haccepts, erase_cells]
    by_cases hfirst : f.accepts f.trace.length = true ∧ InSector n x
    · rw [if_pos hfirst, if_pos (hsplit.mpr (.inl hfirst)), ite_self]
    · simp only [hsplit, hfirst, false_or, if_false]

theorem clearFrom_accepts (f : Flash) (n count : Nat) : (clearFrom f n count).accepts = f.accepts := by
  induction count generalizing f n with
  | zero => rfl
  | succ count ih => rw [clearFrom, ih]; rfl

theorem cleared_sectors (x : Nat) :
    (∃ k < 7, InSector (4 + k : Nat) x) ↔ 0x08010000 ≤ x ∧ x < 0x080E0000 := by
  have hbounds : ∀ k < 7, 0x08010000 ≤ getSectorAddress (4 + k : Nat) ∧
      getSectorAddress (4 + k : Nat) + sectorSize (4 + k : Nat) ≤ 0x080E0000 := by decide
  have hothers : ∀ k : Int, 0 ≤ k → k ≤ 11 → ¬ (4 ≤ k ∧ k ≤ 10) →
      getSectorAddress k + sectorSize k ≤ 0x08010000 ∨ 0x080E0000 ≤ getSectorAddress k := by
    intro k h0 h11 hk
    interval_cases k <;> revert hk <;> decide
  constructor
  · rintro ⟨k, hk, hlow, hhigh⟩
    have := hbounds k hk
    omega
  · intro hx
    obtain ⟨k, h0, h11, hin⟩ :=
      exists_sector (a := x) (by unfold flashStart; omega) (by unfold flashEnd; omega)
    have hk : 4 ≤ k ∧ k ≤ 10 := by
      by_contra hk
      have := hothers k h0 h11 hk
      unfold InSector at hin
      omega
    exact ⟨(k - 4).toNat, by omega, by rwa [show ((4 + (k - 4).toNat : Nat) : Int) = k by omega]⟩

theorem clearFS_cells (hf : f.Fine) (x : Nat) :
    (clearFS f).cells x = if 0x08010000 ≤ x ∧ x < 0x080E0000 then blank else f.cells x := by
  have hcells := clearFrom_cells f 4 7 x
  have hfine : ∀ i, f.accepts i = true := hf
  simp only [hfine, true_and, cleared_sectors] at hcells
  exact hcells

theorem clearFS_erased (hf : f.Fine) : Erased (clearFS f) := by
  refine ⟨fun i => by rw [clearFS, clearFrom_accepts]; exact hf i, fun x hx hx' => ?_⟩
  rw [getStartSector_val] at hx
  rw [getBufferSector_val] at hx'
  rw [clearFS_cells hf, if_pos (by omega)]

theorem clearFS_first (hf : f.Fine) {held : Option (Buf 32 × List Entry)}
    (hheld : Held f.cells address1 held) : Held (clearFS f).cells address1 held := by
  refine hheld.congr fun x hx _ => ?_
  unfold address1 at hx
  rw [clearFS_cells hf, if_neg (by omega)]

/-- `clearFS` makes room for files, and leaves a vault in the first slot only. -/
theorem clearFS_slots (hf : f.Fine) {held : Nat → Option (Buf 32 × List Entry)}
    (hheld : ∀ a ∈ slots, Held f.cells a (held a)) :
    Erased (clearFS f) ∧ ∀ a ∈ slots, Held (clearFS f).cells a (if a = address1 then held a else none) := by
  refine ⟨clearFS_erased hf, fun a ha => ?_⟩
  split
  next hfirst =>
    subst hfirst
    exact clearFS_first hf (hheld _ ha)
  next hother =>
    simp only [slots, List.mem_cons, List.not_mem_nil, or_false, hother, false_or] at ha
    refine loadData_of_ne (read_ne_ident ?_)
    rw [clearFS_cells hf, if_pos]
    rcases ha with rfl | rfl | rfl <;> decide

end

theorem clearFS_slots_commit : ∃ (flash : Flash) (console : Console)
      (held : Nat → Option (Buf 32 × List Entry)),
    Relation.ReflTransGen Slots.Step
      (.menu Flash.cleared (typed ["1", "add", "a", "b", "commit", "pw", "quit", "again", "1", "pw"]))
      (.menu flash console) ∧
    Erased (clearFS flash) ∧
    ∀ a ∈ slots, Held (clearFS flash).cells a (if a = address1 then held a else none) := by
  obtain ⟨flash, console, hrun, -⟩ := commit_and_quit
  obtain ⟨d, -, hshows⟩ := board_refines (fun _ => rfl) (fun _ _ => clear_held) hrun
  cases hshows with
  | @menu _ _ held haccepts hheld => exact ⟨flash, console, held, hrun, clearFS_slots haccepts hheld⟩

/-! ## Runs that do not use the buffer sector -/

/-- No new file is put in a hole. -/
def TailStep (s : State) (call : Call) (s' : State) : Prop :=
  CleanStep s call s' ∧
    ∀ w size env, call = .create w size env → ∀ a m, ¬ TakesHole s.flash.cells w size env a m

section
variable {s s' : State} {hs hs' : List Header} {t t' : Nat} {call : Call}

theorem tailStep_of_room {w : Name} {size : Int} {env : Env} (hlisted : Listed s hs t)
    (hroom : t + roundUp size.toNat < getLastAddress) (hlength : w.val.length ≤ 23)
    (hstep : Step s (.create w size env) s') : TailStep s (.create w size env) s' := by
  refine ⟨⟨clean_of_room hlisted hroom hlength, hstep⟩, fun w' size' env' heq a m htakes => ?_⟩
  cases heq
  exact not_takesHole hlisted.chain hlisted.tail hroom htakes

theorem Effect.behind (hlisted : Listed s hs t)
    (htails : ∀ w size env, call = .create w size env → ∀ a m, ¬ TakesHole s.flash.cells w size env a m)
    (heffect : Effect s hs t call s' hs' t') {x : Nat} (hx : getBufferSector ≤ x) :
    s'.flash.cells x = s.flash.cells x := by
  have hlast := hlisted.tail.lt_end
  rw [getBufferSector_val] at hx
  cases heffect with
  | same => rfl
  | @created w size env file p f hs' t' hf hopened =>
    obtain ⟨-, -, -, -, -, htakes, -, hplaced⟩ := hopened
    cases hplaced with
    | newest hcells hnext hlast' hspace =>
      show f.cells x = _
      rw [hcells, burn_outside (by rw [Header.length_bytes]; omega)]
    | @hole pre run post a m h rest =>
      obtain ⟨m', hm'⟩ := htakes a h rest rfl
      exact absurd hm' (htails w size env rfl a m')
  | deleted hf hsplit hget hpre hat hcells =>
    have hle := hat.add_le
    show _ = _
    rw [hcells, burn_outside (by rw [List.length_singleton]; omega)]
  | wrote hf hsplit hpre hat hlive hcells =>
    have hroom := hat.2.2.2.1 hlive
    have hle := hat.2.2.2.2.le
    exact hcells x (.inr (by omega))

end

end PasswordManager.FileSystem
