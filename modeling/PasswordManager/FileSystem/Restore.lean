import PasswordManager.FileSystem.Chain

/-!
# What the rebuilding of sectors leaves behind

A sector is copied word by word. Where a header is placed, the copy goes on at its `next`, and
what stood between them is gone, but only up to the end of the sector.
-/

open Nor

namespace PasswordManager.FileSystem

open FlashDriver Fuel

/-! ## Sectors -/

def sectorOf (x : Nat) : Nat := x / 0x20000 * 0x20000

theorem and_mask {i : Nat} (hlow : 0x08080000 ≤ i) (hhigh : i < 0x08100000) :
    i &&& addrFlashSectorMask = sectorOf i := by
  have hq : i / 0x20000 = 0x404 ∨ i / 0x20000 = 0x405 ∨ i / 0x20000 = 0x406 ∨ i / 0x20000 = 0x407 := by
    omega
  have hand : i / 2 ^ 17 &&& 0x407 = i / 2 ^ 17 := by
    rcases hq with hq | hq | hq | hq <;> rw [show (2 : Nat) ^ 17 = 0x20000 from rfl, hq] <;> rfl
  apply Nat.eq_of_testBit_eq
  intro j
  rw [sectorOf, Nat.testBit_and, show addrFlashSectorMask = 0x407 * 2 ^ 17 from rfl,
    show (0x20000 : Nat) = 2 ^ 17 from rfl, Nat.testBit_mul_two_pow, Nat.testBit_mul_two_pow]
  by_cases hj : 17 ≤ j
  · have hbit := congrArg (Nat.testBit · (j - 17)) hand
    simp only [Nat.testBit_and, Nat.testBit_div_two_pow] at hbit
    rw [show j - 17 + 17 = j by omega] at hbit
    simp only [hj, decide_true, Bool.true_and, hbit, Nat.testBit_div_two_pow]
    rw [Nat.sub_add_cancel hj]
  · simp [hj]

def FileSector (s : Nat) : Prop := s = 0x08080000 ∨ s = 0x080A0000 ∨ s = 0x080C0000

theorem sectorOf_eq {s x : Nat} (hs : FileSector s) (hlow : s ≤ x) (hhigh : x < s + 0x20000) :
    sectorOf x = s := by
  unfold sectorOf
  rcases hs with rfl | rfl | rfl <;> omega

theorem inSector_iff {s x : Nat} (hs : FileSector s) :
    InSector (getSectorNumber s) x ↔ s ≤ x ∧ x < s + 0x20000 := by
  rcases hs with rfl | rfl | rfl <;> exact Iff.rfl

/-! ## One sector -/

/-- The headers are placed one behind the other in the file area, all of them at words. -/
structure Placement (placed : Nat → Option Header) : Prop where
  word : ∀ p h, placed p = some h → p % 4 = 0 ∧ h.next % 4 = 0
  space : ∀ p h, placed p = some h → p + 36 ≤ h.next
  apart : ∀ p h p' h', placed p = some h → placed p' = some h' → p < p' → h.next ≤ p'
  within : ∀ p h, placed p = some h → h.next < 0x080E0000

/-- What a cell of the sector `s` holds when it is rebuilt: behind a header that is placed in the
sector, its bytes and then nothing, and elsewhere what was there. -/
def Rebuilt (placed : Nat → Option Header) (s : Nat) (c : Cells) (x : Nat) (b : Byte) : Prop :=
  (∀ p h, placed p = some h → s ≤ p → p ≤ x → x < h.next → b = h.bytes.getD (x - p) blank) ∧
  ((∀ p h, placed p = some h → s ≤ p → p ≤ x → h.next ≤ x) → b = c x)

/-- The sector `s` of `c` is in the buffer up to the address `i`. -/
structure Copied (placed : Nat → Option Header) (s : Nat) (c : Cells) (i : Nat) (b : Cells) : Prop where
  outside : ∀ x, x < 0x080E0000 → b x = c x
  done : ∀ x, s ≤ x → x < i → x < s + 0x20000 → Rebuilt placed s c x (b (0x080E0000 + (x - s)))
  clear : ∀ x, i ≤ x → x < s + 0x20000 → b (0x080E0000 + (x - s)) = blank
  passed : ∀ p h, placed p = some h → s ≤ p → p < i → h.next ≤ i

section
variable {placed : Nat → Option Header} {s i : Nat} {c b : Cells} {h : Header}

theorem Copied.write (hcopied : Copied placed s c i b) (hlow : s ≤ i) {j : Nat} {bytes : List Byte}
    (hj : i + bytes.length ≤ j)
    (hdone : ∀ x, i ≤ x → x < j → x < s + 0x20000 →
      Rebuilt placed s c x (burn b (0x080E0000 + (i - s)) bytes (0x080E0000 + (x - s))))
    (hpassed : ∀ p h, placed p = some h → s ≤ p → p < j → h.next ≤ j) :
    Copied placed s c j (burn b (0x080E0000 + (i - s)) bytes) := by
  refine ⟨fun x hx => ?_, fun x hx hx' hs => ?_, fun x hx hs => ?_, hpassed⟩
  · rw [burn_outside (by omega)]
    exact hcopied.outside x hx
  · by_cases hxi : x < i
    · rw [burn_outside (by omega)]
      exact hcopied.done x hx hxi hs
    · exact hdone x (by omega) hx' hs
  · rw [burn_outside (by omega)]
    exact hcopied.clear x (by omega) hs

theorem Copied.placeHeader (hp : Placement placed) (hcopied : Copied placed s c i b) (hlow : s ≤ i)
    (hplaced : placed i = some h) :
    Copied placed s c h.next (burn b (0x080E0000 + (i - s)) h.bytes) := by
  have hspace := hp.space i h hplaced
  have hlen := h.length_bytes
  apply hcopied.write hlow (by omega)
  · intro x hx hx' hs
    have hcell : burn b (0x080E0000 + (i - s)) h.bytes (0x080E0000 + (x - s)) =
        h.bytes.getD (x - i) blank := by
      unfold burn
      rw [hcopied.clear x (by omega) hs, if_pos (by omega), blank_and,
        show 0x080E0000 + (x - s) - (0x080E0000 + (i - s)) = x - i by omega]
    rw [hcell]
    constructor
    · intro p h' hp' hsp hpx hx'
      rcases Nat.lt_trichotomy p i with hlt | rfl | hgt
      · have := hcopied.passed p h' hp' hsp hlt
        omega
      · rw [hplaced] at hp'
        cases hp'
        rfl
      · have := hp.apart i h p h' hplaced hp' hgt
        omega
    · intro hnone
      have := hnone i h hplaced hlow (by omega)
      omega
  · intro p h' hp' hsp hlt
    rcases Nat.lt_trichotomy p i with hpi | rfl | hpi
    · have := hcopied.passed p h' hp' hsp hpi
      omega
    · rw [hplaced] at hp'
      cases hp'
      exact Nat.le_refl _
    · have := hp.apart i h p h' hplaced hp' hpi
      omega

theorem Copied.copyWord (hp : Placement placed) (hcopied : Copied placed s c i b) (hs : s % 4 = 0)
    (hend : s + 0x20000 ≤ 0x080E0000) (hi : i % 4 = 0) (hlow : s ≤ i) (hhigh : i < s + 0x20000)
    (hplaced : placed i = none) :
    Copied placed s c (i + 4) (burn b (0x080E0000 + (i - s)) (wordBytes (word b i))) := by
  have hbytes : wordBytes (word b i) = Nor.read b i 4 := wordBytes_word b i
  have hlen : (Nor.read b i 4).length = 4 := length_read b i 4
  rw [hbytes]
  have hafter : ∀ p h, placed p = some h → i ≤ p → i + 4 ≤ p := by
    intro p h hp' hip
    have hword := (hp.word p h hp').1
    have hne : p ≠ i := by
      rintro rfl
      rw [hplaced] at hp'
      cases hp'
    omega
  apply hcopied.write hlow (by omega)
  · intro x hx hx' hs
    obtain ⟨k, rfl⟩ := Nat.exists_eq_add_of_le hx
    have hcell : burn b (0x080E0000 + (i - s)) (Nor.read b i 4) (0x080E0000 + (i + k - s)) = c (i + k) := by
      have hclear := hcopied.clear (i + k) (by omega) hs
      rw [show 0x080E0000 + (i + k - s) = 0x080E0000 + (i - s) + k by omega] at hclear ⊢
      rw [burn_at _ _ _ _ (by omega), hclear, blank_and, getElem_read]
      exact hcopied.outside _ (by omega)
    rw [hcell]
    refine ⟨fun p h' hp' hsp hpx hx' => ?_, fun _ => rfl⟩
    rcases Nat.lt_or_ge p i with hpi | hpi
    · have := hcopied.passed p h' hp' hsp hpi
      omega
    · have := hafter p h' hp' hpi
      omega
  · intro p h' hp' hsp hlt
    rcases Nat.lt_or_ge p i with hpi | hpi
    · have := hcopied.passed p h' hp' hsp hpi
      omega
    · have := hafter p h' hp' hpi
      omega

theorem FileSector.bounds (hs : FileSector s) :
    s % 4 = 0 ∧ 0x08080000 ≤ s ∧ s + 0x20000 ≤ 0x080E0000 := by
  rcases hs with rfl | rfl | rfl <;> omega

theorem copySector_yields (hp : Placement placed) (hs : FileSector s) {f : Flash} (hf : f.Fine)
    (hlow : s ≤ i) (hword : i % 4 = 0) (hhigh : i ≤ 0x080E0000) (hcopied : Copied placed s c i f.cells) :
    ∃ f' i', Yields (copySector placed s · i f) (true, f') ∧ f'.Fine ∧ s + 0x20000 ≤ i' ∧
      Copied placed s c i' f'.cells := by
  obtain ⟨hs4, hstart, hend⟩ := hs.bounds
  have hmask : i &&& addrFlashSectorMask = sectorOf i := and_mask (by omega) (by omega)
  induction hn : s + 0x20000 - i using Nat.strong_induction_on generalizing i f with
  | h n ih =>
  by_cases hin : i < s + 0x20000
  · have hsector := hmask.trans (sectorOf_eq hs hlow hin)
    cases hplaced : placed i with
    | some h =>
      obtain ⟨f₁, hwrite, hcells, hf₁⟩ := did_writeHeader hf (0x080E0000 + (i - s)) h
      have hspace := hp.space i h hplaced
      have hwithin := hp.within i h hplaced
      have hnext := hcopied.placeHeader hp hlow hplaced
      rw [← hcells] at hnext
      obtain ⟨f', i', hyields, hrest⟩ := ih _ (by omega) hf₁ (by omega) (hp.word i h hplaced).2
        (by omega) hnext (and_mask (by omega) (by omega)) rfl
      refine ⟨f', i', .succ (fun fuel => ?_) hyields, hrest⟩
      simp only [copySector, hsector, if_true, hplaced, getBufferSector_val, hwrite]
    | none =>
      obtain ⟨f₁, hwrite, hcells, hf₁⟩ := did_writeWord hf (0x080E0000 + (i - s)) (word f.cells i)
      have hnext := hcopied.copyWord hp hs4 hend hword hlow hin hplaced
      rw [← hcells] at hnext
      obtain ⟨f', i', hyields, hrest⟩ := ih (s + 0x20000 - (i + 4)) (by omega) hf₁ (by omega) (by omega)
        (by omega) hnext (and_mask (by omega) (by omega)) rfl
      refine ⟨f', i', .succ (fun fuel => ?_) hyields, hrest⟩
      simp only [copySector, hsector, if_true, hplaced, getBufferSector_val, hwrite, aligment]
  · refine ⟨f, i, .last fun fuel => ?_, hf, by omega, hcopied⟩
    have hother : i &&& addrFlashSectorMask ≠ s := by
      rw [hmask, sectorOf]
      omega
    simp only [copySector, if_neg hother]

end

theorem rebuildSector_yields {placed : Nat → Option Header} {s : Nat} {f : Flash} (hp : Placement placed)
    (hs : FileSector s) (hf : f.Fine) :
    ∃ f' : Flash, Yields (rebuildSector placed s · f) (true, f') ∧ f'.Fine ∧
      (∀ x, s ≤ x → x < s + 0x20000 → Rebuilt placed s f.cells x (f'.cells x)) ∧
      ∀ x, x < 0x080E0000 → x < s ∨ s + 0x20000 ≤ x → f'.cells x = f.cells x := by
  obtain ⟨hs4, hstart, hend⟩ := hs.bounds
  obtain ⟨f₁, herase₁, hcells₁, hf₁⟩ := did_erase hf fsSectorBuffer
  have hbuffer : ∀ x, InSector fsSectorBuffer x ↔ 0x080E0000 ≤ x ∧ x < 0x08100000 := fun x => Iff.rfl
  have hcopied : Copied placed s f.cells s f₁.cells := by
    rw [hcells₁]
    refine ⟨fun x hx => ?_, fun x hx hx' => by omega, fun x hx hx' => ?_, fun p h _ hsp hps => by omega⟩
    · rw [wipe, if_neg (by rw [hbuffer]; omega)]
    · rw [wipe, if_pos (by rw [hbuffer]; omega)]
  obtain ⟨f₂, i, hyields, hf₂, hi, hcopied⟩ :=
    copySector_yields hp hs hf₁ (Nat.le_refl s) hs4 (by omega) hcopied
  obtain ⟨f₃, herase₃, hcells₃, hf₃⟩ := did_erase hf₂ (getSectorNumber s)
  obtain ⟨f₄, hwrite, hcells₄, hf₄⟩ := did_write hf₃ s (Nor.read f₃.cells getBufferSector fsSectorSize)
  have hlen : (Nor.read f₃.cells getBufferSector fsSectorSize).length = 0x20000 := length_read _ _ _
  have hcells : ∀ x, f₄.cells x =
      if s ≤ x ∧ x < s + 0x20000 then f₂.cells (0x080E0000 + (x - s)) else f₂.cells x := by
    intro x
    rw [hcells₄]
    split
    next hx =>
      obtain ⟨k, rfl⟩ := Nat.exists_eq_add_of_le hx.1
      rw [burn_at _ _ _ _ (by omega), getElem_read, hcells₃, wipe, wipe,
        if_pos ((inSector_iff hs).mpr hx), blank_and,
        if_neg (by rw [inSector_iff hs, getBufferSector_val]; omega), getBufferSector_val,
        Nat.add_sub_cancel_left]
    next hx =>
      rw [burn_outside (by omega), hcells₃, wipe, if_neg (by rw [inSector_iff hs]; exact hx)]
  refine ⟨f₄, ?_, hf₄, fun x hx hx' => ?_, fun x hx hx' => ?_⟩
  · simp only [rebuildSector, herase₁]
    refine hyields.bind ?_
    have hmask : s &&& addrFlashSectorMask = s := by
      rw [and_mask (by omega) (by omega), sectorOf_eq hs (Nat.le_refl s) (by omega)]
    simp only [copyBack, herase₃, andThen, hmask, hwrite]
    exact .pure _
  · rw [hcells, if_pos ⟨hx, hx'⟩]
    exact hcopied.done x hx (by omega) hx'
  · rw [hcells, if_neg (by omega)]
    exact hcopied.outside x hx

/-! ## All sectors -/

structure Restored (placed : Nat → Option Header) (s last : Nat) (c c' : Cells) : Prop where
  rebuilt : ∀ x, s ≤ x → x < sectorOf last + 0x20000 → Rebuilt placed (sectorOf x) c x (c' x)
  outside : ∀ x, x < 0x080E0000 → x < s ∨ sectorOf last + 0x20000 ≤ x → c' x = c x

theorem restoreSectors_yields {placed : Nat → Option Header} {s last : Nat} {f : Flash}
    (hp : Placement placed) (hs : s = 0x080E0000 ∨ FileSector s) (hlow : 0x08080000 ≤ last)
    (hhigh : last < 0x080E0000) (hf : f.Fine) :
    ∃ f' : Flash, Yields (restoreSectors placed last · s f) (true, f') ∧ f'.Fine ∧
      Restored placed s last f.cells f'.cells := by
  have hmask : last &&& addrFlashSectorMask = sectorOf last := and_mask hlow (by omega)
  induction hn : 0x080E0000 - s using Nat.strong_induction_on generalizing s f with
  | h n ih =>
  by_cases hin : s ≤ sectorOf last
  · have hs' : FileSector s := by
      rcases hs with rfl | hs
      · unfold sectorOf at hin
        omega
      · exact hs
    obtain ⟨-, hstart, hend⟩ := hs'.bounds
    obtain ⟨f₁, hyields₁, hf₁, hrebuilt, houtside⟩ := rebuildSector_yields hp hs' hf
    have hnext : s + 0x20000 = 0x080E0000 ∨ FileSector (s + 0x20000) := by
      unfold FileSector at hs' ⊢
      omega
    obtain ⟨f', hyields, hf', hrestored⟩ := ih _ (by omega) hnext hf₁ rfl
    refine ⟨f', .succ (fun fuel => rfl) ?_, hf', ?_, ?_⟩
    · simp only [restoreSectors, hmask, if_pos hin]
      exact hyields₁.bind hyields
    · intro x hx hx'
      by_cases hsector : x < s + 0x20000
      · rw [hrestored.outside x (by omega) (.inl hsector), sectorOf_eq hs' hx hsector]
        exact hrebuilt x hx hsector
      · have hold : f₁.cells x = f.cells x := by
          refine houtside x ?_ (by omega)
          unfold sectorOf at hx'
          omega
        have hlater := hrestored.rebuilt x (by omega) hx'
        unfold Rebuilt at hlater ⊢
        rwa [hold] at hlater
    · intro x hx hx'
      rw [hrestored.outside x hx (by omega), houtside x hx (by omega)]
  · refine ⟨f, .last fun fuel => ?_, hf, fun x hx hx' => ?_, fun x _ _ => rfl⟩
    · simp only [restoreSectors, hmask, if_neg hin]
    · unfold sectorOf at hin hx'
      unfold FileSector at hs
      omega

/-! ## Filling a hole -/

def holeEnd (h : Header) : Option Header → Nat
  | none => h.next
  | some r => r.next

def placedAt (a : Nat) (h : Header) (rest : Option Header) (i : Nat) : Option Header :=
  if i = a then some h
  else match rest with
    | none => none
    | some r => if i = h.next then some r else none

/-- The new headers lie in the holes, one behind the other. -/
structure Fillable (a : Nat) (h : Header) (rest : Option Header) : Prop where
  start : 0x08080000 ≤ a ∧ a % 4 = 0
  header : a + 36 ≤ h.next ∧ h.next % 4 = 0
  other : ∀ r, rest = some r → h.next + 36 ≤ r.next ∧ r.next % 4 = 0
  within : holeEnd h rest < 0x080E0000

/-- The cells after a hole is filled. Of a header that reaches over the end of a sector, the
part behind the end is missing. -/
structure Filled (c : Cells) (a : Nat) (h : Header) (rest : Option Header) (c' : Cells) : Prop where
  outside : ∀ x, x < 0x080E0000 → x < a ∨ holeEnd h rest ≤ x → c' x = c x
  header : ∀ k, k < 36 → sectorOf (a + k) = sectorOf a → c' (a + k) = h.bytes.getD k blank
  missing : ∀ x, a ≤ x → x < h.next → sectorOf x ≠ sectorOf a → c' x = c x
  other : ∀ r, rest = some r → ∀ k, k < 36 → sectorOf (h.next + k) = sectorOf h.next →
    c' (h.next + k) = r.bytes.getD k blank

section
variable {a : Nat} {h : Header} {rest : Option Header}

theorem placedAt_eq_some {p : Nat} {h' : Header} :
    placedAt a h rest p = some h' → (p = a ∧ h' = h) ∨ (p = h.next ∧ rest = some h') := by
  unfold placedAt
  intro hplaced
  split at hplaced
  next heq =>
    cases hplaced
    exact .inl ⟨heq, rfl⟩
  next =>
    split at hplaced
    next => cases hplaced
    next r =>
      split at hplaced
      next heq =>
        cases hplaced
        exact .inr ⟨heq, rfl⟩
      next => cases hplaced

theorem Fillable.next_le (hfill : Fillable a h rest) : h.next ≤ holeEnd h rest := by
  cases rest with
  | none => exact Nat.le_refl _
  | some r => exact Nat.le_of_add_right_le (hfill.other r rfl).1

theorem Fillable.placement (hfill : Fillable a h rest) : Placement (placedAt a h rest) := by
  have hwithin := hfill.within
  have hle := hfill.next_le
  refine ⟨fun p h' hp => ?_, fun p h' hp => ?_, fun p h' p' h'' hp hp' hlt => ?_, fun p h' hp => ?_⟩
  · rcases placedAt_eq_some hp with ⟨rfl, rfl⟩ | ⟨rfl, hrest⟩
    · exact ⟨hfill.start.2, hfill.header.2⟩
    · exact ⟨hfill.header.2, (hfill.other _ hrest).2⟩
  · rcases placedAt_eq_some hp with ⟨rfl, rfl⟩ | ⟨rfl, hrest⟩
    · exact hfill.header.1
    · exact (hfill.other _ hrest).1
  · have hspace := hfill.header.1
    rcases placedAt_eq_some hp with ⟨rfl, rfl⟩ | ⟨rfl, hrest⟩ <;>
      rcases placedAt_eq_some hp' with ⟨rfl, rfl⟩ | ⟨rfl, hrest'⟩ <;> omega
  · rcases placedAt_eq_some hp with ⟨rfl, rfl⟩ | ⟨rfl, rfl⟩
    · omega
    · exact hwithin

/-- Up to the end of the sector the header and then nothing is there. -/
theorem Restored.cells {c c' : Cells} {x : Nat} (hfill : Fillable a h rest)
    (hrestored : Restored (placedAt a h rest) (sectorOf a) (holeEnd h rest) c c') (hx : a ≤ x)
    (hx' : x < h.next) (hs : sectorOf x = sectorOf a) : c' x = h.bytes.getD (x - a) blank := by
  have hle := hfill.next_le
  have ha : placedAt a h rest a = some h := by simp [placedAt]
  have hlow : sectorOf a ≤ a := Nat.div_mul_le_self a 0x20000
  have hrebuilt := hrestored.rebuilt x (by omega) (by unfold sectorOf; omega)
  rw [hs] at hrebuilt
  exact hrebuilt.1 a h ha hlow hx hx'

theorem Restored.filled {c c' : Cells} (hfill : Fillable a h rest)
    (hrestored : Restored (placedAt a h rest) (sectorOf a) (holeEnd h rest) c c') :
    Filled c a h rest c' := by
  have hwithin := hfill.within
  have hle := hfill.next_le
  have hspace := hfill.header.1
  have hstart := hfill.start
  have hsector : ∀ x, sectorOf x ≤ x ∧ x < sectorOf x + 0x20000 := fun x => by
    unfold sectorOf
    omega
  have hmono : ∀ x y, x ≤ y → sectorOf x ≤ sectorOf y := fun x y hxy => by
    unfold sectorOf
    omega
  refine ⟨fun x hx hout => ?_, fun k hk hs => ?_, fun x hx hx' hs => ?_, fun r hr k hk hs => ?_⟩
  · by_cases hin : sectorOf a ≤ x ∧ x < sectorOf (holeEnd h rest) + 0x20000
    · refine (hrestored.rebuilt x hin.1 hin.2).2 fun p h' hp _ hpx => ?_
      rcases placedAt_eq_some hp with ⟨rfl, rfl⟩ | ⟨rfl, rfl⟩
      · omega
      · rw [holeEnd] at hout hwithin
        omega
    · exact hrestored.outside x hx (by omega)
  · have hcell := hrestored.cells hfill (Nat.le_add_right a k) (by omega) hs
    rwa [Nat.add_sub_cancel_left] at hcell
  · refine (hrestored.rebuilt x (by have := hsector a; omega) (by
      have := hsector x
      have := hmono x _ (show x ≤ holeEnd h rest by omega)
      omega)).2 fun p h' hp hsp hpx => ?_
    rcases placedAt_eq_some hp with ⟨rfl, rfl⟩ | ⟨rfl, rfl⟩
    · unfold sectorOf at hsp hs
      omega
    · omega
  · have hr' := hfill.other r hr
    subst hr
    rw [holeEnd] at hrestored hwithin
    have hnext : placedAt a h (some r) h.next = some r := by
      rw [placedAt, if_neg (by omega), if_pos rfl]
    have hrebuilt := hrestored.rebuilt (h.next + k) (by have := hsector a; omega) (by
      have := hsector (h.next + k)
      have := hmono (h.next + k) _ (show h.next + k ≤ r.next by omega)
      omega)
    rw [hs] at hrebuilt
    have hcell := hrebuilt.1 h.next r hnext (hsector h.next).1 (by omega) (by omega)
    rwa [Nat.add_sub_cancel_left] at hcell

theorem writeHole_restores {f : Flash} (hf : f.Fine) (hfill : Fillable a h rest) :
    ∃ f' : Flash, Yields (fun fuel => (Place.hole a h rest).write fuel f) (true, f') ∧ f'.Fine ∧
      Restored (placedAt a h rest) (sectorOf a) (holeEnd h rest) f.cells f'.cells := by
  have hwithin := hfill.within
  have hle := hfill.next_le
  have hspace := hfill.header.1
  have hstart := hfill.start
  have hmask : a &&& addrFlashSectorMask = sectorOf a := and_mask hstart.1 (by omega)
  have hsector : FileSector (sectorOf a) := by
    unfold FileSector sectorOf
    omega
  obtain ⟨f', hyields, hf', hrestored⟩ := restoreSectors_yields hfill.placement (.inr hsector)
    (show 0x08080000 ≤ holeEnd h rest by omega) hwithin hf
  refine ⟨f', ?_, hf', hrestored⟩
  rw [← hmask] at hyields
  cases rest with
  | none => exact hyields
  | some r => exact hyields

theorem writeHole_yields {f : Flash} (hf : f.Fine) (hfill : Fillable a h rest) :
    ∃ f' : Flash, Yields (fun fuel => (Place.hole a h rest).write fuel f) (true, f') ∧ f'.Fine ∧
      Filled f.cells a h rest f'.cells := by
  obtain ⟨f', hyields, hf', hrestored⟩ := writeHole_restores hf hfill
  exact ⟨f', hyields, hf', hrestored.filled hfill⟩

end

end PasswordManager.FileSystem
