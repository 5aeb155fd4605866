import PasswordManager.FileSystem.Directory
import PasswordManager.FlashTrace
import PasswordManager.FlashWrite

/-!
# The buffer sector

A sector of the file area is rebuilt in the buffer sector, erased and copied back. The last one that was
rebuilt stays in the buffer.
-/

open Nor

namespace PasswordManager.FileSystem

open FlashDriver Fuel Alike

/-! ## What is touched -/

/-- What `writeHeader` does after `next`. -/
def writeRest (f : Flash) (address : Nat) (header : Header) : Bool × Flash :=
  andThen (writeWord f (address + 4) header.size) fun f =>
  andThen (writeShort f (address + 8) header.uid) fun f =>
  andThen (writeShort f (address + 10) header.gid) fun f =>
  write f (address + 12) header.filename.val

theorem touches_writeRest (f : Flash) (address : Nat) (header : Header) :
    Touches (Set.Ico (address + 4) (address + 36)) f (writeRest f address header).2 := by
  have hin : ∀ {lo hi}, address + 4 ≤ lo → hi ≤ address + 36 →
      Set.Ico lo hi ⊆ Set.Ico (address + 4) (address + 36) := Set.Ico_subset_Ico
  have hname := header.filename.property
  refine ((touches_writeWord f _ _).mono (hin (by omega) (by omega))).andThen fun f => ?_
  refine ((touches_writeShort f _ _).mono (hin (by omega) (by omega))).andThen fun f => ?_
  refine ((touches_writeShort f _ _).mono (hin (by omega) (by omega))).andThen fun f => ?_
  exact (touches_write f _ _).mono (hin (by omega) (by omega))

theorem touches_writeHeader (f : Flash) (address : Nat) (header : Header) :
    Touches (Set.Ico address (address + 36)) f (writeHeader f address header).2 :=
  ((touches_writeWord f address _).mono (Set.Ico_subset_Ico_right (by omega))).andThen fun f =>
    (touches_writeRest f address header).mono (Set.Ico_subset_Ico_left (by omega))

section
variable {f : Flash} {placed : Nat → Option Header} {sector last fuel i : Nat} {r : Bool × Flash}

theorem copySector_touches (h : copySector placed sector fuel i f = some r) :
    Touches (Set.Ici getBufferSector) f r.2 := by
  have hin : ∀ n m, Set.Ico (getBufferSector + n) m ⊆ Set.Ici getBufferSector := fun n m x hx =>
    Nat.le_trans (Nat.le_add_right _ n) hx.1
  induction fuel generalizing i f with
  | zero => cases h
  | succ fuel ih =>
    unfold copySector at h
    dsimp only at h
    split at h
    next =>
      split at h
      next header _ =>
        have htouches := (touches_writeHeader f (getBufferSector + (i - (i &&& addrFlashSectorMask)))
          header).mono (hin _ _)
        split at h
        next heq =>
          rw [heq] at htouches
          cases h
          exact htouches
        next heq =>
          rw [heq] at htouches
          exact htouches.trans (ih h)
      next =>
        have htouches := (touches_writeWord f (getBufferSector + (i - (i &&& addrFlashSectorMask)))
          (word f.cells i)).mono (hin _ _)
        split at h
        next heq =>
          rw [heq] at htouches
          cases h
          exact htouches
        next heq =>
          rw [heq] at htouches
          exact htouches.trans (ih h)
    next =>
      cases h
      exact .refl f

theorem FileSector.mask (hs : FileSector sector) : sector &&& addrFlashSectorMask = sector := by
  obtain ⟨-, hstart, hend⟩ := hs.bounds
  rw [and_mask (by omega) (by omega), sectorOf_eq hs (Nat.le_refl sector) (by omega)]

theorem copyBack_touches (hs : FileSector sector) (f : Flash) :
    Touches (Set.Ico sector (sector + 0x20000)) f (copyBack f sector).2 := by
  have herase := (touches_erase f (getSectorNumber sector)).mono fun x hx => (inSector_iff hs).mp hx
  refine herase.andThen fun f => ?_
  have hwrite := touches_write f sector (Nor.read f.cells getBufferSector fsSectorSize)
  rw [length_read] at hwrite
  rw [hs.mask]
  exact hwrite

/-- Only the copy back leaves the buffer. -/
theorem rebuildSector_parts {f' : Flash} (h : rebuildSector placed sector fuel f = some (true, f')) :
    ∃ f₁, Touches (Set.Ici getBufferSector) f f₁ ∧ copyBack f₁ sector = (true, f') := by
  have herase : Touches (Set.Ici getBufferSector) f (erase f fsSectorBuffer).2 :=
    (touches_erase f fsSectorBuffer).mono fun x hx => hx.1
  unfold rebuildSector at h
  split at h
  next => cases h
  next heq =>
    rw [heq] at herase
    obtain ⟨⟨ok, f₁⟩, hcopy, h⟩ := Option.bind_eq_some_iff.mp h
    cases ok with
    | false => cases h
    | true => exact ⟨f₁, herase.trans (copySector_touches hcopy), Option.some.inj h⟩

end

/-! ## Sector after sector -/

/-- The sectors from one to the last are put together in the buffer and copied back. -/
inductive Rebuilds (last : Nat) : Nat → Flash → Flash → Prop
  | done {s : Nat} {f : Flash} (hbehind : last < s) : Rebuilds last s f f
  | sector {s : Nat} {f f₁ f₂ f' : Flash} (hin : s ≤ last) (hs : FileSector s)
      (hcopy : Touches (Set.Ici getBufferSector) f f₁) (hback : copyBack f₁ s = (true, f₂))
      (hrest : Rebuilds last (s + fsSectorSize) f₂ f') : Rebuilds last s f f'

theorem restoreSectors_rebuilds {f f' : Flash} {placed : Nat → Option Header} {s last fuel : Nat}
    (hs : s = 0x080E0000 ∨ FileSector s) (hlast : FileSector (sectorOf last))
    (hmask : last &&& addrFlashSectorMask = sectorOf last)
    (h : restoreSectors placed last fuel s f = some (true, f')) : Rebuilds (sectorOf last) s f f' := by
  induction fuel generalizing s f with
  | zero => cases h
  | succ fuel ih =>
    unfold restoreSectors at h
    rw [hmask] at h
    split at h
    next hin =>
      have hs' : FileSector s := by
        unfold FileSector at hs hlast ⊢
        omega
      have hnext : s + fsSectorSize = 0x080E0000 ∨ FileSector (s + fsSectorSize) := by
        unfold FileSector fsSectorSize at *
        omega
      obtain ⟨⟨ok, f₂⟩, hsector, h⟩ := Option.bind_eq_some_iff.mp h
      cases ok with
      | false => cases h
      | true =>
        obtain ⟨f₁, hcopy, hback⟩ := rebuildSector_parts hsector
        exact .sector hin hs' hcopy hback (ih hnext h)
    next hin =>
      cases h
      exact .done (Nat.not_le.mp hin)

section
variable {f f₁ f₂ f' : Flash} {s last sector : Nat}

theorem FileSector.le_buffer (hs : FileSector s) : s ≤ getBufferSector := by
  obtain ⟨-, -, hend⟩ := hs.bounds
  rw [getBufferSector_val]
  omega

theorem Rebuilds.touches (h : Rebuilds last s f f') : Touches (Set.Ici s) f f' := by
  induction h with
  | done hbehind => exact .refl _
  | @sector s f f₁ f₂ f' hin hs hcopy hback hrest ih =>
    have htouches := copyBack_touches hs f₁
    rw [hback] at htouches
    exact ((hcopy.mono (Set.Ici_subset_Ici.mpr hs.le_buffer)).trans
      (htouches.mono Set.Ico_subset_Ici_self)).trans
      (ih.mono (Set.Ici_subset_Ici.mpr (Nat.le_add_right _ _)))

/-! ## What stays in the buffer -/

/-- The buffer sector is a copy of the sector. -/
def Mirrored (c : Cells) (sector : Nat) : Prop := ∀ x < 0x20000, c (0x080E0000 + x) = c (sector + x)

theorem copyBack_mirrors (hs : FileSector s) (h : copyBack f s = (true, f')) : Mirrored f'.cells s := by
  obtain ⟨-, -, hend⟩ := hs.bounds
  set e := wipe (InSector (getSectorNumber s)) f.cells with he
  have hleaves : Leaves (copyBack f s) (burn e s (Nor.read e getBufferSector fsSectorSize)) := by
    refine (leaves_issue f (.erase (getSectorNumber s))).andThen fun f₁ hcells => ?_
    have hwrite := leaves_write f₁ s (Nor.read f₁.cells getBufferSector fsSectorSize)
    rw [hs.mask]
    rwa [show f₁.cells = e from hcells] at hwrite ⊢
  rw [h] at hleaves
  have hlen : (Nor.read e getBufferSector fsSectorSize).length = 0x20000 := length_read _ _ _
  intro x hx
  rw [show f'.cells = _ from hleaves rfl, burn_outside (by omega), burn_at _ _ _ _ (by omega), getElem_read,
    getBufferSector_val, he, wipe, wipe, if_neg (by rw [inSector_iff hs]; omega),
    if_pos ((inSector_iff hs).mpr (by omega)), blank_and]

/-- The last sector that was rebuilt is still in the buffer. -/
theorem Rebuilds.mirrors (h : Rebuilds last s f f') (hlast : FileSector last) (hle : s ≤ last) :
    Mirrored f'.cells last := by
  induction h with
  | done hbehind => exact absurd hle (Nat.not_le.mpr hbehind)
  | @sector s f f₁ f₂ f' hin hs hcopy hback hrest ih =>
    by_cases hnext : s + fsSectorSize ≤ last
    · exact ih hnext
    · obtain rfl : s = last := by
        unfold FileSector at hs hlast
        unfold fsSectorSize at hnext
        omega
      cases hrest with
      | done => exact copyBack_mirrors hs hback
      | sector hin' => exact absurd hin' hnext

/-! ## Power lost -/

/-- The sector is as before, or as after, or what it is to hold is in the buffer. -/
def Recoverable (before after c : Cells) (sector : Nat) : Prop :=
  (∀ x ∈ Set.Ico sector (sector + 0x20000), c x = before x) ∨
    (∀ x ∈ Set.Ico sector (sector + 0x20000), c x = after x) ∨
    ∀ x < 0x20000, c (0x080E0000 + x) = after (sector + x)

theorem FileSector.not_buffer (hs : FileSector s) :
    ∀ x ∈ Set.Ico s (s + 0x20000), x ∉ Set.Ici getBufferSector := by
  obtain ⟨-, -, hend⟩ := hs.bounds
  intro x hx hin
  rw [Set.mem_Ico] at hx
  rw [Set.mem_Ici, getBufferSector_val] at hin
  omega

theorem FileSector.apart (hs : FileSector s) (hsector : FileSector sector) (hne : sector ≠ s) :
    ∀ x ∈ Set.Ico sector (sector + 0x20000), x ∉ Set.Ico s (s + 0x20000) := by
  intro x hx
  unfold FileSector at hs hsector
  rw [Set.mem_Ico] at hx ⊢
  omega

/-- The sector that is copied back is in the buffer until it is done. -/
theorem copyBack_cut (hs : FileSector s) (hback : copyBack f₁ s = (true, f₂))
    (hrest : Touches (Set.Ici (s + fsSectorSize)) f₂ f') (k : Nat) :
    (∀ x ∈ Set.Ico s (s + 0x20000), cutAfter k f₁ f' x = f'.cells x) ∨
      ∀ x < 0x20000, cutAfter k f₁ f' (0x080E0000 + x) = f'.cells (s + x) := by
  obtain ⟨-, -, hend⟩ := hs.bounds
  have hsame := copyBack_touches hs f₁
  rw [hback] at hsame
  have hmirrored := copyBack_mirrors hs hback
  have hbehind : ∀ x < 0x20000, s + x ∉ Set.Ici (s + fsSectorSize) := fun x hx hin =>
    absurd (Nat.le_of_add_le_add_left hin) (Nat.not_le.mpr hx)
  rcases hsame.cut_trans hrest k with hcut | ⟨l, hcut⟩
  · refine .inr fun x hx => ?_
    have hout : 0x080E0000 + x ∉ Set.Ico s (s + 0x20000) := fun hin => by
      have := hin.2
      omega
    rw [hcut, hsame.cut k hout, ← hsame.outside hout, hmirrored x hx, hrest.outside (hbehind x hx)]
  · refine .inl fun x hx => ?_
    obtain ⟨i, rfl⟩ := Nat.exists_eq_add_of_le hx.1
    have hi : i < 0x20000 := Nat.lt_of_add_lt_add_left hx.2
    rw [hcut, hrest.cut l (hbehind i hi), hrest.outside (hbehind i hi)]

/-- Wherever the restoring of the sectors is cut, nothing is lost. -/
theorem Rebuilds.cut (h : Rebuilds last s f f') (hsector : FileSector sector) (j : Nat) :
    Recoverable f.cells f'.cells (cutAfter j f f') sector := by
  induction h generalizing j with
  | done hbehind => exact .inl fun x _ => (@Touches.refl ∅ _).cut j (Set.notMem_empty x)
  | @sector s f f₁ f₂ f' hin hs hcopy hback hrest ih =>
    have hsame := copyBack_touches hs f₁
    rw [hback] at hsame
    have hlater : Touches (Set.Ici s) f₁ f' := (hsame.mono Set.Ico_subset_Ici_self).trans
      (hrest.touches.mono (Set.Ici_subset_Ici.mpr (Nat.le_add_right _ _)))
    rcases hcopy.cut_trans hlater j with hcut | ⟨k, hcut⟩
    · exact .inl fun x hx => by rw [hcut, hcopy.cut j (hsector.not_buffer x hx)]
    rw [hcut]
    by_cases hne : sector = s
    · subst hne
      exact .inr (copyBack_cut hs hback hrest.touches k)
    · have hapart := hs.apart hsector hne
      have hfirst : ∀ x ∈ Set.Ico sector (sector + 0x20000), f₁.cells x = f.cells x := fun x hx =>
        hcopy.outside (hsector.not_buffer x hx)
      rcases hsame.cut_trans hrest.touches k with hcut' | ⟨l, hcut'⟩
      · exact .inl fun x hx => by rw [hcut', hsame.cut k (hapart x hx), hfirst x hx]
      · rw [hcut']
        refine (ih l).imp_left fun hbefore x hx => ?_
        rw [hbefore x hx, hsame.outside (hapart x hx), hfirst x hx]

end

/-! ## A create in a hole -/

/-- The sectors from that of `a` to that of `m` were restored. -/
structure HoleWritten (f f' : Flash) (a m : Nat) : Prop where
  starts : FileSector (sectorOf a)
  ends : FileSector (sectorOf m)
  mask : m &&& addrFlashSectorMask = sectorOf m
  le : sectorOf a ≤ sectorOf m
  written : ∃ placed fuel, restoreSectors placed m fuel (sectorOf a) f = some (true, f')

section
variable {f f' : Flash} {s s' : State} {hs : List Header} {t a m : Nat} {w : Name} {size : Int} {env : Env}

theorem HoleWritten.mirrors (h : HoleWritten f f' a m) : Mirrored f'.cells (sectorOf m) := by
  obtain ⟨placed, fuel, hwritten⟩ := h.written
  exact (restoreSectors_rebuilds (.inr h.starts) h.ends h.mask hwritten).mirrors h.ends h.le

theorem HoleWritten.recoverable (h : HoleWritten f f' a m) (j : Nat) {sector : Nat}
    (hsector : FileSector sector) : Recoverable f.cells f'.cells (cutAfter j f f') sector := by
  obtain ⟨placed, fuel, hwritten⟩ := h.written
  exact (restoreSectors_rebuilds (.inr h.starts) h.ends h.mask hwritten).cut hsector j

/-- A create that takes a hole succeeds. -/
theorem takesHole_writes (hlisted : Listed s hs t) (htakes : TakesHole s.flash.cells w size env a m)
    (hwell : MergesWell s.flash.cells (roundUp size.toNat) a m) :
    ∃ file f' p, Yields (openFile · s.flash w .create size env) (some file, f') ∧
      Yields (place · s.flash.cells w size.toNat env) (some p) ∧ HoleWritten s.flash f' a m := by
  obtain ⟨hfine, hchain, htail, -⟩ := hlisted
  obtain ⟨t', hnewest, hfull⟩ := htakes.full
  obtain ⟨chosen, hchosen, hgaps, -⟩ := chooseHole_yields (roundUp size.toNat) hchain htail env.random
  obtain rfl := hchosen.unique htakes.chosen
  have hgap := hgaps a m rfl
  have hplace := place_chosen htakes.absent hnewest hfull htakes.chosen
  rw [fillHole_eq hgap htail hwell] at hplace
  set h := newHeader w size.toNat (a + roundUp size.toNat)
  set rest := if m = a + roundUp size.toNat then none else some (falseHeader env.memory m) with hrest
  have hfill : Fillable a h rest := (hgap.fitting htail w env.memory).fillable
  have hlast : holeEnd h rest = m := by
    rw [hrest]
    split
    next heq => exact heq.symm
    next => rfl
  have hle := hfill.next_le
  have hwithin := hfill.within
  have hstart := hfill.start.1
  have hspace := hfill.header.1
  rw [hlast] at hle hwithin
  have hmask : ∀ x, 0x08080000 ≤ x → x < 0x080E0000 → x &&& addrFlashSectorMask = sectorOf x :=
    fun x hx hx' => and_mask hx (by omega)
  have hsector : ∀ x, 0x08080000 ≤ x → x < 0x080E0000 → FileSector (sectorOf x) := fun x hx hx' => by
    unfold FileSector sectorOf
    omega
  have hmono : sectorOf a ≤ sectorOf m := by
    unfold sectorOf
    omega
  obtain ⟨f', hwrite, -, -⟩ := writeHole_restores hfine hfill
  refine ⟨_, f', _, openFile_created htakes.short htakes.named htakes.valid hplace hwrite, hplace,
    hsector a hstart (by omega), hsector m (by omega) hwithin, hmask m (by omega) hwithin, hmono, ?_⟩
  obtain ⟨fuel, hfuel⟩ := hwrite
  refine ⟨placedAt a h rest, fuel, ?_⟩
  rw [← hmask a hstart (by omega), ← hlast, ← hfuel fuel (Nat.le_refl fuel)]
  cases rest <;> rfl

theorem CleanStep.holeWritten {d : Directory} (h : ShowsDirectory s d)
    (hstep : CleanStep s (.create w size env) s') (htakes : TakesHole s.flash.cells w size env a m) :
    HoleWritten s.flash s'.flash a m := by
  obtain ⟨hs, t, hkept, -⟩ := h
  obtain ⟨hclean, hstep⟩ := hstep
  obtain ⟨file, f', p, hyes, -, hwritten⟩ := takesHole_writes hkept.listed htakes (hclean.careful a m htakes)
  cases hstep with
  | created hint hopen hplace =>
    cases hopen.unique hyes
    exact hwritten
  | refused hint hopen => cases hopen.unique hyes

end

/-- A file over nearly the whole area is deleted, and a smaller one is created in its place. -/
theorem wideHole_taken : ∃ s s', Traces CleanStep ⟨Flash.cleared, []⟩
      [.create (letter 0x61 ended_a) 393000 quiet, .unlink (letter 0x61 ended_a) quiet.beyond] s ∧
    CleanStep s (.create nameE 131072 quiet) s' ∧
    TakesHole s.flash.cells nameE 131072 quiet getStartSector 0x080DFF7C := by
  obtain ⟨f₁, hstep₁, hlisted₁, hcells₁⟩ := @Listed.add getStartSector [] 0x61 ended_a _
    erased_cleared.listed (by decide) (by simp) 393000 (by decide)
  obtain ⟨f₂, hstep₂, hlisted₂, -, hfirst, hcells₂, -, hcareful⟩ := @Listed.delete _ _ _ [] [] 0x61 ended_a _
    hlisted₁ rfl (by simp) rfl
  have hrun : Traces CleanStep ⟨Flash.cleared, []⟩
      [.create (letter 0x61 ended_a) 393000 quiet, .unlink (letter 0x61 ended_a) quiet.beyond] _ :=
    (Traces.nil.snoc ⟨clean_of_room erased_cleared.listed (by decide) (by decide), hstep₁⟩).snoc
      ⟨hcareful, hstep₂⟩
  obtain ⟨htakes, hwell, -, f₃, hstep₃, -⟩ := @oneHole_filled _ _ _ 131072 hlisted₂ hfirst (by decide)
    (by decide) (by decide)
  have hbehind : ClearBehind f₂.cells nameE 131072 getStartSector := by
    refine ⟨fun k hk hother => ?_, fun x hx _ _ => ?_⟩
    · refine absurd ?_ hother
      have hone : k ≤ 1 := hk
      unfold sectorOf
      rw [getStartSector_val]
      omega
    · rw [hcells₂, burn_outside (.inr (by simp only [List.length_singleton]; omega)), hcells₁,
        burn_outside (.inr (by rw [Header.length_bytes]; omega))]
      rfl
  have hclean : Clean f₂.cells (.create nameE (131072 : Nat) quiet) := by
    refine ⟨by decide, fun a m htakes' => ?_⟩
    cases htakes'.chosen.unique htakes.chosen
    exact ⟨hwell, hbehind, by unfold OnChip; decide, fun _ => by unfold OnChip; decide⟩
  exact ⟨_, _, hrun, ⟨hclean, hstep₃⟩, htakes⟩

end PasswordManager.FileSystem
