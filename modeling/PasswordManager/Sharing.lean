import PasswordManager.FileSystem.Buffer
import PasswordManager.FileSystem.Clear
import PasswordManager.Slots.Chip

/-!
# One chip for both

The password manager and the file system do not know of each other. Three of the four slots lie in the sectors
of the files, and the first one in the sector that only serves as a buffer.
-/

open Nor

namespace PasswordManager.Sharing

open FlashDriver Fuel Alike Vault Slots FileSystem

/-! ## The system -/

structure System where
  board : Board
  written : List (Nat × Header)

def onFlash : Board → Flash → Board
  | .menu _ console, flash => .menu flash console
  | .session entered input address s, flash => .session entered input address { s with flash }

/-- The two work in any order. The sessions are in the first slot, and no file is put in a hole. -/
inductive Step : System → Unit ⊕ Call → System → Prop
  | manager {b b' : Board} {written : List (Nat × Header)} (hstep : Slots.Step b b')
      (hfirst : b'.In [address1]) : Step ⟨b, written⟩ (.inl ()) ⟨b', written⟩
  | file {b : Board} {flash : Flash} {written written' : List (Nat × Header)} {call : Call}
      (hstep : TailStep ⟨b.flash, written⟩ call ⟨flash, written'⟩) :
      Step ⟨b, written⟩ (.inr call) ⟨onFlash b flash, written'⟩

/-! ## What one leaves to the other -/

section
variable {b b' : Board} {d : Desk} {flash : Flash}

theorem flash_onFlash (b : Board) (flash : Flash) : (onFlash b flash).flash = flash := by
  cases b <;> rfl

/-- The manager does not see what is written in front of the buffer sector. -/
theorem onFlash_shows (h : ShowsDesk [address1] b d) (hf : flash.Fine)
    (hcells : ∀ x, getBufferSector ≤ x → flash.cells x = b.flash.cells x) :
    ShowsDesk [address1] (onFlash b flash) d := by
  have hheld : ∀ {held}, Held b.flash.cells address1 held → Held flash.cells address1 held := fun hheld =>
    hheld.congr fun x hx _ => (hcells x (by rw [getBufferSector_val]; unfold address1 at hx; omega)).symm
  cases h with
  | menu haccepts hslots =>
    refine .menu hf fun a ha => ?_
    obtain rfl := List.mem_singleton.mp ha
    exact hheld (hslots _ ha)
  | @session entered input a s held t ha haddress hshows hslots =>
    obtain rfl := List.mem_singleton.mp ha
    refine .session ha haddress ?_ fun a ha hne => absurd (List.mem_singleton.mp ha) hne
    obtain ⟨hplace, -, hentries, hchanged, hfirst, hkey, hvault, hstdin, hlog⟩ := hshows
    rw [haddress] at hvault
    have hvault' : Held flash.cells s.pm.address t.held := by
      rw [haddress]
      exact hheld hvault
    exact ⟨hplace, hf, hentries, hchanged, hfirst, hkey, hvault', hstdin, hlog⟩

theorem manager_within (h : ShowsDesk [address1] b d) (hstep : Slots.Step b b') :
    Within address1 b.flash b'.flash := by
  cases hstep with
  | @enter flash console console' address memory s hslot hbegin =>
    have hflash : (Board.session flash console'.input address s).flash = flash :=
      (started_at (begin_started hbegin)).2
    rw [hflash]
    exact .refl _ _
  | turn hturn =>
    cases h with
    | session ha haddress hshows hheld =>
      obtain ⟨letter, -, heffect⟩ := command_outcome hturn
      have hwithin := effect_within hshows.place heffect
      rwa [haddress, List.mem_singleton.mp ha] at hwithin
  | leave hdone hrestart =>
    cases h with
    | session ha haddress hshows hheld =>
      obtain ⟨letter, -, hending⟩ := command_outcome hdone
      have hwithin := ending_within hending
      rwa [haddress, List.mem_singleton.mp ha] at hwithin

end

section
variable {f f' : Flash} {written : List (Nat × Header)} {hs : List Header} {t : Nat} {d : Directory}

theorem kept_congr (hkept : Kept ⟨f, written⟩ hs t) (hf : f'.Fine)
    (hcells : ∀ x < getBufferSector, f'.cells x = f.cells x) : Kept ⟨f', written⟩ hs t := by
  obtain ⟨⟨-, hchain, htail, hwritten⟩, hapart, hshort⟩ := hkept
  have hlast := htail.lt_end
  rw [getBufferSector_val] at hcells
  refine ⟨⟨hf, hchain.congr fun x _ hx => ?_, htail.congr fun x _ hx => ?_, hwritten⟩, hapart, hshort⟩
  · exact (hcells x (by omega)).symm
  · exact (hcells x hx).symm

/-- The file system does not see what is written from the buffer sector on. -/
theorem showsDirectory_congr (h : ShowsDirectory ⟨f, written⟩ d) (hf : f'.Fine)
    (hcells : ∀ x < getBufferSector, f'.cells x = f.cells x) : ShowsDirectory ⟨f', written⟩ d := by
  obtain ⟨hs, t, hkept, hd⟩ := h
  obtain ⟨-, hchain, htail, -⟩ := hkept.listed
  have hlast := htail.lt_end
  have hrecord : ∀ a h, (a, h) ∈ places getStartSector hs → h.first ≠ 0 →
      record f'.cells a = record f.cells a := fun a h ha hlive =>
    record_congr hchain ha hlive fun x _ hx => hcells x (by
      have hbounds := hchain.bounds ha
      rw [getBufferSector_val]
      omega)
  refine ⟨hs, t, kept_congr hkept hf hcells, fun w r => (hd w r).trans ?_⟩
  constructor
  · rintro ⟨a, h, ha, hlive, hcarries, rfl⟩
    exact ⟨a, h, ha, hlive, hcarries, (hrecord a h ha hlive).symm⟩
  · rintro ⟨a, h, ha, hlive, hcarries, rfl⟩
    exact ⟨a, h, ha, hlive, hcarries, hrecord a h ha hlive⟩

end

/-! ## Runs -/

section
variable {b b' : Board} {flash : Flash} {written written' : List (Nat × Header)} {d : Desk} {m : Directory}

theorem manager_step (h : ShowsDesk [address1] b d) (hm : ShowsDirectory ⟨b.flash, written⟩ m)
    (hstep : Slots.Step b b') (hfirst : b'.In [address1]) :
    (∃ d', d.Step d' ∧ ShowsDesk [address1] b' d') ∧ ShowsDirectory ⟨b'.flash, written⟩ m := by
  have hslots : ∀ a ∈ [address1], a ∈ slots := by simp [slots]
  have hwithin := manager_within h hstep
  refine ⟨step_refines hslots h hstep hfirst, showsDirectory_congr hm ?_ fun x hx => hwithin.outside x ?_⟩
  · obtain ⟨hs, t, hkept, -⟩ := hm
    intro i
    rw [hwithin.accepts]
    exact hkept.listed.fine i
  · have hsector : getSectorAddress (getSectorNumber address1) = getBufferSector := by decide
    unfold InSector
    omega

theorem file_step {call : Call} (h : ShowsDesk [address1] b d) (hm : ShowsDirectory ⟨b.flash, written⟩ m)
    (hstep : TailStep ⟨b.flash, written⟩ call ⟨flash, written'⟩) :
    ShowsDesk [address1] (onFlash b flash) d ∧
      ∃ m', m.Step call m' ∧ ShowsDirectory ⟨flash, written'⟩ m' := by
  obtain ⟨m', hm', hshows'⟩ := step_shows hm hstep.1
  obtain ⟨hs, t, hkept, -⟩ := hm
  obtain ⟨hs', t', heffect⟩ := hkept.listed.effect hstep.1.1.careful hstep.1.2
  refine ⟨onFlash_shows h ?_ fun x hx => heffect.behind hkept.listed hstep.2 hx, m', hm', hshows'⟩
  obtain ⟨hs', t', hkept', -⟩ := hshows'
  exact hkept'.listed.fine

end

/-- Whatever the order of the calls, the manager does what a desk of safes does, and the file system does what
a map of names does. -/
theorem shared_chip {flash : Flash} {held : Nat → Option (Buf 32 × List Entry)} {console : Console}
    {calls : List (Unit ⊕ Call)} {s : System} (herased : Erased flash)
    (hheld : Held flash.cells address1 (held address1))
    (hrun : Traces Step ⟨.menu flash console, []⟩ calls s) :
    ∃ d m, Relation.ReflTransGen Desk.Step (.menu held console.stdin) d ∧
      Traces Directory.Step (fun _ => none) (calls.filterMap Sum.getRight?) m ∧
      ShowsDesk [address1] s.board d ∧ Answers s.board.flash m := by
  have hdesk : ShowsDesk [address1] (.menu flash console) (.menu held console.stdin) := by
    refine .menu herased.1 fun a ha => ?_
    obtain rfl := List.mem_singleton.mp ha
    exact hheld
  have hmanager : ∀ (s : System) (call : Unit) s' d m, ShowsDesk [address1] s.board d →
      ShowsDirectory ⟨s.board.flash, s.written⟩ m → Step s (.inl call) s' →
      (∃ d', d.Step d' ∧ ShowsDesk [address1] s'.board d') ∧
        ShowsDirectory ⟨s'.board.flash, s'.written⟩ m := by
    intro s call s' d m hd hm hstep
    cases hstep with
    | manager hstep hfirst => exact manager_step hd hm hstep hfirst
  have hfile : ∀ (s : System) call s' d m, ShowsDesk [address1] s.board d →
      ShowsDirectory ⟨s.board.flash, s.written⟩ m → Step s (.inr call) s' →
      ShowsDesk [address1] s'.board d ∧
        ∃ m', m.Step call m' ∧ ShowsDirectory ⟨s'.board.flash, s'.written⟩ m' := by
    intro s call s' d m hd hm hstep
    cases hstep with
    | file hstep =>
      obtain ⟨hd', hm'⟩ := file_step hd hm hstep
      refine ⟨hd', ?_⟩
      dsimp only
      rwa [flash_onFlash]
  obtain ⟨d, m, hdesks, hdirectories, hshows, hshows'⟩ :=
    hrun.apart hmanager hfile hdesk (erased_shows herased)
  exact ⟨d, m, hdesks.steps, hdirectories, hshows, hshows'.answers⟩

/-- A file is created while a session is open. -/
theorem shared_chip_fileInSession : ∃ (s : System) (d : Desk) (m : Directory),
    Traces Step ⟨.menu Flash.cleared (typed ["1", "add", "a", "b", "commit", "pw"]), []⟩
      [.inl (), .inr (.create (letter 0x61 ended_a) 0 quiet), .inl (), .inl ()] s ∧
    Relation.ReflTransGen Desk.Step
      (.menu (fun _ => none) (typed ["1", "add", "a", "b", "commit", "pw"]).stdin) d ∧
    Traces Directory.Step (fun _ => none) [.create (letter 0x61 ended_a) 0 quiet] m ∧
    ShowsDesk [address1] s.board d ∧ Answers s.board.flash m := by
  obtain ⟨f₁, hcreate, hlisted, -⟩ := @Listed.add getStartSector [] 0x61 ended_a _
    erased_cleared.listed (by decide) (by simp) 0 (by decide)
  have htail : TailStep ⟨Flash.cleared, []⟩ (.create (letter 0x61 ended_a) 0 quiet) _ :=
    tailStep_of_room erased_cleared.listed (by decide) (by decide) hcreate
  obtain ⟨s₀, s₁, s₂, console, hslot, hbegin, hadd, hcommit⟩ :
      ∃ s₀ s₁ s₂ console,
        askinput (typed ["1", "add", "a", "b", "commit", "pw"])
          (typed ["1", "add", "a", "b", "commit", "pw"]).stdin = .ok (address1, console) ∧
        begin (Manager.zeroed 0) address1 Flash.cleared
          { console.alloc.2 with input := console.alloc.1 } = .ok s₀ ∧
        Turn { s₀ with flash := f₁ } s₁ ∧ Turn s₁ (committed s₂) :=
    ⟨_, _, _, _, rfl, rfl, rfl, turn_of_store rfl hlisted.fine⟩
  have hflash : s₀.flash = Flash.cleared := (started_at (begin_started hbegin)).2
  have hfirst : address1 ∈ [address1] := List.mem_singleton_self _
  have hrun : Traces Step ⟨.menu Flash.cleared (typed ["1", "add", "a", "b", "commit", "pw"]), []⟩
      [.inl (), .inr (.create (letter 0x61 ended_a) 0 quiet), .inl (), .inl ()] _ :=
    (((Traces.nil.snoc (.manager (.enter hslot hbegin) hfirst)).snoc (.file (hflash ▸ htail))).snoc
      (.manager (.turn hadd) hfirst)).snoc (.manager (.turn hcommit) hfirst)
  obtain ⟨d, m, hdesk, hdirectory, hshows, hanswers⟩ :=
    @shared_chip _ (fun _ => none) _ _ _ erased_cleared clear_held hrun
  exact ⟨_, d, m, hrun, hdesk, hdirectory, hshows, hanswers⟩

/-! ## A hole -/

section
variable {c : Cells} {sector : Nat}

theorem mirrored_read (h : Mirrored c sector) {n : Nat} (hn : n ≤ 0x8000) :
    Nor.read c address1 n = Nor.read c (sector + 0x18000) n := by
  refine List.ext_getElem (by rw [length_read, length_read]) fun k hk _ => ?_
  have hat : address1 + k = 0x080E0000 + (0x18000 + k) := by
    unfold address1
    omega
  rw [length_read] at hk
  rw [getElem_read, getElem_read, hat, h _ (by omega), Nat.add_assoc]

/-- The first slot holds what stands as far behind the start of the sector. -/
theorem mirrored_held_iff (h : Mirrored c sector) (held : Option (Buf 32 × List Entry)) :
    Held c address1 held ↔ Held c (sector + 0x18000) held := by
  cases held with
  | none =>
    show loadData c address1 = .firstUse ↔ loadData c (sector + 0x18000) = .firstUse
    rw [loadData_eq_firstUse, loadData_eq_firstUse, mirrored_read h (by omega)]
  | some vault =>
    refine exists_congr fun live => and_congr_left fun _ => ?_
    unfold Stored
    refine and_congr_right fun hcount => and_congr_right fun hlength => ?_
    have hsize : (image live.length (blob vault.1 live)).length ≤ 0x8000 := by
      rw [length_image, hlength]
      unfold maxStored at hcount
      omega
    unfold Holds
    rw [mirrored_read h hsize]

end

section
variable {s : State} {hs : List Header} {t a m : Nat} {w : Name} {size : Int} {env : Env}

/-- After a create in a hole, the first slot holds what stands 96 KiB behind the start of the sector in which
the hole ended, whatever it held before. -/
theorem hole_takes_slot {f : Flash} {calls : List Call} {s' : State} (herased : Erased f)
    (hrun : Traces CleanStep ⟨f, []⟩ calls s) (hstep : CleanStep s (.create w size env) s')
    (htakes : TakesHole s.flash.cells w size env a m) (held : Option (Buf 32 × List Entry)) :
    Held s'.flash.cells address1 held ↔ Held s'.flash.cells (sectorOf m + 0x18000) held := by
  obtain ⟨d, -, hshows⟩ := hrun.alike (fun _ _ _ _ h hstep => step_shows h hstep) (erased_shows herased)
  exact mirrored_held_iff (hstep.holeWritten hshows htakes).mirrors held

end

/-- The hole of a deleted file ended in the sector of the second slot. -/
theorem hole_takes_slot_wideHole : ∃ s s', Traces CleanStep ⟨Flash.cleared, []⟩
      [.create (letter 0x61 ended_a) 393000 quiet, .unlink (letter 0x61 ended_a) quiet.beyond] s ∧
    CleanStep s (.create nameE 131072 quiet) s' ∧
    ∀ held, Held s'.flash.cells address1 held ↔ Held s'.flash.cells 0x080D8000 held := by
  obtain ⟨s, s', hrun, hstep, htakes⟩ := wideHole_taken
  exact ⟨s, s', hrun, hstep, hole_takes_slot erased_cleared hrun hstep htakes⟩

/-! ## The fourth slot -/

section
variable {accepts : Nat → Bool} {n : Nat} {c : Cells} {ops : List Op}

/-- The slots lie behind the first header. -/
theorem replay_empty (hown : ∀ op ∈ ops, OfSlots op) (hempty : Blank c getStartSector 36) :
    Blank (replay accepts n c ops) getStartSector 36 := by
  have hslots : ∀ a ∈ slots, getStartSector + 36 ≤ a := by decide
  induction ops generalizing n c with
  | nil => exact hempty
  | cons op ops ih =>
    rw [replay]
    refine ih (fun op hop => hown op (List.mem_cons_of_mem _ hop)) ?_
    split
    next =>
      intro x hx hx'
      obtain ⟨a, ha, rfl | ⟨y, d, rfl, hlow, -⟩⟩ := hown op List.mem_cons_self
      · show wipe _ c x = blank
        unfold wipe
        split
        next => rfl
        next => exact hempty x hx hx'
      · have := hslots a ha
        show burn c y [d] x = blank
        rw [burn_outside (.inl (by omega)), hempty x hx hx']
    next => exact hempty

theorem round_empties (h : Round address4 ops) (haccepts : accepts n = true) :
    Blank (replay accepts n c ops) getStartSector 36 := by
  obtain ⟨writes, rfl, -⟩ := id h
  rw [replay, if_pos haccepts]
  refine replay_empty (fun op hop => h.ofSlots (by simp [slots]) op (List.mem_cons_of_mem _ hop)) ?_
  intro x hx hx'
  rw [getStartSector_val] at hx hx'
  have hsector : InSector (getSectorNumber address4) x := by
    rw [show getSectorNumber address4 = 8 from rfl]
    unfold InSector
    rw [show getSectorAddress 8 = 0x08080000 from rfl, show sectorSize 8 = 0x20000 from rfl]
    omega
  exact if_pos hsector

end

section
variable {entered : Flash} {input : Field} {s : Session} {b b' : Board} {w : Name} {c : Cells}

theorem deleteData_empties {m : Manager} {f : Flash} (haddress : m.address = address4)
    (haccepts : ∀ i, f.accepts i = true) : Blank (deleteData m f).2.cells getStartSector 36 := by
  have hslot : m.address ∈ slots := by simp [haddress, slots]
  have hround : Round m.address [.erase (getSectorNumber m.address)] := ⟨[], rfl, by simp⟩
  rw [(deleteData_played hslot f).cells]
  exact round_empties (haddress ▸ hround) (haccepts _)

theorem storeData_empties {m : Manager} {f : Flash} (haddress : m.address = address4)
    (haccepts : ∀ i, f.accepts i = true) : Blank (storeData m f).2.cells getStartSector 36 := by
  have hslot : m.address ∈ slots := by simp [haddress, slots]
  have hround := storeOps_round (slotAddress hslot) f.accepts f.trace.length
  rw [(storeData_played hslot f).cells]
  exact round_empties (haddress ▸ hround) (haccepts _)

theorem step_empties (haccepts : ∀ i, s.flash.accepts i = true) (haddress : s.pm.address = address4)
    (hstep : Slots.Step (.session entered input address4 s) b) (hchanged : b.flash ≠ s.flash) :
    Blank b.flash.cells getStartSector 36 := by
  cases hstep with
  | @turn _ _ _ _ s' hturn =>
    obtain ⟨letter, -, heffect⟩ := command_outcome hturn
    show Blank s'.flash.cells getStartSector 36
    rcases heffect.flash.2 with heq | heq | ⟨m, hm, heq⟩
    · exact absurd heq hchanged
    · rw [heq]
      exact deleteData_empties haddress haccepts
    · rw [heq]
      exact storeData_empties (hm.trans haddress) haccepts
  | @leave _ _ _ _ s' _ _ hdone hrestart =>
    obtain ⟨letter, -, hending⟩ := command_outcome hdone
    show Blank s'.flash.cells getStartSector 36
    rcases hending.flash with heq | heq
    · exact absurd heq hchanged
    · rw [heq]
      exact deleteData_empties haddress haccepts

theorem empty_finds (hempty : Blank c getStartSector 36) (hlength : w.val.length ≤ 23)
    (beyond : Nat → List Byte) : Yields (getAddress c w beyond · getStartSector) fsBlank := by
  have herased := erased_cleared.listed
  have hheader : readHeader c getStartSector = readHeader Flash.cleared.cells getStartSector :=
    readHeader_congr fun x hx hx' => hempty x hx hx'
  have hno : strcmp w ((readHeader c getStartSector).filename.val ++ beyond getStartSector) = false := by
    rw [hheader, Bool.eq_false_iff]
    intro heq
    exact not_tailNamed hlength ((strcmp_tail_iff herased.tail (Nat.le_succ_of_le hlength) _).mp heq)
  have hword : word c getStartSector = fsBlank := word_blank fun x hx hx' => hempty x hx (by omega)
  refine getAddress_pass ⟨by decide, by decide⟩ hno ?_
  rw [hword]
  exact .last fun fuel => by simp [getAddress]

/-- Once a command of a session in the fourth slot has touched the chip, no file is found any more, however
the manager is used from then on. -/
theorem files_lost (haccepts : ∀ i, s.flash.accepts i = true) (haddress : s.pm.address = address4)
    (hstep : Slots.Step (.session entered input address4 s) b) (hchanged : b.flash ≠ s.flash)
    (hrun : Relation.ReflTransGen Slots.Step b b') (hnamed : w.val ≠ []) (hlength : w.val.length ≤ 23) :
    (∀ size env, 0 ≤ size → Yields (openFile · b'.flash w .read size env) (none, b'.flash)) ∧
    (∀ beyond, Yields (lstat · b'.flash.cells w beyond) (.error .ENOENT)) ∧
    ∀ beyond, Yields (unlink · b'.flash w beyond) (.error .ENOENT, b'.flash) := by
  have hslot : (Board.session entered input address4 s).InSlot := by
    simp [Board.InSlot, haddress, slots]
  obtain ⟨hslot', -⟩ := Slots.Step.played hslot hstep
  obtain ⟨-, ops, hplayed⟩ := run_played hslot' hrun
  have hempty : Blank b'.flash.cells getStartSector 36 := by
    rw [hplayed.cells]
    exact replay_empty hplayed.own (step_empties haccepts haddress hstep hchanged)
  refine ⟨fun size env hsize => ?_, fun beyond => ?_, fun beyond => ?_⟩
  · have hopen :=
      openFile_read (Nat.le_succ_of_le hlength) hnamed hsize (empty_finds hempty hlength env.beyond)
    rwa [if_pos rfl] at hopen
  · have hstat := lstat_yields (Nat.le_succ_of_le hlength) (empty_finds hempty hlength beyond)
    rwa [if_pos rfl] at hstat
  · unfold unlink
    simp only [if_neg hnamed]
    refine (empty_finds hempty hlength beyond).bind ?_
    simp only [if_true]
    exact .pure _

end

/-- There is a file, and the fourth slot is used for the first time. -/
theorem files_lost_commit : ∃ (s : Session) (b b' : Board) (file : File),
    Yields (openFile · s.flash nameA .read 0 quiet) (some file, s.flash) ∧
    Slots.Step (.session s.flash (Field.filled 0) address4 s) b ∧
    Relation.TransGen Slots.Step b b' ∧
    (∀ size env, 0 ≤ size → Yields (openFile · b'.flash nameA .read size env) (none, b'.flash)) ∧
    (∀ beyond, Yields (lstat · b'.flash.cells nameA beyond) (.error .ENOENT)) ∧
    ∀ beyond, Yields (unlink · b'.flash nameA beyond) (.error .ENOENT, b'.flash) := by
  obtain ⟨f, -, hlisted, hcells⟩ := @Listed.add getStartSector [] 0x61 ended_a _
    erased_cleared.listed (by decide) (by simp) 0 (by decide)
  have hstart : Chain f.cells getStartSector [] getStartSector := rfl
  have hfile := @open_letter _ _ _ _ _ _ _ ended_a hstart hlisted.chain hlisted.tail (by simp) rfl
  have hclear : loadData f.cells address4 = .firstUse := by
    refine loadData_of_ne (read_ne_ident ?_)
    rw [hcells, burn_outside (.inr (by rw [Header.length_bytes]; decide))]
    rfl
  obtain ⟨s₀, s₁, s₂, s₃, s₄, hbegin, hadd, hcommit, hadd', hcommit', haddress, hflash, hflash'⟩ :
      ∃ s₀ s₁ s₂ s₃ s₄,
        begin (Manager.zeroed 0) address4 f
          (typed ["add", "a", "b", "commit", "pw", "add", "c", "d", "commit", "pw"]) = .ok s₀ ∧
        Turn s₀ s₁ ∧ Turn s₁ (committed s₂) ∧ Turn (committed s₂) s₃ ∧ Turn s₃ (committed s₄) ∧
        s₁.pm.address = address4 ∧ s₁.flash = f ∧ s₂.flash = f :=
    ⟨_, _, _, _, _, begin_unused hclear, rfl, turn_of_store rfl hlisted.fine, rfl,
      turn_of_store rfl hlisted.fine, rfl, rfl, rfl⟩
  have hstep : Slots.Step (.session s₁.flash (Field.filled 0) address4 s₁)
      (.session s₁.flash (Field.filled 0) address4 (committed s₂)) := .turn hcommit
  have hchanged : (committed s₂).flash ≠ s₁.flash := by
    intro heq
    have htrace := congrArg Flash.trace heq
    rw [hflash, committed, storeData_eq, hflash'] at htrace
    simp [storeOps] at htrace
  have hrun : Relation.TransGen Slots.Step (.session s₁.flash (Field.filled 0) address4 (committed s₂))
      (.session s₁.flash (Field.filled 0) address4 (committed s₄)) :=
    .tail (.single (.turn hadd')) (.turn hcommit')
  refine ⟨s₁, _, _, _, by rw [hflash]; exact hfile, hstep, hrun, ?_⟩
  exact files_lost (by rw [hflash]; exact hlisted.fine) haddress hstep hchanged hrun.to_reflTransGen
    (by decide) (by decide)

end PasswordManager.Sharing
