import PasswordManager.FileSystem.Lookup
import PasswordManager.FileSystem.Room
import Mathlib.Data.List.GetD

/-!
# What a create leaves

A file that was created is found under its name, and its data is blank. Only in a hole it may not
be so: what lies behind the end of the sector of the header keeps the old bytes.
-/

open Nor

namespace PasswordManager.FileSystem

open FlashDriver Fuel CString

/-! ## A filler that leads to itself -/

section
variable {a s i fuel : Nat} {h r : Header} {f : Flash} (ha : a % 4 = 0) (hnext : h.next % 4 = 0)
  (hlt : a < h.next) (hlast : h.next < 0x080E0000) (hself : r.next = h.next) (hs : FileSector s)
include ha hnext hlt hlast hself hs

/-- The copy comes to the filler and does not get past it. -/
theorem copySector_stuck (hsector : sectorOf h.next = s) (hlow : s ≤ i) (hword : i % 4 = 0)
    (hi : i ≤ h.next) (hbefore : a < s ∨ i ≤ a ∨ i = h.next) (hf : f.Fine) :
    copySector (placedAt a h (some r)) s fuel i f = none := by
  -- The place is before the new header or at the filler, or the header is in an earlier sector.
  induction fuel generalizing i f with
  | zero => rfl
  | succ fuel ih =>
    have hstart := hs.bounds
    have hhigh : i < s + 0x20000 := by
      unfold sectorOf at hsector
      omega
    have hmask : i &&& addrFlashSectorMask = s :=
      (and_mask (by omega) (by omega)).trans (sectorOf_eq hs hlow hhigh)
    simp only [copySector, if_pos hmask]
    cases hplaced : placedAt a h (some r) i with
    | some h' =>
      obtain ⟨f₁, hwrite, -, hf₁⟩ :=
        did_writeHeader hf (getBufferSector + (i - (i &&& addrFlashSectorMask))) h'
      simp only [hwrite]
      have hstep : h'.next = h.next := by
        rcases placedAt_eq_some hplaced with ⟨-, rfl⟩ | ⟨-, heq⟩
        · rfl
        · obtain rfl := Option.some.inj heq
          exact hself
      exact ih (by omega) (by omega) (by omega) (.inr (.inr hstep)) hf₁
    | none =>
      obtain ⟨f₁, hwrite, -, hf₁⟩ :=
        did_writeWord hf (getBufferSector + (i - (i &&& addrFlashSectorMask))) (word f.cells i)
      simp only [hwrite]
      have hne : i ≠ a ∧ i ≠ h.next := by
        unfold placedAt at hplaced
        constructor
        · rintro rfl
          simp at hplaced
        · rintro rfl
          simp [show h.next ≠ a by omega] at hplaced
      exact ih (by simp only [aligment]; omega) (by simp only [aligment]; omega)
        (by simp only [aligment]; omega) (by simp only [aligment]; omega) hf₁

theorem restoreSectors_stuck (hle : s ≤ sectorOf h.next) (hf : f.Fine) :
    restoreSectors (placedAt a h (some r)) r.next fuel s f = none := by
  induction fuel generalizing s f with
  | zero => rfl
  | succ fuel ih =>
    have hstart := hs.bounds
    have hnextSector : sectorOf h.next ≤ h.next := Nat.div_mul_le_self _ _
    unfold restoreSectors
    rw [hself, and_mask (by omega) (by omega), if_pos hle]
    cases hrebuild : rebuildSector (placedAt a h (some r)) s fuel f with
    | none => rfl
    | some result =>
      obtain ⟨ok, f₁⟩ := result
      obtain ⟨hok, hf₁⟩ := rebuildSector_went hf hrebuild
      obtain rfl : ok = true := hok
      have hlater : s ≠ sectorOf h.next := by
        intro hsector
        obtain ⟨f₀, herase, -, hf₀⟩ := did_erase hf fsSectorBuffer
        unfold rebuildSector at hrebuild
        rw [herase] at hrebuild
        dsimp only at hrebuild
        rw [copySector_stuck ha hnext hlt hlast hself hs hsector.symm (Nat.le_refl s) hstart.1 (by omega)
          (by omega) hf₀] at hrebuild
        cases hrebuild
      have hs' : FileSector (s + fsSectorSize) := by
        unfold FileSector fsSectorSize at *
        unfold sectorOf at hle hlater
        omega
      rw [← hself]
      exact ih hs' (by unfold fsSectorSize sectorOf at *; unfold FileSector at hs; omega) hf₁

omit hs in
theorem writeHole_stuck (hlow : 0x08080000 ≤ a) (hf : f.Fine) :
    (Place.hole a h (some r)).write fuel f = none := by
  have hmask : a &&& addrFlashSectorMask = sectorOf a := and_mask hlow (by omega)
  have hsector : FileSector (sectorOf a) := by
    unfold FileSector sectorOf
    omega
  have hstuck : restoreSectors (placedAt a h (some r)) r.next fuel (sectorOf a) f = none :=
    restoreSectors_stuck ha hnext hlt hlast hself hsector (by unfold sectorOf; omega) hf
  rw [← hmask] at hstuck
  exact hstuck

end

/-! ## Where a create puts the file -/

/-- The place of a file that was created, and the cells after it. -/
inductive Put (c : Cells) (hs : List Header) (t : Nat) (w : Name) (size : Int) (env : Env) (c' : Cells) :
    Place → Prop
  | newest (hroom : t + roundUp size.toNat < getLastAddress)
      (hcells : c' = burn c t (newHeader w size.toNat (t + roundUp size.toNat)).bytes) :
      Put c hs t w size env c' (.newest t (newHeader w size.toNat (t + roundUp size.toNat)))
  | hole {a m : Nat} {rest : Option Header} (hgap : Gap c (roundUp size.toNat) getStartSector hs t a m)
      (htakes : TakesHole c w size env a m)
      (hfill : Fillable a (newHeader w size.toNat (a + roundUp size.toNat)) rest)
      (hrestored : Restored (placedAt a (newHeader w size.toNat (a + roundUp size.toNat)) rest) (sectorOf a)
        (holeEnd (newHeader w size.toNat (a + roundUp size.toNat)) rest) c c') :
      Put c hs t w size env c' (.hole a (newHeader w size.toNat (a + roundUp size.toNat)) rest)

section
variable {c : Cells} {a m t : Nat} {hs : List Header} {w : Name}

/-- In all cases the new header leads behind the new file, and a filler to the end of the holes. -/
theorem fillHole_filler {size : Nat} (hgap : Gap c (roundUp size) getStartSector hs t a m)
    (htail : Tail c t) (memory : Header) :
    ∃ rest, fillHole c w size a m memory = .hole a (newHeader w size (a + roundUp size)) rest ∧
      ∀ r, rest = some r → r.next = m := by
  obtain ⟨hplus, hminus, hminus', hroom, hlow, hhigh⟩ := hgap.computed htail
  have hnext : (readHeader c a).next = word c a := rfl
  unfold fillHole
  simp only [hplus, hminus, hminus', hnext]
  split
  next hexact =>
    rw [show word c a = a + roundUp size by omega]
    exact ⟨none, rfl, fun r hr => by cases hr⟩
  next =>
    split
    next hsplit =>
      rw [show word c a = m by omega]
      exact ⟨_, rfl, fun r hr => by cases hr; rfl⟩
    next =>
      split
      next => exact ⟨none, rfl, fun r hr => by cases hr⟩
      next => exact ⟨_, rfl, fun r hr => by cases hr; rfl⟩

/-- Where the write of the headers ends, they lie one behind the other. -/
theorem Gap.fillable {f : Flash} {size fuel : Nat} {rest : Option Header} {result : Bool × Flash}
    (hf : f.Fine) (hgap : Gap c (roundUp size) getStartSector hs t a m) (htail : Tail c t)
    (hrest : ∀ r, rest = some r → r.next = m)
    (hwrite : (Place.hole a (newHeader w size (a + roundUp size)) rest).write fuel f = some result) :
    Fillable a (newHeader w size (a + roundUp size)) rest := by
  obtain ⟨pre, run, post, -, -, hholes, hpost, hroom⟩ := hgap
  have hm := hpost.aligned htail.aligned
  have ha := hholes.chain.aligned hm
  have hlast := hpost.lt_last htail
  have hle := hholes.chain.le
  obtain ⟨hround, hspace, -⟩ := roundUp_bounds size
  rw [getLastAddress_val] at hlast
  unfold Aligned at ha hm
  cases rest with
  | none =>
    refine ⟨by omega, ?_, fun r hr => (by cases hr), ?_⟩
    · simp only [newHeader]
      omega
    · simp only [holeEnd, newHeader]
      omega
  | some r =>
    have hr := hrest r rfl
    have hne : m ≠ a + roundUp size := by
      rintro rfl
      have hstuck : (Place.hole a (newHeader w size (a + roundUp size)) (some r)).write fuel f = none := by
        refine writeHole_stuck (by omega) ?_ ?_ ?_ hr ha.1 hf <;>
        · simp only [newHeader]
          omega
      cases hwrite.symm.trans hstuck
    refine ⟨by omega, ?_, fun r' hr' => ?_, ?_⟩
    · simp only [newHeader]
      omega
    · cases hr'
      simp only [newHeader]
      omega
    · simp only [holeEnd]
      omega

theorem openFile_put {f f' : Flash} {size : Int} {env : Env} {file : File} (hf : f.Fine)
    (hchain : Chain f.cells getStartSector hs t) (htail : Tail f.cells t) (hint : size < 2 ^ 31)
    (hopen : Yields (openFile · f w .create size env) (some file, f')) :
    w.val.length ≤ 24 ∧ w.val ≠ [] ∧ 0 ≤ size ∧
      lookup f.cells w env.beyond (stops getStartSector hs t) = none ∧
      ∃ p, Put f.cells hs t w size env f'.cells p ∧
        file = ⟨p.address + sizeofHeader, size.toNat, 0xBBBB, 0xAAAA⟩ ∧
        Yields (place · f.cells w size.toNat env) (some p) ∧
        Yields (fun fuel => p.write fuel f) (true, f') := by
  have hgiven : ¬ Yields (openFile · f w .create size env) (none, f) := fun hnone => by
    cases hopen.unique hnone
  by_cases hlong : w.val.length > fsFileNameMaxLenght
  · refine absurd ?_ hgiven
    simp only [openFile, if_pos hlong]
    exact .pure _
  by_cases hempty : w.val = []
  · refine absurd ?_ hgiven
    simp only [openFile, hempty, if_true, ite_self]
    exact .pure _
  by_cases hneg : size < 0
  · exact absurd (openFile_unplaced fun hvalid => absurd hvalid (Int.not_le.mpr hneg)) hgiven
  have hshort : w.val.length ≤ fsFileNameMaxLenght := Nat.not_lt.mp hlong
  have hvalid : 0 ≤ size := Int.not_lt.mp hneg
  obtain ⟨p, hplace, hsearch⟩ := place_search env hchain htail (show size.toNat < 2 ^ 31 by omega)
  cases hsearch with
  | nothing => exact absurd (openFile_unplaced fun _ => hplace) hgiven
  | newest habsent hroom =>
    obtain ⟨f₁, hwrite, hcells, -⟩ := did_writeHeader hf t (newHeader w size.toNat (t + roundUp size.toNat))
    have hwrites : Yields (fun fuel => (Place.newest t (newHeader w size.toNat
        (t + roundUp size.toNat))).write fuel f) (true, f₁) := by
      simp only [Place.write, hwrite]
      exact .pure _
    cases hopen.unique (openFile_created hshort hempty hvalid hplace hwrites)
    exact ⟨hshort, hempty, hvalid, habsent, _, .newest hroom hcells, rfl, hplace, hwrites⟩
  | @hole a m habsent hgap hfull hchosen =>
    obtain ⟨rest, heq, hrest⟩ := @fillHole_filler _ _ _ _ _ w _ hgap htail env.memory
    rw [heq] at hplace
    obtain ⟨fuel, result, hwrite, -⟩ := openFile_wrote hshort hempty hvalid hplace hopen
    have hfill := hgap.fillable hf htail hrest hwrite
    obtain ⟨f₁, hwrites, -, hrestored⟩ := writeHole_restores hf hfill
    cases hopen.unique (openFile_created hshort hempty hvalid hplace hwrites)
    have htakes : TakesHole f.cells w size env a m := ⟨hshort, hempty, hvalid,
      findFile_absent hchain htail habsent, ⟨t, newest_yields hchain htail, hfull⟩, hchosen⟩
    exact ⟨hshort, hempty, hvalid, habsent, _, .hole hgap htakes hfill hrestored, rfl, hplace, hwrites⟩

/-- With the heap the same file is returned, in the block of the `new`. -/
theorem openPointer_put {f f' : Flash} {size : Int} {env : Env} {file : File} (hf : f.Fine)
    (hchain : Chain f.cells getStartSector hs t) (htail : Tail f.cells t) (hint : size < 2 ^ 31)
    (hopen : Yields (openFile · f w .create size env) (some file, f')) (heap : Heap Nat) (blocks : Blocks) :
    ∃ p, Put f.cells hs t w size env f'.cells p ∧
      Yields (openPointer · f heap w .create size env blocks)
        (some ⟨blocks.file, file⟩, f', p.heap blocks true heap) := by
  obtain ⟨hlen, hnamed, hvalid, -, p, hput, rfl, hplace, hwrite⟩ := openFile_put hf hchain htail hint hopen
  exact ⟨p, hput, openPointer_created hlen hnamed hvalid hplace hwrite⟩

/-! ## What the create left there -/

theorem Tail.read_newest {size : Nat} (htail : Tail c t) (hroom : t + roundUp size < getLastAddress) :
    readHeader (burn c t (newHeader w size (t + roundUp size)).bytes) t =
      newHeader w size (t + roundUp size) := by
  obtain ⟨hround, hspace, -⟩ := roundUp_bounds size
  exact (htail.appended (htail.aligned.add hround) hroom (by simp only [newHeader]; omega)).1.2.1

/-- The list up to the new file is as before. -/
theorem Put.before {c' : Cells} {size : Int} {env : Env} {p : Place} (hchain : Chain c getStartSector hs t)
    (htail : Tail c t) (hput : Put c hs t w size env c' p) :
    Aligned p.address ∧ p.address < getLastAddress ∧ ∃ pre post, hs = pre ++ post ∧
      Chain c getStartSector pre p.address ∧ Chain c' getStartSector pre p.address := by
  have hlast := htail.lt_end
  cases hput with
  | newest hroom hcells =>
    refine ⟨htail.aligned, htail.lt_last, hs, [], by simp, hchain, hchain.congr fun x _ hx => ?_⟩
    rw [hcells, burn_outside (.inl hx)]
  | hole hgap htakes hfill hrestored =>
    obtain ⟨pre, run, post, rfl, hpre, hholes, hpost, -⟩ := hgap
    have hrest := hholes.chain.append hpost
    refine ⟨hrest.aligned htail.aligned, hrest.lt_last htail, pre, run ++ post, rfl, hpre,
      hpre.congr fun x _ hx => ?_⟩
    have hle := hrest.le
    exact ((hrestored.filled hfill).outside x (by omega) (.inl hx)).symm

theorem Put.size {c' : Cells} {size : Int} {env : Env} {p : Place} (hint : size < 2 ^ 31)
    (hchain : Chain c getStartSector hs t) (htail : Tail c t) (hput : Put c hs t w size env c' p) :
    (readHeader c' p.address).size = size.toNat := by
  obtain ⟨ha, hlow, -⟩ := hput.before hchain htail
  cases hput with
  | newest hroom hcells =>
    dsimp only [Place.address]
    rw [hcells, htail.read_newest hroom]
    rfl
  | hole hgap htakes hfill hrestored =>
    have hle := hfill.next_le
    have hwithin := hfill.within
    rw [(readHeader_of_cells ha hlow (by omega) (by simp only [newHeader]; omega)
      (hrestored.filled hfill).header).1]
    rfl

theorem TakesHole.unique {a' m' : Nat} {size : Int} {env : Env} (htakes : TakesHole c w size env a m)
    (htakes' : TakesHole c w size env a' m') : a' = a := by
  cases htakes'.chosen.unique htakes.chosen
  rfl

/-- Behind the end of the sector of a header in a hole, where nothing is written, the name stands with
its end and the data is blank. -/
structure ClearBehind (c : Cells) (w : Name) (size a : Nat) : Prop where
  name : ∀ k, k ≤ w.val.length → sectorOf (a + 12 + k) ≠ sectorOf a → c (a + 12 + k) = w.val.getD k 0
  data : ∀ x, a + 36 ≤ x → x < a + 36 + size → sectorOf x ≠ sectorOf a → c x = blank

theorem padName_getD (hlen : w.val.length ≤ 24) (k : Nat) :
    (padName w.val).val.getD k 0 = w.val.getD k 0 := by
  show (w.val.take 24 ++ List.replicate (24 - w.val.length) 0).getD k 0 = w.val.getD k 0
  rw [List.take_of_length_le hlen]
  rcases Nat.lt_or_ge k w.val.length with hk | hk
  · rw [List.getD_append _ _ _ _ hk]
  · rw [List.getD_append_right _ _ _ _ hk, List.getD_eq_default _ _ hk]
    simp

theorem storedName_iff (hlen : w.val.length ≤ 23) : str 0 (storedName c a w) = w.val ↔
    ∀ k, k ≤ w.val.length → sectorOf (a + 12 + k) ≠ sectorOf a → c (a + 12 + k) = w.val.getD k 0 := by
  have hstored : ∀ k, k ≤ w.val.length → (storedName c a w).getD k 0 =
      if sectorOf (a + 12 + k) = sectorOf a then w.val.getD k 0 else c (a + 12 + k) := by
    intro k hk
    rw [← padName_getD (by omega) k, List.getD_eq_getElem _ _ (by simp [storedName]; omega)]
    simp only [storedName, List.getElem_map, List.getElem_range]
  rw [str_eq_iff w.property (by simp [storedName]; omega)]
  refine forall_congr' fun k => forall_congr' fun hk => ?_
  rw [hstored k hk]
  split
  next hsector => exact iff_of_true rfl fun hother => absurd hsector hother
  next hsector => exact ⟨fun hcell _ => hcell, fun hcell => hcell hsector⟩

theorem Put.clear_iff {c' : Cells} {size : Int} {env : Env} {p : Place} (hchain : Chain c getStartSector hs t)
    (htail : Tail c t) (hlen : w.val.length ≤ 23) (hput : Put c hs t w size env c' p) :
    (Carries w (readHeader c' p.address) ∧
        ∀ x, p.address + 36 ≤ x → x < p.address + 36 + size.toNat → c' x = blank) ↔
      ∀ a m, TakesHole c w size env a m → ClearBehind c w size.toNat a := by
  obtain ⟨-, hspace, -⟩ := roundUp_bounds size.toNat
  cases hput with
  | newest hroom hcells =>
    refine iff_of_true ⟨?_, fun x hx hx' => ?_⟩ fun a m htakes =>
      absurd htakes (not_takesHole hchain htail hroom)
    · dsimp only [Place.address]
      rw [hcells, htail.read_newest hroom]
      exact str_padName (by omega)
    · dsimp only [Place.address] at hx hx'
      rw [getLastAddress_val] at hroom
      rw [hcells, burn_outside (by rw [Header.length_bytes]; omega)]
      exact htail.blank x (by omega) (by omega)
  | @hole a m rest hgap htakes hfill hrestored =>
    dsimp only [Place.address]
    have hfilled := hrestored.filled hfill
    have hcarries : Carries w (readHeader c' a) ↔ str 0 (storedName c a w) = w.val := by
      unfold Carries
      rw [hfilled.storedName hfill.header.1]
    rw [hcarries, storedName_iff hlen]
    constructor
    · rintro ⟨hname, hblank⟩ a' m' htakes'
      obtain rfl := htakes.unique htakes'
      refine ⟨hname, fun x hx hx' hsector => ?_⟩
      rw [← hfilled.missing x (by omega) (by simp only [newHeader]; omega) hsector]
      exact hblank x hx hx'
    · intro hclear
      obtain ⟨hname, hdata⟩ := hclear a _ htakes
      refine ⟨hname, fun x hx hx' => ?_⟩
      by_cases hsector : sectorOf x = sectorOf a
      · rw [hrestored.cells hfill (by omega) (by simp only [newHeader]; omega) hsector,
          List.getD_eq_getElem?_getD, List.getElem?_eq_none (by rw [Header.length_bytes]; omega)]
        rfl
      · rw [hfilled.missing x (by omega) (by simp only [newHeader]; omega) hsector]
        exact hdata x hx hx' hsector

end

/-! ## A file that was created -/

/-- The file is found under its name, as it was created, and what is written in it is stored. -/
structure Made (f : Flash) (w : Name) (size : Nat) (file : File) : Prop where
  found : FoundAt f.cells w (file.basePointer - sizeofHeader)
  name : Carries w (readHeader f.cells (file.basePointer - sizeofHeader))
  sized : (readHeader f.cells (file.basePointer - sizeofHeader)).size = size
  refused : ∀ size' env', Yields (openFile · f w .create size' env') (none, f)
  blank : ∀ x, file.basePointer ≤ x → x < file.basePointer + size → f.cells x = blank
  stores : ∀ x data, file.basePointer ≤ x → x + data.length ≤ file.basePointer + size →
    Holds (burn f.cells x data) x data

/-- What `open` returned is a file that was made, in a block that is still its own. -/
structure Created (heap : Heap Nat) (f : Flash) (w : Name) (size : Nat) (p : Pointer) : Prop where
  sound : heap.corrupted = false
  owned : p.block ∈ heap.taken
  made : Made f w size p.file

section
variable {c : Cells} {f f' : Flash} {a b t : Nat} {h : Header} {hs pre : List Header} {w : Name}

/-- A short name that is not found matches no header, whatever stands behind it. -/
theorem strcmp_absent {beyond : Nat → List Byte} (hchain : Chain c getStartSector hs t)
    (habsent : lookup c w beyond (stops getStartSector hs t) = none) (hlen : w.val.length ≤ 23)
    (hmem : h ∈ hs) (rest : List Byte) : strcmp w (h.filename.val ++ rest) = false := by
  rw [Bool.eq_false_iff]
  intro heq
  obtain ⟨x, hx⟩ := mem_places_of_mem getStartSector hmem
  exact not_named_of_absent hchain habsent hx (.of_strcmp (by omega) heq)

theorem getAddress_reaches {beyond : Nat → List Byte} (hpre : Chain c b pre a) (ha : a < getLastAddress)
    (hno : ∀ h ∈ pre, ∀ rest, strcmp w (h.filename.val ++ rest) = false)
    (hyes : strcmp w ((readHeader c a).filename.val ++ beyond a) = true) :
    Yields (getAddress c w beyond · b) a := by
  induction pre generalizing b with
  | nil =>
    obtain rfl : b = a := hpre
    exact getAddress_stop ⟨ne_blank_of_lt ha, ha⟩ hyes
  | cons h pre ih =>
    have hlt := Nat.lt_of_le_of_lt hpre.le ha
    obtain ⟨-, hread, -, -, hrest⟩ := hpre
    refine getAddress_pass ⟨ne_blank_of_lt hlt, hlt⟩ ?_ ?_
    · rw [hread]
      exact hno h List.mem_cons_self _
    · rw [word_eq_next hread]
      exact ih hrest fun h' hmem => hno h' (List.mem_cons_of_mem _ hmem)

/-- A create of a name that is found, whatever stands behind the header, returns no file. -/
theorem FoundAt.refused (hfound : FoundAt f.cells w a) (ha : a ≠ fsBlank) (size : Int) (env : Env) :
    Yields (openFile · f w .create size env) (none, f) := by
  refine openFile_unplaced fun _ => ?_
  have hfind := (hfound env.beyond).map fun r => decide (r ≠ fsBlank)
  simp only [← findFile_eq, decide_eq_true ha] at hfind
  exact hfind.bind (.pure _)

theorem FoundAt.named (hfound : FoundAt c w a) (ha : a ≠ fsBlank) : (readHeader c a).Named w := by
  obtain ⟨bound, hget⟩ := hfound fun _ => []
  have hyes := strcmp_of_getAddress (hget bound (Nat.le_refl _)) ha
  rwa [List.append_nil] at hyes

/-- On the flash the file is found and blank exactly when its name leaves room for the end in the
header and, in a hole, what is not written behind the end of the sector is already as it should be. -/
theorem made_iff {size : Int} {env : Env} {file : File} (hf : f.Fine)
    (hchain : Chain f.cells getStartSector hs t) (htail : Tail f.cells t) (hint : size < 2 ^ 31)
    (hopen : Yields (openFile · f w .create size env) (some file, f')) :
    Made f' w size.toNat file ↔
      w.val.length ≤ 23 ∧ ∀ a m, TakesHole f.cells w size env a m → ClearBehind f.cells w size.toNat a := by
  obtain ⟨hlen, hnamed, -, habsent, p, hput, rfl, -⟩ := openFile_put hf hchain htail hint hopen
  have hsized := hput.size hint hchain htail
  obtain ⟨ha, hlast, pre, post, hsplit, hpre, hpre'⟩ := hput.before hchain htail
  have hne : p.address ≠ fsBlank := ne_blank_of_lt hlast
  have haddress : p.address + sizeofHeader - sizeofHeader = p.address := Nat.add_sub_cancel _ sizeofHeader
  constructor
  · rintro ⟨hfound, hname, -, -, hblank, -⟩
    simp only [haddress] at hfound hname
    have hshort : w.val.length ≤ 23 := Nat.le_of_lt_succ (hfound.named hne).length
    exact ⟨hshort, (hput.clear_iff hchain htail hshort).mp ⟨hname, hblank⟩⟩
  · rintro ⟨hshort, hclear⟩
    obtain ⟨hname, hblank⟩ := (hput.clear_iff hchain htail hshort).mpr hclear
    have hno : ∀ h ∈ pre, ∀ rest, strcmp w (h.filename.val ++ rest) = false := fun h hmem rest =>
      strcmp_absent hchain habsent hshort (hsplit ▸ List.mem_append_left post hmem) rest
    have hfound : FoundAt f'.cells w p.address := fun beyond =>
      getAddress_reaches hpre' hlast hno ((hname.named (by omega)).strcmp _)
    refine ⟨?_, ?_, ?_, fun size' env' => hfound.refused hne size' env', hblank, fun x data hx hx' => ?_⟩
    · simp only [haddress]
      exact hfound
    · simp only [haddress]
      exact hname
    · simp only [haddress]
      exact hsized
    · exact holds_burn fun y hy hy' => hblank y (Nat.le_trans hx hy) (Nat.lt_of_lt_of_le hy' hx')

/-- The block of `holes` is released before the `File` is there and once more behind it. -/
theorem heap_hole {heap : Heap Nat} {blocks : Blocks} {a : Nat} {h : Header} {rest : Option Header}
    (hholes : blocks.holes ∉ heap.taken) (hfile : blocks.file ∉ heap.taken) :
    ((Place.hole a h rest).heap blocks true heap).corrupted = true ∨
      blocks.file ∉ ((Place.hole a h rest).heap blocks true heap).taken := by
  simp only [Place.heap, Heap.release_allocate, if_true]
  exact Heap.release_again hholes hfile

/-- The file that `open` returns can be used, found and is blank exactly when its name leaves room for
the end in the header and `open` does not get to a hole. -/
theorem created_file {size : Int} {env : Env} {heap heap' : Heap Nat} {blocks : Blocks} {p : Pointer}
    (hf : f.Fine) (hchain : Chain f.cells getStartSector hs t) (htail : Tail f.cells t) (hint : size < 2 ^ 31)
    (hsound : heap.corrupted = false) (hholes : blocks.holes ∉ heap.taken) (hfile : blocks.file ∉ heap.taken)
    (hopen : Yields (openPointer · f heap w .create size env blocks) (some p, f', heap')) :
    Created heap' f' w size.toNat p ↔ w.val.length ≤ 23 ∧ ∀ a m, ¬ TakesHole f.cells w size env a m := by
  obtain ⟨block, file⟩ := p
  have hopenFile := openFile_of_pointer hopen
  have hmade := made_iff hf hchain htail hint hopenFile
  obtain ⟨place, hput, hpointer⟩ := openPointer_put hf hchain htail hint hopenFile heap blocks
  cases hopen.unique hpointer
  cases hput with
  | newest hroom hcells =>
    have hno : ∀ a m, ¬ TakesHole f.cells w size env a m := fun a m => not_takesHole hchain htail hroom
    constructor
    · exact fun hcreated => ⟨(hmade.mp hcreated.made).1, hno⟩
    · rintro ⟨hshort, -⟩
      exact ⟨hsound, List.mem_cons_self, hmade.mpr ⟨hshort, fun a m htakes => absurd htakes (hno a m)⟩⟩
  | hole hgap htakes hfill hrestored =>
    refine iff_of_false ?_ fun hall => hall.2 _ _ htakes
    rintro ⟨hsound', howned, -⟩
    rcases heap_hole hholes hfile with hbad | hgone
    · exact Bool.noConfusion (hsound'.symm.trans hbad)
    · exact hgone howned

end

theorem halfHole : ∃ s h, CarefulRun Flash.cleared s ∧ Listed s [h] (getStartSector + 200088) ∧
    h.first = 0 := by
  obtain ⟨f₁, hstep₁, hlisted₁, -⟩ := @Listed.add getStartSector [] 0x61 ended_a _
    erased_cleared.listed (by decide) (by simp) 200000 (by decide)
  obtain ⟨f₂, hstep₂, hlisted₂, -, hfirst, -, -, hcareful⟩ := @Listed.delete _ _ _ [] [] 0x61 ended_a _
    hlisted₁ rfl (by simp) rfl
  have hcareful₁ : Careful _ (.create nameA (200000 : Nat) quiet) :=
    careful_of_room erased_cleared.listed.chain erased_cleared.listed.tail (by decide)
  exact ⟨_, _, (Relation.ReflTransGen.refl.tail ⟨_, hcareful₁, hstep₁⟩).tail ⟨_, hcareful, hstep₂⟩, hlisted₂,
    hfirst⟩

/-- A file was deleted. Behind it there is room for the next one, but a larger one gets to the hole. -/
theorem created_file_halfHole : ∃ s h, CarefulRun Flash.cleared s ∧
    Listed s [h] (getStartSector + 200088) ∧ h.first = 0 ∧
    (∃ p f' heap', Yields (openPointer · s.flash ⟨[], false⟩ nameE .create (100 : Nat) quiet ⟨0, 1⟩)
      (some p, f', heap') ∧ Created heap' f' nameE 100 p) ∧
    ∃ p f' heap', Yields (openPointer · s.flash ⟨[], false⟩ nameE .create (195000 : Nat) quiet ⟨0, 1⟩)
      (some p, f', heap') ∧ ¬ Created heap' f' nameE 195000 p := by
  obtain ⟨s, h, hrun, hlisted, hhole⟩ := halfHole
  obtain ⟨hfine, hchain, htail, -⟩ := id hlisted
  refine ⟨s, h, hrun, hlisted, hhole, ?_, ?_⟩
  · have hroom : getStartSector + 200088 + roundUp 100 < getLastAddress := by decide
    have hfresh := @lookup_letter_none _ _ _ _ ended_e hchain htail (by decide) (by simp [hhole]) quiet.beyond
    obtain ⟨f', hwrite, -, -⟩ := did_writeHeader hfine (getStartSector + 200088)
      (newHeader nameE 100 (getStartSector + 200088 + roundUp 100))
    have hwrites : Yields (fun fuel => (Place.newest (getStartSector + 200088) (newHeader nameE 100
        (getStartSector + 200088 + roundUp 100))).write fuel s.flash) (true, f') := by
      simp only [Place.write, hwrite]
      exact .pure _
    have hopen := @openPointer_created _ _ ⟨[], false⟩ nameE (100 : Nat) quiet ⟨0, 1⟩ _ (by decide)
      (by decide) (by decide) (place_newest hchain htail hfresh hroom) hwrites
    exact ⟨_, _, _, hopen, (created_file hfine hchain htail (by decide) rfl (by simp) (by simp) hopen).mpr
      ⟨by decide, fun a m => not_takesHole hchain htail hroom⟩⟩
  · obtain ⟨htakes, -, -, f', -, hopenFile, -⟩ := @oneHole_filled _ _ _ 195000 hlisted hhole (by decide)
      (by decide) (by decide)
    obtain ⟨p, -, hopen⟩ := openPointer_put hfine hchain htail (by decide) hopenFile ⟨[], false⟩ ⟨0, 1⟩
    have hiff := created_file hfine hchain htail (by decide) rfl (by simp) (by simp) hopen
    exact ⟨_, _, _, hopen, fun hcreated => (hiff.mp hcreated).2 _ _ htakes⟩

/-! ## A block that is released twice, and old data in a hole -/

/-- The new file is in the hole, the heap is corrupted, and the byte of the old file is in the data. -/
theorem hole_keeps_data : ∃ s h p f' heap', Run Flash.cleared s ∧
    Listed s [h] (getStartSector + 393084) ∧
    Yields (openPointer · s.flash ⟨[], false⟩ nameE .create (131072 : Nat) quiet ⟨0, 1⟩) (some p, f', heap') ∧
    p.file.basePointer = getStartSector + 36 ∧ heap'.corrupted = true ∧
    f'.cells (getStartSector + 0x20000) = 0 ∧ ¬ Made f' nameE 131072 p.file ∧
    ¬ Created heap' f' nameE 131072 p := by
  obtain ⟨s, h, hrun, hlisted, -, hhole, hbyte⟩ := wideHole
  obtain ⟨hfine, hchain, htail, -⟩ := id hlisted
  obtain ⟨htakes, -, -, f', -, hopenFile, hfilled⟩ := @oneHole_filled _ _ _ 131072 hlisted hhole
    (by decide) (by decide) (by decide)
  obtain ⟨p, hput, hopen⟩ :=
    openPointer_put hfine hchain htail (by decide) hopenFile ⟨[], false⟩ ⟨0, 1⟩
  have hround : roundUp 131072 = 131148 := rfl
  have hcorrupted : (p.heap ⟨0, 1⟩ true ⟨[], false⟩).corrupted = true := by
    cases hput with
    | newest hroom => exact absurd htakes (not_takesHole hchain htail hroom)
    | hole => rfl
  have hkept : f'.cells (getStartSector + 0x20000) = 0 := by
    rw [hfilled.missing _ (by omega) (by simp only [newHeader]; omega)
      (by rw [getStartSector_val]; decide)]
    exact hbyte
  have hmade : ¬ Made f' nameE 131072 ⟨getStartSector + sizeofHeader, 131072, 0xBBBB, 0xAAAA⟩ := by
    intro hmade
    have hblank := hmade.blank (getStartSector + 0x20000) (by decide) (by decide)
    rw [hkept] at hblank
    exact absurd hblank (by decide)
  exact ⟨s, h, _, f', _, hrun.run, hlisted, hopen, rfl, hcorrupted, hkept, hmade,
    fun hcreated => hmade hcreated.made⟩

end PasswordManager.FileSystem
