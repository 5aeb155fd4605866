import PasswordManager.FileSystem.Run

/-!
# The list is well formed

In a run whose merges go well, following `next` meets the headers of the file system and ends at
the blank tail. A merge that goes wrong cuts off what is behind the new file.
-/

open Nor

namespace PasswordManager.FileSystem

open FlashDriver Fuel

/-! ## Files with a name of one letter -/

def letter (b : Byte) (hb : (0 : Byte) ∉ [b]) : Name := ⟨[b], hb⟩

theorem ended_a : (0 : Byte) ∉ [0x61] := by decide
theorem ended_e : (0 : Byte) ∉ [0x65] := by decide

def nameA : Name := letter 0x61 ended_a
def nameE : Name := letter 0x65 ended_e

/-- Nothing behind `header`, the first hole, and zeros in the memory of `falseHeader`. -/
def quiet : Env where
  beyond _ := []
  random := 0
  memory := { next := 0, size := 0, uid := 0, gid := 0, filename := padName [] }

section
variable {c : Cells} {a t : Nat} {h : Header} {hs pre post : List Header} {b : Byte} {hb : (0 : Byte) ∉ [b]}

theorem first_of_strcmp {beyond : List Byte} (heq : strcmp (letter b hb) (h.filename.val ++ beyond) = true) :
    h.first = b := by
  have hlen := h.filename.property
  rw [Header.first]
  cases hname : h.filename.val with
  | nil => rw [hname] at hlen; cases hlen
  | cons x l =>
    rw [hname] at heq
    simp [strcmp, letter] at heq
    exact heq.1.symm

theorem lookup_letter_none (hchain : Chain c getStartSector hs t) (htail : Tail c t) (hblank : b ≠ blank)
    (hfresh : ∀ h ∈ hs, h.first ≠ b) (beyond : Nat → List Byte) :
    lookup c (letter b hb) beyond (stops getStartSector hs t) = none := by
  rw [lookup, List.find?_eq_none]
  intro x hx heq
  have hfirst := first_of_strcmp heq
  rcases List.mem_append.mp hx with hx | hx
  · obtain ⟨⟨y, h⟩, hmem, rfl⟩ := List.mem_map.mp hx
    rw [hchain.read hmem] at hfirst
    exact hfresh h (mem_of_mem_places hmem) hfirst
  · have hlast := htail.lt_end
    rw [List.mem_singleton.mp hx, first_readHeader, htail.blank _ (by omega) (by omega)] at hfirst
    exact hblank hfirst.symm

theorem lookup_letter (hpre : Chain c getStartSector pre a) (hat : Chain c a (h :: post) t)
    (hfresh : ∀ h ∈ pre, h.first ≠ b) (hname : h.filename = padName [b]) (beyond : Nat → List Byte) :
    lookup c (letter b hb) beyond (stops getStartSector (pre ++ h :: post) t) = some a := by
  refine lookup_eq_some hpre hat (fun h' hmem x => ?_) ?_
  · rw [Bool.eq_false_iff]
    exact fun heq => hfresh h' hmem (first_of_strcmp heq)
  · rw [hname]
    simp [strcmp, letter, padName, List.replicate_succ]

theorem not_takesHole {filename : Name} {size : Int} {env : Env} {m : Nat}
    (hchain : Chain c getStartSector hs t) (htail : Tail c t)
    (hroom : t + roundUp size.toNat < getLastAddress) : ¬ TakesHole c filename size env a m := by
  rintro ⟨-, -, -, -, ⟨t', hnewest, hfull⟩, -⟩
  obtain rfl := hnewest.unique (newest_yields hchain htail)
  rw [getLastAddress_val] at hroom hfull
  rw [plus_of_lt (by omega)] at hfull
  omega

theorem careful_of_room {filename : Name} {size : Int} {env : Env} (hchain : Chain c getStartSector hs t)
    (htail : Tail c t) (hroom : t + roundUp size.toNat < getLastAddress) :
    Careful c (.create filename size env) :=
  fun _ _ htakes => absurd htakes (not_takesHole hchain htail hroom)

theorem Listed.add {s : State} (hlisted : Listed s hs t) (hblank : b ≠ blank)
    (hfresh : ∀ h ∈ hs, h.first ≠ b) {size : Nat} (hroom : t + roundUp size < getLastAddress) :
    ∃ f, Step s (.create (letter b hb) size quiet)
        ⟨f, s.written ++ [(t, newHeader (letter b hb) size (t + roundUp size))]⟩ ∧
      Listed ⟨f, s.written ++ [(t, newHeader (letter b hb) size (t + roundUp size))]⟩
        (hs ++ [newHeader (letter b hb) size (t + roundUp size)]) (t + roundUp size) ∧
      f.cells = burn s.flash.cells t (newHeader (letter b hb) size (t + roundUp size)).bytes := by
  obtain ⟨hfine, hchain, htail, -⟩ := id hlisted
  obtain ⟨hround, hspace, -⟩ := roundUp_bounds size
  set h := newHeader (letter b hb) size (t + roundUp size) with hh
  have hplace : Yields (place · s.flash.cells (letter b hb) size quiet) (some (.newest t h)) :=
    place_newest hchain htail (lookup_letter_none hchain htail hblank hfresh quiet.beyond) hroom
  obtain ⟨f, hwrite, hcells, hf⟩ := did_writeHeader hfine t h
  have hwrites : Yields (fun fuel => (Place.newest t h).write fuel s.flash) (true, f) := by
    simp only [Place.write, hwrite]
    exact .pure _
  have hopen : Yields (openFile · s.flash (letter b hb) .create (size : Int) quiet) _ :=
    openFile_created (by simp [letter, fsFileNameMaxLenght]) (by simp [letter]) (by omega) hplace hwrites
  rw [getLastAddress_val] at hroom
  refine ⟨f, .created (by omega) hopen hplace, hlisted.created hf (.newest hcells ?_ ?_ ?_), hcells⟩
  · exact htail.aligned.add hround
  · rw [getLastAddress_val]
    exact hroom
  · simp only [hh, newHeader]
    omega

theorem Listed.delete {s : State} (hlisted : Listed s (pre ++ h :: post) t)
    (hpre : Chain s.flash.cells getStartSector pre a) (hfresh : ∀ h ∈ pre, h.first ≠ b)
    (hname : h.filename = padName [b]) :
    ∃ f, Step s (.unlink (letter b hb) quiet.beyond) ⟨f, s.written⟩ ∧
      Listed ⟨f, s.written⟩ (pre ++ readHeader f.cells a :: post) t ∧
      (readHeader f.cells a).next = h.next ∧ (readHeader f.cells a).first = 0 ∧
      f.cells = burn s.flash.cells (a + 12) [0] ∧
      Yields (getAddress s.flash.cells (letter b hb) quiet.beyond · getStartSector) a ∧
      Careful s.flash.cells (.unlink (letter b hb) quiet.beyond) := by
  obtain ⟨hfine, hchain, htail, -⟩ := id hlisted
  obtain ⟨m, hpre', hat⟩ := chain_append.mp hchain
  obtain rfl : a = m := hpre.end_unique hpre'
  have hget := getAddress_yields (letter b hb) quiet.beyond hchain htail
  rw [lookup_letter hpre hat hfresh hname, Option.getD_some] at hget
  have hne : a ≠ fsBlank := hat.ne_blank htail
  obtain ⟨f, hyields, hf, hcells⟩ := unlink_found hfine (by simp [letter]) hget hne
  have heffect : Effect s (pre ++ h :: post) t (.unlink (letter b hb) quiet.beyond) ⟨f, s.written⟩
      (pre ++ readHeader f.cells a :: post) t := .deleted hf rfl hget hpre hat hcells
  obtain ⟨-, hread, hfirst⟩ := hat.erased
  rw [← hcells] at hread hfirst
  refine ⟨f, .unlinked hyields, heffect.listed hlisted, by rw [hread], hfirst, hcells, hget, fun x hx _ => ?_⟩
  rw [hx.unique hget, word_eq_next hat.2.1]
  exact hat.2.2.2.2.ne_blank htail

theorem findHoles_two {n : Nat} {h₁ h₂ h₃ : Header} (hchain : Chain c getStartSector [h₁, h₂, h₃] t)
    (htail : Tail c t) (hhole₁ : h₁.first = 0) (hhole₂ : h₂.first = 0)
    (hshort : h₁.next < getStartSector + n) (hlong : getStartSector + n ≤ h₂.next) :
    Yields (findHoles c n · getStartSector []) [getStartSector] := by
  obtain ⟨-, hread₁, hb₁, -, hchain₂⟩ := id hchain
  obtain ⟨-, hread₂, hb₂, -, hchain₃⟩ := id hchain₂
  have hlast₃ := hchain₃.lt_end htail
  have hminus₁ : minus h₁.next getStartSector = h₁.next - getStartSector := minus_of_le (by omega) (by omega)
  have hminus₂ : minus h₂.next getStartSector = h₂.next - getStartSector := minus_of_le (by omega) (by omega)
  have hplus : plus getStartSector (h₂.next - getStartSector) = h₂.next := by
    rw [plus_of_lt (by omega)]
    omega
  -- The inner loop stops behind the second hole.
  have hjoin₃ : Yields (fun fuel => joinHoles c n getStartSector fuel h₂.next (h₂.next - getStartSector))
      (h₂.next - getStartSector) := by
    refine .last fun fuel => ?_
    rw [joinHoles, if_neg (by omega)]
  have hjoin₂ : Yields (fun fuel => joinHoles c n getStartSector fuel h₁.next (h₁.next - getStartSector))
      (h₂.next - getStartSector) := by
    refine .succ (fun fuel => ?_) hjoin₃
    rw [joinHoles, if_pos ⟨hchain₂.ne_blank htail, hchain₂.isValid_eq_false.mpr hhole₂, by omega,
      hchain₂.lt_last htail⟩, word_eq_next hread₂, hminus₂]
  have hjoin : Yields (fun fuel => joinHoles c n getStartSector fuel getStartSector
      (minus (word c getStartSector) getStartSector)) (h₂.next - getStartSector) := by
    rw [word_eq_next hread₁, hminus₁]
    refine .succ (fun fuel => ?_) hjoin₂
    rw [joinHoles, if_pos ⟨hchain.ne_blank htail, hchain.isValid_eq_false.mpr hhole₁, by omega,
      hchain.lt_last htail⟩, word_eq_next hread₁, hminus₁]
  have hvisit : Yields (fun fuel => visit c n fuel getStartSector []) (h₂.next, [getStartSector]) := by
    simp only [visit, if_pos (hchain.isValid_eq_false.mpr hhole₁)]
    refine hjoin.bind (G := fun sizeHole _ => if n ≤ sizeHole ∧
      plus getStartSector sizeHole < getLastAddress then
        some (plus getStartSector sizeHole, [] ++ [getStartSector])
      else some (word c getStartSector, [])) ?_
    rw [hplus, if_pos ⟨by omega, hchain₃.lt_last htail⟩]
    exact .pure _
  -- Behind the third header the scan is at the tail.
  have hword₃ : word c h₂.next = t := (word_eq_next hchain₃.2.1).trans hchain₃.2.2.2.2
  have hstay : Yields (fun fuel => visit c n fuel t [getStartSector]) (t, [getStartSector]) := by
    simp only [visit, htail.isValid, Bool.true_eq_false, if_false]
    exact .pure _
  have hscan : Yields (fun fuel => findHoles c n fuel t [getStartSector]) [getStartSector] := by
    refine .succ (fun fuel => rfl) (hstay.bind ?_)
    simp only [htail.word, ne_eq, not_true_eq_false, false_and, if_false]
    exact .pure _
  refine .succ (fun fuel => rfl) (hvisit.bind ?_)
  simp only [hword₃, if_pos (show t ≠ fsBlank ∧ t < getLastAddress from ⟨htail.ne_blank, htail.lt_last⟩)]
  exact hscan

/-- Two holes at the start, which only together are long enough. -/
theorem chooseHole_two {n : Nat} {h₁ h₂ h₃ : Header} (hchain : Chain c getStartSector [h₁, h₂, h₃] t)
    (htail : Tail c t) (hhole₁ : h₁.first = 0) (hhole₂ : h₂.first = 0)
    (hshort : h₁.next < getStartSector + n) (hlong : getStartSector + n ≤ h₂.next) :
    Yields (chooseHole · c n 0) (some (getStartSector, h₂.next)) := by
  have hscan := findHoles_two hchain htail hhole₁ hhole₂ hshort hlong
  obtain ⟨-, hread₁, hb₁, -, hchain₂⟩ := hchain
  obtain ⟨-, hread₂, hb₂, -, hchain₃⟩ := hchain₂
  have hlast₃ := hchain₃.lt_end htail
  have hend₂ : Yields (endOfHole c n getStartSector · h₁.next) h₂.next := by
    refine .last fun fuel => ?_
    rw [endOfHole, word_eq_next hread₂, minus_of_le (by omega) (by omega), if_neg (by omega)]
  have hend₁ : Yields (endOfHole c n getStartSector · getStartSector) h₂.next := by
    refine .succ (fun fuel => ?_) hend₂
    rw [endOfHole, word_eq_next hread₁, minus_of_le (by omega) (by omega), if_pos (by omega)]
  exact hscan.bind (hend₁.bind (.pure _))

end

theorem erased_cleared : Erased Flash.cleared := ⟨fun _ => rfl, fun _ _ _ => rfl⟩

/-! ## A file in the hole of another one -/

/-- The only hole is chosen, with its end. -/
theorem chooseHole_one {c : Cells} {t n : Nat} {h : Header} (hchain : Chain c getStartSector [h] t)
    (htail : Tail c t) (hhole : h.first = 0) (hlong : getStartSector + n ≤ t) (random : Nat) :
    Gap c n getStartSector [h] t getStartSector t ∧
      Yields (chooseHole · c n random) (some (getStartSector, t)) := by
  have hgap : Gap c n getStartSector [h] t getStartSector t :=
    ⟨[], [h], [], rfl, rfl, ⟨hchain, by simpa using hhole, by simp⟩, rfl, by omega⟩
  refine ⟨hgap, ?_⟩
  obtain ⟨chosen, hchosen, hfits, hnone⟩ := chooseHole_yields n hchain htail random
  cases chosen with
  | none => exact absurd ⟨t, hgap⟩ (hnone rfl getStartSector)
  | some chosen =>
    obtain ⟨a, m⟩ := chosen
    obtain ⟨pre, run, post, hsplit, hpre, hholes, -, -⟩ := hfits a m rfl
    have hlen := congrArg List.length hsplit
    have hrun := List.length_pos_iff.mpr hholes.nonempty
    simp only [List.length_append, List.length_singleton] at hlen
    obtain rfl : pre = [] := List.length_eq_zero_iff.mp (by omega)
    obtain rfl : post = [] := List.length_eq_zero_iff.mp (by omega)
    obtain rfl : getStartSector = a := hpre
    rw [List.nil_append, List.append_nil] at hsplit
    rw [← hsplit] at hholes
    rwa [hchain.end_unique hholes.chain]

/-- A file over nearly the whole area. -/
def fileWide : Header := newHeader nameA 393000 (getStartSector + 393084)

/-- The file is there, a byte in the second sector is written, and the file is deleted. -/
theorem wideHole : ∃ s h, CarefulRun Flash.cleared s ∧ Listed s [h] (getStartSector + 393084) ∧
    s.written = [(getStartSector, fileWide)] ∧ h.first = 0 ∧
    s.flash.cells (getStartSector + 0x20000) = 0 := by
  obtain ⟨f₁, hstep₁, hlisted₁, -⟩ := @Listed.add getStartSector [] 0x61 (by decide) _
    erased_cleared.listed (by decide) (by simp) 393000 (by decide)
  have hlive : LiveFile f₁.cells getStartSector :=
    hlisted₁.chain.liveFile hlisted₁.tail (List.mem_singleton.mpr rfl) (by decide)
  have hread : readHeader f₁.cells getStartSector = fileWide := hlisted₁.chain.2.1
  set f₂ : Flash := { f₁ with cells := burn f₁.cells (getStartSector + 0x20000) [0] }
  have hout : ∀ x, x < getStartSector + 36 ∨ getStartSector + 36 + fileWide.size ≤ x →
      f₂.cells x = f₁.cells x := by
    intro x hx
    rw [show fileWide.size = 393000 from rfl, getStartSector_val] at hx
    refine burn_outside ?_
    rw [List.length_singleton, getStartSector_val]
    omega
  have hbyte : f₂.cells (getStartSector + 0x20000) = 0 :=
    (burn_at f₁.cells (getStartSector + 0x20000) 0 [0] (by decide)).trans BitVec.and_zero
  set written := [(getStartSector, fileWide)]
  have hlisted : Listed ⟨f₁, written⟩ [fileWide] (getStartSector + 393084) := hlisted₁
  have hstep₂ : Step ⟨f₁, written⟩ (.write getStartSector) ⟨f₂, written⟩ := .wrote hlive rfl fun x hx => by
    rw [hread] at hx
    exact hout x hx
  have heffect : Effect ⟨f₁, written⟩ [fileWide] (getStartSector + 393084) (.write getStartSector)
      ⟨f₂, written⟩ [fileWide] (getStartSector + 393084) :=
    @Effect.wrote _ _ _ [] [] getStartSector fileWide f₂ hlisted.fine rfl rfl hlisted.chain (by decide) hout
  obtain ⟨f₃, hstep₃, hlisted₃, -, hfirst, hcells, -, hcareful⟩ := @Listed.delete _ _ _ [] [] 0x61 ended_a _
    (heffect.listed hlisted) rfl (by simp) rfl
  have hroom : getStartSector + roundUp (Int.toNat (393000 : Nat)) < getLastAddress := by decide
  have hcareful₁ : Careful _ (.create nameA (393000 : Nat) quiet) :=
    careful_of_room erased_cleared.listed.chain erased_cleared.listed.tail hroom
  have hcareful₂ : Careful f₁.cells (.write getStartSector) := trivial
  refine ⟨_, _, ((Relation.ReflTransGen.refl.tail ⟨_, hcareful₁, hstep₁⟩).tail ⟨_, hcareful₂, hstep₂⟩).tail
    ⟨_, hcareful, hstep₃⟩, hlisted₃, rfl, hfirst, ?_⟩
  rw [hcells, burn_outside (.inr (by simp only [List.length_singleton]; omega))]
  exact hbyte

/-- A smaller file is created in the place of the one that was deleted. -/
theorem oneHole_filled {s : State} {h : Header} {t size : Nat} (hlisted : Listed s [h] t)
    (hhole : h.first = 0) (hfits : getStartSector + roundUp size < t)
    (hfull : getLastAddress ≤ plus (roundUp size) t) (hint : (size : Int) < 2 ^ 31) :
    TakesHole s.flash.cells nameE size quiet getStartSector t ∧
      MergesWell s.flash.cells (roundUp size) getStartSector t ∧
      Careful s.flash.cells (.create nameE size quiet) ∧
      ∃ f', Step s (.create nameE size quiet) ⟨f', s.written ++
          [(getStartSector, newHeader nameE size (getStartSector + roundUp size)),
            (getStartSector + roundUp size, falseHeader quiet.memory t)]⟩ ∧
        Yields (openFile · s.flash nameE .create size quiet)
          (some ⟨getStartSector + sizeofHeader, size, 0xBBBB, 0xAAAA⟩, f') ∧
        Filled s.flash.cells getStartSector (newHeader nameE size (getStartSector + roundUp size))
          (some (falseHeader quiet.memory t)) f'.cells := by
  obtain ⟨hfine, hchain, htail, -⟩ := id hlisted
  have hfind := findFile_absent hchain htail
    (@lookup_letter_none _ _ _ _ ended_e hchain htail (by decide) (by simp [hhole]) quiet.beyond)
  have hnewest := newest_yields hchain htail
  obtain ⟨hgap, hchosen⟩ := chooseHole_one hchain htail hhole (Nat.le_of_lt hfits) quiet.random
  have htakes : TakesHole s.flash.cells nameE size quiet getStartSector t :=
    ⟨by decide, by decide, Int.natCast_nonneg size, hfind, ⟨t, hnewest, hfull⟩, hchosen⟩
  have hwell : MergesWell s.flash.cells (roundUp size) getStartSector t :=
    fun hmore => absurd ((word_eq_next hchain.2.1).trans hchain.2.2.2.2) hmore
  have hplace := place_chosen hfind hnewest hfull hchosen
  have hfit := hgap.fitting htail nameE quiet.memory
  rw [fillHole_eq hgap htail hwell] at hplace
  rw [if_neg (Nat.ne_of_gt hfits)] at hplace hfit
  obtain ⟨f', hwrite, -, hfilled⟩ := writeHole_yields hfine hfit.fillable
  have hopen : Yields (openFile · s.flash nameE .create size quiet) _ :=
    openFile_created (by decide) (by decide) (Int.natCast_nonneg size) hplace hwrite
  refine ⟨htakes, hwell, fun a m htakes' => ?_, f', .created hint hopen hplace, hopen, hfilled⟩
  cases htakes'.chosen.unique hchosen
  exact hwell

/-! ## The list is well formed -/

def Follows (c : Cells) : Nat → List Nat → Nat → Prop
  | a, [], t => a = t
  | a, b :: visited, t => a = b ∧ Follows c (word c b) visited t

/-- Following `next` from the start sector visits headers that the file system wrote, one behind
the other, and ends at the blank tail. -/
def WellFormed (s : State) : Prop :=
  ∃ visited t, Follows s.flash.cells getStartSector visited t ∧ (visited ++ [t]).Pairwise (· < ·) ∧
    t < getLastAddress ∧ word s.flash.cells t = fsBlank ∧
    (∀ x, t ≤ x → x < getBufferSector → s.flash.cells x = blank) ∧
    ∀ a ∈ visited, ∃ w, (a, w) ∈ s.written ∧ AsWritten (readHeader s.flash.cells a) w

structure LoopsEnd (c : Cells) : Prop where
  getAddress : ∀ filename beyond, ∃ a, Yields (getAddress c filename beyond · getStartSector) a
  findFile : ∀ filename beyond, ∃ found, Yields (findFile c filename beyond · getStartSector) found
  newest : ∃ t, Yields (newest c · getStartSector) t
  findHoles : ∀ size, ∃ holes, Yields (findHoles c size · getStartSector []) holes

section
variable {c : Cells} {a t : Nat} {hs : List Header}

theorem Chain.follows (hchain : Chain c a hs t) : Follows c a ((places a hs).map Prod.fst) t := by
  induction hs generalizing a with
  | nil => exact hchain
  | cons h hs ih =>
    refine ⟨rfl, ?_⟩
    rw [word_eq_next hchain.2.1]
    exact ih hchain.2.2.2.2

theorem Chain.le_stop {x : Nat} (hchain : Chain c a hs t) (hx : x ∈ stops a hs t) : a ≤ x := by
  induction hs generalizing a with
  | nil =>
    rw [List.mem_singleton.mp hx]
    exact hchain.le
  | cons h hs ih =>
    rcases List.mem_cons.mp (stops_cons a h hs t ▸ hx) with rfl | hx
    · exact Nat.le_refl _
    · have hlater := ih hchain.2.2.2.2 hx
      have hnext := hchain.2.2.1
      omega

theorem Chain.increasing (hchain : Chain c a hs t) : (stops a hs t).Pairwise (· < ·) := by
  induction hs generalizing a with
  | nil => simp [stops, places]
  | cons h hs ih =>
    rw [stops_cons, List.pairwise_cons]
    refine ⟨fun x hx => ?_, ih hchain.2.2.2.2⟩
    have hlater := hchain.2.2.2.2.le_stop hx
    have hnext := hchain.2.2.1
    omega

theorem Listed.wellFormed {s : State} (hlisted : Listed s hs t) : WellFormed s := by
  obtain ⟨-, hchain, htail, hwritten⟩ := hlisted
  refine ⟨_, t, hchain.follows, hchain.increasing, htail.lt_last, htail.word, htail.blank,
    fun a ha => ?_⟩
  obtain ⟨⟨_, h⟩, hmem, rfl⟩ := List.mem_map.mp ha
  rw [hchain.read hmem]
  exact hwritten _ h hmem

theorem Listed.loopsEnd {s : State} (hlisted : Listed s hs t) : LoopsEnd s.flash.cells := by
  obtain ⟨-, hchain, htail, -⟩ := hlisted
  refine ⟨fun filename beyond => ⟨_, getAddress_yields filename beyond hchain htail⟩,
    fun filename beyond => ⟨_, findFile_yields filename beyond hchain htail⟩,
    ⟨t, newest_yields hchain htail⟩, fun size => ?_⟩
  obtain ⟨holes, hholes, -⟩ := findHoles_yields size hchain htail []
  exact ⟨holes, hholes⟩

end

/-- In every careful run the list stays well formed, and everything ends: the loops over the list,
and a careful create with the rebuilding of its sectors. -/
theorem list_well_formed {f : Flash} (herased : Erased f) {s : State} (hrun : CarefulRun f s) :
    WellFormed s ∧ LoopsEnd s.flash.cells ∧
      (∀ filename size env, size < 2 ^ 31 → Careful s.flash.cells (.create filename size env) →
        ∃ r, Yields (openFile · s.flash filename .create size env) r) ∧
      ∀ filename beyond, Careful s.flash.cells (.unlink filename beyond) →
        ∃ r, Yields (unlink · s.flash filename beyond) r := by
  obtain ⟨hs, t, hlisted⟩ := hrun.listed herased
  refine ⟨hlisted.wellFormed, hlisted.loopsEnd, fun filename size env hint hcareful => ?_,
    fun filename beyond hcareful => ?_⟩
  · rcases create_yields hlisted.fine hlisted.chain hlisted.tail hint hcareful with
      hnone | ⟨file, f', p, hs', t', hyes, -⟩
    · exact ⟨_, hnone⟩
    · exact ⟨_, hyes⟩
  · rcases unlink_yields hlisted.fine hlisted.chain hlisted.tail hcareful with
      hnone | ⟨a, h, f', -, -, hyes, -⟩
    · exact ⟨_, hnone⟩
    · exact ⟨_, hyes⟩

/-- A file is created, written and deleted, and another one is created in the hole. -/
theorem list_well_formed_wideHole : ∃ s, CarefulRun Flash.cleared s ∧
    s.written = [(getStartSector, fileWide),
      (getStartSector, newHeader nameE 131072 (getStartSector + 131148)),
      (getStartSector + 131148, falseHeader quiet.memory (getStartSector + 393084))] ∧
    WellFormed s ∧ LoopsEnd s.flash.cells := by
  obtain ⟨s, h, hrun, hlisted, hwritten, hhole, -⟩ := wideHole
  obtain ⟨-, -, hcareful, f', hstep, -⟩ := @oneHole_filled _ _ _ 131072 hlisted hhole (by decide) (by decide)
    (by decide)
  have hrun' := hrun.tail ⟨_, hcareful, hstep⟩
  obtain ⟨hwell, hloops, -⟩ := list_well_formed erased_cleared hrun'
  exact ⟨_, hrun', by rw [hwritten]; rfl, hwell, hloops⟩

/-! ## A run that breaks the list -/

def fileA : Header := newHeader (letter 0x61 (by decide)) 0 (getStartSector + 72)
def fileB : Header := newHeader (letter 0x62 (by decide)) 108 (getStartSector + 252)
def fileX : Header := newHeader (letter 0x78 (by decide)) 392832 (getStartSector + 393156)
def fileE : Header := newHeader (letter 0x65 (by decide)) 72 (getStartSector + 144)

def threeWritten : List (Nat × Header) :=
  [(getStartSector, fileA), (getStartSector + 72, fileB), (getStartSector + 252, fileX)]

theorem threeFiles : ∃ f, Run Flash.cleared ⟨f, threeWritten⟩ ∧
    Listed ⟨f, threeWritten⟩ [fileA, fileB, fileX] (getStartSector + 393156) ∧
    ∀ x, getStartSector + 108 ≤ x → x < getStartSector + 252 → f.cells x = blank := by
  obtain ⟨f₁, hstep₁, hlisted₁, hcells₁⟩ := @Listed.add getStartSector [] 0x61 (by decide) _
    erased_cleared.listed (by decide) (by simp) 0 (by decide)
  obtain ⟨f₂, hstep₂, hlisted₂, hcells₂⟩ := @Listed.add _ _ 0x62 (by decide) _ hlisted₁ (by decide)
    (by decide) 108 (by decide)
  obtain ⟨f₃, hstep₃, hlisted₃, hcells₃⟩ := @Listed.add _ _ 0x78 (by decide) _ hlisted₂ (by decide)
    (by decide) 392832 (by decide)
  refine ⟨f₃, ((Relation.ReflTransGen.refl.tail ⟨_, hstep₁⟩).tail ⟨_, hstep₂⟩).tail ⟨_, hstep₃⟩,
    hlisted₃, fun x hx hx' => ?_⟩
  have hround₀ : roundUp 0 = 72 := rfl
  have hround₁ : roundUp 108 = 180 := rfl
  rw [getStartSector_val] at *
  rw [hcells₃, burn_outside (by omega), hcells₂, burn_outside (by rw [Header.length_bytes]; omega),
    hcells₁, burn_outside (by rw [Header.length_bytes]; omega)]
  rfl

theorem twoHoles : ∃ f hA hB, Run Flash.cleared ⟨f, threeWritten⟩ ∧
    Listed ⟨f, threeWritten⟩ [hA, hB, fileX] (getStartSector + 393156) ∧
    hA.next = getStartSector + 72 ∧ hB.next = getStartSector + 252 ∧ hA.first = 0 ∧ hB.first = 0 ∧
    ∀ x, getStartSector + 108 ≤ x → x < getStartSector + 252 → f.cells x = blank := by
  obtain ⟨f, hrun, hlisted, hblank⟩ := threeFiles
  obtain ⟨f₁, hstep₁, hlisted₁, hnext₁, hfirst₁, hcells₁, -⟩ := @Listed.delete _ _ _ [] _ 0x61 (by decide) _
    hlisted rfl (by simp) rfl
  set hA := readHeader f₁.cells getStartSector
  have hchain : Chain f₁.cells getStartSector ([hA] ++ [fileB, fileX]) (getStartSector + 393156) :=
    hlisted₁.chain
  obtain ⟨m, hpre, -⟩ := chain_append.mp hchain
  obtain rfl : getStartSector + 72 = m := hnext₁.symm.trans hpre.2.2.2.2
  obtain ⟨f₂, hstep₂, hlisted₂, hnext₂, hfirst₂, hcells₂, -⟩ := @Listed.delete _ _ _ [hA] _ 0x62 (by decide) _
    hlisted₁ hpre (by rw [List.forall_mem_singleton, hfirst₁]; decide) rfl
  refine ⟨f₂, hA, _, (hrun.tail ⟨_, hstep₁⟩).tail ⟨_, hstep₂⟩, hlisted₂, hnext₁, hnext₂, hfirst₁, hfirst₂,
    fun x hx hx' => ?_⟩
  have hlen : [(0 : Byte)].length = 1 := rfl
  rw [hcells₂, burn_outside (by omega), hcells₁, burn_outside (by omega), hblank x hx hx']

/-- A file is created in the two holes, which are longer than the file. The byte behind it is
blank and counts as a name, so that no header is written for what is left. -/
structure Merged (s s' : State) : Prop where
  run : Run Flash.cleared s
  step : Step s (.create (letter 0x65 (by decide)) 72 quiet) s'
  opened : ∃ file,
    Yields (openFile · s.flash (letter 0x65 (by decide)) .create 72 quiet) (some file, s'.flash)
  written : s'.written = threeWritten ++ [(getStartSector, fileE)]
  live : LiveFile s.flash.cells (getStartSector + 252)
  before : readHeader s.flash.cells (getStartSector + 252) = fileX
  found : Yields (getAddress s.flash.cells (letter 0x78 (by decide)) quiet.beyond · getStartSector)
    (getStartSector + 252)
  file : readHeader s'.flash.cells getStartSector = fileE
  gap : ∀ x, getStartSector + 144 ≤ x → x < getStartSector + 252 → s'.flash.cells x = blank
  after : readHeader s'.flash.cells (getStartSector + 252) = fileX

/-- The create takes the merge branch. -/
theorem merge_place {c : Cells} {hA hB : Header}
    (hchain : Chain c getStartSector [hA, hB, fileX] (getStartSector + 393156))
    (htail : Tail c (getStartSector + 393156)) (hnextA : hA.next = getStartSector + 72)
    (hnextB : hB.next = getStartSector + 252) (hfirstA : hA.first = 0) (hfirstB : hB.first = 0)
    (hblank : ∀ x, getStartSector + 108 ≤ x → x < getStartSector + 252 → c x = blank) :
    Yields (place · c (letter 0x65 (by decide)) 72 quiet) (some (.hole getStartSector fileE none)) := by
  have hfind := findFile_yields (letter 0x65 (by decide)) quiet.beyond hchain htail
  rw [lookup_letter_none hchain htail (by decide) (by simp [hfirstA, hfirstB]; decide)] at hfind
  have hround : roundUp 72 = 144 := rfl
  have hchosen := chooseHole_two (n := 144) hchain htail hfirstA hfirstB (by omega) (by omega)
  rw [hnextB] at hchosen
  have hwordA : word c getStartSector = getStartSector + 72 := (word_eq_next hchain.2.1).trans hnextA
  have hnext : (readHeader c getStartSector).next = getStartSector + 72 := hwordA
  have hvalid : isValid c (plus (roundUp 72) getStartSector) = true := by
    rw [isValid_iff, first_readHeader, hblank _ (by decide) (by decide)]
    decide
  have hfill : fillHole c (letter 0x65 (by decide)) 72 getStartSector (getStartSector + 252) quiet.memory =
      .hole getStartSector fileE none := by
    unfold fillHole
    simp only [hnext, hwordA, hvalid]
    rfl
  rw [← hfill]
  exact place_chosen hfind (newest_yields hchain htail) (by decide) hchosen

theorem merge_run : ∃ s s', Merged s s' := by
  obtain ⟨f, hA, hB, hrun, hlisted, hnextA, hnextB, hfirstA, hfirstB, hblank⟩ := twoHoles
  obtain ⟨hfine, hchain, htail, -⟩ := id hlisted
  have hplace := merge_place hchain htail hnextA hnextB hfirstA hfirstB hblank
  have hfillable : Fillable getStartSector fileE none := ⟨by decide, by decide, by simp, by decide⟩
  obtain ⟨f', hwrite, hf', hfilled⟩ := writeHole_yields hfine hfillable
  have hopen : Yields (openFile · f (letter 0x65 (by decide)) .create 72 quiet) _ :=
    openFile_created (by decide) (by decide) (by decide) hplace hwrite
  have houtside : ∀ x, getStartSector + 144 ≤ x → x < 0x080E0000 → f'.cells x = f.cells x :=
    fun x hx hx' => hfilled.outside x hx' (.inr hx)
  have hmem : (getStartSector + 252, fileX) ∈ places getStartSector [hA, hB, fileX] := by
    simp [places, hnextB]
  have happend : Chain f.cells getStartSector ([hA, hB] ++ [fileX]) (getStartSector + 393156) := hchain
  obtain ⟨m, hpre, hat⟩ := chain_append.mp happend
  obtain rfl : getStartSector + 252 = m := hnextB.symm.trans hpre.2.2.2.2.2.2.2.2
  refine ⟨_, _, hrun, .created (by decide) hopen hplace, ⟨_, hopen⟩, rfl,
    hchain.liveFile htail hmem (by decide), hat.2.1, ?_, ?_, fun x hx hx' => ?_, ?_⟩
  · have hget := getAddress_yields (letter 0x78 (by decide)) quiet.beyond hchain htail
    have hlookup := @lookup_letter _ _ _ _ _ _ 0x78 (by decide) hpre hat
      (by simp [hfirstA, hfirstB]) rfl quiet.beyond
    rw [List.cons_append, List.cons_append, List.nil_append] at hlookup
    rwa [hlookup] at hget
  · refine readHeader_eq (by decide) (by decide) (holds_iff.mpr fun i hi => ?_)
    rw [Header.length_bytes] at hi
    have hsector : sectorOf (getStartSector + i) = sectorOf getStartSector := by
      rw [getStartSector_val, sectorOf, sectorOf]
      omega
    rw [hfilled.header i hi hsector, List.getD_eq_getElem?_getD, List.getElem?_eq_getElem, Option.getD_some]
  · rw [houtside x hx (by rw [getStartSector_val] at hx'; omega)]
    exact hblank x (by omega) hx'
  · rw [← hat.2.1]
    refine readHeader_congr fun x hx hx' => houtside x (by omega) ?_
    rw [getStartSector_val] at hx'
    omega

/-- Where the merge leaves no header, the list ends before the tail. -/
theorem merge_breaks_list : ∃ s, Erased Flash.cleared ∧ Run Flash.cleared s ∧ ¬ WellFormed s := by
  obtain ⟨s, s', hmerged⟩ := merge_run
  refine ⟨s', erased_cleared, hmerged.run.tail ⟨_, hmerged.step⟩, ?_⟩
  rintro ⟨visited, t, hfollows, -, hlast, hblank, htail, hwritten⟩
  have hfirst : word s'.flash.cells getStartSector = getStartSector + 144 := word_eq_next hmerged.file
  have hsecond : word s'.flash.cells (getStartSector + 252) = getStartSector + 393156 :=
    word_eq_next hmerged.after
  match visited, hfollows with
  | [], hstart =>
    obtain rfl : getStartSector = t := hstart
    rw [hfirst] at hblank
    exact absurd hblank (by decide)
  | [_], ⟨hstart, hend⟩ =>
    subst hstart
    obtain rfl : getStartSector + 144 = t := hfirst.symm.trans hend
    -- The tail would not be blank: the third file is in it.
    have hx := word_blank (c := s'.flash.cells) (a := getStartSector + 252) fun x hx hx' => by
      refine htail x (by omega) ?_
      rw [getStartSector_val] at hx'
      rw [getBufferSector_val]
      omega
    rw [hsecond] at hx
    exact absurd hx (by decide)
  | _ :: b :: _, ⟨hstart, hnext, _⟩ =>
    subst hstart
    obtain rfl : getStartSector + 144 = b := hfirst.symm.trans hnext
    obtain ⟨w, hw, -⟩ := hwritten (getStartSector + 144) (by simp)
    rw [hmerged.written] at hw
    simp [threeWritten] at hw

end PasswordManager.FileSystem
