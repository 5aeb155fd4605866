import PasswordManager.FileSystem.WellFormed

/-!
# The other files

Names of at most 23 characters are terminated in the header, and a run keeps them apart: no two
headers of the list answer to the same name. A create or a delete leaves the other files alone.
-/

open Nor

namespace PasswordManager.FileSystem

open FlashDriver Fuel CString

/-! ## Names in headers -/

/-- The header answers to the name, whatever stands behind it in memory. -/
def Header.Named (h : Header) (w : Name) : Prop := strcmp w h.filename.val = true

/-- No file answers to a name of both headers. -/
def Apart (h h' : Header) : Prop := ∀ w : Name, w.val ≠ [] → h.Named w → ¬ h'.Named w

theorem strcmp_iff {w : Name} {memory : List Byte} :
    strcmp w memory = true ↔ w.val ++ [0] <+: memory := by
  rw [strcmp, List.isPrefixOf_iff_prefix]

theorem Header.Named.strcmp {h : Header} {w : Name} (hw : h.Named w) (beyond : List Byte) :
    FileSystem.strcmp w (h.filename.val ++ beyond) = true :=
  strcmp_iff.mpr ((strcmp_iff.mp hw).trans (List.prefix_append _ _))

theorem Header.Named.of_strcmp {h : Header} {w : Name} {beyond : List Byte}
    (hw : w.val.length < 24) (heq : FileSystem.strcmp w (h.filename.val ++ beyond) = true) :
    h.Named w := by
  refine strcmp_iff.mpr (List.prefix_of_prefix_length_le (strcmp_iff.mp heq) (List.prefix_append _ _) ?_)
  rw [List.length_append, List.length_singleton, h.filename.property]
  omega

theorem Header.Named.length {h : Header} {w : Name} (hw : h.Named w) : w.val.length < 24 := by
  have hlen := (strcmp_iff.mp hw).length_le
  rw [List.length_append, List.length_singleton, h.filename.property] at hlen
  omega

theorem Header.Named.str {h : Header} {w : Name} (hw : h.Named w) : str 0 h.filename.val = w.val := by
  obtain ⟨rest, hrest⟩ := strcmp_iff.mp hw
  rw [← hrest, List.append_assoc, List.singleton_append]
  exact str_append_cons w.property rest

theorem Header.Named.empty {h : Header} {w : Name} (hw : h.Named w) (hfirst : h.first = 0) :
    w.val = [] := by
  have hstr := hw.str
  have hlen := h.filename.property
  rw [Header.first] at hfirst
  cases hname : h.filename.val with
  | nil => rw [hname] at hlen; cases hlen
  | cons b l =>
    rw [hname, List.headD_cons] at hfirst
    rw [hname, hfirst] at hstr
    rw [← hstr]
    simp [CString.str]

theorem Header.Named.first {h : Header} {w : Name} (hw : h.Named w) (hempty : w.val = []) :
    h.first = 0 := by
  obtain ⟨rest, hrest⟩ := strcmp_iff.mp hw
  rw [Header.first, ← hrest, hempty]
  rfl

theorem Apart.of_first {h h' : Header} (hfirst : h.first = 0) : Apart h h' ∧ Apart h' h :=
  ⟨fun _ hne hw _ => hne (hw.empty hfirst), fun _ hne _ hw => hne (hw.empty hfirst)⟩

/-- The name that a header has when it is put over the cells at `a`. -/
def storedName (c : Cells) (a : Nat) (filename : Name) : List Byte :=
  (List.range 24).map fun k =>
    if sectorOf (a + 12 + k) = sectorOf a then (padName filename.val).val.getD k 0 else c (a + 12 + k)

/-- The name of a new file in a hole can be read back: the part of the header behind the end of a
sector is not written. -/
def KeepsName (c : Cells) : Call → Prop
  | .create filename size env =>
    ∀ a m, TakesHole c filename size env a m → str 0 (storedName c a filename) = filename.val
  | _ => True

section
variable {c c' : Cells} {a t : Nat} {h : Header} {hs : List Header} {filename : Name}

theorem str_padName (hlen : filename.val.length ≤ 24) : str 0 (padName filename.val).val = filename.val := by
  show str 0 (filename.val.take 24 ++ List.replicate (24 - filename.val.length) 0) = filename.val
  rw [List.take_of_length_le hlen]
  rcases Nat.lt_or_eq_of_le hlen with hlt | heq
  · rw [show 24 - filename.val.length = 23 - filename.val.length + 1 by omega, List.replicate_succ]
    exact str_append_cons filename.property _
  · rw [heq, Nat.sub_self, List.replicate_zero, List.append_nil]
    exact str_eq_self filename.property

theorem Filled.storedName {size next : Nat} {rest : Option Header}
    (hfilled : Filled c a (newHeader filename size next) rest c') (hspace : a + 36 ≤ next) :
    (readHeader c' a).filename.val = storedName c a filename := by
  refine List.ext_getElem (by simp [readHeader, FileSystem.storedName]) fun k hk hk' => ?_
  have hk24 : k < 24 := by simpa [readHeader] using hk
  simp only [readHeader, getElem_read, FileSystem.storedName, List.getElem_map, List.getElem_range]
  split
  next hsector =>
    have hname : k < (padName filename.val).val.length := by rwa [(padName filename.val).property]
    rw [Nat.add_assoc, hfilled.header (12 + k) (by omega) (by rw [← Nat.add_assoc]; exact hsector),
      Header.bytes, List.getD_eq_getElem?_getD, List.getD_eq_getElem?_getD,
      List.getElem?_append_right (by rw [Header.length_fields]; omega), Header.length_fields,
      Nat.add_sub_cancel_left]
    simp only [newHeader, List.getElem?_eq_getElem hname, Option.getD_some]
  next hsector =>
    exact hfilled.missing _ (by omega) (by simp only [newHeader]; omega) hsector

/-! ## Names stay apart -/

theorem not_named_of_absent {beyond : Nat → List Byte} (hchain : Chain c getStartSector hs t)
    (habsent : lookup c filename beyond (stops getStartSector hs t) = none)
    (hmem : (a, h) ∈ places getStartSector hs) : ¬ h.Named filename := by
  intro hnamed
  have hstop : a ∈ stops getStartSector hs t :=
    List.mem_append_left _ (List.mem_map.mpr ⟨_, hmem, rfl⟩)
  have hno := List.find?_eq_none.mp habsent a hstop
  rw [hchain.read hmem] at hno
  exact hno (hnamed.strcmp _)

theorem apart_of_absent {beyond : Nat → List Byte} {h' : Header} (hchain : Chain c getStartSector hs t)
    (habsent : lookup c filename beyond (stops getStartSector hs t) = none)
    (hname : str 0 h'.filename.val = filename.val) (hmem : (a, h) ∈ places getStartSector hs) :
    Apart h' h ∧ Apart h h' := by
  have hother := not_named_of_absent hchain habsent hmem
  have hsame : ∀ w : Name, h'.Named w → w = filename := fun w hw => Subtype.ext (hw.str.symm.trans hname)
  exact ⟨fun w _ hw hw' => hother (hsame w hw ▸ hw'), fun w _ hw hw' => hother (hsame w hw' ▸ hw)⟩

theorem pairwise_replace {pre post : List Header} (run fill : List Header)
    (hold : (pre ++ (run ++ post)).Pairwise Apart)
    (hnew : fill.Pairwise Apart) (hother : ∀ x ∈ fill, ∀ y ∈ pre ++ post, Apart x y ∧ Apart y x) :
    (pre ++ (fill ++ post)).Pairwise Apart := by
  obtain ⟨hpre, hrest, hcross⟩ := List.pairwise_append.mp hold
  obtain ⟨-, hpost, -⟩ := List.pairwise_append.mp hrest
  refine List.pairwise_append.mpr ⟨hpre, List.pairwise_append.mpr ⟨hnew, hpost, fun x hx y hy => ?_⟩,
    fun x hx y hy => ?_⟩
  · exact (hother x hx y (List.mem_append_right _ hy)).1
  · rcases List.mem_append.mp hy with hy | hy
    · exact (hother y hy x (List.mem_append_left _ hx)).2
    · exact hcross x hx y (List.mem_append_right _ hy)

theorem mem_places_of_mem (a : Nat) (hmem : h ∈ hs) : ∃ x, (x, h) ∈ places a hs := by
  induction hs generalizing a with
  | nil => cases hmem
  | cons h' hs ih =>
    rcases List.mem_cons.mp hmem with rfl | hmem
    · exact ⟨a, List.mem_cons_self⟩
    · obtain ⟨x, hx⟩ := ih h'.next hmem
      exact ⟨x, List.mem_cons_of_mem _ hx⟩

/-- What is left of the holes has no name, so only the new file counts. -/
theorem Filled.apart {pre run post : List Header} {m : Nat} {rest : Option Header}
    (hfilled : Filled c a h rest c') (hfit : Fitting a m h rest)
    (hapart : (pre ++ (run ++ post)).Pairwise Apart)
    (hother : ∀ y ∈ pre ++ post, Apart (readHeader c' a) y ∧ Apart y (readHeader c' a)) :
    (pre ++ (filling c' a h rest ++ post)).Pairwise Apart := by
  cases rest with
  | none =>
    refine pairwise_replace run _ hapart (List.pairwise_singleton _ _) fun x hx => ?_
    rw [List.mem_singleton.mp hx]
    exact hother
  | some r =>
    have hfirst : (readHeader c' h.next).first = 0 :=
      (hfilled.asWritten_other hfit).2.elim (·.trans (hfit.some r rfl).2.2.1) id
    refine pairwise_replace run _ hapart ?_ fun x hx y hy => ?_
    · refine List.pairwise_cons.mpr ⟨fun y hy => ?_, List.pairwise_singleton _ _⟩
      rw [List.mem_singleton.mp hy]
      exact (Apart.of_first hfirst).2
    · simp only [filling, List.mem_cons, List.not_mem_nil, or_false] at hx
      rcases hx with rfl | rfl
      · exact hother y hy
      · exact Apart.of_first hfirst

/-- Apart from what was in the list, a create adds its header and a hole. -/
theorem Placed.mem {p : Place} {hs' : List Header} {t' : Nat} (htail : Tail c t)
    (hplaced : Placed c hs t p c' hs' t') (hmem : h ∈ hs') :
    h ∈ hs ∨ h = readHeader c' p.address ∨ h.first = 0 := by
  cases hplaced with
  | @newest h' _ hcells hnext hlast hspace =>
    subst hcells
    have hread := (htail.appended hnext hlast hspace).1.2.1
    rcases List.mem_append.mp hmem with hmem | hmem
    · exact .inl hmem
    · exact .inr (.inl ((List.mem_singleton.mp hmem).trans hread.symm))
  | @hole pre run post a m h' rest _ hsplit hpre hholes hpost hfit hfilled =>
    subst hsplit
    rcases List.mem_append.mp hmem with hmem | hmem
    · exact .inl (List.mem_append_left _ hmem)
    rcases List.mem_append.mp hmem with hmem | hmem
    · cases rest with
      | none => exact .inr (.inl (List.mem_singleton.mp hmem))
      | some r =>
        rcases List.mem_cons.mp hmem with heq | hmem
        · exact .inr (.inl heq)
        · rw [List.mem_singleton.mp hmem]
          exact .inr (.inr ((hfilled.asWritten_other hfit).2.elim (·.trans (hfit.some r rfl).2.2.1) id))
    · exact .inl (List.mem_append_right _ (List.mem_append_right _ hmem))

/-- The header of the new file has its name. -/
theorem Opened.name {size : Int} {env : Env} {file : File} {p : Place} {hs' : List Header} {t' : Nat}
    (htail : Tail c t) (hkeeps : KeepsName c (.create filename size env))
    (hopened : Opened c hs t filename size env file p c' hs' t') :
    str 0 (readHeader c' p.address).filename.val = filename.val := by
  obtain ⟨hshort, -, -, -, hheader, htakes, -, hplaced⟩ := hopened
  cases hplaced with
  | @newest h _ hcells hnext hlast hspace =>
    subst hcells
    have heq : h = newHeader filename size.toNat h.next := hheader
    have hread := (htail.appended hnext hlast hspace).1.2.1
    show str 0 (readHeader _ t).filename.val = filename.val
    rw [hread, heq]
    exact str_padName hshort
  | @hole pre run post a m h rest _ hsplit hpre hholes hpost hfit hfilled =>
    have heq : h = newHeader filename size.toNat h.next := hheader
    have hspace := hfit.space
    obtain ⟨m', hm'⟩ := htakes a h rest rfl
    rw [heq] at hfilled
    show str 0 (readHeader c' a).filename.val = filename.val
    rw [hfilled.storedName (by omega)]
    exact hkeeps a m' hm'

theorem Opened.apart {size : Int} {env : Env} {file : File} {p : Place} {hs' : List Header} {t' : Nat}
    (hchain : Chain c getStartSector hs t) (htail : Tail c t)
    (hkeeps : KeepsName c (.create filename size env))
    (hapart : hs.Pairwise Apart) (hopened : Opened c hs t filename size env file p c' hs' t') :
    hs'.Pairwise Apart := by
  have hnew : ∀ h ∈ hs, Apart (readHeader c' p.address) h ∧ Apart h (readHeader c' p.address) := by
    intro h hmem
    obtain ⟨a, ha⟩ := mem_places_of_mem getStartSector hmem
    exact apart_of_absent hchain hopened.absent (hopened.name htail hkeeps) ha
  have hplaced := hopened.placed
  cases hplaced with
  | @newest h _ hcells hnext hlast hspace =>
    subst hcells
    have hread := (htail.appended hnext hlast hspace).1.2.1
    refine List.pairwise_append.mpr ⟨hapart, List.pairwise_singleton _ _, fun x hx y hy => ?_⟩
    rw [List.mem_singleton.mp hy, ← hread]
    exact (hnew x hx).2
  | @hole pre run post a m h rest _ hsplit hpre hholes hpost hfit hfilled =>
    subst hsplit
    refine hfilled.apart hfit hapart fun y hy => hnew y ?_
    simp only [List.mem_append] at hy ⊢
    tauto

theorem Effect.apart {s s' : State} {call : Call} {hs' : List Header} {t' : Nat} (hlisted : Listed s hs t)
    (hkeeps : KeepsName s.flash.cells call) (hapart : hs.Pairwise Apart)
    (heffect : Effect s hs t call s' hs' t') : hs'.Pairwise Apart := by
  cases heffect with
  | same => exact hapart
  | wrote => exact hapart
  | deleted hf hsplit hget hpre hat hcells =>
    subst hsplit
    have hfirst := hat.erased.2.2
    rw [← hcells] at hfirst
    exact pairwise_replace [_] [_] hapart (List.pairwise_singleton _ _) fun x hx y _ => by
      rw [List.mem_singleton.mp hx]
      exact Apart.of_first hfirst
  | created hf hopened => exact hopened.apart hlisted.chain hlisted.tail hkeeps hapart

/-! ## The other files stay -/

/-- The call is not about the file at `a`. -/
def Spares (c : Cells) (a : Nat) : Call → Prop
  | .create _ _ _ => True
  | .unlink filename beyond => ¬ Yields (getAddress c filename beyond · getStartSector) a
  | .write b => b ≠ a

/-- A write in one file is not a write in another one. -/
theorem kept_of_wrote {b : Nat} {pre post : List Header} {h' : Header}
    (hpre : Chain c getStartSector pre b) (hat : Chain c b (h' :: post) t) (hlive : h'.first ≠ 0)
    (hcells : ∀ x, x < b + 36 ∨ b + 36 + h'.size ≤ x → c' x = c x) (hne : b ≠ a)
    (hmem : (a, h) ∈ places getStartSector (pre ++ h' :: post)) :
    ∀ x, a ≤ x → x < h.next → c' x = c x := by
  intro x hx hx'
  refine hcells x ?_
  rw [places_append hpre] at hmem
  have hroom := hat.2.2.2.1 hlive
  rcases List.mem_append.mp hmem with hmem | hmem
  · have hbounds := hpre.bounds hmem
    omega
  rcases List.mem_cons.mp hmem with heq | hmem
  · cases heq
    exact absurd rfl hne
  · have hbounds := hat.2.2.2.2.bounds hmem
    omega

theorem kept_of_deleted {b : Nat} {pre post : List Header} {h' : Header}
    (hpre : Chain c getStartSector pre b) (hat : Chain c b (h' :: post) t)
    (hcells : c' = burn c (b + 12) [0]) (hne : b ≠ a)
    (hmem : (a, h) ∈ places getStartSector (pre ++ h' :: post)) :
    (a, h) ∈ places getStartSector (pre ++ readHeader c' b :: post) ∧
      ∀ x, a ≤ x → x < h.next → c' x = c x := by
  have hread := hat.erased.2.1
  rw [← hcells] at hread
  have hnext : (readHeader c' b).next = h'.next := by rw [hread]
  have hb := hat.2.2.1
  have hout : ∀ x, x ≠ b + 12 → c' x = c x := fun x hx => by
    rw [hcells, burn_outside (by simp only [List.length_singleton]; omega)]
  have hpre' : Chain c' getStartSector pre b := hpre.congr fun x _ hx => (hout x (by omega)).symm
  rw [places_append hpre] at hmem
  rw [places_append hpre', places, hnext]
  rcases List.mem_append.mp hmem with hmem | hmem
  · have hbounds := hpre.bounds hmem
    exact ⟨List.mem_append_left _ hmem, fun x hx hx' => hout x (by omega)⟩
  rcases List.mem_cons.mp hmem with heq | hmem
  · cases heq
    exact absurd rfl hne
  · have hbounds := hat.2.2.2.2.bounds hmem
    exact ⟨List.mem_append_right _ (List.mem_cons_of_mem _ hmem), fun x hx hx' => hout x (by omega)⟩

theorem Placed.kept {p : Place} {hs' : List Header} {t' : Nat} (hchain : Chain c getStartSector hs t)
    (htail : Tail c t) (hplaced : Placed c hs t p c' hs' t') (hmem : (a, h) ∈ places getStartSector hs)
    (hlive : h.first ≠ 0) :
    (a, h) ∈ places getStartSector hs' ∧ ∀ x, a ≤ x → x < h.next → c' x = c x := by
  have hlast := htail.lt_end
  cases hplaced with
  | @newest h' _ hcells hnext hlast' hspace =>
    have hbounds := hchain.bounds hmem
    rw [places_append hchain]
    refine ⟨List.mem_append_left _ hmem, fun x hx hx' => ?_⟩
    rw [hcells, burn_outside (by omega)]
  | @hole pre run post b m h' rest _ hsplit hpre hholes hpost hfit hfilled =>
    subst hsplit
    have hend := hfit.holeEnd
    have hb := hfit.bounds
    have hm := hpost.le
    rw [getLastAddress_val] at hb
    have hpre' : Chain c' getStartSector pre b := hpre.congr fun x _ hx =>
      (hfilled.outside x (by omega) (.inl hx)).symm
    rw [places_append hpre, places_append hholes.chain] at hmem
    rw [places_append hpre', places_append (hfilled.chain hfit)]
    rcases List.mem_append.mp hmem with hmem | hmem
    · have hbounds := hpre.bounds hmem
      exact ⟨List.mem_append_left _ hmem,
        fun x hx hx' => hfilled.outside x (by omega) (.inl (by omega))⟩
    rcases List.mem_append.mp hmem with hmem | hmem
    · exact absurd (hholes.first h (mem_of_mem_places hmem)) hlive
    · have hbounds := hpost.bounds hmem
      exact ⟨List.mem_append_right _ (List.mem_append_right _ hmem),
        fun x hx hx' => hfilled.outside x (by omega) (.inr (by omega))⟩

/-- A file that the call is not about keeps its place, its header and its data. -/
theorem Effect.kept {s s' : State} {call : Call} {hs' : List Header} {t' : Nat} (hlisted : Listed s hs t)
    (hspares : Spares s.flash.cells a call) (hmem : (a, h) ∈ places getStartSector hs)
    (hlive : h.first ≠ 0) (heffect : Effect s hs t call s' hs' t') :
    (a, h) ∈ places getStartSector hs' ∧
      ∀ x, a ≤ x → x < h.next → s'.flash.cells x = s.flash.cells x := by
  cases heffect with
  | same => exact ⟨hmem, fun _ _ _ => rfl⟩
  | wrote hf hsplit hpre hat hlive' hcells =>
    subst hsplit
    exact ⟨hmem, kept_of_wrote hpre hat hlive' hcells hspares hmem⟩
  | deleted hf hsplit hget hpre hat hcells =>
    subst hsplit
    exact kept_of_deleted hpre hat hcells (fun heq => hspares (heq ▸ hget)) hmem
  | created hf hopened => exact hopened.placed.kept hlisted.chain hlisted.tail hmem hlive

theorem getAddress_of_named {w : Name} (hchain : Chain c getStartSector hs t) (htail : Tail c t)
    (hapart : hs.Pairwise Apart) (hmem : (a, h) ∈ places getStartSector hs) (hw : h.Named w)
    (hlive : h.first ≠ 0) (beyond : Nat → List Byte) :
    Yields (getAddress c w beyond · getStartSector) a := by
  have hget := getAddress_yields w beyond hchain htail
  obtain ⟨pre, post, rfl, hpre, hat⟩ := hchain.split hmem
  have hne : w.val ≠ [] := fun hempty => hlive (hw.first hempty)
  have hlookup : lookup c w beyond (stops getStartSector (pre ++ h :: post) t) = some a := by
    refine lookup_eq_some hpre hat (fun h' hmem x => ?_) (hw.strcmp _)
    rw [Bool.eq_false_iff]
    exact fun heq => (List.pairwise_append.mp hapart).2.2 h' hmem h List.mem_cons_self w hne
      (.of_strcmp hw.length heq) hw
  rw [hlookup] at hget
  exact hget

end

/-! ## Over a run -/

def NamedRun (f : Flash) : State → Prop :=
  Relation.ReflTransGen (fun s s' => ∃ call, Careful s.flash.cells call ∧ KeepsName s.flash.cells call ∧
    Step s call s') ⟨f, []⟩

theorem NamedRun.listed {f : Flash} {s : State} (herased : Erased f) (hrun : NamedRun f s) :
    ∃ hs t, Listed s hs t ∧ hs.Pairwise Apart := by
  induction hrun with
  | refl => exact ⟨[], getStartSector, herased.listed, .nil⟩
  | tail _ hstep ih =>
    obtain ⟨hs, t, hlisted, hapart⟩ := ih
    obtain ⟨call, hcareful, hkeeps, hstep⟩ := hstep
    obtain ⟨hs', t', heffect⟩ := hlisted.effect hcareful hstep
    exact ⟨hs', t', heffect.listed hlisted, heffect.apart hlisted hkeeps hapart⟩

theorem NamedRun.add {f : Flash} {s s' : State} {hs : List Header} {t size : Nat} {filename : Name}
    {env : Env} (hrun : NamedRun f s) (hlisted : Listed s hs t) (hroom : t + roundUp size < getLastAddress)
    (hstep : Step s (.create filename size env) s') : NamedRun f s' := by
  have hno : ∀ a m, ¬ TakesHole s.flash.cells filename size env a m := fun _ _ =>
    not_takesHole hlisted.chain hlisted.tail hroom
  refine hrun.tail ⟨.create filename size env, fun a m htakes => ?_, fun a m htakes => ?_, hstep⟩
  · exact absurd htakes (hno a m)
  · exact absurd htakes (hno a m)

/-- `getAddress` leads to the file, whatever stands behind the header it reads. -/
def FoundAt (c : Cells) (w : Name) (a : Nat) : Prop :=
  ∀ beyond, Yields (getAddress c w beyond · getStartSector) a

/-- A create, a delete or a write does not lose, move or change another file. -/
theorem others_kept {f : Flash} {s s' : State} {call : Call} {a : Nat} {w : Name} (herased : Erased f)
    (hrun : NamedRun f s) (hcareful : Careful s.flash.cells call) (hkeeps : KeepsName s.flash.cells call)
    (hstep : Step s call s') (hlive : LiveFile s.flash.cells a) (hspares : Spares s.flash.cells a call)
    (hw : (readHeader s.flash.cells a).Named w) :
    FoundAt s.flash.cells w a ∧ FoundAt s'.flash.cells w a ∧ LiveFile s'.flash.cells a ∧
      readHeader s'.flash.cells a = readHeader s.flash.cells a ∧
      Nor.read s'.flash.cells (a + sizeofHeader) (readHeader s.flash.cells a).size =
        Nor.read s.flash.cells (a + sizeofHeader) (readHeader s.flash.cells a).size := by
  obtain ⟨hs, t, hlisted, hapart⟩ := hrun.listed herased
  obtain ⟨hs', t', heffect⟩ := hlisted.effect hcareful hstep
  have hlisted' := heffect.listed hlisted
  have hapart' := heffect.apart hlisted hkeeps hapart
  obtain ⟨h, hmem, hfirst⟩ := hlive.listed hlisted.chain hlisted.tail
  obtain ⟨hmem', hcells⟩ := heffect.kept hlisted hspares hmem hfirst
  obtain ⟨pre, post, -, -, -, hread, hnext, hsize, -⟩ := hlisted.chain.split hmem
  have hread' := hlisted'.chain.read hmem'
  rw [hread] at hw
  have hroom := hsize hfirst
  refine ⟨getAddress_of_named hlisted.chain hlisted.tail hapart hmem hw hfirst,
    getAddress_of_named hlisted'.chain hlisted'.tail hapart' hmem' hw hfirst,
    hlisted'.chain.liveFile hlisted'.tail hmem' hfirst, ?_, ?_⟩
  · rw [hread, hread']
  · rw [hread]
    refine read_congr fun x hx hx' => hcells x ?_ ?_ <;> simp only [sizeofHeader] at * <;> omega

theorem others_kept_twoFiles : ∃ s s', NamedRun Flash.cleared s ∧
    Step s (.unlink (letter 0x61 (by decide)) quiet.beyond) s' ∧
    FoundAt s'.flash.cells (letter 0x62 (by decide)) (getStartSector + 72) := by
  obtain ⟨f₁, hstep₁, hlisted₁, -⟩ := @Listed.add getStartSector [] 0x61 (by decide) _
    erased_cleared.listed (by decide) (by simp) 0 (by decide)
  obtain ⟨f₂, hstep₂, hlisted₂, -⟩ := @Listed.add _ _ 0x62 (by decide) _ hlisted₁ (by decide)
    (by decide) 0 (by decide)
  obtain ⟨f₃, hstep₃, -, -, -, -, hget, hcareful⟩ := @Listed.delete _ _ _ [] _ 0x61 (by decide) _ hlisted₂
    rfl (by simp) rfl
  have hrun₁ := NamedRun.add .refl erased_cleared.listed (by decide) hstep₁
  have hrun₂ := hrun₁.add hlisted₁ (by decide) hstep₂
  have hlive := hlisted₂.chain.liveFile hlisted₂.tail
    (List.mem_cons_of_mem _ (List.mem_singleton.mpr rfl)) (by decide)
  have hread := hlisted₂.chain.2.2.2.2.2.1
  refine ⟨_, _, hrun₂, hstep₃, (others_kept erased_cleared hrun₂ hcareful trivial hstep₃ hlive
    (fun hx => ?_) ?_).2.1⟩
  · exact absurd (hx.unique hget) (by decide)
  · have hnamed : (newHeader (letter 0x62 (by decide)) 0 (getStartSector + 144)).Named
        (letter 0x62 (by decide)) := rfl
    exact hread ▸ hnamed

theorem getAddress_next {c : Cells} {a x : Nat} {b : Byte} {hb : (0 : Byte) ∉ [b]} {beyond : Nat → List Byte}
    (ha : a ≠ fsBlank ∧ a < getLastAddress) (hother : (readHeader c a).first ≠ b)
    (hrest : Yields (getAddress c (letter b hb) beyond · (word c a)) x) :
    Yields (getAddress c (letter b hb) beyond · a) x := by
  refine getAddress_pass ha ?_ hrest
  rw [Bool.eq_false_iff]
  exact fun heq => hother (first_of_strcmp heq)

/-- Where the merge leaves no header, the file behind it is lost. -/
theorem merge_loses_file : ∃ (s s' : State) (a : Nat) (w : Name), Erased Flash.cleared ∧
    Run Flash.cleared s ∧
    (∃ file, Yields (openFile · s.flash (letter 0x65 (by decide)) .create 72 quiet) (some file, s'.flash)) ∧
    LiveFile s.flash.cells a ∧ (readHeader s.flash.cells a).Named w ∧
    Yields (getAddress s.flash.cells w quiet.beyond · getStartSector) a ∧
    ¬ FoundAt s'.flash.cells w a := by
  obtain ⟨s, s', hmerged⟩ := merge_run
  refine ⟨s, s', getStartSector + 252, letter 0x78 (by decide), erased_cleared, hmerged.run, hmerged.opened,
    hmerged.live, ?_, hmerged.found, fun hfound => ?_⟩
  · rw [hmerged.before]
    show strcmp _ _ = true
    decide
  · have hfirst : word s'.flash.cells getStartSector = getStartSector + 144 := word_eq_next hmerged.file
    have hblank : word s'.flash.cells (getStartSector + 144) = fsBlank :=
      word_blank fun x hx hx' => hmerged.gap x hx (by omega)
    have hlost : Yields (getAddress s'.flash.cells (letter 0x78 (by decide)) quiet.beyond · getStartSector)
        fsBlank := by
      refine getAddress_next (by decide) (by rw [hmerged.file]; decide) ?_
      rw [hfirst]
      refine getAddress_next (by decide) ?_ ?_
      · rw [first_readHeader, hmerged.gap _ (by omega) (by omega)]
        decide
      · rw [hblank]
        exact .last fun fuel => rfl
    exact absurd ((hfound quiet.beyond).unique hlost) (by decide)

end PasswordManager.FileSystem
