import PasswordManager.FileSystem.Created
import PasswordManager.Lib.Alike
import Mathlib.Logic.Function.Basic

/-!
# The directory

A name leads to a file or to none. The list of headers on the flash stands for such a map, and every
call changes it at one name.
-/

open Nor

namespace PasswordManager.FileSystem

open FlashDriver Fuel CString Alike

/-! ## The map -/

structure Record where
  address : Nat
  size : Nat
  uid : BitVec 16
  gid : BitVec 16
  data : List Byte
  deriving DecidableEq

abbrev Directory : Type := Name → Option Record

/-- Headers and data lie apart. -/
def Record.Clear (r r' : Record) : Prop :=
  r.address + sizeofHeader + r.size ≤ r'.address ∨ r'.address + sizeofHeader + r'.size ≤ r.address

def newRecord (a size : Nat) : Record := ⟨a, size, 0xBBBB, 0xAAAA, List.replicate size blank⟩

inductive Directory.Step (d : Directory) : Call → Directory → Prop
  | created {w : Name} {size : Int} {env : Env} (a : Nat) (hvalid : 0 ≤ size) (habsent : d w = none)
      (hclear : ∀ w' r, d w' = some r → (newRecord a size.toNat).Clear r) :
      Step d (.create w size env) (Function.update d w (some (newRecord a size.toNat)))
  | refused (w : Name) (size : Int) (env : Env) : Step d (.create w size env) d
  | deleted {w : Name} {beyond : Nat → List Byte} {r : Record} (hpresent : d w = some r) :
      Step d (.unlink w beyond) (Function.update d w none)
  | missing {w : Name} {beyond : Nat → List Byte} (habsent : d w = none) : Step d (.unlink w beyond) d
  | wrote {w : Name} {r : Record} (hpresent : d w = some r) (data : List Byte)
      (hlength : data.length = r.size) :
      Step d (.write r.address) (Function.update d w (some { r with data }))

/-! ## What the list stands for -/

def record (c : Cells) (a : Nat) : Record :=
  let header := readHeader c a
  ⟨a, header.size, header.uid, header.gid, Nor.read c (a + sizeofHeader) header.size⟩

/-- The list is in order, and its names are as they were given. -/
structure Kept (s : State) (hs : List Header) (t : Nat) : Prop where
  listed : Listed s hs t
  apart : hs.Pairwise Apart
  short : ∀ h ∈ hs, h.first ≠ 0 → (str 0 h.filename.val).length ≤ 23

/-- The file of that name in the list. -/
def Lists (c : Cells) (hs : List Header) (w : Name) (r : Record) : Prop :=
  ∃ a h, (a, h) ∈ places getStartSector hs ∧ h.first ≠ 0 ∧ Carries w h ∧ r = record c a

def ShowsDirectory (s : State) (d : Directory) : Prop :=
  ∃ hs t, Kept s hs t ∧ ∀ w r, d w = some r ↔ Lists s.flash.cells hs w r

/-- The copy of a header in the buffer sector, the last one of the chip, is not longer than the sector. -/
def OnChip (a : Nat) : Prop := getBufferSector + (a - (a &&& addrFlashSectorMask)) + sizeofHeader ≤ 0x08100000

/-- The merge of holes goes well, the new file keeps its name and starts blank, and all that is written
is on the chip. -/
structure CleanHole (c : Cells) (w : Name) (size a m : Nat) : Prop where
  merges : MergesWell c (roundUp size) a m
  behind : ClearBehind c w size a
  header : OnChip a
  filler : m ≠ a + roundUp size → OnChip (a + roundUp size)

/-- The name of a new file leaves room for its end, a hole is clean, and the blank tail is not deleted. -/
def Clean (c : Cells) : Call → Prop
  | .create w size env =>
    w.val.length ≤ 23 ∧ ∀ a m, TakesHole c w size env a m → CleanHole c w size.toNat a m
  | .unlink w beyond => Careful c (.unlink w beyond)
  | .write _ => True

section
variable {c c' : Cells} {a b t : Nat} {h h' : Header} {hs : List Header} {w : Name} {call : Call}

theorem Clean.careful (hclean : Clean c call) : Careful c call := by
  cases call with
  | create w size env => exact fun a m htakes => (hclean.2 a m htakes).merges
  | unlink w beyond => exact hclean
  | write a => trivial

theorem Clean.keepsName (hclean : Clean c call) : KeepsName c call := by
  cases call with
  | create w size env =>
    exact fun a m htakes => (storedName_iff hclean.1).mpr (hclean.2 a m htakes).behind.name
  | unlink w beyond => trivial
  | write a => trivial

/-! ## Places -/

/-- Of two headers one lies behind the other. -/
theorem Chain.order (hchain : Chain c a hs t) {x y : Nat} (hx : (x, h) ∈ places a hs)
    (hy : (y, h') ∈ places a hs) (hne : x ≠ y) : h.next ≤ y ∨ h'.next ≤ x := by
  obtain ⟨pre, post, rfl, hpre, hat⟩ := hchain.split hx
  rw [places_append hpre] at hy
  rcases List.mem_append.mp hy with hy | hy
  · exact .inr (hpre.bounds hy).2.2
  rcases List.mem_cons.mp hy with heq | hy
  · cases heq
    exact absurd rfl hne
  · exact .inl (hat.2.2.2.2.bounds hy).1

/-- Two headers that carry one name are the same. -/
theorem Kept.unique {s : State} (hkept : Kept s hs t) (ha : (a, h) ∈ places getStartSector hs)
    (hb : (b, h') ∈ places getStartSector hs) (hlive : h.first ≠ 0) (hlive' : h'.first ≠ 0)
    (hcarries : Carries w h) (hcarries' : Carries w h') : a = b ∧ h = h' := by
  have hlength := hkept.short h (mem_of_mem_places ha) hlive
  rw [hcarries] at hlength
  have hnamed : ∀ g, Carries w g → g.Named w := fun g hg => hg.named (by omega)
  obtain ⟨hfine, hchain, htail, -⟩ := hkept.listed
  have hget := getAddress_of_named hchain htail hkept.apart ha (hnamed h hcarries) hlive fun _ => []
  have hget' := getAddress_of_named hchain htail hkept.apart hb (hnamed h' hcarries') hlive' fun _ => []
  obtain rfl := hget.unique hget'
  exact ⟨rfl, (hchain.read ha).symm.trans (hchain.read hb)⟩

theorem record_congr (hchain : Chain c getStartSector hs t) (ha : (a, h) ∈ places getStartSector hs)
    (hlive : h.first ≠ 0) (hcells : ∀ x, a ≤ x → x < h.next → c' x = c x) : record c' a = record c a := by
  obtain ⟨pre, post, -, -, -, hread, hnext, hsize, -⟩ := hchain.split ha
  have hroom := hsize hlive
  have hheader : readHeader c' a = readHeader c a :=
    readHeader_congr fun x hx hx' => hcells x hx (by omega)
  unfold record
  rw [hheader, hread]
  dsimp only
  congr 1
  exact read_congr fun x hx hx' => hcells x (by simp only [sizeofHeader] at hx; omega)
    (by simp only [sizeofHeader] at hx'; omega)

/-! ## A create -/

theorem Filled.live_iff {m x : Nat} {g : Header} {rest : Option Header} (hfilled : Filled c a h rest c')
    (hfit : Fitting a m h rest) (hnew : (readHeader c' a).first ≠ 0) :
    (x, g) ∈ places a (filling c' a h rest) ∧ g.first ≠ 0 ↔ x = a ∧ g = readHeader c' a := by
  cases rest with
  | none =>
    simp only [filling, places, List.mem_singleton, Prod.mk.injEq]
    grind
  | some r =>
    have hdead : (readHeader c' h.next).first = 0 :=
      (hfilled.asWritten_other hfit).2.elim (·.trans (hfit.some r rfl).2.2.1) id
    simp only [filling, places, List.mem_cons, List.not_mem_nil, or_false, Prod.mk.injEq]
    grind

/-- A create adds its file to the live ones. -/
theorem Placed.live_iff {p : Place} {hs' : List Header} {t' x : Nat} {g : Header}
    (hchain : Chain c getStartSector hs t) (htail : Tail c t) (hplaced : Placed c hs t p c' hs' t')
    (hnew : (readHeader c' p.address).first ≠ 0) :
    (x, g) ∈ places getStartSector hs' ∧ g.first ≠ 0 ↔
      ((x, g) ∈ places getStartSector hs ∧ g.first ≠ 0) ∨ (x = p.address ∧ g = readHeader c' p.address) := by
  cases hplaced with
  | @newest h _ hcells hnext hlast hspace =>
    have hread : readHeader c' t = h := by
      rw [hcells]
      exact (htail.appended hnext hlast hspace).1.2.1
    have haddress : (Place.newest t h).address = t := rfl
    rw [haddress, hread] at hnew ⊢
    rw [places_append hchain]
    simp only [places, List.mem_append, List.mem_singleton, Prod.mk.injEq]
    grind
  | @hole pre run post a m h rest _ hsplit hpre hholes hpost hfit hfilled =>
    subst hsplit
    have hdead : (x, g) ∈ places a run → g.first = 0 := fun hx => hholes.first g (mem_of_mem_places hx)
    have haddress : (Place.hole a h rest).address = a := rfl
    rw [haddress] at hnew ⊢
    rw [← hfilled.live_iff hfit hnew, places_append hpre (filling c' a h rest ++ post),
      places_append hpre (run ++ post), places_append hholes.chain, places_append (hfilled.chain hfit)]
    simp only [List.mem_append]
    tauto

/-- The header of the new file is the one that was written, but for its name. -/
theorem Placed.asWritten {p : Place} {hs' : List Header} {t' : Nat} (htail : Tail c t)
    (hplaced : Placed c hs t p c' hs' t') : AsWritten (readHeader c' p.address) p.header := by
  cases hplaced with
  | @newest h _ hcells hnext hlast hspace =>
    have hread : readHeader c' t = h := by
      rw [hcells]
      exact (htail.appended hnext hlast hspace).1.2.1
    show AsWritten (readHeader c' t) h
    rw [hread]
    exact .refl h
  | hole hsplit hpre hholes hpost hfit hfilled => exact hfilled.asWritten hfit

theorem Opened.record {size : Int} {env : Env} {file : File} {p : Place} {hs' : List Header} {t' : Nat}
    (htail : Tail c t) (hopened : Opened c hs t w size env file p c' hs' t')
    (hblank : ∀ x, p.address + 36 ≤ x → x < p.address + 36 + size.toNat → c' x = blank) :
    record c' p.address = newRecord p.address size.toNat := by
  have hwritten := (hopened.placed.asWritten htail).1
  rw [hopened.header] at hwritten
  unfold FileSystem.record newRecord
  rw [hwritten]
  dsimp only [newHeader]
  congr 1
  refine List.ext_getElem (by simp) fun k hk hk' => ?_
  rw [List.length_replicate] at hk'
  rw [getElem_read, List.getElem_replicate]
  exact hblank _ (by simp only [sizeofHeader]; omega) (by simp only [sizeofHeader]; omega)

theorem Kept.one {s : State} {r r' : Record} (hkept : Kept s hs t) (hr : Lists s.flash.cells hs w r)
    (hr' : Lists s.flash.cells hs w r') : r = r' := by
  obtain ⟨x, g, hx, hlive, hcarries, rfl⟩ := hr
  obtain ⟨y, g', hy, hlive', hcarries', rfl⟩ := hr'
  obtain ⟨rfl, -⟩ := hkept.unique hx hy hlive hlive' hcarries hcarries'
  rfl

theorem Kept.room {s : State} {x : Nat} {g : Header} (hkept : Kept s hs t)
    (hx : (x, g) ∈ places getStartSector hs) (hlive : g.first ≠ 0) :
    (FileSystem.record s.flash.cells x).size = g.size ∧ x + 72 + g.size ≤ g.next := by
  obtain ⟨pre, post, -, -, -, hread, -, hsize, -⟩ := hkept.listed.chain.split hx
  exact ⟨by rw [FileSystem.record, hread], hsize hlive⟩

/-- Files of different names lie apart. -/
theorem Kept.clear {s : State} {w' : Name} {r r' : Record} (hkept : Kept s hs t) (hne : w ≠ w')
    (hr : Lists s.flash.cells hs w r) (hr' : Lists s.flash.cells hs w' r') : r.Clear r' := by
  obtain ⟨x, g, hx, hlive, hcarries, rfl⟩ := hr
  obtain ⟨y, g', hy, hlive', hcarries', rfl⟩ := hr'
  have hchain := hkept.listed.chain
  obtain ⟨hsize, hroom⟩ := hkept.room hx hlive
  obtain ⟨hsize', hroom'⟩ := hkept.room hy hlive'
  have hxy : x ≠ y := by
    rintro rfl
    rw [← hchain.read hx, hchain.read hy] at hcarries
    exact hne (Subtype.ext (hcarries.symm.trans hcarries'))
  unfold Record.Clear
  rw [hsize, hsize']
  simp only [FileSystem.record, sizeofHeader]
  rcases hchain.order hx hy hxy with hle | hle
  · exact .inl (by omega)
  · exact .inr (by omega)

theorem created_valid {f f' : Flash} {size : Int} {env : Env} {file : File}
    (hopen : Yields (openFile · f w .create size env) (some file, f')) : 0 ≤ size := by
  by_contra hneg
  cases hopen.unique (openFile_unplaced fun hvalid => absurd hvalid hneg)

end

/-! ## One name changes -/

/-- The file of a name is in both lists, and in both memories. -/
theorem lists_iff {c c' : Cells} {hs hs' : List Header} {t : Nat} {w : Name}
    (hchain : Chain c getStartSector hs t)
    (hkeeps : ∀ x g, (x, g) ∈ places getStartSector hs → g.first ≠ 0 → Carries w g →
      (x, g) ∈ places getStartSector hs' ∧ ∀ y, x ≤ y → y < g.next → c' y = c y)
    (hadds : ∀ x g, (x, g) ∈ places getStartSector hs' → g.first ≠ 0 → Carries w g →
      (x, g) ∈ places getStartSector hs) (r : Record) : Lists c hs w r ↔ Lists c' hs' w r := by
  constructor
  · rintro ⟨x, g, hx, hlive, hcarries, rfl⟩
    obtain ⟨hx', hcells⟩ := hkeeps x g hx hlive hcarries
    exact ⟨x, g, hx', hlive, hcarries, (record_congr hchain hx hlive hcells).symm⟩
  · rintro ⟨x, g, hx', hlive, hcarries, rfl⟩
    have hx := hadds x g hx' hlive hcarries
    have hcells := (hkeeps x g hx hlive hcarries).2
    exact ⟨x, g, hx, hlive, hcarries, record_congr hchain hx hlive hcells⟩

section
variable {s : State} {d : Directory} {hs : List Header} {t : Nat} {w : Name}

/-- One file has the name. -/
theorem Kept.some_iff {r : Record} (hkept : Kept s hs t) (hr : Lists s.flash.cells hs w r) (r' : Record) :
    some r = some r' ↔ Lists s.flash.cells hs w r' := by
  constructor
  · intro heq
    rwa [← Option.some.inj heq]
  · intro hr'
    rw [hkept.one hr hr']

/-- The new list stands for the map that is changed at the name. -/
theorem Kept.update {s' : State} {hs' : List Header} {t' : Nat} {o : Option Record} (hkept' : Kept s' hs' t')
    (hd : ∀ w r, d w = some r ↔ Lists s.flash.cells hs w r)
    (hown : ∀ r, o = some r ↔ Lists s'.flash.cells hs' w r)
    (hothers : ∀ w' ≠ w, ∀ r, Lists s.flash.cells hs w' r ↔ Lists s'.flash.cells hs' w' r) :
    ShowsDirectory s' (Function.update d w o) := by
  refine ⟨hs', t', hkept', fun w' r => ?_⟩
  by_cases hne : w' = w
  · subst hne
    rw [Function.update_self]
    exact hown r
  · rw [Function.update_of_ne hne, hd]
    exact hothers w' hne r

theorem created_shows {size : Int} {env : Env} {file : File} {p : Place} {f : Flash} {hs' : List Header}
    {t' : Nat} (hkept : Kept s hs t) (hd : ∀ w r, d w = some r ↔ Lists s.flash.cells hs w r)
    (hclean : Clean s.flash.cells (.create w size env)) (hint : size < 2 ^ 31)
    (hopen : Yields (openFile · s.flash w .create size env) (some file, f)) (hf : f.Fine)
    (hopened : Opened s.flash.cells hs t w size env file p f.cells hs' t') :
    ∃ d', d.Step (.create w size env) d' ∧ ShowsDirectory ⟨f, s.written ++ p.headers⟩ d' := by
  obtain ⟨hfine, hchain, htail, -⟩ := hkept.listed
  obtain ⟨-, hnamed, -, habsent, p', hput, -, hplace, -⟩ := openFile_put hfine hchain htail hint hopen
  cases hplace.unique hopened.place
  obtain ⟨hcarries, hblank⟩ := (hput.clear_iff hchain htail hclean.1).mpr fun a m htakes =>
    (hclean.2 a m htakes).behind
  have hnew : (readHeader f.cells p.address).first ≠ 0 := hcarries.first hnamed
  have hrecord := hopened.record htail hblank
  have heffect : Effect s hs t (.create w size env) ⟨f, s.written ++ p.headers⟩ hs' t' := .created hf hopened
  have hkept' : Kept ⟨f, s.written ++ p.headers⟩ hs' t' := by
    refine ⟨heffect.listed hkept.listed, heffect.apart hkept.listed hclean.keepsName hkept.apart, ?_⟩
    intro h hmem hlive
    rcases hopened.placed.mem htail hmem with hold | rfl | hfirst
    · exact hkept.short h hold hlive
    · rw [hcarries]
      exact hclean.1
    · exact absurd hfirst hlive
  have hmem : Lists f.cells hs' w (newRecord p.address size.toNat) := by
    have hlive := (hopened.placed.live_iff hchain htail hnew).mpr (.inr ⟨rfl, rfl⟩)
    exact ⟨_, _, hlive.1, hlive.2, hcarries, hrecord.symm⟩
  have hnone : ∀ r, ¬ Lists s.flash.cells hs w r := by
    rintro r ⟨x, g, hx, -, hcarries', -⟩
    exact not_named_of_absent hchain habsent hx (hcarries'.named (Nat.lt_succ_of_le hclean.1))
  have hothers : ∀ w' ≠ w, ∀ r, Lists s.flash.cells hs w' r ↔ Lists f.cells hs' w' r := by
    intro w' hne
    refine lists_iff hchain (fun x g hx hlive _ => hopened.placed.kept hchain htail hx hlive) ?_
    intro x g hx' hlive hcarries'
    rcases (hopened.placed.live_iff hchain htail hnew).mp ⟨hx', hlive⟩ with ⟨hx, -⟩ | ⟨-, rfl⟩
    · exact hx
    · exact absurd (Subtype.ext (hcarries'.symm.trans hcarries)) hne
  have hclear : ∀ w' r, d w' = some r → (newRecord p.address size.toNat).Clear r := by
    intro w' r hr
    have hlists := (hd w' r).mp hr
    have hne : w' ≠ w := by
      rintro rfl
      exact hnone r hlists
    exact hkept'.clear hne.symm hmem ((hothers w' hne r).mp hlists)
  have habsent' : d w = none := Option.eq_none_iff_forall_ne_some.mpr fun r hr => hnone r ((hd w r).mp hr)
  exact ⟨_, .created p.address (created_valid hopen) habsent' hclear,
    hkept'.update hd (hkept'.some_iff hmem) hothers⟩

end

/-! ## A delete and a write -/

section
variable {c c' : Cells} {a t : Nat} {h : Header} {pre post : List Header} {w : Name}

theorem carries_of_match {b : List Byte} (hshort : (str 0 h.filename.val).length ≤ 23)
    (heq : strcmp w (h.filename.val ++ b) = true) : Carries w h := by
  have hend : (0 : Byte) ∈ h.filename.val := by
    by_contra hnone
    rw [str_eq_self hnone, h.filename.property] at hshort
    omega
  obtain ⟨rest, hrest⟩ := strcmp_iff.mp heq
  have hwhole : str 0 (h.filename.val ++ b) = w.val := by
    rw [← hrest, List.append_assoc, List.singleton_append]
    exact str_append_cons w.property rest
  unfold Carries
  rw [← hwhole, str_append hend]

/-- A delete takes its file from the live ones. -/
theorem deleted_live_iff {x : Nat} {g : Header} (hpre : Chain c getStartSector pre a)
    (hat : Chain c a (h :: post) t) (hcells : c' = burn c (a + 12) [0]) :
    (x, g) ∈ places getStartSector (pre ++ readHeader c' a :: post) ∧ g.first ≠ 0 ↔
      ((x, g) ∈ places getStartSector (pre ++ h :: post) ∧ g.first ≠ 0) ∧ x ≠ a := by
  obtain ⟨-, hread, hfirst⟩ := hat.erased
  rw [← hcells] at hread hfirst
  have hnext : (readHeader c' a).next = h.next := by rw [hread]
  have hbefore : (x, g) ∈ places getStartSector pre → x ≠ a := fun hx => by
    have := hpre.bounds hx
    omega
  have hbehind : (x, g) ∈ places h.next post → x ≠ a := fun hx => by
    have := hat.2.2.2.2.bounds hx
    have := hat.2.2.1
    omega
  rw [places_append hpre, places_append hpre]
  simp only [places, hnext, List.mem_append, List.mem_cons, Prod.mk.injEq]
  grind

end

section
variable {s : State} {d : Directory} {hs : List Header} {t : Nat} {w : Name}

theorem Kept.headers_short (hkept : Kept s hs t) {h : Header} (hmem : h ∈ hs) :
    (str 0 h.filename.val).length ≤ 23 := names_short hkept.short hmem

theorem Kept.found {r : Record} (hkept : Kept s hs t) (hr : Lists s.flash.cells hs w r) :
    w.val ≠ [] ∧ w.val.length ≤ 23 ∧ r.address ≠ fsBlank ∧ r = record s.flash.cells r.address ∧
      FoundAt s.flash.cells w r.address := by
  obtain ⟨a, h, ha, hlive, hcarries, rfl⟩ := hr
  obtain ⟨hfine, hchain, htail, -⟩ := hkept.listed
  have hlength := hkept.short h (mem_of_mem_places ha) hlive
  rw [hcarries] at hlength
  have hstop : a ∈ stops getStartSector hs t := List.mem_append_left _ (List.mem_map.mpr ⟨_, ha, rfl⟩)
  refine ⟨fun hw => hlive ((carries_nil_iff hw).mp hcarries), hlength,
    hchain.stop_ne_blank htail hstop, rfl, ?_⟩
  exact fun beyond => getAddress_of_named hchain htail hkept.apart ha (hcarries.named (by omega)) hlive beyond

theorem unlink_shows {beyond : Nat → List Byte} {r : Except Errno Unit} {f : Flash} (hkept : Kept s hs t)
    (hd : ∀ w r, d w = some r ↔ Lists s.flash.cells hs w r)
    (hclean : Clean s.flash.cells (.unlink w beyond)) (hunlink : Yields (unlink · s.flash w beyond) (r, f)) :
    ∃ d', d.Step (.unlink w beyond) d' ∧ ShowsDirectory ⟨f, s.written⟩ d' := by
  obtain ⟨hfine, hchain, htail, -⟩ := hkept.listed
  rcases unlink_yields hfine hchain htail hclean with hnone | ⟨a, h, f', hget, ha, hyes, hf', hcells⟩
  · cases hunlink.unique hnone
    refine ⟨d, .missing ?_, hs, t, hkept, hd⟩
    refine Option.eq_none_iff_forall_ne_some.mpr fun r hr => ?_
    obtain ⟨hnamed, -, hne, -, hfound⟩ := hkept.found ((hd w r).mp hr)
    obtain ⟨f', hyes, -⟩ := unlink_found hfine hnamed (hfound beyond) hne
    cases hyes.unique hnone
  · cases hunlink.unique hyes
    obtain ⟨pre, post, rfl, hpre, hat⟩ := hchain.split ha
    have hread := hchain.read ha
    have hcarries : Carries w h := by
      obtain ⟨fuel, hfuel⟩ := hget
      have hmatch := strcmp_of_getAddress (hfuel fuel (Nat.le_refl fuel)) (hat.ne_blank htail)
      rw [hread] at hmatch
      exact carries_of_match (hkept.headers_short (mem_of_mem_places ha)) hmatch
    have hnamed : w.val ≠ [] := by
      intro hempty
      have hnone : Yields (unlink · s.flash w beyond) (.error .ENOENT, s.flash) := by
        simp only [unlink, if_pos hempty]
        exact .pure _
      cases hyes.unique hnone
    have hlive : h.first ≠ 0 := hcarries.first hnamed
    have hlists : Lists s.flash.cells (pre ++ h :: post) w (record s.flash.cells a) :=
      ⟨a, h, ha, hlive, hcarries, rfl⟩
    have heffect : Effect s (pre ++ h :: post) t (.unlink w beyond) ⟨f, s.written⟩
        (pre ++ readHeader f.cells a :: post) t := .deleted hf' rfl hget hpre hat hcells
    have hlive_iff := fun x g => @deleted_live_iff _ _ a t h pre post x g hpre hat hcells
    have hkept' : Kept ⟨f, s.written⟩ (pre ++ readHeader f.cells a :: post) t := by
      refine ⟨heffect.listed hkept.listed, heffect.apart hkept.listed hclean.keepsName hkept.apart,
        fun g hg hlive' => ?_⟩
      obtain ⟨x, hx⟩ := mem_places_of_mem getStartSector hg
      have hold := ((hlive_iff x g).mp ⟨hx, hlive'⟩).1
      exact hkept.short g (mem_of_mem_places hold.1) hlive'
    have hnone : ∀ r, ¬ Lists f.cells (pre ++ readHeader f.cells a :: post) w r := by
      rintro r ⟨x, g, hx, hlive', hcarries', -⟩
      obtain ⟨⟨hold, -⟩, hother⟩ := (hlive_iff x g).mp ⟨hx, hlive'⟩
      exact absurd (hkept.unique hold ha hlive' hlive hcarries' hcarries).1 hother
    refine ⟨_, .deleted ((hd w _).mpr hlists), hkept'.update hd
      (fun r => iff_of_false (Option.some_ne_none r).symm (hnone r)) fun w' hne => ?_⟩
    refine lists_iff hchain (fun x g hx _ hcarries' => ?_) fun x g hx hlive' _ =>
      ((hlive_iff x g).mp ⟨hx, hlive'⟩).1.1
    have hother : a ≠ x := by
      rintro rfl
      rw [← hchain.read hx, hread] at hcarries'
      exact hne (Subtype.ext (hcarries'.symm.trans hcarries))
    exact kept_of_deleted hpre hat hcells hother hx

theorem write_shows {a : Nat} {s' : State} (hkept : Kept s hs t)
    (hd : ∀ w r, d w = some r ↔ Lists s.flash.cells hs w r) (hstep : Step s (.write a) s') :
    ∃ d', d.Step (.write a) d' ∧ ShowsDirectory s' d' := by
  obtain ⟨hfine, hchain, htail, -⟩ := hkept.listed
  cases hstep with
  | @wrote a f hlivefile haccepts hcells =>
    obtain ⟨h, ha, hlive⟩ := hlivefile.listed hchain htail
    obtain ⟨pre, post, rfl, hpre, hat⟩ := hchain.split ha
    have hread := hchain.read ha
    rw [hread] at hcells
    have hf : f.Fine := fun i => by rw [haccepts]; exact hfine i
    have heffect : Effect s (pre ++ h :: post) t (.write a) ⟨f, s.written⟩ (pre ++ h :: post) t :=
      .wrote hf rfl hpre hat hlive hcells
    have hkept' : Kept ⟨f, s.written⟩ (pre ++ h :: post) t :=
      ⟨heffect.listed hkept.listed, hkept.apart, hkept.short⟩
    set w : Name := ⟨str 0 h.filename.val, not_mem_str _⟩ with hw
    have hcarries : Carries w h := rfl
    have hlists : Lists s.flash.cells (pre ++ h :: post) w (record s.flash.cells a) :=
      ⟨a, h, ha, hlive, hcarries, rfl⟩
    have hheader : readHeader f.cells a = readHeader s.flash.cells a :=
      readHeader_congr fun x _ hx' => hcells x (.inl hx')
    have hrecord : record f.cells a = { record s.flash.cells a with data := (record f.cells a).data } := by
      unfold record
      rw [hheader]
    have hnew : Lists f.cells (pre ++ h :: post) w (record f.cells a) := ⟨a, h, ha, hlive, hcarries, rfl⟩
    have hlength : (record f.cells a).data.length = (record s.flash.cells a).size := by
      simp [record, hheader]
    refine ⟨_, .wrote ((hd w _).mpr hlists) _ hlength, ?_⟩
    rw [← hrecord]
    refine hkept'.update hd (hkept'.some_iff hnew) fun w' hne => ?_
    refine lists_iff hchain (fun x g hx _ hcarries' => ⟨hx, ?_⟩) fun x g hx _ _ => hx
    have hother : a ≠ x := by
      rintro rfl
      rw [← hchain.read hx, hread] at hcarries'
      exact hne (Subtype.ext hcarries'.symm)
    exact kept_of_wrote hpre hat hlive hcells hother hx

/-! ## Runs -/

def CleanStep (s : State) (call : Call) (s' : State) : Prop := Clean s.flash.cells call ∧ Step s call s'

theorem step_shows {s' : State} {call : Call} (h : ShowsDirectory s d) (hstep : CleanStep s call s') :
    ∃ d', d.Step call d' ∧ ShowsDirectory s' d' := by
  obtain ⟨hs, t, hkept, hd⟩ := h
  obtain ⟨hclean, hstep⟩ := hstep
  obtain ⟨hfine, hchain, htail, -⟩ := hkept.listed
  cases hstep with
  | created hint hopen hplace =>
    rcases create_yields hfine hchain htail hint hclean.careful with
      hnone | ⟨file, f', p', hs', t', hyes, hf', hopened⟩
    · cases hopen.unique hnone
    · cases hopen.unique hyes
      cases hplace.unique hopened.place
      exact created_shows hkept hd hclean hint hopen hf' hopened
  | @refused w size env f hint hopen =>
    rcases create_yields hfine hchain htail hint hclean.careful with
      hnone | ⟨file, f', p', hs', t', hyes, -⟩
    · cases hopen.unique hnone
      exact ⟨d, .refused w size env, hs, t, hkept, hd⟩
    · cases hopen.unique hyes
  | unlinked hunlink => exact unlink_shows hkept hd hclean hunlink
  | wrote hlive haccepts hcells => exact write_shows hkept hd (.wrote hlive haccepts hcells)

theorem erased_shows {f : Flash} (herased : Erased f) : ShowsDirectory ⟨f, []⟩ fun _ => none := by
  refine ⟨[], getStartSector, ⟨herased.listed, .nil, by simp⟩, fun w r => ?_⟩
  refine ⟨fun heq => (by cases heq), ?_⟩
  rintro ⟨x, g, hx, -⟩
  cases hx

/-! ## What the calls answer -/

/-- The calls that look for a name answer from the map. -/
structure Answers (f : Flash) (d : Directory) : Prop where
  opens : ∀ (w : Name) (size : Int) (env : Env), w.val.length ≤ 23 → 0 ≤ size →
    Yields (openFile · f w .read size env)
      ((d w).map fun r => ⟨r.address + sizeofHeader, r.size, r.uid, r.gid⟩, f)
  stats : ∀ (w : Name) (beyond : Nat → List Byte), w.val.length ≤ 23 → w.val ≠ [] →
    Yields (lstat · f.cells w beyond) (match d w with
      | none => .error .ENOENT
      | some r => .ok ⟨0, r.uid, r.gid, r.size, 512, (r.size + 512 - 1) / 512 * 512⟩)
  refuses : ∀ (w : Name) (size : Int) (env : Env), d w ≠ none →
    Yields (openFile · f w .create size env) (none, f)
  holds : ∀ (w : Name) (r : Record), d w = some r →
    r.data = Nor.read f.cells (r.address + sizeofHeader) r.size
  clear : ∀ (w w' : Name) (r r' : Record), d w = some r → d w' = some r' → w ≠ w' → r.Clear r'

theorem not_lists (beyond : Nat → List Byte) (hkept : Kept s hs t) (hlength : w.val.length ≤ 23)
    (hnamed : w.val ≠ []) (hnone : ∀ r, ¬ Lists s.flash.cells hs w r) :
    Yields (getAddress s.flash.cells w beyond · getStartSector) fsBlank := by
  obtain ⟨hfine, hchain, htail, -⟩ := hkept.listed
  rcases getAddress_ends beyond hchain htail w with ⟨a, hlookup, -⟩ | ⟨-, hget⟩
  · have hsome : (lookup s.flash.cells w beyond (stops getStartSector hs t)).isSome = true := by
      rw [hlookup]
      rfl
    rcases carries_of_lookup beyond hchain htail (by omega) hsome with ⟨h, hmem, hcarries⟩ | htailNamed
    · obtain ⟨x, hx⟩ := mem_places_of_mem getStartSector hmem
      exact absurd ⟨x, h, hx, hcarries.first hnamed, hcarries, rfl⟩ (hnone _)
    · exact absurd htailNamed (not_tailNamed hlength)
  · exact hget

/-- The search for a name ends where the map says. -/
theorem Kept.gets (hkept : Kept s hs t) (hd : ∀ w r, d w = some r ↔ Lists s.flash.cells hs w r)
    (hlength : w.val.length ≤ 23) (hnamed : w.val ≠ []) (beyond : Nat → List Byte) :
    (d w = none ∧ Yields (getAddress s.flash.cells w beyond · getStartSector) fsBlank) ∨
      ∃ r, d w = some r ∧ r.address ≠ fsBlank ∧ r = record s.flash.cells r.address ∧
        Yields (getAddress s.flash.cells w beyond · getStartSector) r.address := by
  cases hr : d w with
  | none =>
    refine .inl ⟨rfl, not_lists beyond hkept hlength hnamed fun r hlists => ?_⟩
    rw [(hd w r).mpr hlists] at hr
    cases hr
  | some r =>
    obtain ⟨-, -, hne, heq, hfound⟩ := hkept.found ((hd w r).mp hr)
    exact .inr ⟨r, rfl, hne, heq, hfound beyond⟩

theorem ShowsDirectory.answers (h : ShowsDirectory s d) : Answers s.flash d := by
  obtain ⟨hs, t, hkept, hd⟩ := h
  refine ⟨fun w size env hlength hsize => ?_, fun w beyond hlength hnamed => ?_, fun w size env hsome => ?_,
    fun w r hr => ?_, fun w w' r r' hr hr' hne => hkept.clear hne ((hd w r).mp hr) ((hd w' r').mp hr')⟩
  · by_cases hnamed : w.val = []
    · have hnone : d w = none := Option.eq_none_iff_forall_ne_some.mpr fun r hr =>
        (hkept.found ((hd w r).mp hr)).1 hnamed
      rw [hnone]
      unfold openFile
      simp only [if_pos hnamed, ite_self]
      exact .pure _
    rcases hkept.gets hd hlength hnamed env.beyond with ⟨hnone, hget⟩ | ⟨r, hr, hne, heq, hget⟩
    · have hopen := openFile_read (Nat.le_succ_of_le hlength) hnamed hsize hget
      rw [if_pos rfl] at hopen
      rwa [hnone]
    · have hopen := openFile_read (Nat.le_succ_of_le hlength) hnamed hsize hget
      rw [if_neg hne] at hopen
      rw [hr, heq]
      exact hopen
  · rcases hkept.gets hd hlength hnamed beyond with ⟨hnone, hget⟩ | ⟨r, hr, hne, heq, hget⟩
    · have hstat := lstat_yields (Nat.le_succ_of_le hlength) hget
      rw [if_pos rfl] at hstat
      rwa [hnone]
    · have hstat := lstat_yields (Nat.le_succ_of_le hlength) hget
      rw [if_neg hne] at hstat
      rw [hr, heq]
      exact hstat
  · obtain ⟨r, hr⟩ := Option.ne_none_iff_exists'.mp hsome
    obtain ⟨-, -, hne, -, hfound⟩ := hkept.found ((hd w r).mp hr)
    exact hfound.refused hne size env
  · obtain ⟨-, -, -, heq, -⟩ := hkept.found ((hd w r).mp hr)
    rw [heq]
    rfl

/-- Whatever the calls are, the file system does on the flash what they do in a map. -/
theorem directory_refines {f : Flash} {calls : List Call} (herased : Erased f)
    (hrun : Traces CleanStep ⟨f, []⟩ calls s) :
    ∃ d, Traces Directory.Step (fun _ => none) calls d ∧ Answers s.flash d := by
  obtain ⟨d, htraces, hshows⟩ := hrun.alike (fun _ _ _ _ h hstep => step_shows h hstep) (erased_shows herased)
  exact ⟨d, htraces, hshows.answers⟩

theorem clean_of_room {size : Int} {env : Env} (hlisted : Listed s hs t)
    (hroom : t + roundUp size.toNat < getLastAddress) (hlength : w.val.length ≤ 23) :
    Clean s.flash.cells (.create w size env) :=
  ⟨hlength, fun _ _ htakes => absurd htakes (not_takesHole hlisted.chain hlisted.tail hroom)⟩

/-- Two files, and then only the second one. -/
theorem twoFiles : ∃ s s', Traces CleanStep ⟨Flash.cleared, []⟩
      [.create (letter 0x61 ended_a) 0 quiet, .create (letter 0x65 ended_e) 0 quiet] s ∧
    CleanStep s (.unlink (letter 0x61 ended_a) quiet.beyond) s' ∧
    Yields (openFile · s.flash (letter 0x65 ended_e) .read 0 quiet)
      (some ⟨getStartSector + 108, 0, 0xBBBB, 0xAAAA⟩, s.flash) := by
  obtain ⟨f₁, hstep₁, hlisted₁, -⟩ := @Listed.add getStartSector [] 0x61 ended_a _
    erased_cleared.listed (by decide) (by simp) 0 (by decide)
  obtain ⟨f₂, hstep₂, hlisted₂, -⟩ := @Listed.add _ _ 0x65 ended_e _ hlisted₁ (by decide) (by decide) 0
    (by decide)
  obtain ⟨f₃, hstep₃, -, -, -, -, -, hcareful⟩ := @Listed.delete _ _ _ [] _ 0x61 ended_a _ hlisted₂
    rfl (by simp) rfl
  have hclean₁ : Clean _ (.create (letter 0x61 ended_a) 0 quiet) :=
    clean_of_room erased_cleared.listed (by decide) (by decide)
  have hclean₂ : Clean _ (.create (letter 0x65 ended_e) 0 quiet) :=
    clean_of_room hlisted₁ (by decide) (by decide)
  have hrun : Traces CleanStep _
      [.create (letter 0x61 ended_a) 0 quiet, .create (letter 0x65 ended_e) 0 quiet] _ :=
    (Traces.nil.snoc ⟨hclean₁, hstep₁⟩).snoc ⟨hclean₂, hstep₂⟩
  refine ⟨_, _, hrun, ⟨hcareful, hstep₃⟩, ?_⟩
  obtain ⟨m, hpre, hat⟩ := chain_append.mp hlisted₂.chain
  obtain rfl : getStartSector + 72 = m := hpre.2.2.2.2
  exact open_letter hpre hat hlisted₂.tail (by decide) rfl

theorem directory_refines_twoFiles : ∃ s d, Traces CleanStep ⟨Flash.cleared, []⟩
      [.create (letter 0x61 ended_a) 0 quiet, .create (letter 0x65 ended_e) 0 quiet,
        .unlink (letter 0x61 ended_a) quiet.beyond] s ∧
    Traces Directory.Step (fun _ => none)
      [.create (letter 0x61 ended_a) 0 quiet, .create (letter 0x65 ended_e) 0 quiet,
        .unlink (letter 0x61 ended_a) quiet.beyond] d ∧
    Answers s.flash d := by
  obtain ⟨s, s', hrun, hstep, -⟩ := twoFiles
  obtain ⟨d, htraces, hanswers⟩ := directory_refines erased_cleared (hrun.snoc hstep)
  exact ⟨s', d, hrun.snoc hstep, htraces, hanswers⟩

/-- A call that is not about the file leaves it in the map. -/
theorem Directory.Step.keeps {d' : Directory} {r : Record} {call : Call} (hr : d w = some r)
    (hspares : (∀ beyond, call ≠ .unlink w beyond) ∧ call ≠ .write r.address) (hstep : d.Step call d') :
    d' w = some r := by
  cases hstep with
  | @created w' size env a hvalid habsent hclear =>
    have hne : w ≠ w' := by
      rintro rfl
      rw [habsent] at hr
      cases hr
    rwa [Function.update_of_ne hne]
  | refused w' size env => exact hr
  | @deleted w' beyond r' hpresent =>
    have hne : w ≠ w' := by
      rintro rfl
      exact hspares.1 beyond rfl
    rwa [Function.update_of_ne hne]
  | missing habsent => exact hr
  | @wrote w' r' hpresent data hlength =>
    have hne : w ≠ w' := by
      rintro rfl
      rw [hpresent] at hr
      exact hspares.2 (by rw [Option.some.inj hr])
    rwa [Function.update_of_ne hne]

/-- A file that is found stays as it is for as long as it is not deleted or written. -/
theorem file_lasts {f : Flash} {s' : State} {before after : List Call} (herased : Erased f)
    (hbefore : Traces CleanStep ⟨f, []⟩ before s) (hafter : Traces CleanStep s after s') {size : Int}
    {env : Env} {file : File} (hlength : w.val.length ≤ 23) (hsize : 0 ≤ size)
    (hopen : Yields (openFile · s.flash w .read size env) (some file, s.flash))
    (hspares : ∀ call ∈ after, (∀ beyond, call ≠ .unlink w beyond) ∧
      call ≠ .write (file.basePointer - sizeofHeader)) :
    (∀ size' env', 0 ≤ size' →
      Yields (openFile · s'.flash w .read size' env') (some file, s'.flash)) ∧
    Nor.read s'.flash.cells file.basePointer file.lenght =
      Nor.read s.flash.cells file.basePointer file.lenght := by
  obtain ⟨d, -, hshows⟩ := hbefore.alike (fun _ _ _ _ h hstep => step_shows h hstep) (erased_shows herased)
  obtain ⟨d', htraces, hshows'⟩ := hafter.alike (fun _ _ _ _ h hstep => step_shows h hstep) hshows
  have hanswer := hopen.unique (hshows.answers.opens w size env hlength hsize)
  obtain ⟨r, hr, rfl⟩ : ∃ r, d w = some r ∧ file = ⟨r.address + sizeofHeader, r.size, r.uid, r.gid⟩ := by
    cases hr : d w with
    | none =>
      rw [hr] at hanswer
      cases hanswer
    | some r =>
      rw [hr] at hanswer
      exact ⟨r, rfl, by simpa using hanswer⟩
  rw [show r.address + sizeofHeader - sizeofHeader = r.address from Nat.add_sub_cancel _ _] at hspares
  have hr' : d' w = some r := htraces.keeps (P := fun d => d w = some r)
    (fun _ _ _ hr hspares hstep => hstep.keeps hr hspares) hspares hr
  refine ⟨fun size' env' hsize' => ?_, ?_⟩
  · have hopen' := hshows'.answers.opens w size' env' hlength hsize'
    rwa [hr'] at hopen'
  · exact (hshows'.answers.holds w r hr').symm.trans (hshows.answers.holds w r hr)

theorem file_lasts_twoFiles : ∃ s s', Traces CleanStep s [.unlink (letter 0x61 ended_a) quiet.beyond] s' ∧
    Yields (openFile · s'.flash (letter 0x65 ended_e) .read 0 quiet)
      (some ⟨getStartSector + 108, 0, 0xBBBB, 0xAAAA⟩, s'.flash) := by
  obtain ⟨s, s', hrun, hstep, hopen⟩ := twoFiles
  have hafter : Traces CleanStep s [.unlink (letter 0x61 ended_a) quiet.beyond] s' := Traces.nil.snoc hstep
  have hlasts := file_lasts erased_cleared hrun hafter (by decide) (by decide) hopen (by simp [letter])
  exact ⟨s, s', hafter, hlasts.1 0 quiet (by decide)⟩

end

end PasswordManager.FileSystem
