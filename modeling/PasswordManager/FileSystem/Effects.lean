import PasswordManager.FileSystem.Holes
import PasswordManager.FileSystem.Restore

/-!
# What the operations do to the list

A create adds a header at the tail or puts one or two in place of a run of holes. A delete clears
the first byte of a name. A file only changes its own data.
-/

open Nor

namespace PasswordManager.FileSystem

open FlashDriver Fuel

/-- A header in memory is the one that was written, but for its name. The first byte of the name
is as written, or the file was deleted. -/
def AsWritten (h w : Header) : Prop :=
  h = { w with filename := h.filename } ∧ (h.first = w.first ∨ h.first = 0)

/-! ## New headers -/

theorem roundUp_bounds (size : Nat) :
    roundUp size % 36 = 0 ∧ size + 72 ≤ roundUp size ∧ roundUp size ≤ size + 107 := by
  unfold roundUp sizeofHeader
  omega

theorem Aligned.add {a n : Nat} (ha : Aligned a) (hn : n % 36 = 0) : Aligned (a + n) := by
  unfold Aligned at ha ⊢
  omega

theorem falseHeader_first (memory : Header) (next : Nat) : (falseHeader memory next).first = 0 := rfl

/-- The end of a sector only cuts off the end of a name. -/
theorem sectorOf_add {a k : Nat} (ha : Aligned a) (hhigh : a < getLastAddress) (hk : k < 28) :
    sectorOf (a + k) = sectorOf a := by
  unfold Aligned at ha
  rw [getLastAddress_val] at hhigh
  have hq : a / 0x20000 = 0x404 ∨ a / 0x20000 = 0x405 ∨ a / 0x20000 = 0x406 := by omega
  have hq' : (a + k) / 0x20000 = a / 0x20000 := by
    rcases hq with hq | hq | hq <;> rw [hq] <;> omega
  rw [sectorOf, sectorOf, hq']

section
variable {c c' : Cells} {a m n t : Nat} {h r : Header} {rest : Option Header} {hs : List Header}

theorem readHeader_of_cells (ha : Aligned a) (hhigh : a < getLastAddress) (hnext : h.next < 2 ^ 32)
    (hsize : h.size < 2 ^ 32)
    (hcells : ∀ k, k < 36 → sectorOf (a + k) = sectorOf a → c' (a + k) = h.bytes.getD k blank) :
    readHeader c' a = { h with filename := (readHeader c' a).filename } ∧
      (readHeader c' a).first = h.first := by
  have hfields : Holds c' a h.fields := by
    rw [holds_iff]
    intro i hi
    rw [h.length_fields] at hi
    rw [hcells i (by omega) (sectorOf_add ha hhigh (by omega)), Header.bytes,
      List.getD_eq_getElem?_getD, List.getElem?_append_left (by rw [h.length_fields]; exact hi),
      List.getElem?_eq_getElem, Option.getD_some]
  refine ⟨readHeader_of_fields hnext hsize hfields, ?_⟩
  rw [first_readHeader, hcells 12 (by omega) (sectorOf_add ha hhigh (by omega)), Header.bytes,
    List.getD_eq_getElem?_getD, List.getElem?_append_right (by rw [h.length_fields]), h.length_fields,
    Header.first]
  have hlen := h.filename.property
  cases hname : h.filename.val with
  | nil => rw [hname] at hlen; cases hlen
  | cons b l => rfl

/-! ## A header at the tail -/

theorem Tail.appended (htail : Tail c t) (hnext : Aligned h.next) (hlast : h.next < getLastAddress)
    (hspace : t + 72 + h.size ≤ h.next) :
    Chain (burn c t h.bytes) t [h] h.next ∧ Tail (burn c t h.bytes) h.next := by
  have hlen := h.length_bytes
  have hlast' := hlast
  rw [getLastAddress_val] at hlast'
  have hholds : Holds (burn c t h.bytes) t h.bytes :=
    holds_burn fun x hx hx' => htail.blank x hx (by omega)
  refine ⟨⟨htail.aligned, readHeader_eq (by omega) (by omega) hholds, by omega, fun _ => hspace, rfl⟩,
    hnext, hlast, fun x hx hx' => ?_⟩
  rw [burn_outside (by omega)]
  exact htail.blank x (by omega) hx'

/-! ## Headers in a hole -/

def filling (c' : Cells) (a : Nat) (h : Header) : Option Header → List Header
  | none => [readHeader c' a]
  | some _ => [readHeader c' a, readHeader c' h.next]

/-- The new header takes `n` bytes of the holes, and the other one what is left. -/
structure Fitting (a m : Nat) (h : Header) (rest : Option Header) : Prop where
  start : Aligned a
  next : Aligned h.next
  stop : Aligned m ∧ m < getLastAddress
  space : a + 72 + h.size ≤ h.next
  none : rest = none → h.next = m
  some : ∀ r, rest = some r → r.next = m ∧ h.next < m ∧ r.first = 0 ∧ r.size = 0

theorem Fitting.holeEnd (hfit : Fitting a m h rest) : holeEnd h rest = m := by
  cases rest with
  | none => exact hfit.none rfl
  | some r => exact (hfit.some r rfl).1

theorem Fitting.fillable (hfit : Fitting a m h rest) : Fillable a h rest := by
  have hend := hfit.holeEnd
  obtain ⟨start, next, ⟨stop, hlast⟩, space, -, other⟩ := hfit
  rw [getLastAddress_val] at hlast
  unfold Aligned at start next stop
  refine ⟨by omega, by omega, fun r hr => ?_, by omega⟩
  obtain ⟨hr, hlt, -⟩ := other r hr
  omega

theorem Fitting.bounds (hfit : Fitting a m h rest) : a < getLastAddress ∧ h.next ≤ m := by
  have hlast := hfit.stop.2
  have hspace := hfit.space
  have hle := hfit.fillable.next_le
  rw [hfit.holeEnd] at hle
  omega

theorem Filled.asWritten (hfilled : Filled c a h rest c') (hfit : Fitting a m h rest) :
    AsWritten (readHeader c' a) h := by
  obtain ⟨ha, hle⟩ := hfit.bounds
  have hlast := hfit.stop.2
  have hspace := hfit.space
  rw [getLastAddress_val] at hlast
  obtain ⟨hread, hfirst⟩ := readHeader_of_cells hfit.start ha (by omega) (by omega) hfilled.header
  exact ⟨hread, .inl hfirst⟩

theorem Filled.asWritten_other (hfilled : Filled c a h (some r) c') (hfit : Fitting a m h (some r)) :
    AsWritten (readHeader c' h.next) r := by
  have hlast := hfit.stop.2
  obtain ⟨hr, hlt, -, hsize⟩ := hfit.some r rfl
  rw [getLastAddress_val] at hlast
  obtain ⟨hread, hfirst⟩ := readHeader_of_cells hfit.next (by rw [getLastAddress_val]; omega)
    (by omega) (by omega) (hfilled.other r rfl)
  exact ⟨hread, .inl hfirst⟩

theorem AsWritten.next {w : Header} (h' : AsWritten h w) : h.next = w.next := by rw [h'.1]

theorem AsWritten.size {w : Header} (h' : AsWritten h w) : h.size = w.size := by rw [h'.1]

theorem Filled.chain (hfilled : Filled c a h rest c') (hfit : Fitting a m h rest) :
    Chain c' a (filling c' a h rest) m := by
  have hspace := hfit.space
  have hwritten := hfilled.asWritten hfit
  have hnext := hwritten.next
  have hsize := hwritten.size
  cases rest with
  | none =>
    refine ⟨hfit.start, rfl, by omega, fun _ => by omega, ?_⟩
    rw [hnext]
    exact hfit.none rfl
  | some r =>
    obtain ⟨hr, hlt, hr0, -⟩ := hfit.some r rfl
    have hroom := (hfit.fillable.other r rfl).1
    have hother := hfilled.asWritten_other hfit
    have hnext' := hother.next
    have hfirst' : (readHeader c' h.next).first = 0 := hother.2.elim (·.trans hr0) id
    refine ⟨hfit.start, rfl, by omega, fun _ => by omega, ?_⟩
    rw [hnext]
    refine ⟨hfit.next, rfl, by omega, fun hlive => absurd hfirst' hlive, ?_⟩
    rw [hnext']
    exact hr

theorem Filled.list {pre post : List Header} (hfilled : Filled c a h rest c')
    (hfit : Fitting a m h rest) (hpre : Chain c getStartSector pre a) (hpost : Chain c m post t)
    (htail : Tail c t) :
    Chain c' getStartSector (pre ++ (filling c' a h rest ++ post)) t ∧ Tail c' t := by
  have hend := hfit.holeEnd
  have hlast := hpost.lt_last htail
  have hle := hpost.le
  have htlast := htail.lt_last
  have hstart := hpre.le
  have hfill := hfit.fillable.next_le
  have hspace := hfit.space
  rw [getLastAddress_val] at htlast
  refine ⟨(hpre.congr fun x _ hx => ?_).append ((hfilled.chain hfit).append
    (hpost.congr fun x hx hx' => ?_)), htail.congr fun x hx hx' => ?_⟩
  · exact (hfilled.outside x (by omega) (.inl hx)).symm
  · exact (hfilled.outside x (by omega) (.inr (by omega))).symm
  · exact (hfilled.outside x hx' (.inr (by omega))).symm

/-! ## A deleted file -/

theorem Chain.erased {post : List Header} (hchain : Chain c a (h :: post) t) :
    Chain (burn c (a + 12) [0]) a (readHeader (burn c (a + 12) [0]) a :: post) t ∧
      readHeader (burn c (a + 12) [0]) a =
        { h with filename := (readHeader (burn c (a + 12) [0]) a).filename } ∧
      (readHeader (burn c (a + 12) [0]) a).first = 0 := by
  obtain ⟨haligned, hread, hnext, hsize, hrest⟩ := hchain
  have hout : ∀ x, x ≠ a + 12 → burn c (a + 12) [0] x = c x := fun x hx =>
    burn_outside (by simp only [List.length_singleton]; omega)
  have hfields : Holds (burn c (a + 12) [0]) a h.fields := by
    have hold : Holds c a h.fields := by
      rw [← hread, fields_readHeader]
      unfold Holds
      rw [length_read]
    exact hold.congr fun x hx hx' => (hout x (by rw [h.length_fields] at hx'; omega)).symm
  have hnext32 : h.next < 2 ^ 32 := by rw [← hread]; exact word_lt c a
  have hsize32 : h.size < 2 ^ 32 := by rw [← hread]; exact word_lt c (a + 4)
  have hread' := readHeader_of_fields hnext32 hsize32 hfields
  have hfirst : (readHeader (burn c (a + 12) [0]) a).first = 0 := by
    rw [first_readHeader]
    have hcell := burn_at c (a + 12) 0 [0] (by decide)
    simpa using hcell
  have hnext' : (readHeader (burn c (a + 12) [0]) a).next = h.next := by rw [hread']
  refine ⟨⟨haligned, rfl, by omega, fun hlive => absurd hfirst hlive, ?_⟩, hread', hfirst⟩
  rw [hnext']
  exact hrest.congr fun x hx _ => (hout x (by omega)).symm

/-! ## A file that is written -/

theorem Chain.written {post : List Header} (hchain : Chain c a (h :: post) t) (hlive : h.first ≠ 0)
    (hcells : ∀ x, x < a + 36 ∨ a + 36 + h.size ≤ x → c' x = c x) : Chain c' a (h :: post) t := by
  obtain ⟨haligned, hread, hnext, hsize, hrest⟩ := hchain
  have hroom := hsize hlive
  refine ⟨haligned, ?_, hnext, hsize, hrest.congr fun x hx _ => (hcells x (.inr (by omega))).symm⟩
  rw [← hread]
  exact (readHeader_congr fun x _ hx' => (hcells x (.inl (by omega))).symm).symm

end

end PasswordManager.FileSystem
