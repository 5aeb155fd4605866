import PasswordManager.FileSystem.Open

/-!
# The list of files in memory

A chain is a part of the list: headers that lead from one address to another. The whole list is
a chain from the start sector to a blank tail.
-/

open Nor

namespace PasswordManager.FileSystem

open FlashDriver Fuel

@[simp] theorem fsBlank_val : fsBlank = 0xFFFFFFFF := rfl

@[simp] theorem getStartSector_val : getStartSector = 0x08080000 := rfl

@[simp] theorem getLastAddress_val : getLastAddress = 0x080DFFDC := rfl

@[simp] theorem getBufferSector_val : getBufferSector = 0x080E0000 := rfl

/-! ## Chains -/

/-- Headers start at multiples of their size. -/
def Aligned (a : Nat) : Prop := 0x08080000 ≤ a ∧ (a - 0x08080000) % 36 = 0

/-- The headers lead from one address to the other. A file has its data and a gap behind it. -/
def Chain (c : Cells) : Nat → List Header → Nat → Prop
  | a, [], b => a = b
  | a, h :: hs, b => Aligned a ∧ readHeader c a = h ∧ a + 36 ≤ h.next ∧
      (h.first ≠ 0 → a + 72 + h.size ≤ h.next) ∧ Chain c h.next hs b

structure Tail (c : Cells) (t : Nat) : Prop where
  aligned : Aligned t
  lt_last : t < getLastAddress
  blank : ∀ x, t ≤ x → x < 0x080E0000 → c x = blank

def places : Nat → List Header → List (Nat × Header)
  | _, [] => []
  | a, h :: hs => (a, h) :: places h.next hs

section
variable {c c' : Cells} {a b m t : Nat} {h : Header} {hs hs' : List Header}

theorem Chain.le (hchain : Chain c a hs b) : a ≤ b := by
  induction hs generalizing a with
  | nil => exact Nat.le_of_eq hchain
  | cons h hs ih =>
    obtain ⟨-, -, hnext, -, hrest⟩ := hchain
    exact Nat.le_trans (by omega) (ih hrest)

theorem Chain.add_le (hchain : Chain c a (h :: hs) b) : a + 36 ≤ b :=
  Nat.le_trans hchain.2.2.1 hchain.2.2.2.2.le

theorem chain_append : Chain c a (hs ++ hs') b ↔ ∃ m, Chain c a hs m ∧ Chain c m hs' b := by
  induction hs generalizing a with
  | nil => simp [Chain]
  | cons h hs ih =>
    simp only [List.cons_append, Chain, ih]
    constructor
    · rintro ⟨haligned, hread, hnext, hsize, m, hhs, hhs'⟩
      exact ⟨m, ⟨haligned, hread, hnext, hsize, hhs⟩, hhs'⟩
    · rintro ⟨m, ⟨haligned, hread, hnext, hsize, hhs⟩, hhs'⟩
      exact ⟨haligned, hread, hnext, hsize, m, hhs, hhs'⟩

theorem Chain.append (hchain : Chain c a hs m) (hchain' : Chain c m hs' b) : Chain c a (hs ++ hs') b :=
  chain_append.mpr ⟨m, hchain, hchain'⟩

theorem Chain.aligned (hchain : Chain c a hs t) (ht : Aligned t) : Aligned a := by
  cases hs with
  | nil => exact hchain ▸ ht
  | cons h hs => exact hchain.1

theorem Chain.congr (hchain : Chain c a hs b) (hc : ∀ x, a ≤ x → x < b → c x = c' x) :
    Chain c' a hs b := by
  induction hs generalizing a with
  | nil => exact hchain
  | cons h hs ih =>
    have hle := hchain.add_le
    obtain ⟨haligned, hread, hnext, hsize, hrest⟩ := hchain
    refine ⟨haligned, ?_, hnext, hsize, ih hrest fun x hx hx' => hc x (by omega) hx'⟩
    rw [← hread]
    exact (readHeader_congr fun x hx hx' => hc x hx (by omega)).symm

theorem Tail.congr (htail : Tail c t) (hc : ∀ x, t ≤ x → x < 0x080E0000 → c x = c' x) : Tail c' t :=
  ⟨htail.aligned, htail.lt_last, fun x hx hx' => by rw [← hc x hx hx', htail.blank x hx hx']⟩

theorem Chain.end_unique (hchain : Chain c a hs m) (hchain' : Chain c a hs b) : m = b := by
  induction hs generalizing a with
  | nil => exact Eq.trans (Eq.symm hchain) hchain'
  | cons h hs ih => exact ih hchain.2.2.2.2 hchain'.2.2.2.2

theorem places_append (hchain : Chain c a hs m) (hs' : List Header) :
    places a (hs ++ hs') = places a hs ++ places m hs' := by
  induction hs generalizing a with
  | nil =>
    obtain rfl : a = m := hchain
    rfl
  | cons h hs ih =>
    rw [List.cons_append, places, places, ih hchain.2.2.2.2]
    rfl

theorem Chain.split (hchain : Chain c a hs b) (hmem : (m, h) ∈ places a hs) :
    ∃ pre post, hs = pre ++ h :: post ∧ Chain c a pre m ∧ Chain c m (h :: post) b := by
  induction hs generalizing a with
  | nil => cases hmem
  | cons h' hs ih =>
    rcases List.mem_cons.mp hmem with heq | hmem
    · cases heq
      exact ⟨[], hs, rfl, rfl, hchain⟩
    · obtain ⟨haligned, hread, hnext, hsize, hrest⟩ := hchain
      obtain ⟨pre, post, rfl, hpre, hpost⟩ := ih hrest hmem
      exact ⟨h' :: pre, post, rfl, ⟨haligned, hread, hnext, hsize, hpre⟩, hpost⟩

theorem mem_places (hpre : Chain c a hs m) (h : Header) (hs' : List Header) :
    (m, h) ∈ places a (hs ++ h :: hs') := by
  rw [places_append hpre]
  exact List.mem_append_right _ List.mem_cons_self

theorem Chain.read (hchain : Chain c a hs b) (hmem : (m, h) ∈ places a hs) : readHeader c m = h := by
  obtain ⟨pre, post, -, -, -, hread, -⟩ := hchain.split hmem
  exact hread

theorem mem_of_mem_places (hmem : (m, h) ∈ places a hs) : h ∈ hs := by
  induction hs generalizing a with
  | nil => cases hmem
  | cons h' hs ih =>
    rcases List.mem_cons.mp hmem with heq | hmem
    · cases heq
      exact List.mem_cons_self
    · exact List.mem_cons_of_mem _ (ih hmem)

theorem Chain.bounds (hchain : Chain c a hs b) (hmem : (m, h) ∈ places a hs) :
    a ≤ m ∧ m + 36 ≤ h.next ∧ h.next ≤ b := by
  obtain ⟨pre, post, -, hpre, -, -, hnext, -, hrest⟩ := hchain.split hmem
  exact ⟨hpre.le, hnext, hrest.le⟩

theorem Chain.mem_next (hchain : Chain c a hs b) (hmem : (m, h) ∈ places a hs) :
    h.next = b ∨ ∃ h', (h.next, h') ∈ places a hs := by
  obtain ⟨pre, post, rfl, hpre, haligned, hread, hnext, hsize, hrest⟩ := hchain.split hmem
  cases post with
  | nil => exact .inl hrest
  | cons h' post =>
    have hone : Chain c m [h] h.next := ⟨haligned, hread, hnext, hsize, rfl⟩
    have hmem' := mem_places (hpre.append hone) h' post
    rw [List.append_assoc] at hmem'
    exact .inr ⟨h', hmem'⟩

end

/-! ## Walks -/

section
variable {c : Cells} {a t : Nat} {hs : List Header}

theorem Tail.lt_end (htail : Tail c t) : t < 0x080DFFDC := htail.lt_last

theorem Tail.word (htail : Tail c t) : word c t = fsBlank := by
  have hlast := htail.lt_end
  exact word_blank fun x hx hx' => htail.blank x hx (by omega)

theorem ne_blank_of_lt (ha : a < getLastAddress) : a ≠ fsBlank := by
  rw [getLastAddress_val] at ha
  rw [fsBlank_val]
  omega

theorem Tail.ne_blank (htail : Tail c t) : t ≠ fsBlank := ne_blank_of_lt htail.lt_last

theorem Chain.lt_last (hchain : Chain c a hs t) (htail : Tail c t) : a < getLastAddress :=
  Nat.lt_of_le_of_lt hchain.le htail.lt_last

theorem Chain.lt_end (hchain : Chain c a hs t) (htail : Tail c t) : a < 0x080DFFDC :=
  hchain.lt_last htail

theorem Chain.ne_blank (hchain : Chain c a hs t) (htail : Tail c t) : a ≠ fsBlank :=
  ne_blank_of_lt (hchain.lt_last htail)

theorem word_eq_next {h : Header} (hread : readHeader c a = h) : word c a = h.next :=
  congrArg Header.next hread

def stops (a : Nat) (hs : List Header) (t : Nat) : List Nat := (places a hs).map Prod.fst ++ [t]

def lookup (c : Cells) (filename : Name) (beyond : Nat → List Byte) (visited : List Nat) : Option Nat :=
  visited.find? fun x => strcmp filename ((readHeader c x).filename.val ++ beyond x)

theorem stops_cons (a : Nat) (h : Header) (hs : List Header) (t : Nat) :
    stops a (h :: hs) t = a :: stops h.next hs t := rfl

theorem Chain.stop_ne_blank {x : Nat} (hchain : Chain c a hs t) (htail : Tail c t)
    (hx : x ∈ stops a hs t) : x ≠ fsBlank := by
  induction hs generalizing a with
  | nil =>
    rw [List.mem_singleton.mp hx]
    exact htail.ne_blank
  | cons h hs ih =>
    rcases List.mem_cons.mp (stops_cons a h hs t ▸ hx) with rfl | hx
    · exact hchain.ne_blank htail
    · exact ih hchain.2.2.2.2 hx

/-- The first header that the name matches is the one that is found. -/
theorem lookup_eq_some {pre post : List Header} {h : Header} {m : Nat} {filename : Name}
    {beyond : Nat → List Byte} (hpre : Chain c a pre m) (hat : Chain c m (h :: post) t)
    (hno : ∀ h' ∈ pre, ∀ x, strcmp filename (h'.filename.val ++ beyond x) = false)
    (hyes : strcmp filename (h.filename.val ++ beyond m) = true) :
    lookup c filename beyond (stops a (pre ++ h :: post) t) = some m := by
  have hnone : ((places a pre).map Prod.fst).find?
      (fun x => strcmp filename ((readHeader c x).filename.val ++ beyond x)) = none := by
    rw [List.find?_eq_none]
    intro x hx
    obtain ⟨⟨y, h'⟩, hmem, rfl⟩ := List.mem_map.mp hx
    rw [hpre.read hmem, hno h' (mem_of_mem_places hmem)]
    decide
  rw [lookup, stops, places_append hpre, List.map_append, List.append_assoc, List.find?_append, hnone,
    Option.none_or, places, List.map_cons, List.cons_append, List.find?_cons]
  simp only [hat.2.1, hyes]

theorem getAddress_stop {filename : Name} {beyond : Nat → List Byte} (ha : a ≠ fsBlank ∧ a < getLastAddress)
    (hyes : strcmp filename ((readHeader c a).filename.val ++ beyond a) = true) :
    Yields (getAddress c filename beyond · a) a := by
  refine .last fun fuel => ?_
  simp only [getAddress, if_pos ha, hyes, if_true]

theorem getAddress_pass {filename : Name} {beyond : Nat → List Byte} {r : Nat}
    (ha : a ≠ fsBlank ∧ a < getLastAddress)
    (hno : strcmp filename ((readHeader c a).filename.val ++ beyond a) = false)
    (hrest : Yields (getAddress c filename beyond · (word c a)) r) :
    Yields (getAddress c filename beyond · a) r := by
  refine .succ (fun fuel => ?_) hrest
  simp only [getAddress, if_pos ha, hno, Bool.false_eq_true, if_false]
  rfl

theorem getAddress_yields (filename : Name) (beyond : Nat → List Byte) (hchain : Chain c a hs t)
    (htail : Tail c t) :
    Yields (getAddress c filename beyond · a)
      ((lookup c filename beyond (stops a hs t)).getD fsBlank) := by
  -- Where the walk is, and what comes after it when the name is another one.
  have hturn : ∀ a next l, a ≠ fsBlank ∧ a < getLastAddress → word c a = next →
      Yields (getAddress c filename beyond · next) ((lookup c filename beyond l).getD fsBlank) →
      Yields (getAddress c filename beyond · a) ((lookup c filename beyond (a :: l)).getD fsBlank) := by
    intro a next l hguard hnext hrest
    subst hnext
    cases hfound : strcmp filename ((readHeader c a).filename.val ++ beyond a) with
    | true =>
      simp only [lookup, List.find?_cons, hfound, Option.getD_some]
      exact getAddress_stop hguard hfound
    | false =>
      simp only [lookup, List.find?_cons, hfound]
      exact getAddress_pass hguard hfound hrest
  induction hs generalizing a with
  | nil =>
    obtain rfl : a = t := hchain
    refine hturn a fsBlank [] ⟨Tail.ne_blank htail, htail.lt_last⟩ htail.word ?_
    exact .last fun fuel => by simp [getAddress, lookup]
  | cons h hs ih =>
    have hguard : a ≠ fsBlank ∧ a < getLastAddress := ⟨hchain.ne_blank htail, hchain.lt_last htail⟩
    exact hturn a h.next _ hguard (word_eq_next hchain.2.1) (ih hchain.2.2.2.2)

/-- What is found has the name. -/
theorem strcmp_of_getAddress {filename : Name} {beyond : Nat → List Byte} {fuel b r : Nat}
    (hget : getAddress c filename beyond fuel b = some r) (hne : r ≠ fsBlank) :
    strcmp filename ((readHeader c r).filename.val ++ beyond r) = true := by
  induction fuel generalizing b with
  | zero => cases hget
  | succ fuel ih =>
    unfold getAddress at hget
    split at hget
    next =>
      dsimp only at hget
      split at hget
      next hyes =>
        cases hget
        exact hyes
      next => exact ih hget
    next =>
      cases hget
      exact absurd rfl hne

theorem findFile_eq (c : Cells) (filename : Name) (beyond : Nat → List Byte) (fuel a : Nat) :
    findFile c filename beyond fuel a =
      (getAddress c filename beyond fuel a).map fun r => decide (r ≠ fsBlank) := by
  induction fuel generalizing a with
  | zero => rfl
  | succ fuel ih =>
    simp only [findFile, getAddress]
    split
    next hguard =>
      split
      · simp only [Option.map_some, decide_eq_true hguard.1]
      · exact ih _
    next => simp

theorem findFile_yields (filename : Name) (beyond : Nat → List Byte) (hchain : Chain c a hs t)
    (htail : Tail c t) :
    Yields (findFile c filename beyond · a) (lookup c filename beyond (stops a hs t)).isSome := by
  have hmap := (getAddress_yields filename beyond hchain htail).map fun r => decide (r ≠ fsBlank)
  simp only [← findFile_eq] at hmap
  cases hfound : lookup c filename beyond (stops a hs t) with
  | none => simpa [hfound] using hmap
  | some x =>
    have hx := hchain.stop_ne_blank htail (List.mem_of_find?_eq_some hfound)
    simp only [hfound, Option.getD_some, decide_eq_true hx] at hmap
    exact hmap

theorem newest_yields (hchain : Chain c a hs t) (htail : Tail c t) : Yields (newest c · a) t := by
  induction hs generalizing a with
  | nil =>
    obtain rfl : a = t := hchain
    exact .last fun fuel => by simp only [newest, htail.word]; simp
  | cons h hs ih =>
    have hnext := word_eq_next hchain.2.1
    have hblank : h.next ≠ fsBlank := hchain.2.2.2.2.ne_blank htail
    refine .succ (fun fuel => ?_) (ih hchain.2.2.2.2)
    simp only [newest, hnext, if_pos hblank]

end

end PasswordManager.FileSystem
