import PasswordManager.Bytes
import PasswordManager.Lib.CString
import PasswordManager.Lib.Lists
import PasswordManager.Lib.Nor

/-! # The array of websites and passwords -/

open Nor

namespace PasswordManager.Vault

/-- A `char[PASSWORDLENGTH]`. -/
abbrev Field := Buf 32

/-- `MAXSTORED`. -/
abbrev maxStored : Nat := 510

/-- A buffer of 32 bytes with a terminated string in it. What stands behind the string is
whatever the memory held before. -/
structure Line where
  field : Field
  terminated : 0 ∈ field.val

def Field.str (f : Field) : List Byte := CString.str 0 f.val

abbrev Line.str (l : Line) : List Byte := l.field.str

def Line.put (token : List Byte) (h : token.length < 32) (memory : Field) : Line where
  field := ⟨token ++ 0 :: memory.val.drop (token.length + 1), by
    rw [List.length_append, List.length_cons, List.length_drop, memory.property]
    omega⟩
  terminated := by simp

def Field.filled (b : Byte) : Field := ⟨List.replicate 32 b, List.length_replicate⟩

structure WPTuple where
  website : Field
  password : Field
  deriving DecidableEq

/-! ## Strings -/

theorem Line.strlen_lt (l : Line) : CString.strlen 0 l.field.val < 32 := by
  have h := CString.strlen_lt l.terminated
  rwa [l.field.property] at h

def addCharacters (input : Line) : Line :=
  let size := CString.strlen 0 input.field.val
  { field := ⟨input.field.val.take (size + 1) ++ List.replicate (32 - (size + 1)) blank, by
      have := input.strlen_lt
      simp [input.field.property]
      omega⟩
    terminated := by
      apply List.mem_append_left
      rw [CString.take_strlen_succ input.terminated]
      simp }

def strcpy (dst : Field) (src : Line) : Field :=
  ⟨CString.strcpy 0 dst.val src.field.val, by
    have := src.strlen_lt
    rw [CString.length_strcpy src.terminated (by rw [dst.property]; omega), dst.property]⟩

/-- `strcmp(one, two) == 0`. -/
def sameString (one two : Field) : Bool := one.str = two.str

def transformArray (input : Field) : List Byte := input.val.takeWhile (· ≠ 0xFF#8)

/-! ## The array -/

/-- `passwords` and `numOfPass`. The entries from `numOfPass` on are left over from earlier. -/
structure Records where
  slots : List WPTuple
  numOfPass : Nat
  length_slots : slots.length = maxStored
  bound : numOfPass ≤ maxStored

def Records.filled (b : Byte) : Records where
  slots := List.replicate maxStored ⟨Field.filled b, Field.filled b⟩
  numOfPass := 0
  length_slots := List.length_replicate
  bound := Nat.zero_le _

def Records.live (r : Records) : List WPTuple := r.slots.take r.numOfPass

def Records.addPassword (r : Records) (website password : Line) : Bool × Records :=
  if h : r.numOfPass = maxStored then (false, r)
  else
    let web := addCharacters website
    let pass := addCharacters password
    (true,
      { slots := r.slots.modify r.numOfPass fun t =>
          { website := strcpy t.website web, password := strcpy t.password pass }
        numOfPass := r.numOfPass + 1
        length_slots := by rw [List.length_modify, r.length_slots]
        bound := by have := r.bound; omega })

/-- `none` stands for the position −1. -/
def Records.getPosition (r : Records) (input : Line) : Option Nat :=
  let toSearch := addCharacters input
  (List.range r.numOfPass).foldl
    (fun position i =>
      if r.slots[i]?.any fun t => sameString t.website toSearch.field then some i else position)
    none

def Records.remove (r : Records) (website : Line) : Bool × Records :=
  match r.getPosition website with
  | none => (false, r)
  | some toRemove =>
    if r.numOfPass = 1 then
      (true, { r with numOfPass := r.numOfPass - 1, bound := by have := r.bound; omega })
    else
      (true,
        { slots := match r.slots[r.numOfPass - 1]? with
            | some last => r.slots.set toRemove last
            | none => r.slots
          numOfPass := r.numOfPass - 1
          length_slots := by split <;> simp [r.length_slots]
          bound := by have := r.bound; omega })

/-- The tail of `changePassword`, once the website was found at `i`. -/
def Records.setPassword (r : Records) (i : Nat) (newPass : Line) : Records :=
  { r with
    slots := r.slots.modify i fun t => { t with password := strcpy t.password (addCharacters newPass) }
    length_slots := by rw [List.length_modify, r.length_slots] }

def Records.changePassword (r : Records) (website newPass : Line) : Bool × Records :=
  match r.getPosition website with
  | none => (false, r)
  | some i => (true, r.setPassword i newPass)

inductive Edit (r : Records) : Records → Prop
  | add (website password : Line) (room : r.numOfPass ≠ maxStored) :
      Edit r (r.addPassword website password).2
  | remove (website : Line) {i : Nat} (found : r.getPosition website = some i) :
      Edit r (r.remove website).2
  | change (website newPass : Line) {i : Nat} (found : r.getPosition website = some i) :
      Edit r (r.changePassword website newPass).2

abbrev Text := CString.Text Byte

/-- What `printf` is given for a field: `transformArray` copies it into a block of its own. -/
def shown (f : Field) : Text := CString.text 0 (transformArray f)

def printed (t : WPTuple) : Text × Text := (shown t.website, shown t.password)

/-- What `printf` writes, with `heap` behind the two copies. -/
def print (heap : List Byte × List Byte) (line : Text × Text) : List Byte × List Byte :=
  (line.1.read 0 heap.1, line.2.read 0 heap.2)

/-- `none` when the function returns false, else what it prints. -/
def Records.searchPassword (r : Records) (website : Line) : Option (Text × Text) :=
  match r.getPosition website with
  | none => none
  | some i => r.slots[i]?.map printed

def Records.printAll (r : Records) : List (Text × Text) := r.live.map printed

/-! ## What the string functions keep -/

theorem addCharacters_val (l : Line) :
    (addCharacters l).field.val = l.str ++ 0 :: List.replicate (31 - l.str.length) blank := by
  have h : (addCharacters l).field.val =
      l.field.val.take (CString.strlen 0 l.field.val + 1) ++
        List.replicate (32 - (CString.strlen 0 l.field.val + 1)) blank := rfl
  rw [h, CString.take_strlen_succ l.terminated, List.append_assoc, List.singleton_append]
  rw [show 32 - (CString.strlen 0 l.field.val + 1) = 31 - l.str.length by
    simp only [Field.str, CString.strlen]; omega]
  rfl

@[simp] theorem str_addCharacters (l : Line) : (addCharacters l).field.str = l.field.str := by
  rw [Field.str, addCharacters_val]
  exact CString.str_append_cons (CString.not_mem_str _) _

@[simp] theorem str_strcpy (dst : Field) (src : Line) : (strcpy dst src).str = src.field.str :=
  CString.str_strcpy src.terminated dst.val

theorem terminated_strcpy (dst : Field) (src : Line) : 0 ∈ (strcpy dst src).val :=
  CString.mem_strcpy src.terminated dst.val

theorem transformArray_eq (f : Field) : transformArray f = CString.str 0xFF f.val := rfl

theorem val_shown (f : Field) : (shown f).val = CString.str 0xFF f.str := CString.str_comm 0xFF f.val

theorem ended_shown {f : Field} (h : 0 ∈ f.val) : (shown f).ended = true ↔ 0xFF ∉ f.str := by
  rw [shown, transformArray_eq, CString.text, decide_eq_true_eq]
  exact CString.mem_str_iff (by decide) h

/-- What is written is the string of the field, and nothing of the heap. -/
theorem read_shown {f : Field} (h : 0 ∈ f.val) (hff : 0xFF ∉ f.str) (heap : List Byte) :
    (shown f).read 0 heap = f.str := by
  rw [CString.Text.read_ended ((ended_shown h).mpr hff), val_shown, CString.str_eq_self hff]

/-- `printf` reads from the start of the copy on. -/
theorem print_printed (t : WPTuple) (heap : List Byte × List Byte) :
    print heap (printed t) = (CString.str 0 (transformArray t.website ++ heap.1),
      CString.str 0 (transformArray t.password ++ heap.2)) :=
  Prod.ext (CString.read_text _ _) (CString.read_text _ _)

/-! ## What the operations do to the entries in use -/

def WPTuple.Terminated (t : WPTuple) : Prop := 0 ∈ t.website.val ∧ 0 ∈ t.password.val

def WPTuple.overwrite (t : WPTuple) (website password : Line) : WPTuple :=
  { website := strcpy t.website (addCharacters website)
    password := strcpy t.password (addCharacters password) }

def WPTuple.withPassword (t : WPTuple) (newPass : Line) : WPTuple :=
  { t with password := strcpy t.password (addCharacters newPass) }

@[simp] theorem Records.length_live (r : Records) : r.live.length = r.numOfPass := by
  rw [live, List.length_take, r.length_slots, Nat.min_eq_left r.bound]

theorem Records.getElem?_live (r : Records) {i : Nat} (h : i < r.numOfPass) :
    r.live[i]? = r.slots[i]? := by
  rw [live, List.getElem?_take_of_lt h]

theorem Records.getPosition_eq (r : Records) (input : Line) :
    r.getPosition input = Lists.lastIdx? (fun t => t.website.str = input.str) r.live := by
  rw [getPosition, Lists.lastIdx?, length_live]
  apply List.foldl_ext
  intro position i hi
  rw [r.getElem?_live (List.mem_range.mp hi)]
  simp only [sameString, str_addCharacters]

theorem Records.addPassword_full {r : Records} (h : r.numOfPass = maxStored) (website password : Line) :
    r.addPassword website password = (false, r) := by
  rw [addPassword, dif_pos h]

def Records.next (r : Records) (h : r.numOfPass ≠ maxStored) : WPTuple :=
  r.slots.get ⟨r.numOfPass, by have := r.bound; rw [r.length_slots]; omega⟩

theorem Records.addPassword_room {r : Records} (h : r.numOfPass ≠ maxStored) (website password : Line) :
    (r.addPassword website password).1 = true ∧
      (r.addPassword website password).2.live = r.live ++ [(r.next h).overwrite website password] := by
  rw [addPassword, dif_neg h]
  refine ⟨rfl, ?_⟩
  have hlt : r.numOfPass < r.slots.length := by have := r.bound; rw [r.length_slots]; omega
  simp only [live]
  rw [List.take_add_one, List.take_modify, List.modify_eq_self (by simp [hlt.le])]
  simp [next, WPTuple.overwrite, hlt]

theorem Records.remove_none {r : Records} {website : Line} (h : r.getPosition website = none) :
    r.remove website = (false, r) := by
  rw [remove, h]

theorem Records.getPosition_lt {r : Records} {input : Line} {i : Nat}
    (h : r.getPosition input = some i) : i < r.numOfPass := by
  rw [getPosition_eq] at h
  simpa using Lists.lastIdx?_lt h

theorem Records.remove_some {r : Records} {website : Line} {i : Nat}
    (h : r.getPosition website = some i) :
    (r.remove website).1 = true ∧ (r.remove website).2.live = Lists.swapRemove r.live i := by
  have hi := getPosition_lt h
  have hlast : r.numOfPass - 1 < r.slots.length := by have := r.bound; rw [r.length_slots]; omega
  have hlive : r.live = r.slots.take (r.numOfPass - 1) ++ [r.slots[r.numOfPass - 1]] := by
    rw [live, ← List.take_succ_eq_append_getElem hlast, Nat.sub_add_cancel (by omega)]
  rw [remove, h, hlive, Lists.swapRemove_concat]
  by_cases h1 : r.numOfPass = 1
  · simp [h1, live]
  · simp [h1, live, hlast, List.take_set]

theorem Records.live_setPassword (r : Records) (i : Nat) (newPass : Line) :
    (r.setPassword i newPass).live = r.live.modify i fun t => t.withPassword newPass := by
  simp only [live, setPassword, List.take_modify]
  rfl

end PasswordManager.Vault
