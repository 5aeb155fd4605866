import PasswordManager.Bytes
import PasswordManager.Lib.Nor
import Mathlib.Tactic.IntervalCases
import Mathlib.Tactic.NormNum

/-!
# The flash driver

The chip keeps its cells and the operations that it was asked for. Whether the controller
takes the `n`-th operation or refuses it (still locked, or busy) is any function of `n`.
-/

open Nor

namespace PasswordManager.FlashDriver

abbrev Cells := Nat → Byte

/-! ## The sectors -/

def getSectorAddress (num : Int) : Nat :=
  match num with
  | 0 => 0x08000000
  | 1 => 0x08004000
  | 2 => 0x08008000
  | 3 => 0x0800C000
  | 4 => 0x08010000
  | 5 => 0x08020000
  | 6 => 0x08040000
  | 7 => 0x08060000
  | 8 => 0x08080000
  | 9 => 0x080A0000
  | 10 => 0x080C0000
  | 11 => 0x080E0000
  | _ => 0xFFFFFFFF

def getSectorNumber (address : Nat) : Int :=
  if 0x08000000 ≤ address ∧ address < 0x08004000 then 0
  else if 0x08004000 ≤ address ∧ address < 0x08008000 then 1
  else if 0x08008000 ≤ address ∧ address < 0x0800C000 then 2
  else if 0x0800C000 ≤ address ∧ address < 0x08010000 then 3
  else if 0x08010000 ≤ address ∧ address < 0x08020000 then 4
  else if 0x08020000 ≤ address ∧ address < 0x08040000 then 5
  else if 0x08040000 ≤ address ∧ address < 0x08060000 then 6
  else if 0x08060000 ≤ address ∧ address < 0x08080000 then 7
  else if 0x08080000 ≤ address ∧ address < 0x080A0000 then 8
  else if 0x080A0000 ≤ address ∧ address < 0x080C0000 then 9
  else if 0x080C0000 ≤ address ∧ address < 0x080E0000 then 10
  else if 0x080E0000 ≤ address ∧ address < 0x080E0000 + 128000 then 11
  else -1

/-- The sizes in the sector table of `FlashDriver.h`. -/
def sectorSize (num : Int) : Nat :=
  if 0 ≤ num ∧ num ≤ 3 then 0x4000
  else if num = 4 then 0x10000
  else if 5 ≤ num ∧ num ≤ 11 then 0x20000
  else 0

def InSector (num : Int) (address : Nat) : Prop :=
  getSectorAddress num ≤ address ∧ address < getSectorAddress num + sectorSize num

instance (num : Int) : DecidablePred (InSector num) := fun _ => inferInstanceAs (Decidable (_ ∧ _))

/-- The driver names the right sector, except at the end of sector 11. -/
theorem getSectorNumber_of_inSector {k : Int} (h0 : 0 ≤ k) (h11 : k ≤ 11) {x : Nat}
    (h : InSector k x) (hx : x < 0x080E0000 + 128000) : getSectorNumber x = k := by
  obtain ⟨hlow, hhigh⟩ := h
  interval_cases k <;>
    simp only [getSectorAddress, sectorSize] at hlow hhigh <;>
    norm_num at hlow hhigh hx <;>
    simp (disch := omega) only [getSectorNumber, if_pos, if_neg]

theorem sectorEnd_le {k : Int} (h0 : 0 ≤ k) (h11 : k ≤ 11) :
    getSectorAddress k + sectorSize k ≤ 0x08100000 := by
  interval_cases k <;> decide

/-! ## Operations of the controller -/

inductive Op
  | erase (sector : Int)
  | programByte (address : Nat) (data : Byte)
  | programHalfWord (address : Nat) (data : BitVec 16)
  deriving DecidableEq, Repr

def Op.apply : Op → Cells → Cells
  | .erase sector, c => wipe (InSector sector) c
  | .programByte address data, c => burn c address [data]
  | .programHalfWord address data, c =>
    burn c address [data.setWidth 8, (data >>> 8).setWidth 8]

structure Flash where
  cells : Cells
  /-- Whether operation `n` since power-up is taken. -/
  accepts : Nat → Bool
  trace : List Op

def Flash.cleared : Flash where
  cells _ := blank
  accepts _ := true
  trace := []

def Flash.issue (f : Flash) (op : Op) : Bool × Flash :=
  let ok := f.accepts f.trace.length
  (ok, { f with cells := if ok then op.apply f.cells else f.cells, trace := f.trace ++ [op] })

/-! ## The driver -/

def erase (f : Flash) (sector : Int) : Bool × Flash := f.issue (.erase sector)

def programByte (f : Flash) (address : Nat) (data : Byte) : Bool × Flash :=
  f.issue (.programByte address data)

def programHalfWord (f : Flash) (address : Nat) (data : BitVec 16) : Bool × Flash :=
  f.issue (.programHalfWord address data)

/-- `write` of a `short`. -/
def writeShort (f : Flash) (address : Nat) (data : BitVec 16) : Bool × Flash :=
  programHalfWord f address data

/-- `if (.. == false) return false;` and what comes after it. -/
def andThen (r : Bool × Flash) (rest : Flash → Bool × Flash) : Bool × Flash :=
  match r with
  | (false, f) => (false, f)
  | (true, f) => rest f

/-- `write` of an `unsigned int`. -/
def writeWord (f : Flash) (address data : Nat) : Bool × Flash :=
  andThen (programHalfWord f address (BitVec.ofNat 16 data)) fun f =>
    programHalfWord f (address + 2) (BitVec.ofNat 16 (data / 2 ^ 16))

/-- `write` of a buffer: bytes that are clear are not programmed. -/
def write (f : Flash) (address : Nat) : List Byte → Bool × Flash
  | [] => (true, f)
  | data :: rest =>
    if data ≠ blank then
      match programByte f address data with
      | (false, f) => (false, f)
      | (true, f) => write f (address + 1) rest
    else write f (address + 1) rest

/-- The cells after the operations, the first of which has number `n`. -/
def replay (accepts : Nat → Bool) : Nat → Cells → List Op → Cells
  | _, c, [] => c
  | n, c, op :: ops => replay accepts (n + 1) (if accepts n then op.apply c else c) ops

/-- `accepts`, with power lost before operation `stop`. -/
def cutAt (accepts : Nat → Bool) (stop : Nat) : Nat → Bool := fun i => accepts i && decide (i < stop)

/-- How many bytes of a buffer get through, when the next operation has number `n`. -/
def through (accepts : Nat → Bool) (n : Nat) : List Byte → Nat
  | [] => 0
  | data :: rest =>
    if data ≠ blank then if accepts n then through accepts (n + 1) rest + 1 else 0
    else through accepts n rest + 1

def writeOps (accepts : Nat → Bool) (n address : Nat) : List Byte → List Op
  | [] => []
  | data :: rest =>
    if data ≠ blank then
      .programByte address data ::
        if accepts n then writeOps accepts (n + 1) (address + 1) rest else []
    else writeOps accepts n (address + 1) rest

/-! ## What the driver does -/

theorem mem_writeOps {accepts : Nat → Bool} {n address : Nat} {data : List Byte} {op : Op}
    (h : op ∈ writeOps accepts n address data) :
    ∃ x d, op = .programByte x d ∧ address ≤ x ∧ x < address + data.length := by
  induction data generalizing n address with
  | nil => simp [writeOps] at h
  | cons d ds ih =>
    have hlater : ∀ n, op ∈ writeOps accepts n (address + 1) ds →
        ∃ x d', op = .programByte x d' ∧ address ≤ x ∧ x < address + (d :: ds).length := by
      intro n hop
      obtain ⟨x, d', rfl, hx, hx'⟩ := ih hop
      exact ⟨x, d', rfl, by omega, by rw [List.length_cons]; omega⟩
    unfold writeOps at h
    split_ifs at h
    · rcases List.mem_cons.mp h with rfl | h
      · exact ⟨address, d, rfl, Nat.le_refl _, by rw [List.length_cons]; omega⟩
      · exact hlater _ h
    · rw [List.mem_singleton.mp h]
      exact ⟨address, d, rfl, Nat.le_refl _, by rw [List.length_cons]; omega⟩
    · exact hlater _ h

theorem replay_append (accepts : Nat → Bool) (n : Nat) (c : Cells) (ops ops' : List Op) :
    replay accepts n c (ops ++ ops') =
      replay accepts (n + ops.length) (replay accepts n c ops) ops' := by
  induction ops generalizing n c with
  | nil => rfl
  | cons op ops ih => simp [replay, ih, Nat.add_comm, Nat.add_left_comm]

theorem replay_congr {accepts accepts' : Nat → Bool} {n : Nat} (h : ∀ i, n ≤ i → accepts i = accepts' i)
    (c : Cells) (ops : List Op) : replay accepts n c ops = replay accepts' n c ops := by
  induction ops generalizing n c with
  | nil => rfl
  | cons op ops ih => rw [replay, replay, h n (Nat.le_refl n), ih fun i hi => h i (by omega)]

theorem through_le (accepts : Nat → Bool) (n : Nat) (data : List Byte) :
    through accepts n data ≤ data.length := by
  induction data generalizing n with
  | nil => exact Nat.le_refl _
  | cons d ds ih =>
    have h1 := ih n
    have h2 := ih (n + 1)
    simp only [through, List.length_cons]
    split_ifs <;> omega

theorem through_of_accepts {accepts : Nat → Bool} (h : ∀ i, accepts i = true) (n : Nat)
    (data : List Byte) : through accepts n data = data.length := by
  induction data generalizing n with
  | nil => rfl
  | cons d ds ih => simp [through, h, ih]

theorem blank_of_through (accepts : Nat → Bool) (n : Nat) (data : List Byte)
    (h : through accepts n data < data.length) : data[through accepts n data] ≠ blank := by
  induction data generalizing n with
  | nil => simp at h
  | cons d ds ih =>
    simp only [through, List.length_cons] at h ⊢
    split_ifs at h ⊢ with hd hn
    · simpa using ih (n + 1) (by omega)
    · simpa using hd
    · simpa using ih n (by omega)

theorem write_eq (f : Flash) (address : Nat) (data : List Byte) :
    write f address data =
      (decide (through f.accepts f.trace.length data = data.length),
        { f with
          cells := burn f.cells address (data.take (through f.accepts f.trace.length data))
          trace := f.trace ++ writeOps f.accepts f.trace.length address data }) := by
  induction data generalizing f address with
  | nil => simp [write, through, writeOps, burn_nil]
  | cons d ds ih =>
    by_cases hd : d = blank
    · rw [write, if_neg (by simpa using hd), ih]
      simp [through, writeOps, hd, burn_cons_blank]
    · cases hn : f.accepts f.trace.length with
      | false => simp [write, programByte, Flash.issue, through, writeOps, hd, hn, burn_nil]
      | true =>
        rw [write, if_pos hd]
        simp only [programByte, Flash.issue, hn, ih]
        simp only [through, writeOps, hd, hn, Op.apply, ne_eq, not_false_eq_true, if_true,
          List.take_succ_cons, List.length_append, List.length_cons, List.length_nil]
        simp [← burn_cons]

theorem replay_writeOps (accepts : Nat → Bool) (n stop address : Nat) (c : Cells)
    (data : List Byte) :
    replay accepts n c ((writeOps accepts n address data).take (stop - n)) =
      burn c address (data.take (through (cutAt accepts stop) n data)) := by
  induction data generalizing n address c with
  | nil => simp [writeOps, replay, through, burn_nil]
  | cons d ds ih =>
    by_cases hd : d = blank
    · simp [writeOps, through, hd, burn_cons_blank, ih]
    · by_cases hstop : n < stop
      · rw [show stop - n = stop - (n + 1) + 1 by omega]
        cases hn : accepts n with
        | false => simp [writeOps, replay, through, cutAt, hd, hn, burn_nil]
        | true =>
          simp only [writeOps, replay, through, cutAt, hd, hn, hstop, Op.apply, ne_eq,
            not_false_eq_true, if_true, decide_true, Bool.true_and, List.take_succ_cons]
          rw [ih, ← burn_cons]
      · rw [Nat.sub_eq_zero_of_le (Nat.le_of_not_lt hstop)]
        simp [replay, through, cutAt, hd, hstop, burn_nil]

theorem replay_writeOps_append (accepts : Nat → Bool) (n stop address : Nat) (c : Cells)
    (data : List Byte) (ops : List Op) :
    replay accepts n c ((writeOps accepts n address data ++ ops).take (stop - n)) =
      replay accepts (n + (writeOps accepts n address data).length)
        (burn c address (data.take (through (cutAt accepts stop) n data)))
        (ops.take (stop - (n + (writeOps accepts n address data).length))) := by
  rw [List.take_append, replay_append, replay_writeOps, Nat.sub_sub]
  rcases Nat.le_total (writeOps accepts n address data).length (stop - n) with hlen | hlen
  · rw [List.take_of_length_le hlen]
  · rw [Nat.sub_eq_zero_of_le (Nat.sub_le_iff_le_add'.mp hlen), List.take_zero, replay, replay]

/-! ## A chip that takes every operation -/

def Flash.Fine (f : Flash) : Prop := ∀ i, f.accepts i = true

/-- The call succeeds and leaves these cells. -/
def Did (r : Bool × Flash) (c : Cells) : Prop := ∃ f : Flash, r = (true, f) ∧ f.cells = c ∧ f.Fine

theorem Did.andThen {r : Bool × Flash} {rest : Flash → Bool × Flash} {c c' : Cells} (h : Did r c)
    (hrest : ∀ f : Flash, f.cells = c → f.Fine → Did (rest f) c') : Did (andThen r rest) c' := by
  obtain ⟨f, rfl, hcells, hfine⟩ := h
  exact hrest f hcells hfine

def halfBytes (data : BitVec 16) : List Byte := [data.setWidth 8, (data >>> 8).setWidth 8]

def wordBytes (data : Nat) : List Byte :=
  halfBytes (BitVec.ofNat 16 data) ++ halfBytes (BitVec.ofNat 16 (data / 2 ^ 16))

section
variable {f : Flash} (h : f.Fine)
include h

theorem did_issue (op : Op) : Did (f.issue op) (op.apply f.cells) := by
  refine ⟨(f.issue op).2, ?_, ?_, h⟩
  · simp [Flash.issue, h f.trace.length]
  · simp [Flash.issue, h f.trace.length]

theorem did_erase (sector : Int) : Did (erase f sector) (wipe (InSector sector) f.cells) :=
  did_issue h _

theorem did_programByte (address : Nat) (data : Byte) :
    Did (programByte f address data) (burn f.cells address [data]) :=
  did_issue h _

theorem did_writeShort (address : Nat) (data : BitVec 16) :
    Did (writeShort f address data) (burn f.cells address (halfBytes data)) :=
  did_issue h _

theorem did_writeWord (address data : Nat) :
    Did (writeWord f address data) (burn f.cells address (wordBytes data)) := by
  refine (did_issue h _).andThen fun f' hcells hfine => ?_
  have hlast := did_issue hfine (.programHalfWord (address + 2) (BitVec.ofNat 16 (data / 2 ^ 16)))
  rw [hcells] at hlast
  rw [wordBytes, burn_append]
  exact hlast

theorem did_write (address : Nat) (data : List Byte) :
    Did (write f address data) (burn f.cells address data) := by
  rw [write_eq, through_of_accepts h, List.take_length]
  exact ⟨_, Prod.ext (decide_eq_true rfl) rfl, rfl, h⟩

end

end PasswordManager.FlashDriver
