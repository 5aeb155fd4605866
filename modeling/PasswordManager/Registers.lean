import PasswordManager.FlashDriver

/-!
# The control register of the flash

The functions of the driver as accesses to `FLASH->CR`. Between two accesses the hardware may
end an erase, and what it answers at each moment is any function of the moment.
-/

open Nor

namespace PasswordManager.Registers

open FlashDriver

abbrev Word := BitVec 32

/-! ## The bits of `CR` -/

def crPg : Word := 0x00000001
def crSer : Word := 0x00000002
def crMer : Word := 0x00000004
def crPsize0 : Word := 0x00000100
def crPsize1 : Word := 0x00000200
def crStrt : Word := 0x00010000
def crLock : Word := 0x80000000

def psizeByte : Word := 0x00000000
def psizeHalfWord : Word := 0x00000100
def psizeWord : Word := 0x00000200
def psizeDoubleWord : Word := 0x00000300

/-- `FLASH_SECTOR_MASK`. -/
def sectorMask : Word := 0x00000078

/-- The field `SNB`. -/
def sectorNumber (cr : Word) : Int := ((cr &&& sectorMask) >>> 3).toNat

/-! ## The hardware -/

structure Moment where
  /-- Whether `CR` is open after the two keys. -/
  unlocks : Bool
  busy : Bool
  /-- Whether `STRT` clears itself. -/
  ends : Bool

abbrev Hardware := Nat → Moment

inductive Event
  | started (cr : Word)
  | stored (cr : Word) (address : Nat) (data : List Byte)
  deriving DecidableEq

structure Chip where
  cr : Word
  clock : Nat
  /-- The erases that were started and the data stores, each with what `CR` held. -/
  trace : List Event

def Chip.reset : Chip where
  cr := crLock
  clock := 0
  trace := []

section
variable (hw : Hardware)

def Chip.tick (c : Chip) : Chip :=
  { c with clock := c.clock + 1, cr := if (hw c.clock).ends then c.cr &&& ~~~crStrt else c.cr }

/-- A write to `CR`. An erase starts when it sets `STRT`. -/
def Chip.write (c : Chip) (value : Word) : Chip :=
  let c := c.tick hw
  if c.cr &&& crLock ≠ 0 then c
  else if value &&& crStrt ≠ 0 ∧ c.cr &&& crStrt = 0 then
    { c with cr := value, trace := c.trace ++ [.started value] }
  else { c with cr := value }

/-- `FLASH->CR |= bits`. -/
def Chip.set (c : Chip) (bits : Word) : Chip :=
  let c := c.tick hw
  c.write hw (c.cr ||| bits)

/-- `FLASH->CR &= ~bits`. -/
def Chip.clear (c : Chip) (bits : Word) : Chip :=
  let c := c.tick hw
  c.write hw (c.cr &&& ~~~bits)

/-- The store to the address that is programmed. -/
def Chip.store (c : Chip) (address : Nat) (data : List Byte) : Chip :=
  let c := c.tick hw
  { c with trace := c.trace ++ [.stored c.cr address data] }

/-- The loop on `BSY`. It is left when the hardware is done, and `STRT` is clear then. -/
def Chip.wait (c : Chip) : Chip :=
  let c := c.tick hw
  { c with cr := c.cr &&& ~~~crStrt }

/-! ## The driver -/

def lock (c : Chip) : Chip := c.set hw crLock

def unlock (c : Chip) : Chip :=
  let opens := (hw c.clock).unlocks
  let c := c.tick hw
  { c with cr := if opens then c.cr &&& ~~~crLock else c.cr ||| crLock }

/-- What all functions begin with: they give up when `CR` is still locked, and when `SR` says
that the flash is busy. -/
def unlocked (c : Chip) (rest : Chip → Chip) : Bool × Chip :=
  let c := (unlock hw c).tick hw
  if c.cr &&& crLock ≠ 0 then (false, c)
  else
    let busy := (hw c.clock).busy
    let c := c.tick hw
    if busy then (false, c) else (true, rest c)

def erase (sector : Int) (c : Chip) : Bool × Chip :=
  unlocked hw c fun c =>
    let c := c.clear hw (crPsize0 ||| crPsize1)
    let c := c.set hw (BitVec.ofInt 32 sector <<< 3 ||| crSer ||| crStrt)
    let c := c.set hw psizeWord
    let c := c.wait hw
    let c := c.clear hw crSer
    let c := c.clear hw sectorMask
    lock hw c

/-- `erase` without a sector. -/
def eraseAll (c : Chip) : Bool × Chip :=
  unlocked hw c fun c =>
    let c := c.clear hw (crPsize0 ||| crPsize1)
    let c := c.set hw (crMer ||| crStrt)
    let c := c.set hw psizeHalfWord
    let c := c.wait hw
    let c := c.clear hw crMer
    lock hw c

/-- What the four functions that program do with their width. -/
def program (psize : Word) (address : Nat) (data : List Byte) (c : Chip) : Bool × Chip :=
  unlocked hw c fun c =>
    let c := c.clear hw (crPsize0 ||| crPsize1)
    let c := c.set hw (psize ||| crPg)
    let c := c.store hw address data
    let c := c.wait hw
    let c := c.clear hw crPg
    lock hw c

/-- The bytes of a value in memory, the lowest first. -/
def memory {w : Nat} (n : Nat) (data : BitVec w) : List Byte :=
  (List.range n).map fun i => (data >>> (8 * i)).setWidth 8

def programByte (address : Nat) (data : Byte) : Chip → Bool × Chip :=
  program hw psizeByte address (memory 1 data)

def programHalfWord (address : Nat) (data : BitVec 16) : Chip → Bool × Chip :=
  program hw psizeHalfWord address (memory 2 data)

def programWord (address : Nat) (data : BitVec 32) : Chip → Bool × Chip :=
  program hw psizeWord address (memory 4 data)

/-- The bits of the `double`. -/
def programDoubleWord (address : Nat) (data : BitVec 64) : Chip → Bool × Chip :=
  program hw psizeDoubleWord address (memory 8 data)

end

/-! ## Calls -/

inductive Call
  | erase (sector : Int)
  | eraseAll
  | programByte (address : Nat) (data : Byte)
  | programHalfWord (address : Nat) (data : BitVec 16)
  | programWord (address : Nat) (data : BitVec 32)
  | programDoubleWord (address : Nat) (data : BitVec 64)
  deriving DecidableEq

def Call.run (hw : Hardware) : Call → Chip → Bool × Chip
  | .erase sector => Registers.erase hw sector
  | .eraseAll => Registers.eraseAll hw
  | .programByte address data => Registers.programByte hw address data
  | .programHalfWord address data => Registers.programHalfWord hw address data
  | .programWord address data => Registers.programWord hw address data
  | .programDoubleWord address data => Registers.programDoubleWord hw address data

def runCalls (hw : Hardware) (calls : List Call) (c : Chip) : Chip :=
  calls.foldl (fun c call => (call.run hw c).2) c

/-- An erase takes a number of the sector table. -/
def Call.Valid : Call → Prop
  | .erase sector => 0 ≤ sector ∧ sector ≤ 11
  | _ => True

/-- The three bits that choose an operation. -/
def modeMask : Word := crPg ||| crSer ||| crMer

/-- An operation is started with the control bits of its own call and no others. -/
def Proper : Call → Event → Prop
  | .erase sector, .started cr => cr &&& modeMask = crSer ∧ sectorNumber cr = sector
  | .eraseAll, .started cr => cr &&& modeMask = crMer
  | .erase _, .stored .. | .eraseAll, .stored .. => False
  | _, .stored cr _ _ => cr &&& modeMask = crPg
  | _, .started _ => False

/-! ## One access -/

/-- The bits that say what to erase, or that something is programmed. -/
def choiceMask : Word := modeMask ||| sectorMask

/-- The bits that a call relies on. -/
def ownMask : Word := crLock ||| crPsize0 ||| crPsize1 ||| choiceMask

/-- What holds between two calls. `LOCK` may be either, and the width is that of the last call. -/
def Chip.Idle (c : Chip) : Prop := c.cr &&& (crStrt ||| choiceMask) = 0

/-- No erase is going on, and the own bits are `own`. -/
structure Chip.At (own : Word) (c : Chip) : Prop where
  own : c.cr &&& ownMask = own
  done : c.cr &&& crStrt = 0

theorem clear_and (x bits mask : Word) : (x &&& ~~~bits) &&& mask = (x &&& mask) &&& ~~~bits := by
  rw [BitVec.and_assoc, BitVec.and_comm (~~~bits), ← BitVec.and_assoc]

theorem and_of_subset {x mask sub own : Word} (h : x &&& mask = own) (hsub : mask &&& sub = sub) :
    x &&& sub = own &&& sub := by
  rw [← h, BitVec.and_assoc, hsub]

theorem clear_of_subset {x mask sub : Word} (h : x &&& mask = 0) (hsub : mask &&& sub = sub) :
    x &&& sub = 0 := by
  rw [and_of_subset h hsub]
  exact BitVec.zero_and

section
variable {hw : Hardware} {c : Chip} {own : Word}

theorem tick_and {mask : Word} (h : ~~~crStrt &&& mask = mask) :
    (c.tick hw).cr &&& mask = c.cr &&& mask := by
  unfold Chip.tick
  dsimp only
  split
  · rw [BitVec.and_assoc, h]
  · rfl

theorem tick_lock : (c.tick hw).cr &&& crLock = c.cr &&& crLock := tick_and (by decide)

theorem tick_own : (c.tick hw).cr &&& ownMask = c.cr &&& ownMask := tick_and (by decide)

theorem tick_done (h : c.cr &&& crStrt = 0) : (c.tick hw).cr &&& crStrt = 0 := by
  unfold Chip.tick
  dsimp only
  split
  · rw [clear_and, h]
    exact BitVec.zero_and
  · exact h

@[simp] theorem tick_trace : (c.tick hw).trace = c.trace := rfl

theorem Chip.At.tick (h : c.At own) : (c.tick hw).At own :=
  ⟨tick_own.trans h.own, tick_done h.done⟩

variable (hw)

theorem write_quiet (hopen : c.cr &&& crLock = 0) {value : Word} (hvalue : value &&& crStrt = 0) :
    (c.write hw value).cr = value ∧ (c.write hw value).trace = c.trace := by
  have htick : (c.tick hw).cr &&& crLock = 0 := tick_lock.trans hopen
  unfold Chip.write
  rw [if_neg (by simpa using htick), if_neg fun h => h.1 hvalue]
  exact ⟨rfl, rfl⟩

theorem write_start (hopen : c.cr &&& crLock = 0) (hdone : c.cr &&& crStrt = 0) {value : Word}
    (hvalue : value &&& crStrt ≠ 0) :
    (c.write hw value).cr = value ∧ (c.write hw value).trace = c.trace ++ [.started value] := by
  have htick : (c.tick hw).cr &&& crLock = 0 := tick_lock.trans hopen
  unfold Chip.write
  rw [if_neg (by simpa using htick), if_pos ⟨hvalue, tick_done hdone⟩]
  exact ⟨rfl, rfl⟩

/-- A write while an erase may be going on: should it just have ended, it starts again. -/
theorem write_again (hopen : c.cr &&& crLock = 0) (value : Word) :
    (c.write hw value).cr = value ∧
      ((c.write hw value).trace = c.trace ∨ (c.write hw value).trace = c.trace ++ [.started value]) := by
  have htick : (c.tick hw).cr &&& crLock = 0 := tick_lock.trans hopen
  unfold Chip.write
  rw [if_neg (by simpa using htick)]
  split
  · exact ⟨rfl, .inr rfl⟩
  · exact ⟨rfl, .inl rfl⟩

theorem Chip.At.isOpen (h : c.At own) (hlock : own &&& crLock = 0) : c.cr &&& crLock = 0 := by
  rw [and_of_subset h.own (by decide), hlock]

theorem Chip.At.set (h : c.At own) (hlock : own &&& crLock = 0) {bits : Word}
    (hbits : bits &&& crStrt = 0) :
    (c.set hw bits).At (own ||| bits &&& ownMask) ∧ (c.set hw bits).trace = c.trace := by
  have hvalue : ((c.tick hw).cr ||| bits) &&& crStrt = 0 := by
    rw [BitVec.and_or_distrib_right, h.tick.done, hbits]
    rfl
  obtain ⟨hcr, htrace⟩ := write_quiet hw (h.tick.isOpen hlock) hvalue
  refine ⟨⟨?_, by rw [Chip.set, hcr, hvalue]⟩, htrace⟩
  rw [Chip.set, hcr, BitVec.and_or_distrib_right, h.tick.own]

theorem Chip.At.clear (h : c.At own) (hlock : own &&& crLock = 0) (bits : Word) :
    (c.clear hw bits).At (own &&& ~~~bits) ∧ (c.clear hw bits).trace = c.trace := by
  have hvalue : ((c.tick hw).cr &&& ~~~bits) &&& crStrt = 0 := by
    rw [clear_and, h.tick.done]
    exact BitVec.zero_and
  obtain ⟨hcr, htrace⟩ := write_quiet hw (h.tick.isOpen hlock) hvalue
  refine ⟨⟨?_, by rw [Chip.clear, hcr, hvalue]⟩, htrace⟩
  rw [Chip.clear, hcr, clear_and, h.tick.own]

variable {hw}

theorem wait_at (h : c.cr &&& ownMask = own) : (c.wait hw).At own := by
  refine ⟨?_, ?_⟩
  · rw [Chip.wait, clear_and, tick_own, h, ← h, BitVec.and_assoc]
    rfl
  · rw [Chip.wait, BitVec.and_assoc]
    exact BitVec.and_zero

@[simp] theorem wait_trace : (c.wait hw).trace = c.trace := rfl

/-! ## One call -/

variable (hw)

theorem Chip.Idle.clearSize (h : c.Idle) (hopen : c.cr &&& crLock = 0) :
    (c.clear hw (crPsize0 ||| crPsize1)).At 0 ∧
      (c.clear hw (crPsize0 ||| crPsize1)).trace = c.trace := by
  have hat : c.At (c.cr &&& ownMask) := ⟨rfl, clear_of_subset h (by decide)⟩
  have hlock : c.cr &&& ownMask &&& crLock = 0 := by rw [BitVec.and_assoc]; exact hopen
  obtain ⟨hcleared, htrace⟩ := hat.clear hw hlock (crPsize0 ||| crPsize1)
  refine ⟨⟨hcleared.own.trans ?_, hcleared.done⟩, htrace⟩
  calc c.cr &&& ownMask &&& ~~~(crPsize0 ||| crPsize1) = c.cr &&& (crLock ||| choiceMask) := by
        rw [BitVec.and_assoc]; rfl
    _ = c.cr &&& crLock ||| c.cr &&& choiceMask := BitVec.and_or_distrib_left
    _ = 0 := by rw [hopen, clear_of_subset h (by decide)]; rfl

/-- An erase is started with the bits `choice`, once or, when the hardware is quick, twice. -/
theorem start_spec (h : c.At 0) (bits psize choice : Word) (hbits : bits &&& crStrt ≠ 0)
    (hchoice : bits &&& ownMask = choice) (hlock : choice &&& crLock = 0)
    (hpsize : psize &&& (crStrt ||| crLock ||| choiceMask) = 0) :
    (((c.set hw bits).set hw psize).wait hw).At (choice ||| psize &&& ownMask) ∧
      ∃ es, (((c.set hw bits).set hw psize).wait hw).trace = c.trace ++ es ∧ es ≠ [] ∧
        ∀ e ∈ es, ∃ cr, e = .started cr ∧ cr &&& choiceMask = choice &&& choiceMask := by
  have hfirst : ((c.tick hw).cr ||| bits) &&& ownMask = choice := by
    rw [BitVec.and_or_distrib_right, h.tick.own, hchoice]
    exact BitVec.zero_or
  have hgo : ((c.tick hw).cr ||| bits) &&& crStrt ≠ 0 := by
    rw [BitVec.and_or_distrib_right, h.tick.done]
    simpa using hbits
  obtain ⟨hcr, htrace⟩ := write_start hw (h.tick.isOpen (by decide)) h.tick.done hgo
  have hopen : ((c.set hw bits).tick hw).cr &&& crLock = 0 := by
    rw [tick_lock, Chip.set, hcr, and_of_subset hfirst (by decide), hlock]
  have hsecond : (((c.set hw bits).tick hw).cr ||| psize) &&& ownMask = choice ||| psize &&& ownMask := by
    rw [BitVec.and_or_distrib_right, tick_own, Chip.set, hcr, hfirst]
  obtain ⟨hcr', htrace'⟩ := write_again hw hopen (((c.set hw bits).tick hw).cr ||| psize)
  have hnone : psize &&& ownMask &&& choiceMask = 0 := by
    rw [BitVec.and_assoc]
    exact clear_of_subset hpsize (by decide)
  refine ⟨wait_at (by rw [Chip.set, hcr', hsecond]), ?_⟩
  rw [wait_trace]
  rcases htrace' with heq | heq
  · refine ⟨[.started ((c.tick hw).cr ||| bits)], heq.trans htrace, by simp, fun e he => ?_⟩
    obtain rfl := List.mem_singleton.mp he
    exact ⟨_, rfl, and_of_subset hfirst (by decide)⟩
  · refine ⟨[.started ((c.tick hw).cr ||| bits), .started (((c.set hw bits).tick hw).cr ||| psize)],
      ?_, by simp, fun e he => ?_⟩
    · calc _ = (c.set hw bits).trace ++ [.started (((c.set hw bits).tick hw).cr ||| psize)] := heq
        _ = _ := by rw [show (c.set hw bits).trace = _ from htrace]; simp
    · rcases List.mem_cons.mp he with rfl | he
      · exact ⟨_, rfl, and_of_subset hfirst (by decide)⟩
      · obtain rfl := List.mem_singleton.mp he
        refine ⟨_, rfl, ?_⟩
        rw [and_of_subset hsecond (by decide), BitVec.and_or_distrib_right, hnone]
        exact BitVec.or_zero

variable {hw}

/-- How a call ends: it is refused and starts nothing, or all that it starts has `P`. -/
structure Ends (P : Event → Prop) (c : Chip) (r : Bool × Chip) : Prop where
  idle : r.2.Idle
  events : ∃ es, r.2.trace = c.trace ++ es ∧ (r.1 = true ↔ es ≠ []) ∧ ∀ e ∈ es, P e

theorem Chip.Idle.tick (h : c.Idle) : (c.tick hw).Idle := by
  have hdone : c.cr &&& crStrt = 0 := clear_of_subset h (by decide)
  have hchoice : c.cr &&& choiceMask = 0 := clear_of_subset h (by decide)
  rw [Chip.Idle, BitVec.and_or_distrib_left, tick_done hdone, tick_and (by decide), hchoice]
  rfl

theorem Chip.Idle.unlock (h : c.Idle) : (unlock hw c).Idle := by
  have htick : (c.tick hw).Idle := h.tick
  unfold Registers.unlock
  dsimp only
  split
  · rw [Chip.Idle, clear_and, htick]
    exact BitVec.zero_and
  · rw [Chip.Idle, BitVec.and_or_distrib_right, htick]
    rfl

theorem unlocked_ends {P : Event → Prop} {rest : Chip → Chip} (h : c.Idle)
    (hrest : ∀ c' : Chip, c'.Idle → c'.cr &&& crLock = 0 →
      (rest c').Idle ∧ ∃ es, (rest c').trace = c'.trace ++ es ∧ es ≠ [] ∧ ∀ e ∈ es, P e) :
    Ends P c (unlocked hw c rest) := by
  have hidle : ((unlock hw c).tick hw).Idle := h.unlock.tick
  have hnone : ∀ c' : Chip, c'.trace = c.trace → c'.Idle → Ends P c (false, c') := fun c' htrace h' =>
    ⟨h', [], by rw [htrace, List.append_nil], by simp, by simp⟩
  unfold unlocked
  dsimp only
  split
  next => exact hnone _ rfl hidle
  next hopen =>
    split
    next => exact hnone _ rfl hidle.tick
    next =>
      have hlock : (((unlock hw c).tick hw).tick hw).cr &&& crLock = 0 := by
        rw [tick_lock]
        simpa using hopen
      obtain ⟨hdone, es, htrace, hne, hall⟩ := hrest _ hidle.tick hlock
      exact ⟨hdone, es, htrace, by simpa using hne, hall⟩

variable (hw) in
theorem Chip.At.lock (h : c.At own) (hlock : own &&& crLock = 0) (hchoice : own &&& choiceMask = 0) :
    (lock hw c).Idle ∧ (lock hw c).trace = c.trace := by
  unfold Registers.lock
  obtain ⟨hat, htrace⟩ := h.set hw hlock (show crLock &&& crStrt = 0 by decide)
  refine ⟨?_, htrace⟩
  have hchoice' : (c.set hw crLock).cr &&& choiceMask = 0 := by
    rw [and_of_subset hat.own (by decide), BitVec.and_or_distrib_right, hchoice]
    rfl
  rw [Chip.Idle, BitVec.and_or_distrib_left, hat.done, hchoice']
  rfl

/-- The number of a sector in the place of `SNB`. -/
def sectorBits (sector : Int) : Word := BitVec.ofInt 32 sector <<< 3

theorem sectorBits_spec {sector : Int} (h0 : 0 ≤ sector) (h11 : sector ≤ 11) :
    (sectorBits sector ||| crSer ||| crStrt) &&& crStrt ≠ 0 ∧
      (sectorBits sector ||| crSer ||| crStrt) &&& ownMask = sectorBits sector ||| crSer ∧
      (sectorBits sector ||| crSer) &&& crLock = 0 ∧
      (sectorBits sector ||| crSer) &&& choiceMask = sectorBits sector ||| crSer ∧
      (sectorBits sector ||| crSer ||| psizeWord &&& ownMask) &&& crLock = 0 ∧
      (sectorBits sector ||| crSer ||| psizeWord &&& ownMask) &&& ~~~crSer &&& crLock = 0 ∧
      (sectorBits sector ||| crSer ||| psizeWord &&& ownMask) &&& ~~~crSer &&& ~~~sectorMask &&& crLock =
        0 ∧
      (sectorBits sector ||| crSer ||| psizeWord &&& ownMask) &&& ~~~crSer &&& ~~~sectorMask &&&
        choiceMask = 0 := by
  interval_cases sector <;> decide

theorem erase_ends (h : c.Idle) {sector : Int} (h0 : 0 ≤ sector) (h11 : sector ≤ 11) :
    Ends (fun e => ∃ cr, e = .started cr ∧ cr &&& choiceMask = sectorBits sector ||| crSer) c
      (erase hw sector c) := by
  obtain ⟨hstrt, hown, hlock, hchoice, hlock2, hlock3, hlock4, hnone⟩ := sectorBits_spec h0 h11
  apply unlocked_ends h
  intro c hidle hopen
  obtain ⟨h1, htrace1⟩ := hidle.clearSize hw hopen
  obtain ⟨h2, es, htrace2, hne, hall⟩ := start_spec hw h1
    (sectorBits sector ||| crSer ||| crStrt) psizeWord (sectorBits sector ||| crSer) hstrt hown hlock
    (by decide)
  obtain ⟨h3, htrace3⟩ := h2.clear hw hlock2 crSer
  obtain ⟨h4, htrace4⟩ := h3.clear hw hlock3 sectorMask
  obtain ⟨h5, htrace5⟩ := h4.lock hw hlock4 hnone
  refine ⟨h5, es, ?_, hne, fun e he => ?_⟩
  · exact htrace5.trans (htrace4.trans (htrace3.trans (htrace2.trans (by rw [htrace1]))))
  · obtain ⟨cr, rfl, hcr⟩ := hall e he
    exact ⟨cr, rfl, hcr.trans hchoice⟩

theorem eraseAll_ends (h : c.Idle) :
    Ends (fun e => ∃ cr, e = .started cr ∧ cr &&& choiceMask = crMer) c (eraseAll hw c) := by
  apply unlocked_ends h
  intro c hidle hopen
  obtain ⟨h1, htrace1⟩ := hidle.clearSize hw hopen
  obtain ⟨h2, es, htrace2, hne, hall⟩ := start_spec hw h1 (crMer ||| crStrt)
    psizeHalfWord crMer (by decide) (by decide) (by decide) (by decide)
  obtain ⟨h3, htrace3⟩ := h2.clear hw (by decide) crMer
  obtain ⟨h4, htrace4⟩ := h3.lock hw (by decide) (by decide)
  refine ⟨h4, es, ?_, hne, fun e he => ?_⟩
  · exact htrace4.trans (htrace3.trans (htrace2.trans (by rw [htrace1])))
  · obtain ⟨cr, rfl, hcr⟩ := hall e he
    exact ⟨cr, rfl, hcr.trans (by decide)⟩

theorem widths_spec : ∀ psize ∈ [psizeByte, psizeHalfWord, psizeWord, psizeDoubleWord],
    (psize ||| crPg) &&& crStrt = 0 ∧ 0 ||| (psize ||| crPg) &&& ownMask = psize ||| crPg ∧
      (psize ||| crPg) &&& crLock = 0 ∧ (psize ||| crPg) &&& ~~~crPg &&& crLock = 0 ∧
      (psize ||| crPg) &&& ~~~crPg &&& choiceMask = 0 := by
  intro psize h
  simp only [List.mem_cons, List.not_mem_nil, or_false] at h
  rcases h with rfl | rfl | rfl | rfl <;> decide

theorem program_ends (h : c.Idle) {psize : Word}
    (hpsize : psize ∈ [psizeByte, psizeHalfWord, psizeWord, psizeDoubleWord]) (address : Nat)
    (data : List Byte) :
    Ends (fun e => ∃ cr, e = .stored cr address data ∧ cr &&& ownMask = psize ||| crPg) c
      (program hw psize address data c) := by
  obtain ⟨hstrt, hown, hlock, hlock', hchoice⟩ := widths_spec psize hpsize
  apply unlocked_ends h
  intro c hidle hopen
  obtain ⟨h1, htrace1⟩ := hidle.clearSize hw hopen
  obtain ⟨h2, htrace2⟩ := h1.set hw (by decide) hstrt
  rw [hown] at h2
  set ready := (c.clear hw (crPsize0 ||| crPsize1)).set hw (psize ||| crPg)
  have h3 : ((ready.store hw address data).wait hw).At (psize ||| crPg) := wait_at h2.tick.own
  obtain ⟨h4, htrace4⟩ := h3.clear hw hlock crPg
  obtain ⟨h5, htrace5⟩ := h4.lock hw hlock' hchoice
  refine ⟨h5, [.stored (ready.tick hw).cr address data], ?_, by simp, fun e he => ?_⟩
  · calc _ = (ready.store hw address data).trace := htrace5.trans htrace4
      _ = c.trace ++ [.stored (ready.tick hw).cr address data] := by
        rw [Chip.store, tick_trace, htrace2, htrace1]
  · obtain rfl := List.mem_singleton.mp he
    exact ⟨_, rfl, h2.tick.own⟩

theorem Ends.mono {P Q : Event → Prop} {r : Bool × Chip} (h : Ends P c r) (hPQ : ∀ e, P e → Q e) :
    Ends Q c r := by
  obtain ⟨hidle, es, htrace, hok, hall⟩ := h
  exact ⟨hidle, es, htrace, hok, fun e he => hPQ e (hall e he)⟩

theorem program_proper (h : c.Idle) {psize : Word}
    (hpsize : psize ∈ [psizeByte, psizeHalfWord, psizeWord, psizeDoubleWord]) (address : Nat)
    (data : List Byte) {P : Event → Prop}
    (hP : ∀ cr, cr &&& modeMask = crPg → P (.stored cr address data)) :
    Ends P c (program hw psize address data c) := by
  refine (program_ends h hpsize address data).mono ?_
  rintro e ⟨cr, rfl, hcr⟩
  apply hP
  simp only [List.mem_cons, List.not_mem_nil, or_false] at hpsize
  rw [and_of_subset hcr (by decide)]
  rcases hpsize with rfl | rfl | rfl | rfl <;> decide

variable (hw) in
/-- One call, in whatever state the calls before have left `CR`. -/
theorem Call.ends (h : c.Idle) {call : Call} (hvalid : call.Valid) :
    Ends (Proper call) c (call.run hw c) := by
  cases call with
  | erase sector =>
    obtain ⟨h0, h11⟩ := hvalid
    refine (erase_ends h h0 h11).mono ?_
    rintro e ⟨cr, rfl, hcr⟩
    refine ⟨?_, ?_⟩
    · rw [and_of_subset hcr (by decide)]
      interval_cases sector <;> decide
    · rw [sectorNumber, and_of_subset hcr (by decide)]
      interval_cases sector <;> decide
  | eraseAll =>
    refine (eraseAll_ends h).mono ?_
    rintro e ⟨cr, rfl, hcr⟩
    exact (and_of_subset hcr (by decide)).trans (by decide)
  | programByte address data => exact program_proper h (by decide) address _ fun _ hcr => hcr
  | programHalfWord address data => exact program_proper h (by decide) address _ fun _ hcr => hcr
  | programWord address data => exact program_proper h (by decide) address _ fun _ hcr => hcr
  | programDoubleWord address data => exact program_proper h (by decide) address _ fun _ hcr => hcr

/-! ## Runs -/

theorem runCalls_idle (h : c.Idle) {calls : List Call} (hvalid : ∀ call ∈ calls, call.Valid) :
    (runCalls hw calls c).Idle := by
  induction calls generalizing c with
  | nil => exact h
  | cons call calls ih =>
    have hnext := (Call.ends hw h (hvalid call (List.mem_cons_self ..))).idle
    exact ih hnext fun call' hcall' => hvalid call' (List.mem_cons_of_mem _ hcall')

end

theorem reset_idle : Chip.reset.Idle := by unfold Chip.Idle; decide

/-- After any calls, taken or refused, the next call starts only what it is asked for, and with
its own control bits alone. -/
theorem own_bits (hw : Hardware) {calls : List Call} {call : Call}
    (hvalid : ∀ call' ∈ calls ++ [call], call'.Valid) :
    ∃ es, (call.run hw (runCalls hw calls .reset)).2.trace = (runCalls hw calls .reset).trace ++ es ∧
      ((call.run hw (runCalls hw calls .reset)).1 = true ↔ es ≠ []) ∧ ∀ e ∈ es, Proper call e := by
  have hidle : (runCalls hw calls .reset).Idle :=
    runCalls_idle reset_idle fun call' hcall' => hvalid call' (List.mem_append_left _ hcall')
  exact (Call.ends hw hidle (hvalid call (by simp))).events

/-- A flash that opens `CR` every other time, and is never busy. -/
def everyOther : Hardware := fun n => { unlocks := n % 2 = 0, busy := false, ends := n % 3 = 0 }

theorem own_bits_everyOther :
    ∃ es, ((Call.erase 5).run everyOther
        (runCalls everyOther [.erase 11, .programByte 0x080F8000 0x50] .reset)).2.trace =
          (runCalls everyOther [.erase 11, .programByte 0x080F8000 0x50] .reset).trace ++ es ∧
      (((Call.erase 5).run everyOther
        (runCalls everyOther [.erase 11, .programByte 0x080F8000 0x50] .reset)).1 = true ↔ es ≠ []) ∧
      ∀ e ∈ es, Proper (.erase 5) e :=
  own_bits everyOther (by simp [Call.Valid])

/-! ## The operations of the controller -/

/-- What the hardware does with its cells. -/
def Event.apply : Event → Cells → Cells
  | .started cr, c =>
    if cr &&& crMer ≠ 0 then wipe (fun _ => True) c
    else if cr &&& crSer ≠ 0 then wipe (InSector (sectorNumber cr)) c
    else c
  | .stored cr address data, c => if cr &&& crPg ≠ 0 then burn c address data else c

def cellsAfter (es : List Event) (c : Cells) : Cells := es.foldl (fun c e => e.apply c) c

def opCall : Op → Call
  | .erase sector => .erase sector
  | .programByte address data => .programByte address data
  | .programHalfWord address data => .programHalfWord address data

theorem Op.apply_apply (op : Op) (c : Cells) : op.apply (op.apply c) = op.apply c := by
  cases op with
  | erase sector => exact wipe_wipe _ c
  | programByte address data => exact burn_burn c address _
  | programHalfWord address data => exact burn_burn c address _

theorem cellsAfter_same {op : Op} {es : List Event} (hne : es ≠ [])
    (h : ∀ e ∈ es, ∀ c, e.apply c = op.apply c) (c : Cells) : cellsAfter es c = op.apply c := by
  induction es generalizing c with
  | nil => exact absurd rfl hne
  | cons e es ih =>
    have hfirst := h e (List.mem_cons_self ..) c
    rw [cellsAfter, List.foldl_cons, hfirst]
    rcases List.eq_nil_or_concat es with rfl | ⟨es', e', rfl⟩
    · rfl
    · exact (ih (by simp) (fun e he => h e (List.mem_cons_of_mem _ he)) _).trans (Op.apply_apply op c)

theorem apply_started {cr : Word} {sector : Int} (hmode : cr &&& modeMask = crSer)
    (hsector : sectorNumber cr = sector) (c : Cells) :
    (Event.started cr).apply c = (Op.erase sector).apply c := by
  have hmer : cr &&& crMer = 0 := by rw [and_of_subset hmode (by decide)]; decide
  have hser : cr &&& crSer = crSer := by rw [and_of_subset hmode (by decide)]; decide
  rw [Event.apply, if_neg (by simpa using hmer), if_pos (by rw [hser]; decide)]
  subst hsector
  rfl

theorem apply_stored {cr : Word} (hmode : cr &&& modeMask = crPg) (address : Nat) (data : List Byte)
    (c : Cells) : (Event.stored cr address data).apply c = burn c address data := by
  have hpg : cr &&& crPg = crPg := by rw [and_of_subset hmode (by decide)]; decide
  rw [Event.apply, if_pos (by rw [hpg]; decide)]

section
variable {hw : Hardware} {c : Chip}

variable (hw) in
theorem opCall_ends (h : c.Idle) {op : Op} (hvalid : (opCall op).Valid) :
    Ends (fun e => ∀ cells, e.apply cells = op.apply cells) c ((opCall op).run hw c) := by
  cases op with
  | erase sector =>
    refine (Call.ends hw h hvalid).mono fun e he => ?_
    cases e with
    | started cr => exact apply_started he.1 he.2
    | stored => exact he.elim
  | programByte address data =>
    apply program_proper h (by decide) address
    intro cr hcr cells
    rw [apply_stored hcr]
    simp [Op.apply, memory]
  | programHalfWord address data =>
    apply program_proper h (by decide) address
    intro cr hcr cells
    rw [apply_stored hcr]
    simp [Op.apply, memory, List.range_succ]

theorem cellsAfter_append (es es' : List Event) (cells : Cells) :
    cellsAfter (es ++ es') cells = cellsAfter es' (cellsAfter es cells) := List.foldl_append

variable (hw) in
theorem opCall_refines (h : c.Idle) {op : Op} (hvalid : (opCall op).Valid) (cells : Cells) :
    ∃ es, ((opCall op).run hw c).2.trace = c.trace ++ es ∧
      cellsAfter es cells = if ((opCall op).run hw c).1 then op.apply cells else cells := by
  obtain ⟨es, htrace, hok, hall⟩ := (opCall_ends hw h hvalid).events
  refine ⟨es, htrace, ?_⟩
  split
  next htrue => exact cellsAfter_same (hok.mp htrue) hall cells
  next hfalse =>
    have hnil : es = [] := by
      by_contra hne
      exact hfalse (hok.mpr hne)
    rw [hnil]
    rfl

/-- What the calls of the operations return. -/
def results (hw : Hardware) : List Op → Chip → List Bool
  | [], _ => []
  | op :: ops, c => ((opCall op).run hw c).1 :: results hw ops ((opCall op).run hw c).2

/-- The calls do to the cells what the controller's operations do in `FlashDriver`, when it
accepts those whose calls return true. -/
theorem runCalls_refines (h : c.Idle) {ops : List Op} (hvalid : ∀ op ∈ ops, (opCall op).Valid)
    (n : Nat) (cells : Cells) :
    ∃ es, (runCalls hw (ops.map opCall) c).trace = c.trace ++ es ∧
      cellsAfter es cells = replay (fun i => (results hw ops c).getD (i - n) false) n cells ops := by
  induction ops generalizing c n cells with
  | nil => exact ⟨[], by simp [runCalls], rfl⟩
  | cons op ops ih =>
    have hop := hvalid op (List.mem_cons_self ..)
    have hnext := (opCall_ends hw h hop).idle
    obtain ⟨es, htrace, hcells⟩ := opCall_refines hw h hop cells
    obtain ⟨es', htrace', hcells'⟩ :=
      ih hnext (fun op' hop' => hvalid op' (List.mem_cons_of_mem _ hop')) (n + 1) (cellsAfter es cells)
    refine ⟨es ++ es', ?_, ?_⟩
    · rw [← List.append_assoc, ← htrace]
      exact htrace'
    · rw [cellsAfter_append, hcells', hcells, replay, results, Nat.sub_self]
      apply replay_congr
      intro i hi
      rw [show i - n = i - (n + 1) + 1 by omega]
      rfl

end

end PasswordManager.Registers
