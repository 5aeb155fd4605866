import PasswordManager.Registers

/-!
# Locked again

Every function of the driver opens `CR` first. Whether it is locked when the function returns.
-/

namespace PasswordManager.Registers

/-! ## What is asked of a call -/

def Chip.Locked (c : Chip) : Prop := c.cr &&& crLock ≠ 0

/-- `CR` as a call is to leave it. -/
structure Chip.Protected (c : Chip) : Prop where
  lock : c.Locked
  pg : c.cr &&& crPg = 0
  ser : c.cr &&& crSer = 0
  mer : c.cr &&& crMer = 0
  snb : c.cr &&& sectorMask = 0

/-- The number of a sector does not reach into the bit `LOCK`. -/
def Call.Keeps : Call → Prop
  | .erase sector => sectorBits sector &&& crLock = 0
  | _ => True

/-- A call that begins at moment `n` is not sent back as busy once `CR` is open, and does not
lock `CR` under its own feet. -/
def Call.Relocks (hw : Hardware) (n : Nat) (call : Call) : Prop :=
  (hw n).unlocks = true → (hw (n + 2)).busy = false ∧ call.Keeps

/-- `P` at each call of a run. -/
def EachCall (hw : Hardware) (P : Chip → Call → Prop) : List Call → Chip → Prop
  | [], _ => True
  | call :: calls, c => P c call ∧ EachCall hw P calls (call.run hw c).2

section
variable {hw : Hardware} {c : Chip} {own : Word}

theorem Chip.Idle.protect (h : c.Idle) (hlock : c.Locked) : c.Protected where
  lock := hlock
  pg := clear_of_subset h (by decide)
  ser := clear_of_subset h (by decide)
  mer := clear_of_subset h (by decide)
  snb := clear_of_subset h (by decide)

variable (hw)

/-! ## The way through -/

theorem Chip.At.relock (h : c.At own) (hlock : own &&& crLock = 0) (hchoice : own &&& choiceMask = 0) :
    (Registers.lock hw c).Idle ∧ (Registers.lock hw c).Locked := by
  refine ⟨(h.lock hw hlock hchoice).1, ?_⟩
  obtain ⟨hat, -⟩ := h.set hw hlock (show crLock &&& crStrt = 0 by decide)
  unfold Registers.lock Chip.Locked
  rw [and_of_subset hat.own (by decide), BitVec.and_or_distrib_right, hlock]
  decide

/-- The number of a sector stands above the bits `PG`, `SER` and `MER`. -/
theorem sectorBits_mode (sector : Int) : sectorBits sector &&& modeMask = 0 := by
  have hhigh : ∀ i < 32, 3 ≤ i → modeMask.getLsbD i = false := by decide
  apply BitVec.eq_of_getLsbD_eq
  intro i hi
  unfold sectorBits
  rw [BitVec.getLsbD_and, BitVec.getLsbD_shiftLeft]
  rcases Nat.lt_or_ge i 3 with hlow | hge
  · simp [hlow]
  · simp [hhigh i hi hge]

theorem eraseBits_and {sector : Int} {mask : Word} (h : sectorBits sector &&& mask = 0)
    (hmask : ownMask &&& mask = mask) :
    ((sectorBits sector ||| crSer ||| crStrt) &&& ownMask ||| psizeWord &&& ownMask) &&& mask =
      (crSer ||| crStrt ||| psizeWord) &&& mask := by
  rw [← BitVec.and_or_distrib_right, BitVec.and_assoc, hmask, BitVec.or_assoc, BitVec.or_assoc,
    BitVec.and_or_distrib_right, h, ← BitVec.or_assoc]
  exact BitVec.zero_or

theorem clear_eq_zero {x mask : Word} (h : x &&& mask = 0) (bits : Word) :
    (x &&& ~~~bits) &&& mask = 0 := by
  rw [clear_and, h]
  exact BitVec.zero_and

/-- Whatever the number of the sector: it is cleared as far as `SNB` goes. -/
theorem erase_relocks (h : c.Idle) (hopen : c.cr &&& crLock = 0) {sector : Int}
    (hkeeps : sectorBits sector &&& crLock = 0) :
    let c₁ := (c.clear hw (crPsize0 ||| crPsize1)).set hw (sectorBits sector ||| crSer ||| crStrt)
    let c₂ := Registers.lock hw ((((c₁.set hw psizeWord).wait hw).clear hw crSer).clear hw sectorMask)
    c₂.Idle ∧ c₂.Locked := by
  intro c₁ c₂
  have hstrt : (sectorBits sector ||| crSer ||| crStrt) &&& crStrt ≠ 0 := by
    rw [BitVec.and_or_distrib_right]
    simp [crStrt]
  have hlock : (sectorBits sector ||| crSer ||| crStrt) &&& ownMask &&& crLock = 0 := by
    rw [BitVec.and_assoc, BitVec.or_assoc, show ownMask &&& crLock = crLock by decide,
      BitVec.and_or_distrib_right, hkeeps]
    decide
  have hlock' := (eraseBits_and hkeeps (by decide)).trans (by decide : _ = (0 : Word))
  have hnone : sectorBits sector &&& (~~~crSer &&& (~~~sectorMask &&& choiceMask)) = 0 :=
    clear_of_subset (sectorBits_mode sector) (by decide)
  obtain ⟨h1, -⟩ := h.clearSize hw hopen
  obtain ⟨h2, -⟩ := start_spec hw h1 _ psizeWord _ hstrt rfl hlock (by decide)
  obtain ⟨h3, -⟩ := h2.clear hw hlock' crSer
  obtain ⟨h4, -⟩ := h3.clear hw (clear_eq_zero hlock' crSer) sectorMask
  refine h4.relock hw (clear_eq_zero (clear_eq_zero hlock' crSer) sectorMask) ?_
  rw [BitVec.and_assoc, BitVec.and_assoc, eraseBits_and hnone (by decide)]
  decide

theorem eraseAll_relocks (h : c.Idle) (hopen : c.cr &&& crLock = 0) :
    let c₁ := (c.clear hw (crPsize0 ||| crPsize1)).set hw (crMer ||| crStrt)
    let c₂ := Registers.lock hw (((c₁.set hw psizeHalfWord).wait hw).clear hw crMer)
    c₂.Idle ∧ c₂.Locked := by
  intro c₁ c₂
  obtain ⟨h1, -⟩ := h.clearSize hw hopen
  obtain ⟨h2, -⟩ := start_spec hw h1 (crMer ||| crStrt) psizeHalfWord crMer (by decide) (by decide)
    (by decide) (by decide)
  obtain ⟨h3, -⟩ := h2.clear hw (by decide) crMer
  exact h3.relock hw (by decide) (by decide)

theorem program_relocks (h : c.Idle) (hopen : c.cr &&& crLock = 0) {psize : Word}
    (hpsize : psize ∈ [psizeByte, psizeHalfWord, psizeWord, psizeDoubleWord]) (address : Nat)
    (data : List Byte) :
    let c₁ := (c.clear hw (crPsize0 ||| crPsize1)).set hw (psize ||| crPg)
    let c₂ := Registers.lock hw (((c₁.store hw address data).wait hw).clear hw crPg)
    c₂.Idle ∧ c₂.Locked := by
  intro c₁ c₂
  obtain ⟨hstrt, hown, hlock, hlock', hchoice⟩ := widths_spec psize hpsize
  obtain ⟨h1, -⟩ := h.clearSize hw hopen
  obtain ⟨h2, -⟩ := h1.set hw (by decide) hstrt
  rw [hown] at h2
  have h3 : ((c₁.store hw address data).wait hw).At (psize ||| crPg) := wait_at h2.tick.own
  obtain ⟨h4, -⟩ := h3.clear hw hlock crPg
  exact h4.relock hw hlock' hchoice

/-! ## The ways out -/

/-- A call is locked out, sent back as busy with `CR` open, or goes on. -/
theorem unlocked_ways (h : c.Idle) (rest : Chip → Chip) :
    ((hw c.clock).unlocks = false ∧ (unlocked hw c rest).2.Idle ∧ (unlocked hw c rest).2.Locked) ∨
    ((hw c.clock).unlocks = true ∧ (hw (c.clock + 2)).busy = true ∧
      ¬ (unlocked hw c rest).2.Locked) ∨
    ((hw c.clock).unlocks = true ∧ (hw (c.clock + 2)).busy = false ∧
      ∃ c' : Chip, c'.Idle ∧ c'.cr &&& crLock = 0 ∧ (unlocked hw c rest).2 = rest c') := by
  have hidle : ((Registers.unlock hw c).tick hw).Idle := h.unlock.tick
  have hclock : ((Registers.unlock hw c).tick hw).clock = c.clock + 2 := rfl
  unfold unlocked
  dsimp only
  cases hopens : (hw c.clock).unlocks with
  | false =>
    have hlocked : ((Registers.unlock hw c).tick hw).cr &&& crLock ≠ 0 := by
      rw [tick_lock, Registers.unlock, hopens, if_neg Bool.false_ne_true,
        BitVec.and_or_distrib_right, BitVec.and_self]
      simp [crLock]
    rw [if_pos hlocked]
    exact .inl ⟨rfl, hidle, hlocked⟩
  | true =>
    have hopen : ((Registers.unlock hw c).tick hw).cr &&& crLock = 0 := by
      rw [tick_lock, Registers.unlock, if_pos hopens, BitVec.and_assoc]
      exact BitVec.and_zero
    rw [if_neg (not_not.mpr hopen), hclock]
    cases hbusy : (hw (c.clock + 2)).busy with
    | true =>
      refine .inr (.inl ⟨rfl, rfl, ?_⟩)
      rw [if_pos rfl, Chip.Locked, tick_lock, not_not]
      exact hopen
    | false =>
      refine .inr (.inr ⟨rfl, rfl, _, hidle.tick, ?_, rfl⟩)
      rw [tick_lock]
      exact hopen

theorem unlocked_relocks {rest : Chip → Chip} (h : c.Idle)
    (hbusy : (hw c.clock).unlocks = true → (hw (c.clock + 2)).busy = false)
    (hrest : (hw c.clock).unlocks = true → ∀ c' : Chip, c'.Idle → c'.cr &&& crLock = 0 →
      (rest c').Idle ∧ (rest c').Locked) :
    (unlocked hw c rest).2.Idle ∧ (unlocked hw c rest).2.Locked := by
  rcases unlocked_ways hw h rest with ⟨-, hdone⟩ | ⟨hopens, hbusy', -⟩ | ⟨hopens, -, c', hidle, hopen, heq⟩
  · exact hdone
  · rw [hbusy hopens] at hbusy'
    exact absurd hbusy' Bool.false_ne_true
  · rw [heq]
    exact hrest hopens c' hidle hopen

theorem Call.relocks (h : c.Idle) {call : Call} (hrelocks : call.Relocks hw c.clock) :
    (call.run hw c).2.Idle ∧ (call.run hw c).2.Locked := by
  cases call with
  | erase sector =>
    exact unlocked_relocks hw h (fun hopens => (hrelocks hopens).1) fun hopens _ hidle hopen =>
      erase_relocks hw hidle hopen (hrelocks hopens).2
  | eraseAll =>
    exact unlocked_relocks hw h (fun hopens => (hrelocks hopens).1) fun _ _ hidle hopen =>
      eraseAll_relocks hw hidle hopen
  | programByte address data | programHalfWord address data | programWord address data
  | programDoubleWord address data =>
    exact unlocked_relocks hw h (fun hopens => (hrelocks hopens).1) fun _ _ hidle hopen =>
      program_relocks hw hidle hopen (by decide) address _

/-! ## A number that locks -/

/-- An erase is chosen, and `LOCK` keeps it from being taken back. -/
structure Chip.Stuck (c : Chip) : Prop where
  lock : c.Locked
  ser : c.cr &&& crSer ≠ 0

theorem Chip.Stuck.tick (h : c.Stuck) : (c.tick hw).Stuck := by
  refine ⟨?_, ?_⟩
  · unfold Chip.Locked
    rw [tick_lock]
    exact h.lock
  · rw [tick_and (by decide)]
    exact h.ser

theorem Chip.Stuck.write (h : c.Stuck) (value : Word) : (c.write hw value).Stuck := by
  have htick := h.tick hw
  unfold Chip.write
  rw [if_pos (show (c.tick hw).cr &&& crLock ≠ 0 from htick.lock)]
  exact htick

theorem Chip.Stuck.set (h : c.Stuck) (bits : Word) : (c.set hw bits).Stuck := (h.tick hw).write hw _

theorem Chip.Stuck.clear (h : c.Stuck) (bits : Word) : (c.clear hw bits).Stuck := (h.tick hw).write hw _

theorem Chip.Stuck.wait (h : c.Stuck) : (c.wait hw).Stuck := by
  have htick := h.tick hw
  unfold Chip.wait
  refine ⟨?_, ?_⟩
  · unfold Chip.Locked
    rw [BitVec.and_assoc, show ~~~crStrt &&& crLock = crLock by decide]
    exact htick.lock
  · rw [BitVec.and_assoc, show ~~~crStrt &&& crSer = crSer by decide]
    exact htick.ser

theorem erase_stuck (h : c.Idle) (hopen : c.cr &&& crLock = 0) {sector : Int}
    (hkeeps : sectorBits sector &&& crLock ≠ 0) :
    let c₁ := (c.clear hw (crPsize0 ||| crPsize1)).set hw (sectorBits sector ||| crSer ||| crStrt)
    let c₂ := Registers.lock hw ((((c₁.set hw psizeWord).wait hw).clear hw crSer).clear hw sectorMask)
    c₂.cr &&& crSer ≠ 0 := by
  intro c₁ c₂
  obtain ⟨h1, -⟩ := h.clearSize hw hopen
  set ready := (c.clear hw (crPsize0 ||| crPsize1)).tick hw with hready
  have hbits : ∀ mask, (ready.cr ||| (sectorBits sector ||| crSer ||| crStrt)) &&& mask =
      ready.cr &&& mask ||| (sectorBits sector &&& mask ||| crSer &&& mask ||| crStrt &&& mask) := by
    intro mask
    rw [BitVec.and_or_distrib_right, BitVec.and_or_distrib_right, BitVec.and_or_distrib_right]
  have hgo : (ready.cr ||| (sectorBits sector ||| crSer ||| crStrt)) &&& crStrt ≠ 0 := by
    rw [hbits]
    simp [crStrt]
  obtain ⟨hcr, -⟩ := write_start hw (h1.tick.isOpen (by decide)) h1.tick.done hgo
  have hstuck : c₁.Stuck := by
    refine ⟨?_, ?_⟩
    · intro hzero
      rw [show c₁.cr = _ from hcr, hbits] at hzero
      obtain ⟨-, hown⟩ := BitVec.or_eq_zero_iff.mp hzero
      exact hkeeps (BitVec.or_eq_zero_iff.mp (BitVec.or_eq_zero_iff.mp hown).1).1
    · intro hzero
      rw [show c₁.cr = _ from hcr, hbits] at hzero
      obtain ⟨-, hown⟩ := BitVec.or_eq_zero_iff.mp hzero
      exact absurd (BitVec.or_eq_zero_iff.mp (BitVec.or_eq_zero_iff.mp hown).1).2 (by decide)
  exact (((((hstuck.set hw psizeWord).wait hw).clear hw crSer).clear hw sectorMask).set hw crLock).ser

/-- The call from a quiet state, whatever it is and whatever happens. -/
theorem Call.relocks_iff (h : c.Idle) (call : Call) :
    (call.run hw c).2.Protected ↔ call.Relocks hw c.clock := by
  refine ⟨fun hprotected hopens => ?_, fun hrelocks => ?_⟩
  · have hways : ∀ rest : Chip → Chip, (unlocked hw c rest).2.Protected →
        (hw (c.clock + 2)).busy = false ∧
          ∃ c' : Chip, c'.Idle ∧ c'.cr &&& crLock = 0 ∧ (unlocked hw c rest).2 = rest c' := by
      intro rest hrest
      rcases unlocked_ways hw h rest with ⟨hrefused, -⟩ | ⟨-, -, hlocked⟩ | ⟨-, hquiet, hthrough⟩
      · rw [hopens] at hrefused
        exact absurd hrefused.symm Bool.false_ne_true
      · exact absurd hrest.lock hlocked
      · exact ⟨hquiet, hthrough⟩
    cases call with
    | erase sector =>
      obtain ⟨hquiet, c', hidle, hopen, heq⟩ := hways _ hprotected
      refine ⟨hquiet, ?_⟩
      by_contra hkeeps
      have hser := hprotected.ser
      rw [show ((Call.erase sector).run hw c).2 = _ from heq] at hser
      exact erase_stuck hw hidle hopen hkeeps hser
    | eraseAll | programByte address data | programHalfWord address data | programWord address data
    | programDoubleWord address data =>
      exact ⟨(hways _ hprotected).1, trivial⟩
  · obtain ⟨hidle, hlocked⟩ := Call.relocks hw h hrelocks
    exact hidle.protect hlocked

/-! ## Runs -/

theorem eachCall_iff (h : c.Idle) (hlocked : c.Locked) (calls : List Call) :
    EachCall hw (fun c call => c.Locked → (call.run hw c).2.Protected) calls c ↔
      EachCall hw (fun c call => call.Relocks hw c.clock) calls c := by
  induction calls generalizing c with
  | nil => exact Iff.rfl
  | cons call calls ih =>
    have hfirst := Call.relocks_iff hw h call
    constructor
    · rintro ⟨hcall, hrest⟩
      have hrelocks := hfirst.mp (hcall hlocked)
      obtain ⟨hidle', hlocked'⟩ := Call.relocks hw h hrelocks
      exact ⟨hrelocks, (ih hidle' hlocked').mp hrest⟩
    · rintro ⟨hrelocks, hrest⟩
      obtain ⟨hidle', hlocked'⟩ := Call.relocks hw h hrelocks
      exact ⟨fun _ => hfirst.mpr hrelocks, (ih hidle' hlocked').mpr hrest⟩

end

/-- From reset on, every call that begins locked ends locked and with the control bits clear if and
only if no call is sent back as busy with `CR` open, or erases a sector whose number reaches into
`LOCK`. -/
theorem locked_again (hw : Hardware) (calls : List Call) :
    EachCall hw (fun c call => c.Locked → (call.run hw c).2.Protected) calls .reset ↔
      EachCall hw (fun c call => call.Relocks hw c.clock) calls .reset :=
  eachCall_iff hw reset_idle (by unfold Chip.Locked; decide) calls

/-- A flash that is busy with something else. -/
def elsewhere : Hardware := fun _ => { unlocks := true, busy := true, ends := false }

theorem busy_leaves_open :
    Chip.reset.Locked ∧ ((Call.programByte 0x080F8000 0x50).run elsewhere .reset).1 = false ∧
      ¬ EachCall elsewhere (fun c call => c.Locked → (call.run elsewhere c).2.Protected)
        [.programByte 0x080F8000 0x50] .reset := by
  have hreset : Chip.reset.Locked := by unfold Chip.Locked; decide
  have hopen : ((Call.programByte 0x080F8000 0x50).run elsewhere .reset).2.cr &&& crLock = 0 := by decide
  exact ⟨hreset, by decide, fun h => (h.1 hreset).lock hopen⟩

end PasswordManager.Registers
