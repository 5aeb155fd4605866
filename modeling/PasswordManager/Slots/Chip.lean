import PasswordManager.FlashTrace
import PasswordManager.Registers
import PasswordManager.Slots.Safes

/-!
# From the slots down to the registers

The operations that a run of the multi-slot manager asks for decide what is on the chip. They program erased
cells only, so that they can be played in ordinary memory, and they can be played on the control register.
-/

open Nor

namespace PasswordManager.Slots

open FlashDriver Registers Vault Alike

/-! ## Between two chips -/

/-- The sector of a slot is erased, or a byte in the 32 KiB of a slot is programmed. -/
def OfSlots (op : Op) : Prop :=
  ∃ a ∈ slots, op = .erase (getSectorNumber a) ∨ ∃ x d, op = .programByte x d ∧ a ≤ x ∧ x < a + 0x8000

/-- The operations that lead from one chip to a later one. -/
structure Played (f : Flash) (ops : List Op) (f' : Flash) : Prop where
  accepts : f'.accepts = f.accepts
  trace : f'.trace = f.trace ++ ops
  cells : f'.cells = replay f.accepts f.trace.length f.cells ops
  own : ∀ op ∈ ops, OfSlots op
  fresh : ErasesTaken f.accepts f.trace.length ops → Fresh f.accepts f.trace.length f.cells ops

theorem Played.refl (f : Flash) : Played f [] f :=
  ⟨rfl, (List.append_nil _).symm, rfl, by simp, fun _ => trivial⟩

theorem Played.trans {f f' f'' : Flash} {ops ops' : List Op} (h : Played f ops f') (h' : Played f' ops' f'') :
    Played f (ops ++ ops') f'' where
  accepts := h'.accepts.trans h.accepts
  trace := by rw [h'.trace, h.trace, List.append_assoc]
  cells := by rw [h'.cells, h.accepts, h.trace, h.cells, List.length_append, replay_append]
  own op hop := (List.mem_append.mp hop).elim (h.own op) (h'.own op)
  fresh htaken := by
    obtain ⟨hbefore, hafter⟩ := htaken.append
    have hlater := h'.fresh
    rw [h.accepts, h.trace, h.cells, List.length_append] at hlater
    exact fresh_append.mpr ⟨h.fresh hbefore, hlater hafter⟩

/-! ## The operations of a session -/

theorem OfSlots.valid {op : Op} (h : OfSlots op) : (opCall op).Valid := by
  have hsector : ∀ a ∈ slots, 0 ≤ getSectorNumber a ∧ getSectorNumber a ≤ 11 := by decide
  obtain ⟨a, ha, rfl | ⟨x, d, rfl, -⟩⟩ := h
  · exact hsector a ha
  · exact trivial

theorem Round.ofSlots {a : Nat} (ha : a ∈ slots) {ops : List Op} (h : Round a ops) :
    ∀ op ∈ ops, OfSlots op := by
  obtain ⟨writes, rfl, hwrites⟩ := h
  intro op hop
  rcases List.mem_cons.mp hop with rfl | hop
  · exact ⟨a, ha, .inl rfl⟩
  · obtain ⟨x, d, hop, hlow, hhigh, -⟩ := hwrites op hop
    exact ⟨a, ha, .inr ⟨x, d, hop, hlow, hhigh⟩⟩

/-- Once the sector is erased, each write finds its cells as the erase left them. -/
theorem fresh_storeOps {m : Manager} (ha : SlotAddress m.address) {accepts : Nat → Bool} {n : Nat}
    (hn : accepts n = true) (c : Cells) : Fresh accepts n c (storeOps accepts n m) := by
  have hlen := m.length_data
  have hbound := m.records.bound
  have hident : ident.length = 4 := rfl
  have hcount : m.count.length = 2 := rfl
  simp only [maxStored] at hbound
  have herased : Blank (wipe (InSector (getSectorNumber m.address)) c) m.address 0x8000 :=
    fun x hx hx' => if_pos (ha.inSector hx hx')
  rw [storeOps, Fresh, if_pos hn]
  refine ⟨trivial, ?_⟩
  rw [fresh_append, fresh_append]
  refine ⟨fresh_writeOps (herased.within (Nat.le_refl _) (by omega)), fresh_writeOps ?_, fresh_writeOps ?_⟩
  · have hleft : Blank _ (m.address + 4) m.count.length := herased.within (by omega) (by omega)
    exact hleft.congr fun x hx _ => replay_misses (writeOps_misses (by omega))
  · have hleft : Blank _ (m.address + 6) m.data.length := herased.within (by omega) (by omega)
    refine hleft.congr fun x hx _ => ?_
    rw [replay_misses (writeOps_misses (by omega)), replay_misses (writeOps_misses (by omega))]
    rfl

theorem replay_store (accepts : Nat → Bool) (n : Nat) (m : Manager) (c : Cells) :
    replay accepts n c (storeOps accepts n m) = (progress accepts accepts n m).cells m c := by
  have hwrites : ∀ c, replay accepts (identOp n) c
      (writeOps accepts (identOp n) m.address ident ++
        (writeOps accepts (countOp accepts n m.address) (m.address + 4) m.count ++
          writeOps accepts (dataOp accepts n m) (m.address + 6) m.data)) =
      burn (burn (burn c m.address (ident.take (through accepts (identOp n) ident)))
        (m.address + 4) (m.count.take (through accepts (countOp accepts n m.address) m.count)))
        (m.address + 6) (m.data.take (through accepts (dataOp accepts n m) m.data)) := by
    intro c
    rw [replay_append, replay_write, ← countOp, replay_append, replay_write, ← dataOp, replay_write]
  exact hwrites _

theorem storeData_played {m : Manager} (ha : m.address ∈ slots) (f : Flash) :
    Played f (storeOps f.accepts f.trace.length m) (storeData m f).2 where
  accepts := by rw [storeData_eq]
  trace := by rw [storeData_eq]
  cells := by
    rw [storeData_eq]
    exact (replay_store f.accepts f.trace.length m f.cells).symm
  own := (storeOps_round (slotAddress ha) _ _).ofSlots ha
  fresh htaken := fresh_storeOps (slotAddress ha) (htaken 0 _ rfl) _

theorem deleteData_played {m : Manager} (ha : m.address ∈ slots) (f : Flash) :
    Played f [.erase (getSectorNumber m.address)] (deleteData m f).2 where
  accepts := rfl
  trace := rfl
  cells := rfl
  own := Round.ofSlots ha ⟨[], rfl, by simp⟩
  fresh _ := ⟨trivial, trivial⟩

theorem Effect.played {letter : Byte} {s s' : Session} (ha : s.pm.address ∈ slots) (h : Effect letter s s') :
    ∃ ops, Played s.flash ops s'.flash := by
  rcases h.flash.2 with heq | heq | ⟨m, haddress, heq⟩ <;> rw [heq]
  · exact ⟨_, .refl _⟩
  · exact ⟨_, deleteData_played ha _⟩
  · exact ⟨_, storeData_played (haddress ▸ ha) _⟩

theorem Ending.played {s s' : Session} (ha : s.pm.address ∈ slots) (h : Ending s s') :
    ∃ ops, Played s.flash ops s'.flash := by
  rcases h.flash with heq | heq <;> rw [heq]
  · exact ⟨_, .refl _⟩
  · exact ⟨_, deleteData_played ha _⟩

/-! ## Runs -/

def Board.InSlot : Board → Prop
  | .menu _ _ => True
  | .session _ _ _ s => s.pm.address ∈ slots

theorem Step.played {b b' : Board} (h : b.InSlot) (hstep : Step b b') :
    b'.InSlot ∧ ∃ ops, Played b.flash ops b'.flash := by
  cases hstep with
  | @enter flash console console' address memory s hslot hbegin =>
    obtain ⟨haddress, hflash⟩ := started_at (begin_started hbegin)
    refine ⟨(haddress ▸ askinput_mem hslot : s.pm.address ∈ slots), [], ?_⟩
    rw [show (Board.session flash console'.input address s).flash = flash from hflash]
    exact .refl flash
  | @turn entered input address s s' hturn =>
    obtain ⟨letter, -, heffect⟩ := command_outcome hturn
    exact ⟨(heffect.flash.1 ▸ h : s'.pm.address ∈ slots), Effect.played h heffect⟩
  | leave hdone hrestart =>
    obtain ⟨letter, -, hending⟩ := command_outcome hdone
    exact ⟨trivial, Ending.played h hending⟩

theorem run_played {b b' : Board} (h : b.InSlot) (hrun : Relation.ReflTransGen Step b b') :
    b'.InSlot ∧ ∃ ops, Played b.flash ops b'.flash := by
  induction hrun with
  | refl => exact ⟨h, [], .refl _⟩
  | tail _ hstep ih =>
    obtain ⟨hin, ops, hplayed⟩ := ih
    obtain ⟨hin', ops', hplayed'⟩ := Step.played hin hstep
    exact ⟨hin', _, hplayed.trans hplayed'⟩

/-! ## In ordinary memory -/

/-- On a chip that refuses no erase, every byte goes to an erased cell, and the cells are those of a memory
that is overwritten. -/
theorem overwritten {flash : Flash} {console : Console} {b : Board}
    (hrun : Relation.ReflTransGen Step (.menu flash console) b) :
    ∃ ops, b.flash.trace = flash.trace ++ ops ∧
      (ErasesTaken flash.accepts flash.trace.length ops →
        Fresh flash.accepts flash.trace.length flash.cells ops ∧
          b.flash.cells = overwrites flash.accepts flash.trace.length flash.cells ops) := by
  obtain ⟨-, ops, hplayed⟩ := run_played (b := .menu flash console) trivial hrun
  refine ⟨ops, hplayed.trace, fun htaken => ?_⟩
  have hfresh := hplayed.fresh htaken
  exact ⟨hfresh, hplayed.cells.trans hfresh.replay⟩

theorem overwritten_commit :
    ∃ (flash' : Flash) (ops : List Op), flash'.trace = ops ∧ Fresh (fun _ => true) 0 Flash.cleared.cells ops ∧
      flash'.cells = overwrites (fun _ => true) 0 Flash.cleared.cells ops := by
  obtain ⟨flash', console', hrun, -⟩ := commit_and_quit
  obtain ⟨ops, htrace, hcells⟩ := overwritten hrun
  exact ⟨flash', ops, htrace, hcells fun _ _ _ => rfl⟩

/-! ## On the control register -/

theorem length_results (hw : Hardware) (ops : List Op) (c : Chip) :
    (results hw ops c).length = ops.length := by
  induction ops generalizing c with
  | nil => rfl
  | cons op ops ih => rw [results, List.length_cons, List.length_cons, ih]

/-- The calls of the driver that a run makes leave on the chip what the run has there, whatever calls the
hardware refuses. -/
theorem registers_follow {flash : Flash} {console : Console} {b : Board}
    (hrun : Relation.ReflTransGen Step (.menu flash console) b) :
    ∃ ops, b.flash.trace = flash.trace ++ ops ∧
      ∀ (hw : Hardware) (chip : Chip), chip.Idle →
        (∀ i < ops.length, flash.accepts (flash.trace.length + i) = (results hw ops chip).getD i false) →
        ∃ es, (runCalls hw (ops.map opCall) chip).trace = chip.trace ++ es ∧
          cellsAfter es flash.cells = b.flash.cells := by
  obtain ⟨-, ops, hplayed⟩ := run_played (b := .menu flash console) trivial hrun
  refine ⟨ops, hplayed.trace, fun hw chip hidle hanswers => ?_⟩
  have hvalid : ∀ op ∈ ops, (opCall op).Valid := fun op hop => (hplayed.own op hop).valid
  obtain ⟨es, htrace, hcells⟩ := runCalls_refines hidle hvalid flash.trace.length flash.cells
  refine ⟨es, htrace, ?_⟩
  rw [hcells, hplayed.cells]
  apply replay_congr_below
  intro i hi
  rw [Nat.add_sub_cancel_left, ← hanswers i hi]
  rfl

theorem registers_follow_commit :
    ∃ (flash' : Flash) (ops : List Op), flash'.trace = Flash.cleared.trace ++ ops ∧
      ∀ (hw : Hardware) (chip : Chip), chip.Idle →
        (∀ i < ops.length,
          Flash.cleared.accepts (Flash.cleared.trace.length + i) = (results hw ops chip).getD i false) →
        ∃ es, (runCalls hw (ops.map opCall) chip).trace = chip.trace ++ es ∧
          cellsAfter es Flash.cleared.cells = flash'.cells := by
  obtain ⟨flash', console', hrun, -⟩ := commit_and_quit
  exact ⟨flash', registers_follow hrun⟩

/-- `CR` opens at every unlock, and the flash is never busy. -/
def Ready (hw : Hardware) : Prop := ∀ n, (hw n).unlocks = true ∧ (hw n).busy = false

theorem Ready.unlocked {hw : Hardware} (h : Ready hw) (rest : Chip → Chip) (c : Chip) :
    (unlocked hw c rest).1 = true := by
  have hopen : ((unlock hw c).tick hw).cr &&& crLock = 0 := by
    rw [tick_lock, unlock, if_pos (h c.clock).1, BitVec.and_assoc, BitVec.and_comm (~~~crLock),
      BitVec.and_not_self]
    exact BitVec.and_zero
  rw [Registers.unlocked]
  simp [hopen, (h _).2]

theorem Ready.results {hw : Hardware} (h : Ready hw) (ops : List Op) (c : Chip) :
    ∀ taken ∈ results hw ops c, taken = true := by
  induction ops generalizing c with
  | nil => simp [Registers.results]
  | cons op ops ih =>
    have hop : ((opCall op).run hw c).1 = true := by
      cases op <;> exact h.unlocked _ c
    rw [Registers.results, List.forall_mem_cons]
    exact ⟨hop, ih _⟩

/-- From the desk of safes down to the control register, when the hardware takes every call. -/
theorem desk_on_registers {flash : Flash} (haccepts : ∀ i, flash.accepts i = true)
    {held : Nat → Option (Buf 32 × List Entry)} (hheld : ∀ a ∈ slots, Held flash.cells a (held a))
    {console : Console} {b : Board} (hrun : Relation.ReflTransGen Step (.menu flash console) b) :
    ∃ d ops, Relation.ReflTransGen Desk.Step (.menu held console.stdin) d ∧ ShowsDesk slots b d ∧
      b.flash.trace = flash.trace ++ ops ∧
      ∀ (hw : Hardware) (chip : Chip), chip.Idle → (∀ taken ∈ results hw ops chip, taken = true) →
        ∃ es, (runCalls hw (ops.map opCall) chip).trace = chip.trace ++ es ∧
          ∀ a ∈ slots, Held (cellsAfter es flash.cells) a (d.holds a) := by
  obtain ⟨ops, htrace, hregisters⟩ := registers_follow hrun
  obtain ⟨d, hdesk, hshows⟩ := board_refines haccepts hheld hrun
  refine ⟨d, ops, hdesk, hshows, htrace, fun hw chip hidle htaken => ?_⟩
  obtain ⟨es, htrace', hcells⟩ := hregisters hw chip hidle fun i hi => by
    have hlt : i < (results hw ops chip).length := by rwa [length_results]
    rw [haccepts, List.getD_eq_getElem?_getD, List.getElem?_eq_getElem hlt, Option.getD_some,
      htaken _ (List.getElem_mem hlt)]
  refine ⟨es, htrace', fun a ha => ?_⟩
  rw [hcells]
  exact hshows.holds a ha

theorem desk_on_registers_commit :
    ∃ (held : Nat → Option (Buf 32 × List Entry)) (ops : List Op), Relation.ReflTransGen Desk.Step
        (.menu (fun _ => none)
          (typed ["1", "add", "a", "b", "commit", "pw", "quit", "again", "1", "pw"]).stdin)
        (.menu held [bytes "1", bytes "pw"]) ∧
      ∀ hw, Ready hw → ∃ es, (runCalls hw (ops.map opCall) .reset).trace = es ∧
        ∀ a ∈ slots, Held (cellsAfter es Flash.cleared.cells) a (held a) := by
  obtain ⟨flash', console', hrun, hstdin⟩ := commit_and_quit
  obtain ⟨d, ops, hdesk, hshows, -, hregisters⟩ :=
    desk_on_registers (fun _ => rfl) (fun _ _ => clear_held) hrun
  cases hshows with
  | @menu _ _ held haccepts hheld =>
    rw [hstdin] at hdesk
    refine ⟨held, ops, hdesk, fun hw hready => ?_⟩
    exact hregisters hw .reset reset_idle (hready.results ops .reset)

end PasswordManager.Slots
