import Mathlib.Order.Interval.Set.Basic
import PasswordManager.FlashDriver

/-!
# What the operations find in the cells

A cell that is programmed twice without an erase between keeps the zeros of both. Operations that program
erased cells only do on the chip what they would do in ordinary memory.
-/

open Nor

namespace PasswordManager.FlashDriver

/-- The operation programs erased cells only. -/
def Op.Fresh : Op → Cells → Prop
  | .erase _, _ => True
  | .programByte address _, c => Blank c address 1
  | .programHalfWord address _, c => Blank c address 2

/-- The operation on memory that is overwritten. -/
def Op.overwrite : Op → Cells → Cells
  | .erase sector, c => wipe (InSector sector) c
  | .programByte address data, c => put c address [data]
  | .programHalfWord address data, c => put c address (halfBytes data)

def Op.Misses (x : Nat) : Op → Prop
  | .erase sector => ¬ InSector sector x
  | .programByte address _ => x ≠ address
  | .programHalfWord address _ => x < address ∨ address + 2 ≤ x

/-- All of them do, on the cells that they find. -/
def Fresh (accepts : Nat → Bool) : Nat → Cells → List Op → Prop
  | _, _, [] => True
  | n, c, op :: ops => op.Fresh c ∧ Fresh accepts (n + 1) (if accepts n then op.apply c else c) ops

def overwrites (accepts : Nat → Bool) : Nat → Cells → List Op → Cells
  | _, c, [] => c
  | n, c, op :: ops => overwrites accepts (n + 1) (if accepts n then op.overwrite c else c) ops

/-- No erase is refused. -/
def ErasesTaken (accepts : Nat → Bool) (n : Nat) (ops : List Op) : Prop :=
  ∀ i sector, ops[i]? = some (.erase sector) → accepts (n + i) = true

section
variable {accepts : Nat → Bool} {n : Nat} {c : Cells} {ops ops' : List Op}

theorem Op.Fresh.apply {op : Op} (h : op.Fresh c) : op.apply c = op.overwrite c := by
  cases op with
  | erase sector => rfl
  | programByte address data => exact (Blank.burn h : burn c address [data] = _)
  | programHalfWord address data => exact (Blank.burn h : burn c address (halfBytes data) = _)

theorem Fresh.replay (h : Fresh accepts n c ops) : replay accepts n c ops = overwrites accepts n c ops := by
  induction ops generalizing n c with
  | nil => rfl
  | cons op ops ih =>
    obtain ⟨hop, hrest⟩ := h
    rw [FlashDriver.replay, ih hrest, overwrites, hop.apply]

theorem fresh_append : Fresh accepts n c (ops ++ ops') ↔
    Fresh accepts n c ops ∧ Fresh accepts (n + ops.length) (replay accepts n c ops) ops' := by
  induction ops generalizing n c with
  | nil => simp [Fresh, replay]
  | cons op ops ih =>
    rw [List.cons_append, Fresh, ih, Fresh, replay, and_assoc, List.length_cons, Nat.add_assoc,
      Nat.add_comm 1]

theorem ErasesTaken.append (h : ErasesTaken accepts n (ops ++ ops')) :
    ErasesTaken accepts n ops ∧ ErasesTaken accepts (n + ops.length) ops' := by
  constructor
  · intro i sector hi
    have hlt := (List.getElem?_eq_some_iff.mp hi).1
    exact h i sector (by rw [List.getElem?_append_left hlt]; exact hi)
  · intro i sector hi
    rw [Nat.add_assoc]
    exact h _ sector (by rw [List.getElem?_append_right (by omega), Nat.add_sub_cancel_left]; exact hi)

theorem replay_misses {x : Nat} (h : ∀ op ∈ ops, op.Misses x) : replay accepts n c ops x = c x := by
  induction ops generalizing n c with
  | nil => rfl
  | cons op ops ih =>
    rw [replay, ih fun op hop => h op (List.mem_cons_of_mem _ hop)]
    have hop := h op List.mem_cons_self
    split
    · cases op with
      | erase sector => exact if_neg hop
      | programByte address data =>
        unfold Op.Misses at hop
        exact burn_outside (by rw [List.length_singleton]; omega)
      | programHalfWord address data => exact burn_outside hop
    · rfl

theorem replay_congr_below {accepts' : Nat → Bool}
    (h : ∀ i < ops.length, accepts (n + i) = accepts' (n + i)) :
    replay accepts n c ops = replay accepts' n c ops := by
  induction ops generalizing n c with
  | nil => rfl
  | cons op ops ih =>
    have hfirst : accepts n = accepts' n := h 0 (Nat.zero_lt_succ _)
    rw [replay, replay, hfirst]
    apply ih
    intro i hi
    rw [Nat.add_assoc, Nat.add_comm 1]
    exact h (i + 1) (Nat.succ_lt_succ hi)

theorem replay_write (address : Nat) (data : List Byte) :
    replay accepts n c (writeOps accepts n address data) =
      burn c address (data.take (through accepts n data)) := by
  induction data generalizing n address c with
  | nil => exact (burn_nil c address).symm
  | cons d ds ih =>
    by_cases hd : d = blank
    · simp [writeOps, through, hd, burn_cons_blank, ih]
    · cases hn : accepts n with
      | false => simp [writeOps, replay, through, hd, hn, burn_nil]
      | true =>
        simp only [writeOps, replay, through, hd, hn, Op.apply, ne_eq, not_false_eq_true, if_true,
          List.take_succ_cons]
        rw [ih, ← burn_cons]

/-- A write to erased cells finds each of them erased. -/
theorem fresh_writeOps {address : Nat} {data : List Byte} (h : Blank c address data.length) :
    Fresh accepts n c (writeOps accepts n address data) := by
  induction data generalizing n address c with
  | nil => exact trivial
  | cons d ds ih =>
    have hrest : Blank c (address + 1) ds.length := h.within (by omega) (by rw [List.length_cons]; omega)
    unfold writeOps
    split
    · refine ⟨h.within (Nat.le_refl _) (by rw [List.length_cons]; omega), ?_⟩
      split
      · apply ih
        exact hrest.congr fun x hx _ => burn_outside (by rw [List.length_singleton]; omega)
      · exact trivial
    · exact ih hrest

theorem writeOps_misses {address x : Nat} {data : List Byte} (hx : x < address ∨ address + data.length ≤ x) :
    ∀ op ∈ writeOps accepts n address data, op.Misses x := by
  intro op hop
  obtain ⟨y, d, rfl, hy, hy'⟩ := mem_writeOps hop
  unfold Op.Misses
  omega

end

/-! ## Power lost between two operations -/

/-- The cells when power is lost after the first `j` operations that lead from one chip to the other. -/
def cutAfter (j : Nat) (f f' : Flash) : Cells :=
  replay f.accepts f.trace.length f.cells ((f'.trace.drop f.trace.length).take j)

/-- The operations that lead from one chip to the other change no cell outside the set. -/
structure Touches (area : Set Nat) (f f' : Flash) : Prop where
  accepts : f'.accepts = f.accepts
  ops : ∃ ops, f'.trace = f.trace ++ ops ∧ f'.cells = replay f.accepts f.trace.length f.cells ops ∧
    ∀ op ∈ ops, ∀ x ∉ area, op.Misses x

section
variable {f f' f'' : Flash} {area area' : Set Nat}

theorem Touches.refl (f : Flash) : Touches area f f := ⟨rfl, [], (List.append_nil _).symm, rfl, by simp⟩

theorem Touches.trans (h : Touches area f f') (h' : Touches area f' f'') : Touches area f f'' := by
  obtain ⟨haccepts, ops, htrace, hcells, hops⟩ := h
  obtain ⟨haccepts', ops', htrace', hcells', hops'⟩ := h'
  refine ⟨haccepts'.trans haccepts, ops ++ ops', ?_, ?_, fun op hop => ?_⟩
  · rw [htrace', htrace, List.append_assoc]
  · rw [hcells', haccepts, htrace, hcells, List.length_append, replay_append]
  · exact (List.mem_append.mp hop).elim (hops op) (hops' op)

theorem Touches.mono (h : Touches area f f') (harea : area ⊆ area') : Touches area' f f' := by
  obtain ⟨haccepts, ops, htrace, hcells, hops⟩ := h
  exact ⟨haccepts, ops, htrace, hcells, fun op hop x hx => hops op hop x fun hin => hx (harea hin)⟩

theorem Touches.outside (h : Touches area f f') {x : Nat} (hx : x ∉ area) : f'.cells x = f.cells x := by
  obtain ⟨-, ops, -, hcells, hops⟩ := h
  rw [hcells]
  exact replay_misses fun op hop => hops op hop x hx

theorem Touches.cut (h : Touches area f f') (j : Nat) {x : Nat} (hx : x ∉ area) :
    cutAfter j f f' x = f.cells x := by
  obtain ⟨-, ops, htrace, -, hops⟩ := h
  rw [cutAfter, htrace, List.drop_left]
  exact replay_misses fun op hop => hops op (List.mem_of_mem_take hop) x hx

/-- The power is lost on the first part of the way or on the second one. -/
theorem Touches.cut_trans (h : Touches area f f') (h' : Touches area' f' f'') (j : Nat) :
    cutAfter j f f'' = cutAfter j f f' ∨ ∃ k, cutAfter j f f'' = cutAfter k f' f'' := by
  obtain ⟨haccepts, ops, htrace, hcells, -⟩ := h
  obtain ⟨-, ops', htrace', -, -⟩ := h'
  have hall : f''.trace.drop f.trace.length = ops ++ ops' := by
    rw [htrace', htrace, List.append_assoc, List.drop_left]
  have hfirst : f'.trace.drop f.trace.length = ops := by rw [htrace, List.drop_left]
  have hlast : f''.trace.drop f'.trace.length = ops' := by rw [htrace', List.drop_left]
  simp only [cutAfter, hall, hfirst, hlast]
  rcases Nat.le_total j ops.length with hle | hge
  · left
    rw [List.take_append_of_le_length hle]
  · refine .inr ⟨j - ops.length, ?_⟩
    rw [List.take_append, List.take_of_length_le hge, replay_append, haccepts, htrace, hcells,
      List.length_append]

theorem Touches.andThen {r : Bool × Flash} {rest : Flash → Bool × Flash} (h : Touches area f r.2)
    (hrest : ∀ f, Touches area f (rest f).2) : Touches area f (andThen r rest).2 := by
  obtain ⟨ok, f'⟩ := r
  cases ok with
  | false => exact h
  | true => exact h.trans (hrest f')

variable (f)

theorem touches_issue {op : Op} (h : ∀ x ∉ area, op.Misses x) : Touches area f (f.issue op).2 :=
  ⟨rfl, [op], rfl, rfl, by simpa using h⟩

theorem touches_erase (sector : Int) : Touches {x | InSector sector x} f (erase f sector).2 :=
  touches_issue f fun _ hx => hx

theorem touches_writeShort (address : Nat) (data : BitVec 16) :
    Touches (Set.Ico address (address + 2)) f (writeShort f address data).2 :=
  touches_issue f fun x hx => by
    rw [Set.mem_Ico] at hx
    unfold Op.Misses
    omega

theorem touches_writeWord (address data : Nat) :
    Touches (Set.Ico address (address + 4)) f (writeWord f address data).2 := by
  refine Touches.andThen ((touches_writeShort f address _).mono ?_) fun f =>
    (touches_writeShort f (address + 2) _).mono ?_
  · exact Set.Ico_subset_Ico_right (by omega)
  · exact Set.Ico_subset_Ico (by omega) (by omega)

theorem touches_write (address : Nat) (data : List Byte) :
    Touches (Set.Ico address (address + data.length)) f (write f address data).2 := by
  rw [write_eq]
  refine ⟨rfl, _, rfl, (replay_write address data).symm, fun op hop x hx => writeOps_misses ?_ op hop⟩
  rw [Set.mem_Ico] at hx
  omega

end

end PasswordManager.FlashDriver
