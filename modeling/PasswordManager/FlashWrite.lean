import PasswordManager.FlashDriver

/-!
# Writing while operations may be refused

`write` leaves out the bytes that are clear. It is compared with programming every byte, on any
cells and whatever operations are refused.
-/

open Nor

namespace PasswordManager.FlashDriver

/-- All bytes one by one, without the test for clear ones. -/
def programEach (f : Flash) (address : Nat) : List Byte → Bool × Flash
  | [] => (true, f)
  | data :: rest => andThen (programByte f address data) fun f => programEach f (address + 1) rest

/-- Operation `n` is the next one, and the one for byte `k` is refused. -/
def FailsAt (accepts : Nat → Bool) (n : Nat) (data : List Byte) (k : Nat) : Prop :=
  ∃ h : k < data.length,
    data[k] ≠ blank ∧ accepts (n + (data.take k).countP (· ≠ blank)) = false

section
variable {accepts : Nat → Bool} {n k : Nat} {d : Byte} {ds : List Byte}

@[simp] theorem failsAt_nil : ¬ FailsAt accepts n [] k := by
  rintro ⟨h, -⟩
  exact absurd h (Nat.not_lt_zero k)

theorem failsAt_zero : FailsAt accepts n (d :: ds) 0 ↔ d ≠ blank ∧ accepts n = false := by
  simp [FailsAt]

theorem failsAt_blank : FailsAt accepts n (blank :: ds) (k + 1) ↔ FailsAt accepts n ds k := by
  simp [FailsAt]

theorem failsAt_succ (hd : d ≠ blank) :
    FailsAt accepts n (d :: ds) (k + 1) ↔ FailsAt accepts (n + 1) ds k := by
  simp [FailsAt, hd, Nat.add_assoc, Nat.add_comm 1]

/-- What gets through ends at the first byte that fails. -/
theorem through_spec (accepts : Nat → Bool) (n : Nat) (data : List Byte) :
    (∀ j < through accepts n data, ¬ FailsAt accepts n data j) ∧
      (through accepts n data < data.length → FailsAt accepts n data (through accepts n data)) := by
  induction data generalizing n with
  | nil => exact ⟨fun j hj => absurd hj (Nat.not_lt_zero j), fun h => absurd h (Nat.lt_irrefl 0)⟩
  | cons d ds ih =>
    unfold through
    split_ifs with hd hn
    · obtain ⟨hbefore, hat⟩ := ih (n + 1)
      refine ⟨fun j hj => ?_, fun h => (failsAt_succ hd).mpr (hat (Nat.lt_of_succ_lt_succ h))⟩
      cases j with
      | zero => simp [failsAt_zero, hn]
      | succ j => exact fun h => hbefore j (Nat.lt_of_succ_lt_succ hj) ((failsAt_succ hd).mp h)
    · refine ⟨fun j hj => absurd hj (Nat.not_lt_zero j), fun _ => failsAt_zero.mpr ⟨hd, ?_⟩⟩
      simpa using hn
    · obtain rfl : d = blank := by simpa using hd
      obtain ⟨hbefore, hat⟩ := ih n
      refine ⟨fun j hj => ?_, fun h => failsAt_blank.mpr (hat (Nat.lt_of_succ_lt_succ h))⟩
      cases j with
      | zero => simp [failsAt_zero]
      | succ j => exact fun h => hbefore j (Nat.lt_of_succ_lt_succ hj) (failsAt_blank.mp h)

theorem through_of_none {data : List Byte} (h : ∀ k, ¬ FailsAt accepts n data k) :
    through accepts n data = data.length := by
  rcases Nat.lt_or_ge (through accepts n data) data.length with hlt | hge
  · exact absurd ((through_spec accepts n data).2 hlt) (h _)
  · exact Nat.le_antisymm (through_le accepts n data) hge

theorem through_of_first {data : List Byte} (h : FailsAt accepts n data k)
    (hfirst : ∀ j < k, ¬ FailsAt accepts n data j) : through accepts n data = k := by
  obtain ⟨hbefore, hat⟩ := through_spec accepts n data
  have hk : k < data.length := h.1
  rcases Nat.lt_trichotomy (through accepts n data) k with hlt | heq | hgt
  · exact absurd (hat (by omega)) (hfirst _ hlt)
  · exact heq
  · exact absurd h (hbefore k hgt)

end

theorem programEach_eq {f : Flash} (address : Nat) {data : List Byte}
    (h : ∀ i < data.length, f.accepts (f.trace.length + i) = true) :
    ∃ g, programEach f address data = (true, g) ∧ g.cells = burn f.cells address data := by
  induction data generalizing f address with
  | nil => exact ⟨f, rfl, (burn_nil f.cells address).symm⟩
  | cons d ds ih =>
    have hd : f.accepts f.trace.length = true := h 0 (Nat.zero_lt_succ _)
    have hrest : ∀ i < ds.length, (f.issue (.programByte address d)).2.accepts
        ((f.issue (.programByte address d)).2.trace.length + i) = true := by
      intro i hi
      have hnext := h (i + 1) (Nat.succ_lt_succ hi)
      simpa [Flash.issue, Nat.add_assoc, Nat.add_comm 1] using hnext
    obtain ⟨g, hg, hcells⟩ := ih (address + 1) hrest
    refine ⟨g, ?_, ?_⟩
    · rw [programEach, programByte, ← hg]
      simp [Flash.issue, hd, andThen]
    · rw [hcells, burn_cons]
      simp [Flash.issue, hd, Op.apply]

/-- Without the shortcut the cells would be the same. When a program is refused, the write stops
there: what stands before it is written, and nothing behind. -/
theorem write_as_programmed (f : Flash) (address : Nat) (data : List Byte) :
    ((∀ k, ¬ FailsAt f.accepts f.trace.length data k) →
      ∃ g, write f address data = (true, g) ∧
        (∀ i (h : i < data.length), g.cells (address + i) = f.cells (address + i) &&& data[i]) ∧
        (∀ x, x < address ∨ address + data.length ≤ x → g.cells x = f.cells x) ∧
        (∀ f' : Flash, f'.cells = f.cells →
          (∀ i < data.length, f'.accepts (f'.trace.length + i) = true) →
          ∃ g', programEach f' address data = (true, g') ∧ g'.cells = g.cells) ∧
        ((∀ x, address ≤ x → x < address + data.length → f.cells x = blank) →
          read g.cells address data.length = data)) ∧
    (∀ k, FailsAt f.accepts f.trace.length data k →
      (∀ j < k, ¬ FailsAt f.accepts f.trace.length data j) →
      ∃ g, write f address data = (false, g) ∧
        (∀ i (h : i < data.length), i < k →
          g.cells (address + i) = f.cells (address + i) &&& data[i]) ∧
        ∀ x, x < address ∨ address + k ≤ x → g.cells x = f.cells x) := by
  refine ⟨fun hnone => ?_, fun k hfails hfirst => ?_⟩
  · rw [write_eq, through_of_none hnone, List.take_length]
    refine ⟨_, Prod.ext (decide_eq_true rfl) rfl, ?_, ?_, ?_, ?_⟩
    · exact fun i hi => burn_at f.cells address i data hi
    · exact fun x hx => burn_outside hx
    · intro f' hcells haccepts
      obtain ⟨g', hg', hburn⟩ := programEach_eq address haccepts
      exact ⟨g', hg', by rw [hburn, hcells]⟩
    · exact fun hblank => holds_burn hblank
  · have hk : k < data.length := hfails.1
    have hlen : (data.take k).length = k := by rw [List.length_take]; omega
    rw [write_eq, through_of_first hfails hfirst]
    refine ⟨_, Prod.ext (decide_eq_false (Nat.ne_of_lt hk)) rfl, ?_, ?_⟩
    · intro i hi hik
      have hat := burn_at f.cells address i (data.take k) (by omega)
      rwa [List.getElem_take] at hat
    · exact fun x hx => burn_outside (by rw [hlen]; exact hx)

/-! ## Calls that return true -/

/-- If the call returns true, it leaves these cells. -/
def Leaves (r : Bool × Flash) (c : Cells) : Prop := r.1 = true → r.2.cells = c

theorem Leaves.andThen {r : Bool × Flash} {rest : Flash → Bool × Flash} {c c' : Cells}
    (h : Leaves r c) (hrest : ∀ f : Flash, f.cells = c → Leaves (rest f) c') :
    Leaves (andThen r rest) c' := by
  obtain ⟨ok, f⟩ := r
  cases ok with
  | false => intro htrue; exact absurd htrue Bool.false_ne_true
  | true => exact hrest f (h rfl)

theorem leaves_issue (f : Flash) (op : Op) : Leaves (f.issue op) (op.apply f.cells) := by
  intro htrue
  exact if_pos htrue

theorem leaves_writeShort (f : Flash) (address : Nat) (data : BitVec 16) :
    Leaves (writeShort f address data) (burn f.cells address (halfBytes data)) :=
  leaves_issue f _

theorem leaves_writeWord (f : Flash) (address data : Nat) :
    Leaves (writeWord f address data) (burn f.cells address (wordBytes data)) := by
  refine (leaves_issue f _).andThen fun f' hcells => ?_
  have hlast := leaves_issue f' (.programHalfWord (address + 2) (BitVec.ofNat 16 (data / 2 ^ 16)))
  rw [hcells] at hlast
  rw [wordBytes, burn_append]
  exact hlast

theorem leaves_write (f : Flash) (address : Nat) (data : List Byte) :
    Leaves (write f address data) (burn f.cells address data) := by
  unfold Leaves
  rw [write_eq]
  intro htrue
  rw [of_decide_eq_true htrue, List.take_length]

end PasswordManager.FlashDriver
