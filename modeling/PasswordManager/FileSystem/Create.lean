import PasswordManager.FileSystem.Effects

/-!
# What a create does

The merge of holes looks at a byte behind the new file to find out whether the holes are longer
than the file. Where that byte tells the truth, the list comes out right.
-/

open Nor

namespace PasswordManager.FileSystem

open FlashDriver Fuel

/-! ## Creates that go well -/

/-- `open` gets to the hole at `a`, joined up to `m`. -/
structure TakesHole (c : Cells) (filename : Name) (size : Int) (env : Env) (a m : Nat) : Prop where
  short : filename.val.length ≤ fsFileNameMaxLenght
  named : filename.val ≠ []
  valid : 0 ≤ size
  absent : Yields (findFile c filename env.beyond · getStartSector) false
  full : ∃ t, Yields (newest c · getStartSector) t ∧ getLastAddress ≤ plus (roundUp size.toNat) t
  chosen : Yields (chooseHole · c (roundUp size.toNat) env.random) (some (a, m))

/-- Where more than one hole is joined, there is a header behind the new file exactly when the
holes are as long as the file. -/
def MergesWell (c : Cells) (size a m : Nat) : Prop :=
  word c a ≠ m → (isValid c (plus size a) = true ↔ m = plus size a)

inductive Placed (c : Cells) (hs : List Header) (t : Nat) : Place → Cells → List Header → Nat → Prop
  | newest {h : Header} {c' : Cells} (hcells : c' = burn c t h.bytes) (hnext : Aligned h.next)
      (hlast : h.next < getLastAddress) (hspace : t + 72 + h.size ≤ h.next) :
      Placed c hs t (.newest t h) c' (hs ++ [h]) h.next
  | hole {pre run post : List Header} {a m : Nat} {h : Header} {rest : Option Header} {c' : Cells}
      (hsplit : hs = pre ++ (run ++ post)) (hpre : Chain c getStartSector pre a)
      (hholes : Holes c a run m) (hpost : Chain c m post t) (hfit : Fitting a m h rest)
      (hfilled : Filled c a h rest c') :
      Placed c hs t (.hole a h rest) c' (pre ++ (filling c' a h rest ++ post)) t

def Place.header : Place → Header
  | .newest _ h => h
  | .hole _ h _ => h

section
variable {c : Cells} {a m n t : Nat} {hs : List Header}

theorem Placed.list {p : Place} {c' : Cells} {hs' : List Header} {t' : Nat}
    (hchain : Chain c getStartSector hs t) (htail : Tail c t) (hplaced : Placed c hs t p c' hs' t') :
    Chain c' getStartSector hs' t' ∧ Tail c' t' := by
  cases hplaced with
  | newest hcells hnext hlast hspace =>
    obtain ⟨hone, htail'⟩ := htail.appended hnext hlast hspace
    rw [hcells]
    refine ⟨(hchain.congr fun x _ hx => ?_).append hone, htail'⟩
    rw [burn_outside (.inl hx)]
  | hole hsplit hpre hholes hpost hfit hfilled => exact hfilled.list hfit hpre hpost htail

theorem Gap.fitting {size : Nat} (hgap : Gap c (roundUp size) getStartSector hs t a m)
    (htail : Tail c t) (filename : Name) (memory : Header) :
    Fitting a m (newHeader filename size (a + roundUp size))
      (if m = a + roundUp size then none else some (falseHeader memory m)) := by
  obtain ⟨pre, run, post, rfl, hpre, hholes, hpost, hroom⟩ := hgap
  have ha : Aligned a := hholes.chain.aligned (hpost.aligned htail.aligned)
  have hm : Aligned m := hpost.aligned htail.aligned
  have hle := hholes.chain.le
  obtain ⟨hround, hspace, -⟩ := roundUp_bounds size
  refine ⟨ha, ha.add hround, ⟨hm, hpost.lt_last htail⟩, ?_, fun hnone => ?_, fun r hsome => ?_⟩
  · simp only [newHeader]
    omega
  · split at hnone
    next heq => exact heq.symm
    next => cases hnone
  · split at hsome
    next => cases hsome
    next hne =>
      cases hsome
      have hlt : a + roundUp size < m := by omega
      exact ⟨rfl, hlt, falseHeader_first memory m, rfl⟩

/-- What `open` computes from a gap does not wrap. -/
theorem Gap.computed {size : Nat} (hgap : Gap c (roundUp size) getStartSector hs t a m)
    (htail : Tail c t) :
    plus (roundUp size) a = a + roundUp size ∧ minus m a = m - a ∧ minus (word c a) a = word c a - a ∧
      a + roundUp size ≤ m ∧ a < word c a ∧ word c a ≤ m := by
  obtain ⟨pre, run, post, rfl, hpre, hholes, hpost, hroom⟩ := hgap
  have hspace := (roundUp_bounds size).2.1
  have hlast := hpost.lt_last htail
  have hle := hholes.chain.le
  obtain ⟨hlow, hhigh⟩ := hholes.word_bounds
  rw [getLastAddress_val] at hlast
  refine ⟨?_, minus_of_le hle (by omega), minus_of_le (by omega) (word_lt c a), by omega, hlow, hhigh⟩
  rw [plus_of_lt (by omega), Nat.add_comm]

/-- When the byte tells the truth, all three cases come to the same. -/
theorem fillHole_eq {filename : Name} {size : Nat} {memory : Header}
    (hgap : Gap c (roundUp size) getStartSector hs t a m) (htail : Tail c t)
    (hwell : MergesWell c (roundUp size) a m) :
    fillHole c filename size a m memory =
      .hole a (newHeader filename size (a + roundUp size))
        (if m = a + roundUp size then none else some (falseHeader memory m)) := by
  obtain ⟨hplus, hminus, hminus', hroom, hlow, hhigh⟩ := hgap.computed htail
  have hnext : (readHeader c a).next = word c a := rfl
  rw [MergesWell, hplus] at hwell
  unfold fillHole
  simp only [hplus, hminus, hminus', hnext]
  by_cases hone : word c a = m
  · by_cases hexact : m = a + roundUp size
    · rw [if_pos ⟨hone.symm, by omega⟩, if_pos hexact, hone, ← hexact]
    · rw [if_neg (by omega), if_pos ⟨by omega, by omega⟩, if_neg hexact, hone]
  · rw [if_neg fun hsingle => hone hsingle.1.symm, if_neg fun hsplit => hone (by omega)]
    by_cases hexact : m = a + roundUp size
    · rw [if_pos ((hwell hone).mpr hexact), if_pos hexact]
    · rw [if_neg fun hvalid => hexact ((hwell hone).mp hvalid), if_neg hexact]

inductive Planned (c : Cells) (hs : List Header) (t : Nat) (filename : Name) (size : Nat) (env : Env) :
    Place → Prop
  | newest (hroom : t + roundUp size < getLastAddress) :
      Planned c hs t filename size env (.newest t (newHeader filename size (t + roundUp size)))
  | hole {a m : Nat} (hgap : Gap c (roundUp size) getStartSector hs t a m)
      (hfull : getLastAddress ≤ plus (roundUp size) t)
      (hchosen : Yields (chooseHole · c (roundUp size) env.random) (some (a, m))) :
      Planned c hs t filename size env
        (.hole a (newHeader filename size (a + roundUp size))
          (if m = a + roundUp size then none else some (falseHeader env.memory m)))

theorem findFile_absent {filename : Name} {beyond : Nat → List Byte} (hchain : Chain c getStartSector hs t)
    (htail : Tail c t) (habsent : lookup c filename beyond (stops getStartSector hs t) = none) :
    Yields (findFile c filename beyond · getStartSector) false := by
  have hfind := findFile_yields filename beyond hchain htail
  rw [habsent] at hfind
  exact hfind

theorem place_newest {filename : Name} {size : Nat} {env : Env} (hchain : Chain c getStartSector hs t)
    (htail : Tail c t) (habsent : lookup c filename env.beyond (stops getStartSector hs t) = none)
    (hroom : t + roundUp size < getLastAddress) :
    Yields (place · c filename size env)
      (some (.newest t (newHeader filename size (t + roundUp size)))) := by
  have hfind := findFile_absent hchain htail habsent
  have hplus : plus (roundUp size) t = t + roundUp size := by
    rw [getLastAddress_val] at hroom
    rw [plus_of_lt (by omega), Nat.add_comm]
  refine hfind.bind ((newest_yields hchain htail).bind ?_)
  simp only [hplus, if_pos hroom]
  exact .pure _

theorem place_chosen {filename : Name} {size : Nat} {env : Env}
    (hfind : Yields (findFile c filename env.beyond · getStartSector) false)
    (hnewest : Yields (newest c · getStartSector) t) (hfull : getLastAddress ≤ plus (roundUp size) t)
    (hchosen : Yields (chooseHole · c (roundUp size) env.random) (some (a, m))) :
    Yields (place · c filename size env) (some (fillHole c filename size a m env.memory)) := by
  refine hfind.bind (hnewest.bind ?_)
  simp only [if_neg (Nat.not_lt.mpr hfull)]
  exact hchosen.bind (.pure _)

/-- What `open` can find: nothing, the tail, or a hole where the tail has no room. -/
inductive Search (c : Cells) (hs : List Header) (t : Nat) (filename : Name) (size : Nat) (env : Env) :
    Option Place → Prop
  | nothing : Search c hs t filename size env none
  | newest (habsent : lookup c filename env.beyond (stops getStartSector hs t) = none)
      (hroom : t + roundUp size < getLastAddress) :
      Search c hs t filename size env (some (.newest t (newHeader filename size (t + roundUp size))))
  | hole {a m : Nat} (habsent : lookup c filename env.beyond (stops getStartSector hs t) = none)
      (hgap : Gap c (roundUp size) getStartSector hs t a m)
      (hfull : getLastAddress ≤ plus (roundUp size) t)
      (hchosen : Yields (chooseHole · c (roundUp size) env.random) (some (a, m))) :
      Search c hs t filename size env (some (fillHole c filename size a m env.memory))

theorem place_search {filename : Name} {size : Nat} (env : Env) (hchain : Chain c getStartSector hs t)
    (htail : Tail c t) (hsize : size < 2 ^ 31) :
    ∃ p, Yields (place · c filename size env) p ∧ Search c hs t filename size env p := by
  cases hlookup : lookup c filename env.beyond (stops getStartSector hs t) with
  | some x =>
    have hfind := findFile_yields filename env.beyond hchain htail
    rw [hlookup] at hfind
    exact ⟨none, hfind.bind (.pure _), .nothing⟩
  | none =>
    have hfind := findFile_absent hchain htail hlookup
    have hnewest := newest_yields hchain htail
    by_cases hroom : t + roundUp size < getLastAddress
    · exact ⟨_, place_newest hchain htail hlookup hroom, .newest hlookup hroom⟩
    · have hround := (roundUp_bounds size).2.2
      have hlast := htail.lt_end
      have hfull : getLastAddress ≤ plus (roundUp size) t := by
        rw [plus_of_lt (by omega)]
        omega
      obtain ⟨chosen, hchosen, hgap, -⟩ := chooseHole_yields (roundUp size) hchain htail env.random
      cases chosen with
      | none =>
        refine ⟨none, hfind.bind (hnewest.bind ?_), .nothing⟩
        simp only [if_neg (Nat.not_lt.mpr hfull)]
        exact hchosen.bind (.pure _)
      | some chosen =>
        exact ⟨_, place_chosen hfind hnewest hfull hchosen,
          .hole hlookup (hgap chosen.1 chosen.2 rfl) hfull hchosen⟩

theorem place_yields {filename : Name} {size : Nat} (env : Env)
    (hchain : Chain c getStartSector hs t) (htail : Tail c t) (hsize : size < 2 ^ 31)
    (hwell : ∀ a m, Yields (findFile c filename env.beyond · getStartSector) false →
      getLastAddress ≤ plus (roundUp size) t →
      Yields (chooseHole · c (roundUp size) env.random) (some (a, m)) → MergesWell c (roundUp size) a m) :
    ∃ p, Yields (place · c filename size env) p ∧ ∀ planned, p = some planned →
      lookup c filename env.beyond (stops getStartSector hs t) = none ∧
        Planned c hs t filename size env planned := by
  obtain ⟨p, hplace, hsearch⟩ := place_search env hchain htail hsize
  refine ⟨p, hplace, fun planned heq => ?_⟩
  cases hsearch with
  | nothing => cases heq
  | newest habsent hroom =>
    obtain rfl := Option.some.inj heq
    exact ⟨habsent, .newest hroom⟩
  | hole habsent hgap hfull hchosen =>
    obtain rfl := Option.some.inj heq
    rw [fillHole_eq hgap htail (hwell _ _ (findFile_absent hchain htail habsent) hfull hchosen)]
    exact ⟨habsent, .hole hgap hfull hchosen⟩

theorem Planned.write {f : Flash} {filename : Name} {size : Nat} {env : Env} {p : Place}
    (hf : f.Fine) (htail : Tail f.cells t) (hplanned : Planned f.cells hs t filename size env p) :
    ∃ f' hs' t', Yields (fun fuel => p.write fuel f) (true, f') ∧ f'.Fine ∧
      Placed f.cells hs t p f'.cells hs' t' := by
  obtain ⟨hround, hspace, -⟩ := roundUp_bounds size
  cases hplanned with
  | newest hroom =>
    set h := newHeader filename size (t + roundUp size) with hh
    obtain ⟨f', hwrite, hcells, hf'⟩ := did_writeHeader hf t h
    have hplaced : Placed f.cells hs t (.newest t h) f'.cells (hs ++ [h]) h.next := by
      refine .newest hcells (htail.aligned.add hround) hroom ?_
      simp only [hh, newHeader]
      omega
    refine ⟨f', _, _, ?_, hf', hplaced⟩
    simp only [Place.write, hwrite]
    exact .pure _
  | hole hgap hfull hchosen =>
    have hfit := hgap.fitting htail filename env.memory
    obtain ⟨f', hyields, hf', hfilled⟩ := writeHole_yields hf hfit.fillable
    obtain ⟨pre, run, post, hsplit, hpre, hholes, hpost, -⟩ := hgap
    exact ⟨f', _, _, hyields, hf', .hole hsplit hpre hholes hpost hfit hfilled⟩

theorem Planned.header {filename : Name} {size : Nat} {env : Env} {p : Place}
    (hplanned : Planned c hs t filename size env p) :
    p.header = newHeader filename size p.header.next := by
  cases hplanned <;> rfl

structure Opened (c : Cells) (hs : List Header) (t : Nat) (filename : Name) (size : Int) (env : Env)
    (file : File) (p : Place) (c' : Cells) (hs' : List Header) (t' : Nat) : Prop where
  short : filename.val.length ≤ fsFileNameMaxLenght
  named : filename.val ≠ []
  absent : lookup c filename env.beyond (stops getStartSector hs t) = none
  place : Yields (place · c filename size.toNat env) (some p)
  header : p.header = newHeader filename size.toNat p.header.next
  takes : ∀ a h rest, p = .hole a h rest → ∃ m, TakesHole c filename size env a m
  file : file = ⟨p.address + sizeofHeader, size.toNat, 0xBBBB, 0xAAAA⟩
  placed : Placed c hs t p c' hs' t'

theorem openFile_created {f f' : Flash} {filename : Name} {size : Int} {env : Env} {p : Place}
    (hshort : filename.val.length ≤ fsFileNameMaxLenght) (hnamed : filename.val ≠ []) (hvalid : 0 ≤ size)
    (hplace : Yields (place · f.cells filename size.toNat env) (some p))
    (hwrite : Yields (fun fuel => p.write fuel f) (true, f')) :
    Yields (openFile · f filename .create size env)
      (some ⟨p.address + sizeofHeader, size.toNat, 0xBBBB, 0xAAAA⟩, f') := by
  unfold openFile
  simp only [if_neg (Nat.not_lt.mpr hshort), if_neg hnamed, if_neg (Int.not_lt.mpr hvalid)]
  exact hplace.bind (hwrite.bind (.pure _))

theorem openFile_eq_pointer (fuel : Nat) (f : Flash) (heap : Heap Nat) (filename : Name) (flags : Flags)
    (size : Int) (env : Env) (blocks : Blocks) :
    openFile fuel f filename flags size env =
      (openPointer fuel f heap filename flags size env blocks).map fun r =>
        (r.1.map Pointer.file, r.2.1) := by
  unfold openFile openPointer
  split
  next => rfl
  split
  next => rfl
  split
  next => rfl
  cases flags with
  | create =>
    cases hplace : place fuel f.cells filename size.toNat env with
    | none => rfl
    | some found =>
      cases found with
      | none => rfl
      | some p =>
        cases hwrite : p.write fuel f with
        | none => simp [hwrite]
        | some r =>
          obtain ⟨ok, f'⟩ := r
          cases ok <;> simp [hwrite]
  | read =>
    cases hget : getAddress f.cells filename env.beyond fuel getStartSector with
    | none => rfl
    | some address =>
      simp only [Option.bind_eq_bind, Option.bind_some]
      split <;> rfl
  | other => rfl

theorem openFile_of_pointer {f f' : Flash} {heap heap' : Heap Nat} {filename : Name} {flags : Flags}
    {size : Int} {env : Env} {blocks : Blocks} {p : Pointer}
    (hopen : Yields (openPointer · f heap filename flags size env blocks) (some p, f', heap')) :
    Yields (openFile · f filename flags size env) (some p.file, f') := by
  simp only [openFile_eq_pointer _ f heap filename flags size env blocks]
  exact hopen.map fun r => (r.1.map Pointer.file, r.2.1)

theorem openPointer_created {f f' : Flash} {heap : Heap Nat} {filename : Name} {size : Int} {env : Env}
    {blocks : Blocks} {p : Place} (hshort : filename.val.length ≤ fsFileNameMaxLenght)
    (hnamed : filename.val ≠ []) (hvalid : 0 ≤ size)
    (hplace : Yields (place · f.cells filename size.toNat env) (some p))
    (hwrite : Yields (fun fuel => p.write fuel f) (true, f')) :
    Yields (openPointer · f heap filename .create size env blocks)
      (some ⟨blocks.file, p.address + sizeofHeader, size.toNat, 0xBBBB, 0xAAAA⟩, f',
        p.heap blocks true heap) := by
  unfold openPointer
  simp only [if_neg (Nat.not_lt.mpr hshort), if_neg hnamed, if_neg (Int.not_lt.mpr hvalid)]
  exact hplace.bind (hwrite.bind (.pure _))

theorem openFile_unplaced {f : Flash} {filename : Name} {size : Int} {env : Env}
    (hplace : 0 ≤ size → Yields (place · f.cells filename size.toNat env) none) :
    Yields (openFile · f filename .create size env) (none, f) := by
  by_cases hlong : filename.val.length > fsFileNameMaxLenght
  · simp only [openFile, if_pos hlong]
    exact .pure _
  by_cases hempty : filename.val = []
  · simp only [openFile, if_neg hlong, if_pos hempty]
    exact .pure _
  by_cases hneg : size < 0
  · simp only [openFile, if_neg hlong, if_neg hempty, if_pos hneg]
    exact .pure _
  · simp only [openFile, if_neg hlong, if_neg hempty, if_neg hneg]
    exact (hplace (Int.not_lt.mp hneg)).bind (.pure _)

/-- `open` ends. It returns a file, or it leaves the chip as it is. -/
theorem create_yields {f : Flash} {filename : Name} {size : Int} {env : Env} (hf : f.Fine)
    (hchain : Chain f.cells getStartSector hs t) (htail : Tail f.cells t) (hint : size < 2 ^ 31)
    (hwell : ∀ a m, TakesHole f.cells filename size env a m →
      MergesWell f.cells (roundUp size.toNat) a m) :
    Yields (openFile · f filename .create size env) (none, f) ∨
      ∃ file f' p hs' t', Yields (openFile · f filename .create size env) (some file, f') ∧ f'.Fine ∧
        Opened f.cells hs t filename size env file p f'.cells hs' t' := by
  by_cases hlong : filename.val.length > fsFileNameMaxLenght
  · simp only [openFile, if_pos hlong]
    exact .inl (.pure _)
  by_cases hempty : filename.val = []
  · simp only [openFile, if_neg hlong, if_pos hempty]
    exact .inl (.pure _)
  by_cases hneg : size < 0
  · simp only [openFile, if_neg hlong, if_neg hempty, if_pos hneg]
    exact .inl (.pure _)
  obtain ⟨planned, hplace, hplanned⟩ := place_yields env hchain htail (show size.toNat < 2 ^ 31 by omega)
    fun a m habsent hfull hchosen => hwell a m
      ⟨by omega, hempty, by omega, habsent, ⟨t, newest_yields hchain htail, hfull⟩, hchosen⟩
  cases planned with
  | none => exact .inl (openFile_unplaced fun _ => hplace)
  | some p =>
    obtain ⟨habsent, hplanned⟩ := hplanned p rfl
    obtain ⟨f', hs', t', hwrite, hf', hplaced⟩ := hplanned.write hf htail
    refine .inr ⟨_, f', p, hs', t',
      openFile_created (by omega) hempty (by omega) hplace hwrite, hf',
      ⟨by omega, hempty, habsent, hplace, hplanned.header, fun a h rest heq => ?_, rfl, hplaced⟩⟩
    cases hplanned with
    | newest => cases heq
    | hole hgap hfull hchosen =>
      cases heq
      exact ⟨_, by omega, hempty, by omega, findFile_absent hchain htail habsent,
        ⟨t, newest_yields hchain htail, hfull⟩, hchosen⟩

end

end PasswordManager.FileSystem
