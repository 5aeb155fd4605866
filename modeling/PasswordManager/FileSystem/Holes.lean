import PasswordManager.FileSystem.Chain

/-!
# The scan for holes

The holes that stand next to each other are joined until the new file fits. Every address that the
scan finds is the start of such a run of holes, and where there is one it finds something.
-/

namespace PasswordManager.FileSystem

open FlashDriver Fuel

structure Holes (c : Cells) (a : Nat) (run : List Header) (m : Nat) : Prop where
  chain : Chain c a run m
  first : ∀ h ∈ run, h.first = 0
  nonempty : run ≠ []

/-- In the chain from `a`, holes stand from `x` to `m` that have room for `size` bytes. -/
def Gap (c : Cells) (size a : Nat) (hs : List Header) (t x m : Nat) : Prop :=
  ∃ pre run post, hs = pre ++ (run ++ post) ∧ Chain c a pre x ∧ Holes c x run m ∧
    Chain c m post t ∧ size ≤ m - x

def Fits (c : Cells) (size a : Nat) (hs : List Header) (t x : Nat) : Prop := ∃ m, Gap c size a hs t x m

/-- No hole comes next. -/
def HolesEnd (post : List Header) : Prop := ∀ h ∈ post.head?, h.first ≠ 0

theorem minus_of_le {a b : Nat} (h : a ≤ b) (hb : b < 2 ^ 32) : minus b a = b - a := by
  unfold minus
  omega

theorem plus_of_lt {a b : Nat} (h : a + b < 2 ^ 32) : plus a b = a + b := by
  unfold plus
  omega

section
variable {c : Cells} (size : Nat) {a b m t : Nat} {h : Header} {hs run post : List Header} {holes : List Nat}

theorem Fits.append {size : Nat} {pre : List Header} (hpre : Chain c a pre b) {x : Nat}
    (hfits : Fits c size b hs t x) : Fits c size a (pre ++ hs) t x := by
  obtain ⟨m, pre', run, post, rfl, hpre', hrest⟩ := hfits
  exact ⟨m, pre ++ pre', run, post, by rw [List.append_assoc], hpre.append hpre', hrest⟩

theorem fits_nil {x : Nat} : ¬ Fits c size a [] t x := by
  rintro ⟨m, pre, run, post, hsplit, -, hholes, -⟩
  obtain ⟨-, hrest⟩ := List.append_eq_nil_iff.mp hsplit.symm
  exact hholes.nonempty (List.append_eq_nil_iff.mp hrest).1

/-- A run of holes that does not begin here begins later. -/
theorem Fits.tail {size : Nat} {x : Nat} (hfits : Fits c size a (h :: hs) t x)
    (hx : h.first = 0 → ∀ run post m, h :: hs = run ++ post → Holes c a run m → m - a < size) :
    Fits c size h.next hs t x := by
  obtain ⟨m, pre, run, post, hsplit, hpre, hholes, hpost, hroom⟩ := hfits
  cases pre with
  | nil =>
    obtain rfl : a = x := hpre
    have hhead : h.first = 0 := by
      cases run with
      | nil => exact absurd rfl hholes.nonempty
      | cons h' run =>
        obtain ⟨rfl, -⟩ := List.cons_eq_cons.mp hsplit
        exact hholes.first h List.mem_cons_self
    exact absurd hroom (Nat.not_le.mpr (hx hhead run post m hsplit hholes))
  | cons h' pre =>
    obtain ⟨rfl, rfl⟩ := List.cons_eq_cons.mp hsplit
    exact ⟨m, pre, run, post, rfl, hpre.2.2.2.2, hholes, hpost, hroom⟩

/-- Runs of holes from one address end where the longest of them does. -/
theorem Holes.le_of_end {run' post' : List Header} {m' : Nat} (hholes : Holes c a run m)
    (hend : HolesEnd post) (hholes' : Holes c a run' m') (hsplit : run ++ post = run' ++ post') :
    m' ≤ m := by
  rcases List.append_eq_append_iff.mp hsplit with ⟨later, hrun, hpost⟩ | ⟨later, hrun, -⟩
  · cases later with
    | nil =>
      rw [List.append_nil] at hrun
      rw [hrun] at hholes'
      exact Nat.le_of_eq (hholes'.chain.end_unique hholes.chain)
    | cons h later =>
      have hfirst := hholes'.first h (by rw [hrun]; simp)
      exact absurd hfirst (hend h (by rw [hpost]; rfl))
  · have hchain := hholes.chain
    rw [hrun] at hchain
    obtain ⟨b, hchain', hlater⟩ := chain_append.mp hchain
    rw [hholes'.chain.end_unique hchain']
    exact hlater.le

/-- Where the holes from `a` on are too short, it takes other ones. -/
theorem Fits.after {size : Nat} {x : Nat} (hholes : Holes c a run m) (hend : HolesEnd post)
    (hshort : m - a < size) (hfits : Fits c size a (run ++ post) t x) : Fits c size m post t x := by
  induction run generalizing a with
  | nil => exact absurd rfl hholes.nonempty
  | cons h run ih =>
    have hlater : Fits c size h.next (run ++ post) t x := by
      refine hfits.tail fun _ run' post' m' hsplit hholes' => ?_
      have hle := hholes.le_of_end hend hholes' hsplit
      omega
    obtain ⟨-, -, hnext, -, hrest⟩ := hholes.chain
    cases run with
    | nil =>
      obtain rfl : h.next = m := hrest
      exact hlater
    | cons h' run =>
      refine ih ⟨hrest, fun h₁ hh₁ => hholes.first h₁ (List.mem_cons_of_mem _ hh₁), by simp⟩ ?_ hlater
      omega

theorem Chain.isValid_iff (hchain : Chain c a (h :: hs) b) : isValid c a = true ↔ h.first ≠ 0 := by
  rw [FileSystem.isValid_iff, hchain.2.1]

theorem Chain.isValid_eq_false (hchain : Chain c a (h :: hs) b) : isValid c a = false ↔ h.first = 0 := by
  rw [FileSystem.isValid_eq_false, hchain.2.1]

theorem Tail.isValid (htail : Tail c t) : isValid c t = true := by
  have hlast := htail.lt_end
  rw [FileSystem.isValid_iff, first_readHeader, htail.blank _ (by omega) (by omega)]
  decide

theorem Chain.next_bounds (hchain : Chain c a (h :: hs) t) (htail : Tail c t) :
    a < h.next ∧ h.next < 0x080DFFDC := by
  have hlast := hchain.2.2.2.2.lt_last htail
  have hnext := hchain.2.2.1
  rw [getLastAddress_val] at hlast
  omega

theorem Holes.word_bounds (hholes : Holes c a run m) : a < word c a ∧ word c a ≤ m := by
  obtain ⟨hchain, -, hne⟩ := hholes
  cases run with
  | nil => exact absurd rfl hne
  | cons h run =>
    obtain ⟨-, hread, hnext, -, hrest⟩ := hchain
    have hle := hrest.le
    rw [word_eq_next hread]
    omega

theorem joinHoles_yields (hrun : Holes c a run m) (hpost : Chain c m post t) (htail : Tail c t) :
    ∃ run' post' m', post = run' ++ post' ∧ Holes c a (run ++ run') m' ∧ Chain c m' post' t ∧
      (m' - a < size → HolesEnd post') ∧
      Yields (fun fuel => joinHoles c size a fuel m (m - a)) (m' - a) := by
  induction post generalizing run m with
  | nil =>
    obtain rfl : m = t := hpost
    refine ⟨[], [], m, rfl, by simpa using hrun, rfl, fun _ h hh => (by cases hh),
      .last fun fuel => ?_⟩
    rw [joinHoles, if_neg (by simp [htail.isValid])]
  | cons h post ih =>
    by_cases hgoes : h.first = 0 ∧ m - a < size
    · have hle := hrun.chain.le
      obtain ⟨hlow, hhigh⟩ := hpost.next_bounds htail
      have hlonger : Holes c a (run ++ [h]) h.next := by
        obtain ⟨haligned, hread, hnext, hsize, hrest⟩ := hpost
        refine ⟨hrun.chain.append ⟨haligned, hread, hnext, hsize, rfl⟩, fun h' hh' => ?_, by simp⟩
        rcases List.mem_append.mp hh' with hh' | hh'
        · exact hrun.first h' hh'
        · rw [List.mem_singleton.mp hh', hgoes.1]
      obtain ⟨run', post', m', rfl, hholes, hchain, hend, hyields⟩ := ih hlonger hpost.2.2.2.2
      refine ⟨h :: run', post', m', rfl, by simpa using hholes, hchain, hend,
        .succ (fun fuel => ?_) hyields⟩
      rw [joinHoles, if_pos ⟨hpost.ne_blank htail, hpost.isValid_eq_false.mpr hgoes.1, hgoes.2,
        hpost.lt_last htail⟩, word_eq_next hpost.2.1, minus_of_le (by omega) (by omega)]
    · refine ⟨[], h :: post, m, rfl, by simpa using hrun, hpost, fun hshort h' hh' => ?_,
        .last fun fuel => ?_⟩
      · obtain rfl := Option.some.inj hh'
        exact fun hhole => hgoes ⟨hhole, hshort⟩
      rw [joinHoles, if_neg]
      rintro ⟨-, hhole, hlt, -⟩
      exact hgoes ⟨hpost.isValid_eq_false.mp hhole, hlt⟩

theorem joinHoles_start (hchain : Chain c a (h :: hs) t) (htail : Tail c t) (hhole : h.first = 0) :
    ∃ run post m, h :: hs = run ++ post ∧ Holes c a run m ∧ Chain c m post t ∧
      (m - a < size → HolesEnd post) ∧
      Yields (fun fuel => joinHoles c size a fuel a (minus (word c a) a)) (m - a) := by
  obtain ⟨hlow, hhigh⟩ := hchain.next_bounds htail
  have hone : Holes c a [h] h.next := by
    obtain ⟨haligned, hread, hnext, hsize, hrest⟩ := hchain
    exact ⟨⟨haligned, hread, hnext, hsize, rfl⟩, by simpa using hhole, by simp⟩
  rw [word_eq_next hchain.2.1, minus_of_le (by omega) (by omega)]
  by_cases hlt : h.next - a < size
  · obtain ⟨run, post, m, rfl, hholes, hpost, hend, hyields⟩ :=
      joinHoles_yields size hone hchain.2.2.2.2 htail
    refine ⟨h :: run, post, m, rfl, hholes, hpost, hend, .succ (fun fuel => ?_) hyields⟩
    rw [joinHoles, if_pos ⟨hchain.ne_blank htail, hchain.isValid_eq_false.mpr hhole, hlt,
      hchain.lt_last htail⟩, word_eq_next hchain.2.1, minus_of_le (by omega) (by omega)]
  · refine ⟨[h], hs, h.next, rfl, hone, hchain.2.2.2.2, fun hshort => absurd hshort hlt,
      .last fun fuel => ?_⟩
    rw [joinHoles, if_neg fun hguard => hlt hguard.2.2.1]

/-- Where the holes from here on are too short, the next header can be passed over as well: it belongs
to the same holes, or it is the file behind them. -/
theorem Fits.passed {size : Nat} {x : Nat} (hsplit : h :: hs = run ++ post) (hholes : Holes c a run m)
    (hend : HolesEnd post) (hshort : m - a < size) (hfits : Fits c size a (h :: hs) t x) :
    ∃ h' rest, hs = h' :: rest ∧ Fits c size h'.next rest t x := by
  have hafter : Fits c size m post t x := Fits.after hholes hend hshort (hsplit ▸ hfits)
  cases run with
  | nil => exact absurd rfl hholes.nonempty
  | cons h₁ run =>
    obtain ⟨rfl, rfl⟩ := List.cons_eq_cons.mp hsplit
    have hrun := hholes.chain.2.2.2.2
    cases run with
    | nil =>
      obtain rfl : h.next = m := hrun
      cases post with
      | nil => exact absurd hafter (fits_nil size)
      | cons h₂ post => exact ⟨h₂, post, rfl, hafter.tail fun hzero => absurd hzero (hend h₂ rfl)⟩
    | cons h₂ run => exact ⟨h₂, run ++ post, rfl, hafter.append hrun.2.2.2.2⟩

/-- A visit moves on along the chain, and it only adds an address where the file fits. If it adds
none, a place for the file is behind the header that is passed over next. -/
theorem visit_yields (hchain : Chain c a hs t) (htail : Tail c t) (holes : List Nat) :
    ∃ pre rest b holes', hs = pre ++ rest ∧ Chain c a pre b ∧ Chain c b rest t ∧
      Yields (fun fuel => visit c size fuel a holes) (b, holes') ∧
      (∀ x ∈ holes', x ∈ holes ∨ Fits c size a hs t x) ∧ (holes ≠ [] → holes' ≠ []) ∧
      ∀ x, Fits c size a hs t x →
        holes' ≠ [] ∨ ∃ h rest', rest = h :: rest' ∧ Fits c size h.next rest' t x := by
  by_cases hvalid : isValid c a = true
  · refine ⟨[], hs, a, holes, rfl, rfl, hchain, ?_, fun x hx => .inl hx, id, fun x hx => .inr ?_⟩
    · simp only [visit, hvalid, Bool.true_eq_false, if_false]
      exact .pure _
    · cases hs with
      | nil => exact absurd hx (fits_nil size)
      | cons h hs => exact ⟨h, hs, rfl, hx.tail fun hzero => absurd hzero (hchain.isValid_iff.mp hvalid)⟩
  · cases hs with
    | nil =>
      obtain rfl : a = t := hchain
      exact absurd htail.isValid hvalid
    | cons h hs =>
      have hhole : h.first = 0 := by
        by_contra hlive
        exact hvalid (hchain.isValid_iff.mpr hlive)
      obtain ⟨run, post, m, hsplit, hholes, hpost, hend, hyields⟩ := joinHoles_start size hchain htail hhole
      have hle := hholes.chain.le
      have hlast := hpost.lt_end htail
      have hplus : plus a (m - a) = m := by rw [plus_of_lt (by omega)]; omega
      by_cases hfits : size ≤ m - a
      · refine ⟨run, post, m, holes ++ [a], hsplit, hholes.chain, hpost, ?_, fun x hx => ?_, by simp,
          fun x hx => .inl (by simp)⟩
        · simp only [visit, if_pos (hchain.isValid_eq_false.mpr hhole)]
          refine hyields.bind (G := fun sizeHole _ => if size ≤ sizeHole ∧ plus a sizeHole < getLastAddress
            then some (plus a sizeHole, holes ++ [a]) else some (word c a, holes)) ?_
          rw [hplus, if_pos ⟨hfits, hpost.lt_last htail⟩]
          exact .pure _
        · rcases List.mem_append.mp hx with hx | hx
          · exact .inl hx
          · rw [List.mem_singleton.mp hx]
            exact .inr ⟨m, [], run, post, hsplit, rfl, hholes, hpost, hfits⟩
      · obtain ⟨haligned, hread, hnext, hsize, hrest⟩ := id hchain
        refine ⟨[h], hs, h.next, holes, rfl, ⟨haligned, hread, hnext, hsize, rfl⟩, hrest, ?_,
          fun x hx => .inl hx, id, fun x hx => .inr ?_⟩
        · simp only [visit, if_pos (hchain.isValid_eq_false.mpr hhole)]
          refine hyields.bind (G := fun sizeHole _ => if size ≤ sizeHole ∧ plus a sizeHole < getLastAddress
            then some (plus a sizeHole, holes ++ [a]) else some (word c a, holes)) ?_
          rw [if_neg fun hroom => hfits hroom.1, word_eq_next hread]
          exact .pure _
        · exact hx.passed hsplit hholes (hend (Nat.not_le.mp hfits)) (Nat.not_le.mp hfits)

theorem findHoles_yields (hchain : Chain c a hs t) (htail : Tail c t) (holes : List Nat) :
    ∃ found, Yields (fun fuel => findHoles c size fuel a holes) found ∧
      (∀ x ∈ found, x ∈ holes ∨ Fits c size a hs t x) ∧
      (holes ≠ [] ∨ (∃ x, Fits c size a hs t x) → found ≠ []) := by
  induction hn : hs.length using Nat.strong_induction_on generalizing a hs holes with
  | h n ih =>
  obtain ⟨pre, rest, b, holes', rfl, hpre, hrest, hyields, hadded, hkept, hlater⟩ :=
    visit_yields size hchain htail holes
  cases rest with
  | nil =>
    obtain rfl : b = t := hrest
    refine ⟨holes', .succ (fun fuel => rfl) (hyields.bind ?_), hadded, ?_⟩
    · simp only [htail.word, ne_eq, not_true_eq_false, false_and, if_false]
      exact .pure _
    · rintro (hne | ⟨x, hx⟩)
      · exact hkept hne
      · rcases hlater x hx with hne | ⟨h, rest', heq, -⟩
        · exact hne
        · cases heq
  | cons h rest =>
    obtain ⟨haligned, hread, hnext, hsize, hlast⟩ := id hrest
    have hlen : rest.length < n := by
      rw [← hn, List.length_append, List.length_cons]
      omega
    obtain ⟨found, hfound, hmem, hsome⟩ := ih _ hlen hlast holes' rfl
    refine ⟨found, .succ (fun fuel => rfl) (hyields.bind ?_), fun x hx => ?_, fun hreason => hsome ?_⟩
    · simp only [word_eq_next hread]
      simp only [if_pos (show h.next ≠ fsBlank ∧ h.next < getLastAddress from
        ⟨hlast.ne_blank htail, hlast.lt_last htail⟩)]
      exact hfound
    · rcases hmem x hx with hx | hx
      · exact hadded x hx
      · have hone : Chain c b [h] h.next := ⟨haligned, hread, hnext, hsize, rfl⟩
        exact .inr ((hx.append hone).append hpre)
    · rcases hreason with hne | ⟨x, hx⟩
      · exact .inl (hkept hne)
      · rcases hlater x hx with hne | ⟨h', rest', heq, hx'⟩
        · exact .inl hne
        · obtain ⟨rfl, rfl⟩ := List.cons_eq_cons.mp heq
          exact .inr ⟨x, hx'⟩

theorem endOfHole_from {done rest : List Header} {p : Nat} (hdone : Chain c a done p)
    (hrest : Chain c p rest m) (hne : rest ≠ []) (hm : m < 2 ^ 32) (hroom : size ≤ m - a) :
    ∃ rest₁ rest₂ m₁, rest = rest₁ ++ rest₂ ∧ rest₁ ≠ [] ∧ Chain c p rest₁ m₁ ∧ Chain c m₁ rest₂ m ∧
      size ≤ m₁ - a ∧ Yields (endOfHole c size a · p) m₁ := by
  induction rest generalizing done p with
  | nil => exact absurd rfl hne
  | cons h rest ih =>
    obtain ⟨haligned, hread, hnext, hsize, hlater⟩ := hrest
    have hle := hdone.le
    have hle' := hlater.le
    have hone : Chain c p [h] h.next := ⟨haligned, hread, hnext, hsize, rfl⟩
    by_cases hlt : h.next - a < size
    · have hmore : rest ≠ [] := by
        rintro rfl
        have heq : h.next = m := hlater
        omega
      obtain ⟨rest₁, rest₂, m₁, rfl, -, h₁, h₂, hroom₁, hyields⟩ := ih (hdone.append hone) hlater hmore
      refine ⟨h :: rest₁, rest₂, m₁, rfl, by simp, ⟨haligned, hread, hnext, hsize, h₁⟩, h₂, hroom₁,
        .succ (fun fuel => ?_) hyields⟩
      simp only [endOfHole]
      rw [word_eq_next hread, minus_of_le (by omega) (by omega), if_pos hlt]
    · refine ⟨[h], rest, h.next, rfl, by simp, hone, hlater, by omega, .last fun fuel => ?_⟩
      simp only [endOfHole]
      rw [word_eq_next hread, minus_of_le (by omega) (by omega), if_neg hlt]

theorem endOfHole_yields {x : Nat} (hfits : Fits c size a hs t x) (htail : Tail c t) :
    ∃ m, Gap c size a hs t x m ∧ Yields (endOfHole c size x · x) m := by
  obtain ⟨m, pre, run, post, rfl, hpre, hholes, hpost, hroom⟩ := hfits
  have hlast := hpost.lt_end htail
  obtain ⟨run₁, run₂, m₁, rfl, hne, h₁, h₂, hroom₁, hyields⟩ :=
    endOfHole_from size (show Chain c x [] x from rfl) hholes.chain hholes.nonempty (by omega) hroom
  refine ⟨m₁, ⟨pre, run₁, run₂ ++ post, by rw [List.append_assoc], hpre,
    ⟨h₁, fun h hh => hholes.first h (List.mem_append_left _ hh), hne⟩, h₂.append hpost, hroom₁⟩, hyields⟩

theorem chooseHole_yields (hchain : Chain c getStartSector hs t) (htail : Tail c t) (random : Nat) :
    ∃ chosen, Yields (chooseHole · c size random) chosen ∧
      (∀ x m, chosen = some (x, m) → Gap c size getStartSector hs t x m) ∧
      (chosen = none → ∀ x, ¬ Fits c size getStartSector hs t x) := by
  obtain ⟨found, hyields, hmem, hsome⟩ := findHoles_yields size hchain htail []
  cases found with
  | nil => exact ⟨none, hyields.bind (.pure _), by simp, fun _ x hx => hsome (.inr ⟨x, hx⟩) rfl⟩
  | cons hole holes =>
    have hfits : Fits c size getStartSector hs t
        ((hole :: holes).getD ((random &&& 0x7FFFFFFF) % (hole :: holes).length) hole) := by
      have hlt := Nat.mod_lt (random &&& 0x7FFFFFFF) (show 0 < (hole :: holes).length by simp)
      rw [List.getD_eq_getElem?_getD, List.getElem?_eq_getElem hlt, Option.getD_some]
      simpa using hmem _ (List.getElem_mem hlt)
    obtain ⟨m, hgap, hend⟩ := endOfHole_yields size hfits htail
    refine ⟨_, hyields.bind (hend.bind (.pure _)), fun x m' heq => ?_, fun hnone => by cases hnone⟩
    cases heq
    exact hgap

end

end PasswordManager.FileSystem
