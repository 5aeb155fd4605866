import PasswordManager.Vault.History

/-!
# Removing one website and finding another

A removal moves the last entry to the front, and a search takes the last entry that matches.
-/

namespace PasswordManager.Vault

def ofWebsite (website : Line) (t : WPTuple) : Bool := t.website.str = website.str

/-- The entry that a search for the website finds. -/
def Records.found (r : Records) (website : Line) : Option WPTuple :=
  (r.live.filter (ofWebsite website)).getLast?

/-- The removal of `w` moves the last entry, one of `v`, in front of another entry of `v` with
another password. -/
def Overtakes (r : Records) (w v : Line) : Prop :=
  ∃ l₁ x l₂ y t, r.live = l₁ ++ x :: l₂ ++ [y] ∧ x.website.str = w.str ∧
    (∀ t' ∈ l₂, t'.website.str ≠ w.str) ∧ y.website.str = v.str ∧
    (l₂.filter (ofWebsite v)).getLast? = some t ∧ t.password.str ≠ y.password.str

/-- No byte 0xFF, so that `printf` does not read the heap. -/
def Plain (t : WPTuple) : Prop := 0xFF ∉ t.website.str ∧ 0xFF ∉ t.password.str

theorem searchPassword_eq (r : Records) (website : Line) :
    r.searchPassword website = (r.found website).map printed := by
  rw [Records.found, ← Lists.getElem?_lastIdx?, Records.searchPassword]
  have hpos : r.getPosition website = Lists.lastIdx? (ofWebsite website) r.live :=
    r.getPosition_eq website
  rw [hpos]
  cases h : Lists.lastIdx? (ofWebsite website) r.live with
  | none => rfl
  | some i =>
    have hi := Lists.lastIdx?_lt h
    rw [Records.length_live] at hi
    rw [Option.bind_some, r.getElem?_live hi]

theorem Records.found_mem {r : Records} {website : Line} {t : WPTuple} (h : r.found website = some t) :
    t ∈ r.live ∧ t.website.str = website.str := by
  obtain ⟨ht, hsite⟩ := List.mem_filter.mp (List.mem_of_getLast? h)
  exact ⟨ht, of_decide_eq_true hsite⟩

/-! ## What is written for two entries -/

/-- Two fields are written alike, whatever the heap holds, exactly when they have one string and no
byte 0xFF. -/
theorem read_shown_iff {f g : Field} (hf : 0 ∈ f.val) (hg : 0 ∈ g.val) :
    (∀ heap heap', (shown f).read 0 heap' = (shown g).read 0 heap) ↔ f.str = g.str ∧ 0xFF ∉ g.str := by
  constructor
  · intro h
    have hgff := (ended_shown hg).mp
      (CString.Text.ended_of_read (x := 1) (by decide) ((h [1] []).symm.trans (h [] [])))
    have hfff := (ended_shown hf).mp
      (CString.Text.ended_of_read (x := 1) (by decide) ((h [] [1]).trans (h [] []).symm))
    have heq := h [] []
    rw [read_shown hf hfff, read_shown hg hgff] at heq
    exact ⟨heq, hgff⟩
  · rintro ⟨heq, hff⟩ heap heap'
    rw [read_shown hf (heq ▸ hff), read_shown hg hff, heq]

theorem print_iff {t y : WPTuple} (ht : t.Terminated) (hy : y.Terminated)
    (hsite : t.website.str = y.website.str) :
    (∀ heap heap', print heap' (printed t) = print heap (printed y)) ↔
      t.password.str = y.password.str ∧ Plain y := by
  have hwebsite := read_shown_iff ht.1 hy.1
  have hpassword := read_shown_iff ht.2 hy.2
  constructor
  · intro h
    obtain ⟨-, hw⟩ := hwebsite.mp fun heap heap' => congrArg Prod.fst (h (heap, []) (heap', []))
    obtain ⟨heq, hp⟩ := hpassword.mp fun heap heap' => congrArg Prod.snd (h ([], heap) ([], heap'))
    exact ⟨heq, hw, hp⟩
  · rintro ⟨heq, hw, hp⟩ heap heap'
    exact Prod.ext (hwebsite.mpr ⟨hsite, hw⟩ heap.1 heap'.1) (hpassword.mpr ⟨heq, hp⟩ heap.2 heap'.2)

theorem print_password_iff {t y : WPTuple} (ht : t.Terminated) (hy : y.Terminated) :
    (∀ heap heap', (print heap' (printed t)).2 = (print heap (printed y)).2) ↔
      t.password.str = y.password.str ∧ 0xFF ∉ y.password.str := by
  rw [← read_shown_iff ht.2 hy.2]
  exact ⟨fun h heap heap' => h ([], heap) ([], heap'), fun h heap heap' => h heap.2 heap'.2⟩

/-! ## A removal -/

section
variable {r : Records} {w v : Line} {l₁ l₂ : List WPTuple} {x y : WPTuple}

theorem filter_remove (hvw : v.str ≠ w.str) (hlive : r.live = l₁ ++ x :: l₂ ++ [y])
    (hx : x.website.str = w.str) (hlater : ∀ t' ∈ l₂ ++ [y], t'.website.str ≠ w.str) :
    r.live.filter (ofWebsite v) =
        (l₁.filter (ofWebsite v) ++ l₂.filter (ofWebsite v)) ++ [y].filter (ofWebsite v) ∧
      (r.remove w).2.live.filter (ofWebsite v) =
        l₁.filter (ofWebsite v) ++ ([y].filter (ofWebsite v) ++ l₂.filter (ofWebsite v)) := by
  have hxv : ofWebsite v x = false := by simp [ofWebsite, hx, Ne.symm hvw]
  have hlive' : r.live = l₁ ++ x :: (l₂ ++ [y]) := by simp [hlive]
  have hpos := getPosition_of_selects hlive' hx hlater
  rw [(Records.remove_some hpos).2, hlive, Lists.swapRemove_concat]
  rw [List.set_append_right _ _ (Nat.le_refl _), Nat.sub_self, List.set_cons_zero]
  simp only [List.filter_append, List.filter_cons, hxv]
  simp only [Bool.false_eq_true, if_false, List.filter_nil, List.append_assoc, true_and]
  split <;> rfl

theorem overtakes_iff (hlive : r.live = l₁ ++ x :: l₂ ++ [y]) (hx : x.website.str = w.str)
    (hlater : ∀ t' ∈ l₂ ++ [y], t'.website.str ≠ w.str) :
    Overtakes r w v ↔ y.website.str = v.str ∧
      ∃ t, (l₂.filter (ofWebsite v)).getLast? = some t ∧ t.password.str ≠ y.password.str := by
  constructor
  · rintro ⟨l₁', x', l₂', y', t, hlive', hx', hlater', hy, ht, hne⟩
    obtain ⟨heq, hlast⟩ := List.append_inj' (hlive.symm.trans hlive') rfl
    obtain rfl : y = y' := by simpa using hlast
    have hsplit : r.live = l₁ ++ x :: (l₂ ++ [y]) := by rw [hlive, List.append_assoc]; rfl
    have hsplit' : r.live = l₁' ++ x' :: (l₂' ++ [y]) := by rw [hlive', List.append_assoc]; rfl
    have hpos := getPosition_of_selects hsplit hx hlater
    have hpos' := getPosition_of_selects hsplit' hx' fun t' ht' => by
      rcases List.mem_append.mp ht' with ht' | ht'
      · exact hlater' t' ht'
      · exact hlater t' (List.mem_append_right _ ht')
    rw [hpos] at hpos'
    obtain ⟨-, htail⟩ := List.append_inj heq (Option.some.inj hpos')
    obtain ⟨-, rfl⟩ := List.cons.inj htail
    exact ⟨hy, t, ht, hne⟩
  · rintro ⟨hy, t, ht, hne⟩
    exact ⟨l₁, x, l₂, y, t, hlive, hx, fun t' ht' => hlater t' (List.mem_append_left _ ht'), hy, ht, hne⟩

end

/-- After the removal a search for `v` finds the same entry, or the one that was overtaken. -/
theorem found_remove (r : Records) {w v : Line} (hvw : v.str ≠ w.str) :
    (r.remove w).2.found v = r.found v ∧ ¬ Overtakes r w v ∨
      ∃ t y, (r.remove w).2.found v = some t ∧ r.found v = some y ∧ t ∈ r.live ∧
        (Overtakes r w v ↔ t.password.str ≠ y.password.str) := by
  cases hpos : r.getPosition w with
  | none =>
    refine .inl ⟨by rw [Records.remove_none hpos], ?_⟩
    rintro ⟨l₁, x, l₂, y, t, hlive, hx, -⟩
    exact getPosition_none.mp hpos (has_iff.mpr ⟨x, by simp [hlive], hx⟩)
  | some i =>
    obtain ⟨l₁, x, l, hlive, rfl, hx, hlater⟩ := getPosition_some hpos
    rcases List.eq_nil_or_concat l with rfl | ⟨l₂, y, rfl⟩
    · -- The last entry is the one that goes.
      have hxv : ofWebsite v x = false := by simp [ofWebsite, hx, Ne.symm hvw]
      refine .inl ⟨?_, ?_⟩
      · rw [Records.found, Records.found, (Records.remove_some hpos).2, hlive, Lists.swapRemove_concat,
          List.set_eq_of_length_le (Nat.le_refl _)]
        simp [hxv]
      · rintro ⟨l₁', x', l₂', y', t, hlive', -, -, hy, -⟩
        obtain ⟨-, hlast⟩ := List.append_inj' (hlive.symm.trans hlive') rfl
        obtain rfl : x = y' := by simpa using hlast
        exact hvw (hy.symm.trans hx)
    · rw [List.concat_eq_append] at hlive hlater
      have hlive' : r.live = l₁ ++ x :: l₂ ++ [y] := by rw [hlive, List.append_assoc]; rfl
      obtain ⟨hbefore, hafter⟩ := filter_remove hvw hlive' hx hlater
      rw [overtakes_iff hlive' hx hlater, Records.found, Records.found, hbefore, hafter]
      by_cases hy : y.website.str = v.str
      · have hyv : [y].filter (ofWebsite v) = [y] := by simp [ofWebsite, hy]
        rw [hyv, List.getLast?_concat]
        cases hlast : (l₂.filter (ofWebsite v)).getLast? with
        | none => exact .inl (by simp [List.getLast?_append, List.getLast?_cons, hlast])
        | some t =>
          have ht : t ∈ l₂ := (List.mem_filter.mp (List.mem_of_getLast? hlast)).1
          exact .inr ⟨t, y, by simp [List.getLast?_append, List.getLast?_cons, hlast], rfl,
            by simp [hlive', ht], by simp [hy]⟩
      · have hyv : [y].filter (ofWebsite v) = [] := by simp [ofWebsite, hy]
        exact .inl (by simp [hyv, hy])

/-- Whatever is read of the line that a search for `v` writes: it is the same after the removal of
another website exactly when no entry of `v` is overtaken by one with another password and what is read
of the entry that is found does not depend on the heap. -/
theorem remove_keeps {β γ : Type} {reads : γ → Text × Text → β} {Settled : WPTuple → Prop}
    (hreads : ∀ t y, t.Terminated → y.Terminated → t.website.str = y.website.str →
      ((∀ heap heap', reads heap' (printed t) = reads heap (printed y)) ↔
        t.password.str = y.password.str ∧ Settled y))
    {r : Records} (hr : History Edit r) {w v : Line} (hvw : v.str ≠ w.str) :
    (∀ heap heap', ((r.remove w).2.searchPassword v).map (reads heap') =
        (r.searchPassword v).map (reads heap)) ↔
      ¬ Overtakes r w v ∧ ∀ y, r.found v = some y → Settled y := by
  have hterminated := hr.terminated
  rw [searchPassword_eq, searchPassword_eq]
  rcases found_remove r hvw with ⟨hsame, hnot⟩ | ⟨t, y, hafter, hbefore, htmem, hovertakes⟩
  · rw [hsame]
    cases hfound : r.found v with
    | none => simp [hnot]
    | some y =>
      have hy := hterminated y (Records.found_mem hfound).1
      simp only [Option.map_some, Option.some.injEq, hreads y y hy hy rfl, forall_eq', hnot,
        not_false_eq_true, true_and]
  · obtain ⟨hymem, hysite⟩ := Records.found_mem hbefore
    have ht := hterminated t htmem
    have htsite : t.website.str = v.str := (Records.found_mem hafter).2
    simp only [hafter, hbefore, Option.map_some, Option.some.injEq, forall_eq', hovertakes, not_not,
      hreads t y ht (hterminated y hymem) (htsite.trans hysite.symm)]

/-- The password that a search for `v` shows is the same after the removal of another website, whatever
the heap holds, exactly when no entry of `v` is overtaken by one with another password and the password
that is found has no byte 0xFF. For the whole line the website must not have one either. -/
theorem remove_frame {r : Records} (hr : History Edit r) {w v : Line} (hvw : v.str ≠ w.str) :
    ((∀ heap heap', ((r.remove w).2.searchPassword v).map (fun line => (print heap' line).2) =
        (r.searchPassword v).map fun line => (print heap line).2) ↔
      ¬ Overtakes r w v ∧ ∀ y, r.found v = some y → 0xFF ∉ y.password.str) ∧
    ((∀ heap heap', ((r.remove w).2.searchPassword v).map (print heap') =
        (r.searchPassword v).map (print heap)) ↔
      ¬ Overtakes r w v ∧ ∀ y, r.found v = some y → Plain y) :=
  ⟨remove_keeps (fun _ _ ht hy _ => print_password_iff ht hy) hr hvw,
    remove_keeps (fun _ _ ht hy hsite => print_iff ht hy hsite) hr hvw⟩

theorem remove_frame_twoPasswords :
    ((∀ heap heap', ((twoPasswords.remove (line "w" (by decide))).2.searchPassword
          (line "v" (by decide))).map (fun line => (print heap' line).2) =
        (twoPasswords.searchPassword (line "v" (by decide))).map fun line => (print heap line).2) ↔
      ¬ Overtakes twoPasswords (line "w" (by decide)) (line "v" (by decide)) ∧
        ∀ y, twoPasswords.found (line "v" (by decide)) = some y → 0xFF ∉ y.password.str) ∧
    ((∀ heap heap', ((twoPasswords.remove (line "w" (by decide))).2.searchPassword
          (line "v" (by decide))).map (print heap') =
        (twoPasswords.searchPassword (line "v" (by decide))).map (print heap)) ↔
      ¬ Overtakes twoPasswords (line "w" (by decide)) (line "v" (by decide)) ∧
        ∀ y, twoPasswords.found (line "v" (by decide)) = some y → Plain y) :=
  remove_frame history_twoPasswords (by decide)

/-- The password that was added last is shown before the removal of `w`, and the older one after
it. -/
theorem remove_shows_older :
    History Edit twoPasswords ∧ (line "v" (by decide)).str ≠ (line "w" (by decide)).str ∧
      ∀ heap, (twoPasswords.searchPassword (line "v" (by decide))).map (print heap) =
          some (bytes "v", bytes "new") ∧
        ((twoPasswords.remove (line "w" (by decide))).2.searchPassword (line "v" (by decide))).map
          (print heap) = some (bytes "v", bytes "old") := by
  refine ⟨history_twoPasswords, by decide, fun heap => ?_⟩
  have hbefore : twoPasswords.searchPassword (line "v" (by decide)) =
      some (⟨bytes "v", true⟩, ⟨bytes "new", true⟩) := by decide +kernel
  have hafter : (twoPasswords.remove (line "w" (by decide))).2.searchPassword (line "v" (by decide)) =
      some (⟨bytes "v", true⟩, ⟨bytes "old", true⟩) := by decide +kernel
  rw [hbefore, hafter]
  exact ⟨rfl, rfl⟩

end PasswordManager.Vault
