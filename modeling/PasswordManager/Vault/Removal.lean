import PasswordManager.Vault.Display

/-!
# What a removal leaves

`addPassword` does not look for an entry with the same website, and `remove` takes out one entry,
the last that matches.
-/

open Nor

namespace PasswordManager.Vault

open FlashDriver

/-- Nothing is found as `w`, and no line that is printed is one of `w`, whatever the heap holds. -/
def Gone (r : Records) (w : Line) : Prop :=
  r.searchPassword w = none ∧ ∀ line ∈ r.printAll, ∀ heap, (print heap line).1 ≠ w.str

/-- The website is `w`, or `printf` gets a beginning of `w` with no end. -/
def reads (w website : List Byte) : Bool :=
  website = w ∨ 0xFF ∈ website ∧ CString.str 0xFF website <+: w

def carries (w : Line) (t : WPTuple) : Bool := reads w.str t.website.str

/-- A step of the program that does not add `w`, and adds no website that may be printed as `w`. -/
inductive Between (w : Line) : Records → Records → Prop
  | add {r : Records} (website password : Line) (room : r.numOfPass ≠ maxStored)
      (hother : reads w.str website.str = false) :
      Between w r (r.addPassword website password).2
  | remove {r : Records} (website : Line) {i : Nat} (found : r.getPosition website = some i) :
      Between w r (r.remove website).2
  | change {r : Records} (website newPass : Line) {i : Nat} (found : r.getPosition website = some i) :
      Between w r (r.changePassword website newPass).2
  | reload {m memory found : Manager} {f : Flash} {c : Cells} {password : Line}
      (ha : SlotAddress m.address) (hstored : (storeData m.encrypt f).1 = true)
      (hcells : ∀ x, m.address ≤ x → x < m.address + 0x8000 →
        (storeData m.encrypt f).2.cells x = c x)
      (hkey : keyOf password.str = m.key)
      (hopen : reopen memory m.address c password = some (true, found)) :
      Between w m.records found.records

section
variable {r r' : Records} {w : Line}

theorem read_website_iff {t : WPTuple} (ht : t.Terminated) (hother : t.website.str ≠ w.str) :
    (∃ heap, (print heap (printed t)).1 = w.str) ↔
      0xFF ∈ t.website.str ∧ CString.str 0xFF t.website.str <+: w.str := by
  have hreads : (∃ heap, (print heap (printed t)).1 = w.str) ↔
      ∃ behind, (shown t.website).read 0 behind = w.str :=
    ⟨fun ⟨heap, h⟩ => ⟨heap.1, h⟩, fun ⟨behind, h⟩ => ⟨(behind, []), h⟩⟩
  have hended := ended_shown ht.1
  have hends : 0 ∉ w.str := CString.not_mem_str w.field.val
  rw [hreads, CString.Text.exists_read hends, val_shown]
  by_cases hff : 0xFF ∈ t.website.str
  · rw [if_neg fun h => hended.mp h hff]
    exact ⟨fun h => ⟨hff, h⟩, And.right⟩
  · rw [if_pos (hended.mpr hff), CString.str_eq_self hff]
    exact iff_of_false hother fun h => hff h.1

theorem gone_iff (hr : History Edit r) : Gone r w ↔ ∀ t ∈ r.live, carries w t = false := by
  rw [Gone, Records.printAll, searchPassword_eq, Option.map_eq_none_iff, Records.found,
    List.getLast?_eq_none_iff, List.filter_eq_nil_iff]
  simp only [List.mem_map, forall_exists_index, and_imp, forall_apply_eq_imp_iff₂, ofWebsite,
    decide_eq_true_eq, carries, reads, decide_eq_false_iff_not, not_or]
  constructor
  · rintro ⟨hnot, hlines⟩ t ht
    refine ⟨hnot t ht, fun hbegins => ?_⟩
    obtain ⟨heap, hheap⟩ := (read_website_iff (hr.terminated t ht) (hnot t ht)).mpr hbegins
    exact hlines t ht heap hheap
  · intro h
    refine ⟨fun t ht => (h t ht).1, fun t ht heap hheap => (h t ht).2 ?_⟩
    exact (read_website_iff (hr.terminated t ht) (h t ht).1).mp ⟨heap, hheap⟩

theorem gone_remove_iff (hr : History Edit r) (hremoved : (r.remove w).1 = true) :
    History Edit (r.remove w).2 ∧ (Gone (r.remove w).2 w ↔ r.live.countP (carries w) = 1) := by
  cases hpos : r.getPosition w with
  | none =>
    rw [Records.remove_none hpos] at hremoved
    cases hremoved
  | some i =>
    have hedited : History Edit (r.remove w).2 := .edit hr (.remove w hpos)
    obtain ⟨l₁, t, l₂, hlive, rfl, ht, -⟩ := getPosition_some hpos
    have hlt : l₁.length < r.live.length := by simp [hlive]
    have hperm := Lists.cons_swapRemove_perm r.live l₁.length hlt
    have hgone : carries w r.live[l₁.length] = true := by simp [hlive, carries, reads, ht]
    have hcount : r.live.countP (carries w) = (Lists.swapRemove r.live l₁.length).countP (carries w) + 1 := by
      rw [← hperm.countP_eq, List.countP_cons_of_pos hgone]
    refine ⟨hedited, ?_⟩
    rw [gone_iff hedited, (Records.remove_some hpos).2, hcount, Nat.add_eq_right, List.countP_eq_zero]
    simp only [Bool.not_eq_true]

theorem Between.history (hr : History Edit r) (h : Between w r r') : History Edit r' := by
  cases h with
  | add website password room hother => exact .edit hr (.add website password room)
  | remove website found => exact .edit hr (.remove website found)
  | change website newPass found => exact .edit hr (.change website newPass found)
  | reload ha hstored hcells hkey hopen => exact .reload hr ha hstored hcells hkey hopen

theorem Between.gone (hgone : ∀ t ∈ r.live, carries w t = false) (h : Between w r r') :
    ∀ t ∈ r'.live, carries w t = false := by
  cases h with
  | add website password room hother =>
    refine forall_addPassword hgone room ?_
    simpa only [carries, WPTuple.overwrite, str_strcpy, str_addCharacters] using hother
  | remove website found => exact forall_remove hgone found
  | change website newPass found =>
    obtain ⟨l₁, t, l₂, hlive, -, ht, hlater⟩ := getPosition_some found
    exact forall_changePassword hgone ⟨l₁, l₂, hlive, ht, hlater⟩ (hgone t (by simp [hlive]))
  | reload ha hstored hcells hkey hopen =>
    rw [live_of_reload ha hstored hcells hkey hopen]
    exact hgone

/-- From a removal that succeeds until `w` is added again, nothing is found or printed as `w`,
exactly when the entry that went was the only one that could be. -/
theorem remove_removes (hr : History Edit r) (hremoved : (r.remove w).1 = true) :
    (∀ r', Relation.ReflTransGen (Between w) (r.remove w).2 r' → Gone r' w) ↔
      r.live.countP (carries w) = 1 := by
  obtain ⟨hedited, hiff⟩ := gone_remove_iff hr hremoved
  rw [← hiff]
  refine ⟨fun h => h _ .refl, fun h r' hsteps => ?_⟩
  suffices hkept : History Edit r' ∧ ∀ t ∈ r'.live, carries w t = false from (gone_iff hkept.1).mpr hkept.2
  induction hsteps with
  | refl => exact ⟨hedited, (gone_iff hedited).mp h⟩
  | tail _ hstep ih => exact ⟨hstep.history ih.1, hstep.gone ih.2⟩

end

/-- Of two entries with one website a removal takes out the later one. -/
theorem remove_leaves_older :
    History Edit twoPasswords ∧ (twoPasswords.remove (line "v" (by decide))).1 = true ∧
      (twoPasswords.remove (line "v" (by decide))).2.searchPassword (line "v" (by decide)) =
        some (⟨bytes "v", true⟩, ⟨bytes "old", true⟩) ∧
      ¬ Gone (twoPasswords.remove (line "v" (by decide))).2 (line "v" (by decide)) := by
  have hfound : (twoPasswords.remove (line "v" (by decide))).2.searchPassword (line "v" (by decide)) =
      some (⟨bytes "v", true⟩, ⟨bytes "old", true⟩) := by decide +kernel
  refine ⟨history_twoPasswords, by decide +kernel, hfound, fun h => ?_⟩
  have hnone := h.1
  rw [hfound] at hnone
  cases hnone

theorem remove_removes_w :
    (∀ r', Relation.ReflTransGen (Between (line "w" (by decide)))
        (twoPasswords.remove (line "w" (by decide))).2 r' → Gone r' (line "w" (by decide))) ↔
      twoPasswords.live.countP (carries (line "w" (by decide))) = 1 :=
  remove_removes history_twoPasswords (by decide +kernel)

end PasswordManager.Vault
