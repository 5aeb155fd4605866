import PasswordManager.FlashWrite
import PasswordManager.FileSystem.Header

/-!
# Headers, written and read back

The writer takes a header apart into half-words and bytes, the reader puts it together from words.
-/

open Nor

namespace PasswordManager.FileSystem

open FlashDriver

theorem leaves_writeHeader (f : Flash) (address : Nat) (header : Header) :
    Leaves (writeHeader f address header) (burn f.cells address header.bytes) := by
  refine (leaves_writeWord f _ _).andThen fun f₁ hc₁ => ?_
  refine (leaves_writeWord f₁ _ _).andThen fun f₂ hc₂ => ?_
  refine (leaves_writeShort f₂ _ _).andThen fun f₃ hc₃ => ?_
  refine (leaves_writeShort f₃ _ _).andThen fun f₄ hc₄ => ?_
  have hlast := leaves_write f₄ (address + 12) header.filename.val
  rw [hc₄, hc₃, hc₂, hc₁] at hlast
  rw [Header.bytes, Header.fields, burn_append, burn_append, burn_append, burn_append]
  exact hlast

/-- All that `readHeader`, `isValid` and the walks of the list read back is what was given to
`writeHeader`, whatever it was. -/
theorem header_read_back {f g : Flash} {address : Nat} (next size : BitVec 32) (uid gid : BitVec 16)
    (filename : Buf 24) (hblank : ∀ x, address ≤ x → x < address + 36 → f.cells x = blank)
    (hwrite : writeHeader f address ⟨next.toNat, size.toNat, uid, gid, filename⟩ = (true, g)) :
    readHeader g.cells address = ⟨next.toNat, size.toNat, uid, gid, filename⟩ ∧
      (isValid g.cells address = true ↔ filename.val.headD 0 ≠ 0) ∧
      word g.cells address = next.toNat ∧
      ∀ x, x < address ∨ address + 36 ≤ x → g.cells x = f.cells x := by
  have hleaves := leaves_writeHeader f address ⟨next.toNat, size.toNat, uid, gid, filename⟩
  unfold Leaves at hleaves
  rw [hwrite] at hleaves
  have hcells := hleaves rfl
  have hread : readHeader g.cells address = ⟨next.toNat, size.toNat, uid, gid, filename⟩ := by
    apply readHeader_eq next.isLt size.isLt
    rw [hcells]
    exact holds_burn fun x hx hx' => hblank x hx (by rwa [Header.length_bytes] at hx')
  refine ⟨hread, ?_, congrArg Header.next hread, fun x hx => ?_⟩
  · rw [isValid_iff, hread]
    rfl
  · rw [hcells]
    exact burn_outside (by rwa [Header.length_bytes])

/-- A name of bytes that are all clear or all zero, and a header that points behind the flash. -/
theorem header_read_back_clear :
    readHeader (writeHeader .cleared 0x080A0000 ⟨0xFFFFFFFE, 0, 0xFFFF, 0x8000,
        ⟨List.replicate 12 0xFF ++ List.replicate 12 0, rfl⟩⟩).2.cells 0x080A0000 =
      ⟨0xFFFFFFFE, 0, 0xFFFF, 0x8000, ⟨List.replicate 12 0xFF ++ List.replicate 12 0, rfl⟩⟩ :=
  (@header_read_back .cleared _ 0x080A0000 0xFFFFFFFE 0 0xFFFF 0x8000
    ⟨List.replicate 12 0xFF ++ List.replicate 12 0, rfl⟩ (fun _ _ _ => rfl) rfl).1

end PasswordManager.FileSystem
