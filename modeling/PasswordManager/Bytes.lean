import Mathlib.Data.List.TakeDrop
import Mathlib.Tactic.Common

/-! # Bytes and fixed buffers -/

namespace PasswordManager

abbrev Byte := BitVec 8

def ascii (c : Char) : Byte := BitVec.ofNat 8 c.toNat

def bytes (word : String) : List Byte := word.toList.map ascii

/-- A C array of `n` bytes. -/
abbrev Buf (n : Nat) := { l : List Byte // l.length = n }

theorem Buf.ext {n : Nat} {a b : Buf n} (h : a.val = b.val) : a = b := Subtype.ext h

end PasswordManager
