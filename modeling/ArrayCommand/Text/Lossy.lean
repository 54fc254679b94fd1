/-
Bytes read as text, whatever they are.

Bytes that encode no character are shown by a mark: one mark for every stretch that begins like an
encoded character and breaks off, and one for every byte that begins none.
-/

namespace ArrayCommand.Text

def replacement : Char := '�'

/-- What the first byte of a character tells: the bits it contributes, how many bytes follow, and
the bounds of the next one. -/
structure Lead where
  bits : Nat
  more : Nat
  low : Nat := 0x80
  high : Nat := 0xBF
deriving DecidableEq, Repr

def lead (b : Nat) : Option Lead :=
  if b < 0x80 then some ⟨b, 0, 0x80, 0xBF⟩
  else if b < 0xC2 then none
  else if b < 0xE0 then some ⟨b - 0xC0, 1, 0x80, 0xBF⟩
  else if b = 0xE0 then some ⟨0, 2, 0xA0, 0xBF⟩
  else if b = 0xED then some ⟨0xD, 2, 0x80, 0x9F⟩
  else if b < 0xF0 then some ⟨b - 0xE0, 2, 0x80, 0xBF⟩
  else if b = 0xF0 then some ⟨0, 3, 0x90, 0xBF⟩
  else if b < 0xF4 then some ⟨b - 0xF0, 3, 0x80, 0xBF⟩
  else if b = 0xF4 then some ⟨4, 3, 0x80, 0x8F⟩
  else none

/-- The character that bytes complete, and how many of them belong to it or to what broke off. -/
def complete : (bits more low high : Nat) → List UInt8 → Char × Nat
  | bits, 0, _, _, _ => (Char.ofNat bits, 0)
  | _, _ + 1, _, _, [] => (replacement, 0)
  | bits, more + 1, low, high, b :: bytes =>
    if low ≤ b.toNat && b.toNat ≤ high then
      let (c, n) := complete (bits * 64 + (b.toNat - 0x80)) more 0x80 0xBF bytes
      (c, n + 1)
    else (replacement, 0)

def lossyChars : List UInt8 → List Char
  | [] => []
  | b :: bytes =>
    match lead b.toNat with
    | none => replacement :: lossyChars bytes
    | some l =>
      let r := complete l.bits l.more l.low l.high bytes
      r.1 :: lossyChars (bytes.drop r.2)
termination_by bytes => bytes.length

def lossy (bytes : List UInt8) : String := String.ofList (lossyChars bytes)

def bytesOf (text : String) : String :=
  String.ofList (text.toUTF8.toList.map fun b => Char.ofNat b.toNat)

def toBytes (cs : List Char) : List UInt8 := cs.map fun c => c.toNat.toUInt8

def ofBytes (bytes : String) : String := lossy (toBytes bytes.toList)

end ArrayCommand.Text
