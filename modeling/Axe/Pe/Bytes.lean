import Axe.Lib.Checked

/-!
# Reading numbers and texts from a file

Offsets come from 32-bit fields and short loops, so no sum of offsets leaves `usize`.
-/
namespace Axe.Pe

open Checked (Fault slice)

/-- The number that little-endian bytes stand for. -/
def fromLeBytes (bytes : List UInt8) : Nat := bytes.foldr (fun b n => b.toNat + 256 * n) 0

def readLe (width : Nat) (text : String) (bytes : List UInt8) (offset : Nat) : Except Fault Nat :=
  if offset + width ≤ bytes.length then .ok (fromLeBytes ((bytes.drop offset).take width))
  else .error (.error text)

def readU16 (bytes : List UInt8) (offset : Nat) : Except Fault Nat :=
  readLe 2 "read_u16 out of bounds" bytes offset

def readU32 (bytes : List UInt8) (offset : Nat) : Except Fault Nat :=
  readLe 4 "read_u32 out of bounds" bytes offset

def readU64 (bytes : List UInt8) (offset : Nat) : Except Fault Nat :=
  readLe 8 "read_u64 out of bounds" bytes offset

/-- `unwrap_or(0)` of a read. -/
def orZero (r : Except Fault Nat) : Nat := r.toOption.getD 0

def u16At (bytes : List UInt8) (offset : Nat) : Nat := orZero (readU16 bytes offset)

def u32At (bytes : List UInt8) (offset : Nat) : Nat := orZero (readU32 bytes offset)

def u64At (bytes : List UInt8) (offset : Nat) : Nat := orZero (readU64 bytes offset)

/-- The bytes that may follow a first byte, as a range, and how many follow in all. -/
def utf8Lead (b : UInt8) : Option (UInt8 × UInt8 × Nat) :=
  if 0xC2 ≤ b ∧ b ≤ 0xDF then some (0x80, 0xBF, 1)
  else if b = 0xE0 then some (0xA0, 0xBF, 2)
  else if b = 0xED then some (0x80, 0x9F, 2)
  else if 0xE1 ≤ b ∧ b ≤ 0xEF then some (0x80, 0xBF, 2)
  else if b = 0xF0 then some (0x90, 0xBF, 3)
  else if 0xF1 ≤ b ∧ b ≤ 0xF3 then some (0x80, 0xBF, 3)
  else if b = 0xF4 then some (0x80, 0x8F, 3)
  else none

/-- The bits that a first byte with so many followers adds to its character. -/
def utf8LeadBits (b : UInt8) (followers : Nat) : Nat := b.toNat % 2 ^ (6 - followers)

/-- The longest run of followers that fit, at most `count`; only the first has a range of its
own. -/
def utf8Followers (lo hi : UInt8) : (count : Nat) → List UInt8 → List UInt8
  | 0, _ => []
  | _, [] => []
  | count + 1, b :: rest =>
    if lo ≤ b ∧ b ≤ hi then b :: utf8Followers 0x80 0xBF count rest else []

/-- `fuel` bytes are decoded at most; a byte or a cut sequence that fits nowhere becomes one
replacement character. -/
def lossyChars : (fuel : Nat) → List UInt8 → List Char
  | 0, _ => []
  | _, [] => []
  | fuel + 1, b :: rest =>
    if b < 0x80 then Char.ofNat b.toNat :: lossyChars fuel rest
    else
      match utf8Lead b with
      | none => Char.ofNat 0xFFFD :: lossyChars fuel rest
      | some (lo, hi, count) =>
        let followers := utf8Followers lo hi count rest
        let decoded := Char.ofNat <|
          if followers.length = count then
            followers.foldl (fun n f => n * 64 + f.toNat % 64) (utf8LeadBits b count)
          else 0xFFFD
        decoded :: lossyChars fuel (rest.drop followers.length)

def fromUtf8Lossy (bytes : List UInt8) : String := String.ofList (lossyChars bytes.length bytes)

/-- The first zero byte from an offset on, or the end of the file. -/
def cStringEnd (bytes : List UInt8) (start : Nat) : Nat :=
  start + ((bytes.drop start).takeWhile (· ≠ 0)).length

def readCString (bytes : List UInt8) (start : Nat) : Option String :=
  if bytes.length ≤ start then none
  else some (fromUtf8Lossy ((bytes.drop start).take (cStringEnd bytes start - start)))

variable {bytes : List UInt8} {offset width start : Nat} {text : String}

theorem fromLeBytes_lt (bytes : List UInt8) : fromLeBytes bytes < 256 ^ bytes.length := by
  induction bytes with
  | nil => exact Nat.one_pos
  | cons b rest ih =>
    have hb : b.toNat < 256 := b.toNat_lt
    have hcons : fromLeBytes (b :: rest) = b.toNat + 256 * fromLeBytes rest := rfl
    rw [hcons, List.length_cons, pow_succ]
    omega

/-- A read inside the file gives what the file has there. -/
theorem readLe_eq_ok (h : offset + width ≤ bytes.length) :
    readLe width text bytes offset = .ok (orZero (readLe width text bytes offset)) := by
  rw [readLe, if_pos h]
  rfl

theorem readU32_eq_ok (h : offset + 4 ≤ bytes.length) :
    readU32 bytes offset = .ok (u32At bytes offset) := readLe_eq_ok h

theorem noPanic_readLe : Checked.NoPanic (readLe width text bytes offset) := by
  rw [readLe]
  by_cases h : offset + width ≤ bytes.length
  · rw [if_pos h]
    exact Checked.noPanic_ok _
  · rw [if_neg h]
    exact Checked.noPanic_text text

theorem eq_of_readLe {n : Nat} (h : readLe width text bytes offset = .ok n) :
    n = orZero (readLe width text bytes offset) := by
  rw [h]
  rfl

/-- The end of a text lies inside the file unless the text starts behind it. -/
theorem cStringEnd_le (h : start ≤ bytes.length) : cStringEnd bytes start ≤ bytes.length := by
  have htake := (List.takeWhile_sublist (l := bytes.drop start) (· ≠ 0)).length_le
  rw [List.length_drop] at htake
  rw [cStringEnd]
  omega

end Axe.Pe
