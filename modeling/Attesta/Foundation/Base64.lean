import Mathlib.Data.List.Basic

/-! Base64 with the standard alphabet and padding. -/

namespace Base64

/-- The character of a six-bit value. -/
def digit (n : Nat) : Char :=
  if n < 26 then Char.ofNat (65 + n)
  else if n < 52 then Char.ofNat (71 + n)
  else if n < 62 then Char.ofNat (n - 4)
  else if n = 62 then '+'
  else '/'

/-- Four characters for every three bytes; the last group is padded. -/
def encode : List UInt8 → List Char
  | [] => []
  | [a] => [digit (a.toNat / 4), digit (a.toNat % 4 * 16), '=', '=']
  | [a, b] =>
      [digit (a.toNat / 4), digit (a.toNat % 4 * 16 + b.toNat / 16),
        digit (b.toNat % 16 * 4), '=']
  | a :: b :: c :: rest =>
      digit (a.toNat / 4) :: digit (a.toNat % 4 * 16 + b.toNat / 16)
        :: digit (b.toNat % 16 * 4 + c.toNat / 64) :: digit (c.toNat % 64) :: encode rest

/-- The first six bits make the first character, whatever follows. -/
theorem encode_cons (first : UInt8) (rest : List UInt8)
    : ∃ chars, encode (first :: rest) = digit (first.toNat / 4) :: chars := by
  cases rest with
  | nil => exact ⟨_, rfl⟩
  | cons second rest =>
      cases rest with
      | nil => exact ⟨_, rfl⟩
      | cons third rest => exact ⟨_, rfl⟩

end Base64
