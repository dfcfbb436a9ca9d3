import Mathlib.Data.Fintype.Basic
import Attesta.Core.Merkle

/-! Hexadecimal rendering and parsing as used by every byte field of the API: lower-case
digits with one `0x` in front on the way out, any number of `0x` stripped on the way in.
-/

namespace Attesta.Hex

open Attesta.Merkle

/-- One lower-case digit. -/
def digit (n : Nat) : Char :=
  if n < 10 then Char.ofNat (48 + n) else Char.ofNat (87 + n)

/-- The value of one digit in either case. -/
def value? (c : Char) : Option Nat :=
  let code := c.toNat
  if 48 ≤ code ∧ code ≤ 57 then some (code - 48)
  else if 97 ≤ code ∧ code ≤ 102 then some (code - 87)
  else if 65 ≤ code ∧ code ≤ 70 then some (code - 55)
  else none

/-- `hex::encode`. -/
def encode (bytes : List UInt8) : List Char :=
  bytes.flatMap (fun byte => [digit (byte.toNat / 16), digit (byte.toNat % 16)])

/-- `hex::decode`: an even number of digits, two for each byte. -/
def decode : List Char → Option (List UInt8)
  | [] => some []
  | [_] => none
  | high :: low :: rest => do
      let high ← value? high
      let low ← value? low
      let bytes ← decode rest
      some (UInt8.ofNat (16 * high + low) :: bytes)

/-- `s.trim_start_matches("0x")`. -/
def trimStart0x : List Char → List Char
  | '0' :: 'x' :: rest => trimStart0x rest
  | chars => chars

/-- `hex_bytes`: decode after stripping the marker. -/
def hexBytes (s : String) : Option (List UInt8) := decode (trimStart0x s.toList)

/-- `hex0x`: a node as the API prints it. -/
def hex0x (node : Node) : String := String.ofList ('0' :: 'x' :: encode node.bytes)

theorem value?_digit {n : Nat} (h : n < 16) : value? (digit n) = some n := by
  have all : ∀ n : Fin 16, value? (digit n) = some n.val := by decide
  exact all ⟨n, h⟩

/-- Decoding undoes encoding, by induction on the bytes. -/
theorem decode_encode (bytes : List UInt8) : decode (encode bytes) = some bytes := by
  induction bytes with
  | nil => rfl
  | cons byte rest ih =>
      have high : byte.toNat / 16 < 16 := by
        have bound := byte.toNat_lt
        omega
      have low : byte.toNat % 16 < 16 := Nat.mod_lt _ (by omega)
      have whole : 16 * (byte.toNat / 16) + byte.toNat % 16 = byte.toNat :=
        Nat.div_add_mod byte.toNat 16
      change decode (digit (byte.toNat / 16) :: digit (byte.toNat % 16) :: encode rest) = _
      simp only [decode, value?_digit high, value?_digit low, ih, whole, bind, Option.bind,
        UInt8.ofNat_toNat]

theorem encode_injective {left right : List UInt8} (h : encode left = encode right)
    : left = right := by
  have decoded := congrArg decode h
  rw [decode_encode, decode_encode] at decoded
  exact Option.some.inj decoded

/-- Two nodes print alike only if they are equal. -/
theorem hex0x_injective {left right : Node} (h : hex0x left = hex0x right) : left = right := by
  have chars := String.ofList_injective h
  exact Node.bytes_injective (encode_injective (List.cons.inj (List.cons.inj chars).2).2)

theorem digit_ne_x (n : Nat) (h : n < 16) : digit n ≠ 'x' := by
  have all : ∀ n : Fin 16, digit n ≠ 'x' := by decide
  exact all ⟨n, h⟩

/-- Encoded bytes never look like a marker. -/
theorem trimStart0x_encode (bytes : List UInt8) : trimStart0x (encode bytes) = encode bytes := by
  cases bytes with
  | nil => rfl
  | cons byte rest =>
      have low : byte.toNat % 16 < 16 := Nat.mod_lt _ (by omega)
      have second := digit_ne_x _ low
      change trimStart0x (digit (byte.toNat / 16) :: digit (byte.toNat % 16) :: encode rest) = _
      rw [trimStart0x]
      · rfl
      · intro more same
        exact second (List.cons.inj (List.cons.inj same).2).1

/-- What the API prints, its byte fields read back. -/
theorem hexBytes_hex0x (node : Node) : hexBytes (hex0x node) = some node.bytes := by
  have chars : (hex0x node).toList = '0' :: 'x' :: encode node.bytes := by
    rw [hex0x, String.toList_ofList]
  rw [hexBytes, chars, trimStart0x, trimStart0x_encode, decode_encode]

end Attesta.Hex
