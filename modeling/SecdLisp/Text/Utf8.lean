/-!
# Bytes as text

Text leaves the program as UTF-8. Bytes that are not UTF-8 are refused with the place and the
extent of the first broken sequence.
-/

namespace SecdLisp

abbrev Bytes := List UInt8

namespace Utf8

/-- Where bytes stop being UTF-8: how many bytes before the place are good, and how many bytes
the broken sequence there has. The extent is `none` if the input ends inside a character. -/
structure Fault where
  start : Nat
  extent : Option Nat
  deriving DecidableEq, Repr, Inhabited

def Fault.message : Fault → String
  | ⟨start, some n⟩ => s!"invalid utf-8 sequence of {n} bytes from index {start}"
  | ⟨start, none⟩ => s!"incomplete utf-8 byte sequence from index {start}"

/-- The ranges that the bytes after a first byte must lie in; `none` if no character starts
with that byte. The narrower ranges keep out overlong forms, surrogates and numbers past
the last code point. -/
def following? (b : UInt8) : Option (List (UInt8 × UInt8)) :=
  let any : UInt8 × UInt8 := (0x80, 0xbf)
  if b < 0x80 then some []
  else if b < 0xc2 then none
  else if b < 0xe0 then some [any]
  else if b = 0xe0 then some [(0xa0, 0xbf), any]
  else if b = 0xed then some [(0x80, 0x9f), any]
  else if b < 0xf0 then some [any, any]
  else if b = 0xf0 then some [(0x90, 0xbf), any, any]
  else if b < 0xf4 then some [any, any, any]
  else if b = 0xf4 then some [(0x80, 0x8f), any, any]
  else none

/-- The first fault, looking from inside a character that starts at `start`, of which `seen`
bytes were read and the given ranges are still due. -/
def faultFrom (start seen : Nat) : List (UInt8 × UInt8) → Bytes → Option Fault
  | [], [] => none
  | _ :: _, [] => some ⟨start, none⟩
  | [], b :: rest =>
    match following? b with
    | none => some ⟨start + seen, some 1⟩
    | some due => faultFrom (start + seen) 1 due rest
  | (lo, hi) :: due, b :: rest =>
    if lo ≤ b ∧ b ≤ hi then faultFrom start (seen + 1) due rest
    else some ⟨start, some seen⟩

/-- The first fault of a byte string, if it has one. -/
def fault? (bytes : Bytes) : Option Fault := faultFrom 0 0 [] bytes

def encode (s : String) : Bytes := s.toUTF8.data.toList

def decode (bytes : Bytes) : Except Fault String :=
  match String.fromUTF8? ⟨bytes.toArray⟩ with
  | some s => .ok s
  | none => .error ((fault? bytes).getD ⟨0, none⟩)

@[simp] theorem decode_encode (s : String) : decode (encode s) = .ok s := by
  have valid : (ByteArray.mk s.toByteArray.data).IsValidUTF8 := s.isValidUTF8
  simp [decode, encode, String.fromUTF8?, String.fromUTF8, dif_pos valid]

theorem eq_encode_of_decode {bytes : Bytes} {s : String} (h : decode bytes = .ok s) :
    bytes = encode s := by
  unfold decode at h
  split at h
  next t ht =>
    cases h
    rw [String.fromUTF8?] at ht
    split at ht
    · cases ht
      simp [encode, String.fromUTF8]
    · cases ht
  next => cases h

/-- Decoding takes exactly the bytes of the text. -/
theorem decode_eq_ok_iff {bytes : Bytes} {s : String} :
    decode bytes = .ok s ↔ bytes = encode s :=
  ⟨eq_encode_of_decode, fun h => h ▸ decode_encode s⟩

end Utf8

end SecdLisp
