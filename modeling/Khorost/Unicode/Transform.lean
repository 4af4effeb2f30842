import Mathlib.Algebra.Ring.Nat
import Mathlib.Data.List.Basic

namespace Khorost.Unicode

/-- What the code depends on in a build: whether `sizeof(wchar_t)` is 2, and the
width of `unsigned long`. -/
structure Build where
  shortWchar : Bool
  ulongBits : Nat
  ulong_ge : 32 ≤ ulongBits

/-- `static_cast<wchar_t>`; a unit is the number that its bits give. -/
def Build.wchar (b : Build) (wc : Nat) : Nat := wc % 2 ^ (if b.shortWchar then 16 else 32)

/-- `wchar_t('?')`. -/
def questionMark : Nat := 0x3F

/-- The marks of the first byte, and how many bytes follow it: `shift` is six
times their number. -/
def leadByte (wc : Nat) : UInt8 × Nat :=
  if wc < 0x800 then ((0xFF : UInt8) <<< 6, 1)
  else if wc < 0x10000 then ((0xFF : UInt8) <<< 5, 2)
  else if wc < 0x200000 then ((0xFF : UInt8) <<< 4, 3)
  else if wc < 0x4000000 then ((0xFF : UInt8) <<< 3, 4)
  else ((0xFF : UInt8) <<< 2, 5)

/-- The loop over `shift`. -/
def encodeBits (wc : Nat) : Nat → UInt8 → List UInt8
  | 0, c => [c ||| UInt8.ofNat ((wc >>> 0) &&& 0x3F)]
  | n + 1, c => (c ||| UInt8.ofNat ((wc >>> (6 * (n + 1))) &&& 0x3F)) :: encodeBits wc n 0x80

def encodeSequence (wc : Nat) : List UInt8 := encodeBits wc (leadByte wc).2 (leadByte wc).1

/-- The code point of a pair of surrogates. -/
def joinSurrogates (wc lo : Nat) : Nat := 0x10000 + (((wc &&& 0x3FF) <<< 10) ||| (lo &&& 0x3FF))

/-- `utf8_encode`. Where the unit behind a high surrogate does not go with it, the
jump to `over` is to that unit's own turn. -/
def utf8Encode (b : Build) : List Nat → List UInt8
  | [] => []
  | [wc] =>
    if wc < 0x80 then [UInt8.ofNat wc]
    else if b.shortWchar ∧ 0xD800 ≤ wc ∧ wc < 0xE000 then
      if 0xDC00 ≤ wc then [UInt8.ofNat questionMark] else []
    else encodeSequence wc
  | wc :: lo :: units =>
    if wc < 0x80 then UInt8.ofNat wc :: utf8Encode b (lo :: units)
    else if b.shortWchar ∧ 0xD800 ≤ wc ∧ wc < 0xE000 then
      if 0xDC00 ≤ wc then UInt8.ofNat questionMark :: utf8Encode b (lo :: units)
      else if 0xDC00 ≤ lo ∧ wc < 0xE000 then
        encodeSequence (joinSurrogates wc lo) ++ utf8Encode b units
      else UInt8.ofNat questionMark :: utf8Encode b (lo :: units)
    else encodeSequence wc ++ utf8Encode b (lo :: units)

/-- What a byte that is not ASCII says as a first byte: how many bytes follow,
and the bits it has itself. `none` is an invalid start code. -/
def startCode (wc : UInt8) : Option (Nat × Nat) :=
  if 0xC0 = (0xE0 &&& wc) then some (1, (wc &&& ~~~0xE0).toNat)
  else if 0xE0 = (0xF0 &&& wc) then some (2, (wc &&& ~~~0xF0).toNat)
  else if 0xF0 = (0xF8 &&& wc) then some (3, (wc &&& ~~~0xF8).toNat)
  else if 0xF8 = (0xFC &&& wc) then some (4, (wc &&& ~~~0xFC).toNat)
  else if 0xFC = (0xFE &&& wc) then some (5, (wc &&& ~~~0xFE).toNat)
  else none

/-- What is written when the bytes of a sequence have been read. -/
def decodeEnd (b : Build) (wc : Nat) : List Nat :=
  let wc := if 0x80000000 &&& wc ≠ 0 then questionMark else wc
  if b.shortWchar ∧ 0xFFFF < wc then
    let wc := wc - 0x10000
    [b.wchar (0xD800 ||| ((wc >>> 10) &&& 0x3FF)), b.wchar (0xDC00 ||| (wc &&& 0x3FF))]
  else [b.wchar wc]

/-- A first byte: what is written, and `cnt` and `wc` if more bytes are to come.
A sequence whose first byte has no bits of its own is taken for an overlong one. -/
def decodeStart (b : Build) (byte : UInt8) : List Nat × Option (Nat × Nat) :=
  if byte &&& 0x80 ≠ 0 then
    match startCode byte with
    | none => ([questionMark], none)
    | some (cnt, wc) => ([], some (cnt, if wc = 0 then 2 ^ b.ulongBits - 1 else wc))
  else ([b.wchar byte.toNat], none)

/-- A byte behind a first byte. One that does not belong there is a first byte itself. -/
def decodeNext (b : Build) (cnt wc : Nat) (c : UInt8) : List Nat × Option (Nat × Nat) :=
  if 0x80 ≠ (0xC0 &&& c) then
    let next := decodeStart b c
    (b.wchar wc :: next.1, next.2)
  else
    let wc := (wc <<< 6) % 2 ^ b.ulongBits ||| (c &&& ~~~0xC0).toNat
    if cnt - 1 = 0 then (decodeEnd b wc, none) else ([], some (cnt - 1, wc))

/-- `utf8_decode`, with `cnt` and `wc` in the middle of a sequence. A sequence
that the end of the input breaks off leaves nothing. -/
def decodeLoop (b : Build) : Option (Nat × Nat) → List UInt8 → List Nat
  | _, [] => []
  | pending, c :: bytes =>
    let step := match pending with
      | none => decodeStart b c
      | some (cnt, wc) => decodeNext b cnt wc c
    step.1 ++ decodeLoop b step.2 bytes

def utf8Decode (b : Build) (bytes : List UInt8) : List Nat := decodeLoop b none bytes

end Khorost.Unicode
