import Tagdata.Library.Frames
import Tagdata.Model.Collections

/-!
# The key codecs

`typed/codecs.rs`: the codecs for numbers, strings, bytes and pairs of strings.  A string is the
sequence of its UTF-8 bytes, which is also what strings are compared by; `String::from_utf8` is
modelled with the position and the length that its error reports.
-/

set_option autoImplicit false

namespace Tagdata.Model

open Tagdata.Library

/-! ## Strings -/

/-- `Utf8Error`. -/
structure Utf8Error where
  validUpTo : Nat
  errorLen : Option Nat
deriving DecidableEq, Repr

/-- The text of a `Utf8Error`. -/
def Utf8Error.text (e : Utf8Error) : String :=
  match e.errorLen with
  | some n => "invalid utf-8 sequence of " ++ toString n ++ " bytes from index " ++
      toString e.validUpTo
  | none => "incomplete utf-8 byte sequence from index " ++ toString e.validUpTo

/-- `utf8_char_width`. -/
def utf8CharWidth (b : UInt8) : Nat :=
  if b < 0x80 then 1
  else if 0xC2 ≤ b ∧ b ≤ 0xDF then 2
  else if 0xE0 ≤ b ∧ b ≤ 0xEF then 3
  else if 0xF0 ≤ b ∧ b ≤ 0xF4 then 4
  else 0

/-- A continuation byte. -/
def isContinuation (b : UInt8) : Bool := 0x80 ≤ b && b ≤ 0xBF

/-- The second byte that may follow the first byte of a long character. -/
def isSecond (first second : UInt8) : Bool :=
  if first = 0xE0 then 0xA0 ≤ second && second ≤ 0xBF
  else if first = 0xED then 0x80 ≤ second && second ≤ 0x9F
  else if first = 0xF0 then 0x90 ≤ second && second ≤ 0xBF
  else if first = 0xF4 then 0x80 ≤ second && second ≤ 0x8F
  else isContinuation second

/-- `run_utf8_validation`, from a place in the bytes on. -/
def validateUtf8 (index : Nat) : Bytes → Except Utf8Error Unit
  | [] => .ok ()
  | first :: rest =>
      match utf8CharWidth first, rest with
      | 1, rest => validateUtf8 (index + 1) rest
      | 2, [] => .error ⟨index, none⟩
      | 2, second :: rest =>
          if ¬ isContinuation second then .error ⟨index, some 1⟩
          else validateUtf8 (index + 2) rest
      | 3, [] => .error ⟨index, none⟩
      | 3, [second] => .error ⟨index, if isSecond first second then none else some 1⟩
      | 3, second :: third :: rest =>
          if ¬ isSecond first second then .error ⟨index, some 1⟩
          else if ¬ isContinuation third then .error ⟨index, some 2⟩
          else validateUtf8 (index + 3) rest
      | 4, [] => .error ⟨index, none⟩
      | 4, [second] => .error ⟨index, if isSecond first second then none else some 1⟩
      | 4, [second, third] =>
          .error ⟨index, if ¬ isSecond first second then some 1
            else if ¬ isContinuation third then some 2 else none⟩
      | 4, second :: third :: fourth :: rest =>
          if ¬ isSecond first second then .error ⟨index, some 1⟩
          else if ¬ isContinuation third then .error ⟨index, some 2⟩
          else if ¬ isContinuation fourth then .error ⟨index, some 3⟩
          else validateUtf8 (index + 4) rest
      | _, _ => .error ⟨index, some 1⟩

/-- `String`: bytes that are UTF-8. -/
structure Text where
  bytes : Bytes
  valid : validateUtf8 0 bytes = .ok ()

/-- Strings are ordered as their bytes. -/
instance : LT Text := ⟨fun a b => a.bytes < b.bytes⟩

/-- `String::from_utf8`, with the error that the codecs return. -/
def Text.fromUtf8 (bytes : Bytes) : Except CodecError Text :=
  match h : validateUtf8 0 bytes with
  | .ok _ => .ok ⟨bytes, h⟩
  | .error e => .error (.decode e.text)

/-! ## The codecs -/

/-- `KeyCodec`. -/
structure KeyCodec (K : Type) where
  orderPreserving : Bool
  encodeKey : K → Except CodecError Bytes
  decodeKey : Bytes → Except CodecError K

/-- `fixed`: the bytes, when there are as many as asked for. -/
def fixed (n : Nat) (bytes : Bytes) (name : String) : Except CodecError Bytes :=
  if bytes.length = n then .ok bytes
  else .error (.decode (name ++ " must contain " ++ toString n ++ " bytes"))

/-- `U64Codec`. -/
def u64Codec : KeyCodec UInt64 where
  orderPreserving := true
  encodeKey key := .ok (beBytes 8 key.toNat)
  decodeKey bytes := do
    let bytes ← fixed 8 bytes "u64 key"
    return UInt64.ofNat (ofBeBytes bytes)

/-- `1_u64 << 63`. -/
def signBit : UInt64 := (1 : UInt64) <<< 63

/-- `I64Codec`: the sign bit is flipped. -/
def i64Codec : KeyCodec Int64 where
  orderPreserving := true
  encodeKey key := .ok (beBytes 8 (key.toUInt64 ^^^ signBit).toNat)
  decodeKey bytes := do
    let bytes ← fixed 8 bytes "i64 key"
    return (UInt64.ofNat (ofBeBytes bytes) ^^^ signBit).toInt64

/-- `StringCodec`. -/
def stringCodec : KeyCodec Text where
  orderPreserving := true
  encodeKey key := .ok key.bytes
  decodeKey := Text.fromUtf8

/-- `BytesCodec`. -/
def bytesKeyCodec : KeyCodec Bytes where
  orderPreserving := true
  encodeKey key := .ok key
  decodeKey bytes := .ok bytes

/-- `escape`. -/
def escape (value : Text) : Bytes := frame 0 255 value.bytes

/-- The loop of `unescape`, from a place in the bytes on. -/
def unescapeLoop (result : Bytes) (index : Nat) : Bytes → Except CodecError (Text × Nat)
  | [] => .error (.decode "unterminated compound key")
  | byte :: rest =>
      if byte ≠ 0 then unescapeLoop (result ++ [byte]) (index + 1) rest
      else
        match rest with
        | [] => .error (.decode "invalid compound key escape")
        | next :: rest =>
            if next = 255 then unescapeLoop (result ++ [0]) (index + 2) rest
            else if next = 0 then do
              let value ← Text.fromUtf8 result
              return (value, index + 2)
            else .error (.decode "invalid compound key escape")

/-- `unescape`: the string, and the number of bytes that were read. -/
def unescape (bytes : Bytes) : Except CodecError (Text × Nat) := unescapeLoop [] 0 bytes

/-- `StringPairCodec`. -/
def stringPairCodec : KeyCodec (Text × Text) where
  orderPreserving := true
  encodeKey key := .ok (escape key.1 ++ escape key.2)
  decodeKey bytes := do
    let (first, used) ← unescape bytes
    let (second, tail) ← unescape (bytes.drop used)
    if used + tail ≠ bytes.length then throw (.decode "trailing compound key bytes")
    return (first, second)

end Tagdata.Model
