import PhpWeave.Text.Basic

/-!
Texts as bytes. Encoding is UTF-8; strict decoding accepts well-formed bytes only, and lenient
decoding puts one replacement character for each longest start of a character that breaks off.
-/

namespace PhpWeave

abbrev Bytes := List UInt8

namespace Utf8

def encode (text : Text) : Bytes := text.flatMap String.utf8EncodeChar

def size (text : Text) : Nat := (text.map Char.utf8Size).foldr (· + ·) 0

def isContinuation (byte : UInt8) : Bool := 0x80 ≤ byte && byte ≤ 0xbf

/-- Whether a byte may stand second after a given first byte of a character of two bytes or more:
overlong forms, surrogates and numbers past the last code point are excluded here. -/
def admitsSecond (first second : UInt8) : Bool :=
  if first = 0xe0 then 0xa0 ≤ second && second ≤ 0xbf
  else if first = 0xed then 0x80 ≤ second && second ≤ 0x9f
  else if first = 0xf0 then 0x90 ≤ second && second ≤ 0xbf
  else if first = 0xf4 then 0x80 ≤ second && second ≤ 0x8f
  else isContinuation second

/-- The length that a first byte announces; none for a byte that starts no character. -/
def announced (first : UInt8) : Option Nat :=
  if first < 0x80 then some 1
  else if 0xc2 ≤ first && first ≤ 0xdf then some 2
  else if 0xe0 ≤ first && first ≤ 0xef then some 3
  else if 0xf0 ≤ first && first ≤ 0xf4 then some 4
  else none

inductive Front where
  | character (c : Char) (length : Nat)
  | broken (length : Nat)

def lowBits (byte : UInt8) : Nat := byte.toNat % 64

def front (first : UInt8) (rest : Bytes) : Front :=
  match announced first with
  | none => .broken 1
  | some 1 => .character (Char.ofNat first.toNat) 1
  | some wanted =>
    match rest with
    | [] => .broken 1
    | second :: rest =>
      if !admitsSecond first second then .broken 1
      else if wanted = 2 then
        .character (Char.ofNat (first.toNat % 32 * 64 + lowBits second)) 2
      else match rest with
        | [] => .broken 2
        | third :: rest =>
          if !isContinuation third then .broken 2
          else if wanted = 3 then
            .character
              (Char.ofNat (first.toNat % 16 * 4096 + lowBits second * 64 + lowBits third)) 3
          else match rest with
            | [] => .broken 3
            | fourth :: _ =>
              if !isContinuation fourth then .broken 3
              else .character
                (Char.ofNat (first.toNat % 8 * 262144 + lowBits second * 4096 +
                  lowBits third * 64 + lowBits fourth)) 4

def decodeFronts : Nat → Bytes → Text
  | _, [] => []
  | 0, _ :: _ => []
  | fuel + 1, first :: rest =>
    match front first rest with
    | .character c length => c :: decodeFronts fuel (rest.drop (length - 1))
    | .broken length => '\ufffd' :: decodeFronts fuel (rest.drop (length - 1))

def decodeLenient (bytes : Bytes) : Text := decodeFronts bytes.length bytes

def decode (bytes : Bytes) : Option Text := bytes.toByteArray.utf8Decode?.map Array.toList

theorem decode_encode (text : Text) : decode (encode text) = some text := by
  have same : (encode text).toByteArray = text.utf8Encode := rfl
  rw [decode, same, List.utf8Decode?_utf8Encode]
  rfl

end Utf8
end PhpWeave
