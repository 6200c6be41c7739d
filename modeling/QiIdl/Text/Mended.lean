/-!
# Bytes shown as text

Bytes that are meant to be text but are none are shown all the same. Each character in them stands for itself. Where
none starts, a mark is shown for as many bytes as one could have started with, so two damaged characters in a row are
two marks.
-/

namespace QiIdl.Text

/-- Whether a byte can go on with a character. -/
def isTrail (b : UInt8) : Bool := 0x80 ≤ b && b ≤ 0xBF

/-- Whether two bytes can start a character of three or four. After some first bytes not every byte goes on: the
character would have had a shorter form, or there is none of its number. -/
def opensLong (first second : UInt8) : Bool :=
  isTrail second && 0xE0 ≤ first && first ≤ 0xF4 && !(first == 0xE0 && second < 0xA0) &&
    !(first == 0xED && 0xA0 ≤ second) && !(first == 0xF0 && second < 0x90) && !(first == 0xF4 && 0x90 ≤ second)

/-- How many bytes one mark stands for, where no character starts. -/
def damage : List UInt8 → Nat
  | first :: second :: rest =>
    if opensLong first second then
      if 0xF0 ≤ first && rest.head?.any isTrail then 3 else 2
    else 1
  | _ => 1

/-- The characters and marks of some bytes, at most so many. -/
def mendedWithin : Nat → List UInt8 → List Char
  | 0, _ | _, [] => []
  | n + 1, bytes =>
    match (ByteArray.mk bytes.toArray).utf8DecodeChar? 0 with
    | some c => c :: mendedWithin n (bytes.drop c.utf8Size)
    | none => '�' :: mendedWithin n (bytes.drop (damage bytes))

def mended (bytes : List UInt8) : String := String.ofList (mendedWithin bytes.length bytes)

end QiIdl.Text
