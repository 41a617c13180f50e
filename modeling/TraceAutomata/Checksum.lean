/-!
The 32-bit cyclic redundancy check with the Castagnoli polynomial, by which snapshots and
definition documents are told apart.
-/

namespace TraceAutomata.Checksum

/-- The Castagnoli polynomial, its bits in reverse order. -/
def polynomial : UInt32 := 0x82F63B78

/-- Shifts one bit out of the register. -/
def shiftBit (register : UInt32) : UInt32 :=
  if register &&& 1 = 1 then (register >>> 1) ^^^ polynomial else register >>> 1

def addByte (register : UInt32) (byte : UInt8) : UInt32 :=
  Nat.repeat shiftBit 8 (register ^^^ byte.toUInt32)

def ofText (text : String) : UInt32 :=
  (text.toUTF8.data.foldl addByte 0xFFFFFFFF) ^^^ 0xFFFFFFFF

/-- A check as eight hexadecimal digits. -/
def hex (check : UInt32) : String :=
  let digits := Nat.toDigits 16 check.toNat
  String.ofList (List.replicate (8 - digits.length) '0' ++ digits)

end TraceAutomata.Checksum
