import PermissionGraph.Permission.Set
import PermissionGraph.Text.Blank

/-!
# PermissionGraph.Permission.Flags

The flag notation of a permission set, as it stands in documents: upper-case flag names in bit
order with ` | ` between them, then the bits that stand for no kind as one hexadecimal number. The
empty set is the empty text. Reading is more lenient than writing: blanks around a part do not
matter, any part may be a hexadecimal number, and parts may come in any order and repeat.
-/

namespace PermissionGraph

def Permission.flagName : Permission → String
  | read => "READ"
  | write => "WRITE"
  | delete => "DELETE"
  | accessControl => "ACCESS_CONTROL"
  | link => "LINK"

def Permission.ofFlagName? (word : String) : Option Permission :=
  Permission.all.find? (·.flagName == word)

theorem Permission.ofFlagName?_flagName (k : Permission) : ofFlagName? k.flagName = some k := by
  cases k <;> rfl

namespace PermissionSet

/-- The value of a hexadecimal digit of either case. -/
def hexDigit? (c : Char) : Option Nat :=
  if '0' ≤ c ∧ c ≤ '9' then some (c.toNat - '0'.toNat)
  else if 'a' ≤ c ∧ c ≤ 'f' then some (c.toNat - 'a'.toNat + 10)
  else if 'A' ≤ c ∧ c ≤ 'F' then some (c.toNat - 'A'.toNat + 10)
  else none

/-- Reads hexadecimal digits after those already read. -/
def hexDigits? (value : Nat) : List Char → Option Nat
  | [] => some value
  | c :: cs => do
    let digit ← hexDigit? c
    hexDigits? (value * 16 + digit) cs

/-- Reads a hexadecimal number of at least one digit that fits in eight bits. A plus sign may
stand in front. -/
def hexByte? (cs : List Char) : Option (BitVec 8) := do
  let digits := match cs with
    | '+' :: rest => rest
    | _ => cs
  if digits.isEmpty then none
  else
    let value ← hexDigits? 0 digits
    if value < 256 then some (BitVec.ofNat 8 value) else none

/-- Reads one part of the notation: a flag name, or `0x` and a number. -/
def ofFlag? : List Char → Option PermissionSet
  | '0' :: 'x' :: digits => (hexByte? digits).map PermissionSet.mk
  | word => (Permission.ofFlagName? (String.ofList word)).map single

/-- Reads the flag notation. A text of blanks is the empty set; otherwise no part may be empty. -/
def ofFlags? (text : String) : Option PermissionSet :=
  let cs := text.toList
  if (Text.trim cs).isEmpty then some ∅
  else ((Text.fields '|' cs).mapM fun part => ofFlag? (Text.trim part)).map sum

/-- The bits that stand for no kind, as one part of the notation. -/
def unknownFlags (s : PermissionSet) : List String :=
  let rest := s \ full
  if rest.isEmpty then []
  else [String.ofList ('0' :: 'x' :: Nat.toDigits 16 rest.bits.toNat)]

def toFlags (s : PermissionSet) : String :=
  " | ".intercalate (s.kinds.map Permission.flagName ++ s.unknownFlags)

end PermissionSet
end PermissionGraph
