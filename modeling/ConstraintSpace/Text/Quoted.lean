import ConstraintSpace.Text.Mark
import ConstraintSpace.Text.Printing

/-!
# Quoted text

Text between double quotes, with a backslash before quotes and backslashes and
with the code of a character that does not print or is a mark on the one before.
-/

namespace ConstraintSpace.Quoted

def escape (c : Char) : String :=
  if c = '"' then "\\\""
  else if c = '\\' then "\\\\"
  else if c = '\t' then "\\t"
  else if c = '\r' then "\\r"
  else if c = '\n' then "\\n"
  else if c.toNat = 0 then "\\0"
  else if Printing.isHidden c || Mark.isExtending c then
    "\\u\x7b" ++ String.ofList (Nat.toDigits 16 c.toNat) ++ "\x7d"
  else c.toString

def encode (text : String) : String :=
  "\"" ++ String.join (text.toList.map escape) ++ "\""

end ConstraintSpace.Quoted
