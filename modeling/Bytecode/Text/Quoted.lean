import Bytecode.Text.Hidden

/-! Text between double quotes, as it stands in messages. A character that would not show is
written by its number. -/
namespace Bytecode.Quoted

def hexDigits (n : Nat) : String := String.ofList (Nat.toDigits 16 n)

def escape (c : Char) : String :=
  if c = '"' then "\\\""
  else if c = '\\' then "\\\\"
  else if c = '\n' then "\\n"
  else if c = '\r' then "\\r"
  else if c = '\t' then "\\t"
  else if c.val = 0 then "\\0"
  else if Hidden.isHidden c then "\\u\x7b" ++ hexDigits c.toNat ++ "\x7d"
  else c.toString

def render (s : String) : String := "\"" ++ String.join (s.toList.map escape) ++ "\""

end Bytecode.Quoted
