import UnicodeTables.Text.Numeral

/-! # JSON text

Compact JSON: no blanks, members in the order given. Strings escape quotes, backslashes and control
characters below the blank; all other characters stand for themselves. -/

namespace UnicodeTables

inductive Json
  | null
  | number (n : Nat)
  | string (s : Text)
  | array (items : List Json)
  | object (members : List (Text × Json))

namespace Json

def escape (c : Char) : Text :=
  if c = '"' then ['\\', '"']
  else if c = '\\' then ['\\', '\\']
  else if c = '\x08' then ['\\', 'b']
  else if c = '\x0c' then ['\\', 'f']
  else if c = '\n' then ['\\', 'n']
  else if c = '\r' then ['\\', 'r']
  else if c = '\t' then ['\\', 't']
  else if c < ' ' then '\\' :: 'u' :: (Nat.toDigits 16 c.toNat).leftpad 4 '0'
  else [c]

def quote (s : Text) : Text := '"' :: s.flatMap escape ++ ['"']

mutual

def render : Json → Text
  | null => "null".toList
  | number n => Numeral.decimal n
  | string s => quote s
  | array items => '[' :: renderItems items ++ [']']
  | object members => '\x7b' :: renderMembers members ++ ['\x7d']

def renderItems : List Json → Text
  | [] => []
  | [j] => j.render
  | j :: js => j.render ++ ',' :: renderItems js

def renderMembers : List (Text × Json) → Text
  | [] => []
  | [(k, j)] => quote k ++ ':' :: j.render
  | (k, j) :: ms => quote k ++ ':' :: j.render ++ ',' :: renderMembers ms

end

end Json

end UnicodeTables
