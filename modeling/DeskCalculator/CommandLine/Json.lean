import DeskCalculator.CommandLine.Report

/-!
A printer of responses: a JSON object, indented by two spaces.
-/
namespace DeskCalculator.CommandLine

def hexDigit (n : Nat) : Char :=
  Nat.digitChar (n % 16)

def escapeChar (c : Char) : List Char :=
  if c = '"' then ['\\', '"']
  else if c = '\\' then ['\\', '\\']
  else if c = '\n' then ['\\', 'n']
  else if c = '\r' then ['\\', 'r']
  else if c = '\t' then ['\\', 't']
  else if c = '\x08' then ['\\', 'b']
  else if c = '\x0c' then ['\\', 'f']
  else if c.toNat < 0x20 then ['\\', 'u', '0', '0', hexDigit (c.toNat / 16), hexDigit c.toNat]
  else [c]

def quoted (s : String) : String :=
  "\"" ++ String.ofList (s.toList.flatMap escapeChar) ++ "\""

def quotedList (ss : List String) : String :=
  if ss.isEmpty then "[]"
  else "[\n" ++ ",\n".intercalate (ss.map fun s => "    " ++ quoted s) ++ "\n  ]"

def modeName : Mode → String
  | .algebraic => "Infix"
  | .rpn => "Rpn"

def Response.toJson (r : Response) : String :=
  let fields := [("result", quoted r.result), ("mode", quoted (modeName r.mode)),
    ("rpn", quotedList r.rpn), ("trace", quotedList r.trace)]
  "\x7b\n" ++ ",\n".intercalate (fields.map fun f => "  " ++ quoted f.1 ++ ": " ++ f.2) ++ "\n\x7d"

end DeskCalculator.CommandLine
