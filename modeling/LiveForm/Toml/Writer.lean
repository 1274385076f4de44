import LiveForm.Toml.Text
import LiveForm.Value.Basic

/-!
# Writing configuration files

A file is written as a row of tables with an empty line between them, each with a header and one
line for each entry.
-/

namespace LiveForm.Toml

/-- A character between double quotes.  Those that may not stand there are escaped; a tab may. -/
def quoteChar (c : Char) : List Char :=
  if c == '\x22' || c == '\\' then ['\\', c]
  else if c == '\x08' then ['\\', 'b']
  else if c == '\n' then ['\\', 'n']
  else if c == '\x0c' then ['\\', 'f']
  else if c == '\r' then ['\\', 'r']
  else if isLineChar c then [c]
  else '\\' :: 'u' :: Text.hexDigits c.toNat 4

/-- A text between double quotes. -/
def quotedText (s : String) : String :=
  String.ofList ('\x22' :: s.toList.flatMap quoteChar ++ ['\x22'])

/-- A part of a key: bare if that is possible. -/
def keyText (key : String) : String :=
  if key.toList ≠ [] ∧ key.toList.all isBareKeyChar then key else quotedText key

/-- A value as it stands behind an equals sign; it is for values that were computed, which are no
integers. -/
def valueText : Value → String
  | .flag b => if b then "true" else "false"
  | .text s => quotedText s
  | v => v.fullText

/-- A table with its header. -/
structure Table where
  header : List String
  entries : List (String × Value)

/-- The lines of a table, the end of each line included. -/
def Table.render (t : Table) : String :=
  "[" ++ ".".intercalate (t.header.map keyText) ++ "]\n" ++
    String.join (t.entries.map fun p => keyText p.1 ++ " = " ++ valueText p.2 ++ "\n")

/-- The text of a file. -/
def write (ts : List Table) : String := "\n".intercalate (ts.map Table.render)

end LiveForm.Toml
