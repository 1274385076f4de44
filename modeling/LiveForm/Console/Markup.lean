import LiveForm.Text.Blank

/-!
# Marked up text

A console takes styles from tags in a text: `[bold]` opens one, `[/bold]` closes it and `[/]`
closes the latest one; a backslash in front makes a tag plain text.  `shown` is what remains to be
seen of a text whose tags were all made plain, and `balanced` says that a text can be shown at all.
-/

namespace LiveForm.Console

/-- A character with which a tag may start. -/
def isTagStart (c : Char) : Bool := ('a' ≤ c && c ≤ 'z') || c == '#' || c == '/' || c == '@'

/-- The tag that a text starts with, behind its opening bracket; gives what stands between the
brackets. -/
def tag? (cs : List Char) : Option (List Char) :=
  match cs with
  | [] => none
  | c :: r =>
    let body := r.takeWhile fun d => d != '[' && d != ']'
    if isTagStart c && (r.drop body.length).head? == some ']' then some (c :: body) else none

/-- The characters that a console does not show: bell, backspace, line and page feeds other than
the end of a line, and carriage returns. -/
def isDropped (c : Char) : Bool := [7, 8, 11, 12, 13].contains c.toNat

/-- The text without a backslash directly in front of a bracket that opens no tag. -/
def dropBareEscapes : List Char → List Char
  | '\\' :: '[' :: r =>
    if (tag? r).isSome then '\\' :: '[' :: dropBareEscapes r else '[' :: dropBareEscapes r
  | c :: r => c :: dropBareEscapes r
  | [] => []

/-- A single backslash at the end is doubled, lest it escape what comes behind. -/
def doubleLast (cs : List Char) : List Char :=
  match cs.reverse with
  | '\\' :: '\\' :: _ => cs
  | '\\' :: _ => cs ++ ['\\']
  | _ => cs

/-- What is seen of a text whose tags were made plain. -/
def shown (s : String) : List Char :=
  (doubleLast (dropBareEscapes s.toList)).filter (!isDropped ·)

/-! ## Balance -/

/-- A tag without its attributes, blanks around it and cases. -/
def tagName (body : List Char) : List Char :=
  (Text.trimChars (body.takeWhile (· != '='))).map Char.toLower

/-- Looks for tags behind so many backslashes, with these tags open. -/
def balancedFrom (opened : List (List Char)) (backslashes : Nat) : List Char → Bool
  | [] => true
  | '\\' :: r => balancedFrom opened (backslashes + 1) r
  | '[' :: r =>
    match tag? r with
    | none => balancedFrom opened 0 r
    | some body =>
      if backslashes % 2 = 1 then balancedFrom opened 0 r
      else
        match body with
        | '/' :: name =>
          match tagName name, opened with
          | [], [] => false
          | [], _ :: rest => balancedFrom rest 0 r
          | name, opened => opened.contains name && balancedFrom (opened.erase name) 0 r
        | name => balancedFrom (tagName name :: opened) 0 r
  | _ :: r => balancedFrom opened 0 r

/-- Every closing tag closes a tag that is open. -/
def balanced (s : String) : Bool := balancedFrom [] 0 s.toList

end LiveForm.Console
