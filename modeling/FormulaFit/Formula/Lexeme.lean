import FormulaFit.Decimal.Reader
import FormulaFit.Error
import FormulaFit.Text.Blank

/-!
# Lexemes of formula text

The text of a formula is cut into numbers, names and punctuation; blanks separate them.  Every
lexeme keeps its text and the number of bytes before it.  A lexeme is as long as possible, except
that the mark of an exponent belongs to a number only if digits follow it.
-/

namespace FormulaFit

/-- What a lexeme means to the parser. -/
inductive Token where
  | number (v : Float)
  /-- A name of a variable, coefficient, value or function. -/
  | name (s : String)
  | plus
  | minus
  | star
  | slash
  | power
  | leftParen
  | rightParen
  | comma
  | relation (op : Comparison)
deriving DecidableEq, Repr

/-- A token with the text it was read from. -/
structure Lexeme where
  /-- Its meaning. -/
  token : Token
  /-- Number of bytes before it. -/
  position : Nat
  text : String
deriving DecidableEq, Repr

namespace Lexeme

/-- Characters that begin a name; all of them are ASCII. -/
def beginsName (c : Char) : Bool := c.isAlpha || c == '_'

/-- Characters that continue a name; all of them are ASCII. -/
def continuesName (c : Char) : Bool := c.isAlphanum || c == '_'

/-- Characters before the exponent of a number. -/
def isNumeral (c : Char) : Bool := c.isDigit || c == '.'

/-- The sign of an exponent, and what follows it. -/
def exponentSign : List Char → List Char × List Char
  | '+' :: cs => (['+'], cs)
  | '-' :: cs => (['-'], cs)
  | cs => ([], cs)

/-- The exponent at the start of the characters, and what follows it; empty unless it has digits. -/
def exponentPart : List Char → List Char × List Char
  | [] => ([], [])
  | mark :: cs =>
    let (sign, after) := exponentSign cs
    let digits := after.takeWhile Char.isDigit
    if (mark == 'e' || mark == 'E') && !digits.isEmpty then
      (mark :: sign ++ digits, after.dropWhile Char.isDigit)
    else ([], mark :: cs)

/-- What continues a number after its first character, and what follows the number. -/
def numberTail (cs : List Char) : List Char × List Char :=
  let (part, rest) := exponentPart (cs.dropWhile isNumeral)
  (cs.takeWhile isNumeral ++ part, rest)

/-- Punctuation that starts with a character: its token, its other characters and what follows. -/
def punctuation? (c : Char) (cs : List Char) : Option (Token × List Char × List Char) :=
  match c, cs with
  | '*', '*' :: rest => some (.power, ['*'], rest)
  | '<', '=' :: rest => some (.relation .le, ['='], rest)
  | '>', '=' :: rest => some (.relation .ge, ['='], rest)
  | '=', '=' :: rest => some (.relation .eq, ['='], rest)
  | '!', '=' :: rest => some (.relation .ne, ['='], rest)
  | '+', rest => some (.plus, [], rest)
  | '-', rest => some (.minus, [], rest)
  | '*', rest => some (.star, [], rest)
  | '/', rest => some (.slash, [], rest)
  | '^', rest => some (.power, [], rest)
  | '(', rest => some (.leftParen, [], rest)
  | ')', rest => some (.rightParen, [], rest)
  | ',', rest => some (.comma, [], rest)
  | '<', rest => some (.relation .lt, [], rest)
  | '>', rest => some (.relation .gt, [], rest)
  | _, _ => none

/-- The lexeme that starts with a character: its token, its other characters and what follows. -/
def next (position : Nat) (c : Char) (cs : List Char) :
    Except ParseError (Token × List Char × List Char) :=
  if isNumeral c then
    let (tail, rest) := numberTail cs
    match Decimal.read? (c :: tail) with
    | some d => .ok (.number (d.toFloat false), tail, rest)
    | none => .error (.malformedNumber (String.ofList (c :: tail)) position)
  else if beginsName c then
    let tail := cs.takeWhile continuesName
    .ok (.name (String.ofList (c :: tail)), tail, cs.dropWhile continuesName)
  else
    match punctuation? c cs with
    | some found => .ok found
    | none => .error (.unexpectedChar c position)

theorem exponentSign_append (cs : List Char) :
    (exponentSign cs).1 ++ (exponentSign cs).2 = cs := by
  unfold exponentSign
  split <;> rfl

theorem exponentPart_append (cs : List Char) :
    (exponentPart cs).1 ++ (exponentPart cs).2 = cs := by
  cases cs with
  | nil => rfl
  | cons mark cs =>
    have h := exponentSign_append cs
    simp only [exponentPart]
    split
    · simp only [List.cons_append, List.append_assoc, List.takeWhile_append_dropWhile, h]
    · rfl

/-- Nothing of the text is lost when a number is cut off. -/
theorem numberTail_append (cs : List Char) : (numberTail cs).1 ++ (numberTail cs).2 = cs := by
  have h := exponentPart_append (cs.dropWhile isNumeral)
  simp only [numberTail, List.append_assoc, h, List.takeWhile_append_dropWhile]

theorem punctuation?_append {c : Char} {cs : List Char} {token : Token} {tail rest : List Char}
    (h : punctuation? c cs = some (token, tail, rest)) : tail ++ rest = cs := by
  unfold punctuation? at h
  split at h <;> cases h <;> rfl

/-- Nothing of the text is lost when a lexeme is cut off. -/
theorem next_append {position : Nat} {c : Char} {cs : List Char} {token : Token}
    {tail rest : List Char} (h : next position c cs = .ok (token, tail, rest)) :
    tail ++ rest = cs := by
  unfold next at h
  split at h
  · have append := numberTail_append cs
    revert h append
    cases numberTail cs with
    | mk tail' rest' =>
      intro h append
      dsimp only at h append
      split at h
      · obtain ⟨rfl, rfl, rfl⟩ : _ ∧ tail' = tail ∧ rest' = rest := by simpa using h
        exact append
      · simp at h
  · split at h
    · obtain ⟨rfl, rfl, rfl⟩ : _ ∧ cs.takeWhile continuesName = tail ∧
          cs.dropWhile continuesName = rest := by simpa using h
      exact List.takeWhile_append_dropWhile
    · split at h
      · rename_i found hfound
        obtain rfl : found = (token, tail, rest) := by simpa using h
        exact punctuation?_append hfound
      · simp at h

theorem length_rest_le {position : Nat} {c : Char} {cs : List Char} {token : Token}
    {tail rest : List Char} (h : next position c cs = .ok (token, tail, rest)) :
    rest.length ≤ cs.length := by
  rw [← next_append h, List.length_append]
  omega

/-- Cuts a text into lexemes, the first of which starts after the given number of bytes. -/
def cut (position : Nat) : List Char → Except ParseError (List Lexeme)
  | [] => .ok []
  | c :: cs =>
    if Text.isBlank c then cut (position + c.utf8Size) cs
    else
      match h : next position c cs with
      | .error e => .error e
      | .ok (token, tail, rest) =>
        have : rest.length ≤ cs.length := length_rest_le h
        let text := String.ofList (c :: tail)
        match cut (position + text.utf8ByteSize) rest with
        | .error e => .error e
        | .ok lexemes => .ok (⟨token, position, text⟩ :: lexemes)
termination_by cs => cs.length

/-- The lexemes of a text; the first character or number that is none decides the error. -/
def ofText? (text : String) : Except ParseError (List Lexeme) := cut 0 text.toList

end Lexeme

end FormulaFit
