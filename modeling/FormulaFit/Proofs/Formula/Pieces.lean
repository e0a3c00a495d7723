import FormulaFit.Proofs.Formula.Scanning

/-!
# Pieces of a text

Whatever a text is, blanks separate pieces of it: numbers, names, signs, and single characters that
are none of these.  A piece is as long as possible, and bad if it is a number without a digit or
with two points, or a character that is no sign.  Cutting gives one lexeme for every piece, or the
fault of the first bad one.
-/

namespace FormulaFit

namespace Text

/-- Behind so many bytes the text goes on with the part, which is not empty. -/
structure StandsAt (text : String) (position : Nat) (part : String) : Prop where
  ne_empty : part ≠ ""
  exists_split : ∃ before after, text = before ++ part ++ after ∧ before.utf8ByteSize = position

/-- Behind so many bytes of the text the characters are left. -/
def Remains (text : String) (position : Nat) (cs : List Char) : Prop :=
  ∃ before, text = before ++ String.ofList cs ∧ before.utf8ByteSize = position

variable {text : String} {position : Nat} {part rest : List Char} {c : Char}

theorem remains_toList (text : String) : Remains text 0 text.toList :=
  ⟨"", by simp, rfl⟩

theorem Remains.advance (remains : Remains text position (part ++ rest)) :
    Remains text (position + (String.ofList part).utf8ByteSize) rest := by
  obtain ⟨before, rfl, rfl⟩ := remains
  exact ⟨before ++ String.ofList part, by rw [String.ofList_append, String.append_assoc],
    String.utf8ByteSize_append⟩

theorem Remains.tail (remains : Remains text position (c :: rest)) :
    Remains text (position + c.utf8Size) rest := by
  have advanced : Remains text (position + (String.ofList [c]).utf8ByteSize) rest :=
    Remains.advance remains
  rwa [← String.singleton_eq_ofList, String.utf8ByteSize_singleton] at advanced

theorem Remains.standsAt (remains : Remains text position (part ++ rest)) (nonempty : part ≠ []) :
    StandsAt text position (String.ofList part) := by
  obtain ⟨before, rfl, rfl⟩ := remains
  exact ⟨by simpa using nonempty, before, String.ofList rest,
    by rw [String.ofList_append, String.append_assoc], rfl⟩

/-- A part stands where a character begins, before the end of the text. -/
theorem StandsAt.isValid {part : String} (stands : StandsAt text position part) :
    String.Pos.Raw.IsValid text ⟨position⟩ ∧ position < text.utf8ByteSize := by
  obtain ⟨nonempty, before, after, rfl, rfl⟩ := stands
  have size_pos : 0 < part.utf8ByteSize :=
    Nat.pos_of_ne_zero fun zero => nonempty (String.utf8ByteSize_eq_zero_iff.mp zero)
  refine ⟨String.Pos.Raw.isValid_iff_exists_append.mpr
    ⟨before, part ++ after, String.append_assoc, rfl⟩, ?_⟩
  rw [String.utf8ByteSize_append, String.utf8ByteSize_append]
  omega

theorem StandsAt.first (stands : StandsAt text position (String.ofList (c :: rest))) :
    StandsAt text position (String.singleton c) := by
  obtain ⟨-, before, after, rfl, rfl⟩ := stands
  refine ⟨by simp, before, String.ofList rest ++ after, ?_, rfl⟩
  rw [← List.singleton_append, String.ofList_append, String.singleton_eq_ofList,
    ← String.append_assoc, ← String.append_assoc]

end Text

namespace Lexeme

/-- The signs of formulas. -/
def signs : List (List Char) :=
  ["**", "<=", ">=", "==", "!=", "+", "-", "*", "/", "^", "(", ")", ",", "<", ">"].map
    String.toList

/-- What continues a sign after its first character, and what follows the sign. -/
def signTail (c : Char) : List Char → List Char × List Char
  | d :: cs => if [c, d] ∈ signs then ([d], cs) else ([], d :: cs)
  | [] => ([], [])

/-- What continues a piece after its first character, and what follows the piece. -/
def pieceTail (c : Char) (cs : List Char) : List Char × List Char :=
  if isNumeral c then numberTail cs
  else if beginsName c then (cs.takeWhile continuesName, cs.dropWhile continuesName)
  else signTail c cs

/-- A part of a text that means something or is a mistake. -/
structure Piece where
  /-- Number of bytes before it. -/
  position : Nat
  first : Char
  tail : List Char
deriving DecidableEq, Repr

namespace Piece

def text (p : Piece) : String := String.ofList (p.first :: p.tail)

/-- A number without a digit, or with two points, before its exponent. -/
def isMalformed (cs : List Char) : Bool :=
  let run := cs.takeWhile isNumeral
  decide (1 < run.count '.') || !run.any Char.isDigit

/-- The piece is no lexeme. -/
def isBad (p : Piece) : Bool :=
  if isNumeral p.first then isMalformed (p.first :: p.tail)
  else !beginsName p.first && decide (p.first :: p.tail ∉ signs)

/-- What is reported of a bad piece. -/
def fault (p : Piece) : ParseError :=
  if isNumeral p.first then .malformedNumber p.text p.position
  else .unexpectedChar p.first p.position

end Piece

theorem signTail_append (c : Char) (cs : List Char) :
    (signTail c cs).1 ++ (signTail c cs).2 = cs := by
  cases cs with
  | nil => rfl
  | cons d cs =>
      rw [signTail]
      split <;> rfl

theorem pieceTail_append (c : Char) (cs : List Char) :
    (pieceTail c cs).1 ++ (pieceTail c cs).2 = cs := by
  rw [pieceTail]
  split
  · exact numberTail_append cs
  · split
    · exact List.takeWhile_append_dropWhile
    · exact signTail_append c cs

theorem length_pieceTail_le (c : Char) (cs : List Char) :
    (pieceTail c cs).2.length ≤ cs.length := by
  have length_eq := congrArg List.length (pieceTail_append c cs)
  rw [List.length_append] at length_eq
  exact Nat.le.intro ((Nat.add_comm _ _).trans length_eq)

/-- The pieces of a text whose first character stands behind the given number of bytes. -/
def pieces (position : Nat) : List Char → List Piece
  | [] => []
  | c :: cs =>
    if Text.isBlank c then pieces (position + c.utf8Size) cs
    else
      let p : Piece := ⟨position, c, (pieceTail c cs).1⟩
      have : (pieceTail c cs).2.length ≤ cs.length := length_pieceTail_le c cs
      p :: pieces (position + p.text.utf8ByteSize) (pieceTail c cs).2
termination_by cs => cs.length

/-- Every piece stands in the text where it is said to. -/
theorem standsAt_of_mem_pieces {text : String} {position : Nat} {cs : List Char}
    (remains : Text.Remains text position cs) {p : Piece} (member : p ∈ pieces position cs) :
    Text.StandsAt text p.position p.text := by
  fun_induction pieces position cs with
  | case1 position => cases member
  | case2 position c cs blank ih => exact ih remains.tail member
  | case3 position c cs visible piece shorter ih =>
      have remains : Text.Remains text position
          (c :: (pieceTail c cs).1 ++ (pieceTail c cs).2) := by
        rwa [List.cons_append, pieceTail_append]
      rcases List.mem_cons.mp member with rfl | member
      · exact remains.standsAt (List.cons_ne_nil _ _)
      · exact ih remains.advance member

section Numbers

open Decimal

/-- Digits are read as an exponent with any sign or with none. -/
theorem isSome_exponent? {cs digits : List Char} (is_digits : Digits digits) :
    (exponent? ((exponentSign cs).1 ++ digits)).isSome = true := by
  have value_eq := natural?_of_digits is_digits
  have sign : (exponentSign cs).1 = ['+'] ∨ (exponentSign cs).1 = ['-'] ∨
      (exponentSign cs).1 = [] := by
    unfold exponentSign
    split <;> simp
  rcases sign with sign | sign | sign <;> rw [sign]
  · simp [exponent?, value_eq]
  · simp [exponent?, value_eq]
  · rw [List.nil_append, exponent?_of_digits is_digits]
    rfl

theorem scale?_exponentPart (cs : List Char) :
    (scale? (exponentPart cs).1).isSome = true ∧
      ∀ c ∈ (exponentPart cs).1.head?, isNumeral c = false := by
  cases cs with
  | nil => exact ⟨rfl, by simp [exponentPart]⟩
  | cons mark cs =>
      rw [exponentPart]
      dsimp only
      split
      · rename_i exponent
        rw [Bool.and_eq_true, Bool.not_eq_true', Bool.or_eq_true, beq_iff_eq, beq_iff_eq]
          at exponent
        obtain ⟨marked, nonempty⟩ := exponent
        have digits : Digits ((exponentSign cs).2.takeWhile Char.isDigit) :=
          ⟨by simpa using nonempty, fun c member => List.all_eq_true.mp List.all_takeWhile c member⟩
        constructor
        · rw [List.cons_append, scale?, if_pos (by simpa using marked)]
          exact isSome_exponent? digits
        · rcases marked with rfl | rfl <;> simp [isNumeral]
      · exact ⟨rfl, by simp⟩

/-- How a run of digits and points falls apart at its points. -/
inductive Run : List Char → Prop where
  | whole {whole : List Char} (digits : ∀ c ∈ whole, c.isDigit = true) : Run whole
  | point {whole part : List Char} (digits : ∀ c ∈ whole, c.isDigit = true)
      (digits' : ∀ c ∈ part, c.isDigit = true) : Run (whole ++ '.' :: part)
  | points {whole part more : List Char} (digits : ∀ c ∈ whole, c.isDigit = true)
      (digits' : ∀ c ∈ part, c.isDigit = true) : Run (whole ++ '.' :: (part ++ '.' :: more))

theorem digits_or_point {run : List Char} (numerals : ∀ c ∈ run, isNumeral c = true) :
    (∀ c ∈ run, c.isDigit = true) ∨
      ∃ whole more, (∀ c ∈ whole, c.isDigit = true) ∧ run = whole ++ '.' :: more := by
  induction run with
  | nil => exact .inl (List.forall_mem_nil _)
  | cons c run ih =>
      obtain ⟨numeral, numerals⟩ := List.forall_mem_cons.mp numerals
      rw [isNumeral, Bool.or_eq_true, beq_iff_eq] at numeral
      rcases numeral with digit | rfl
      · obtain digits | ⟨whole, more, digits, rfl⟩ := ih numerals
        · exact .inl (List.forall_mem_cons.mpr ⟨digit, digits⟩)
        · exact .inr ⟨c :: whole, more, List.forall_mem_cons.mpr ⟨digit, digits⟩, rfl⟩
      · exact .inr ⟨[], run, List.forall_mem_nil _, rfl⟩

theorem run_of_isNumeral {run : List Char} (numerals : ∀ c ∈ run, isNumeral c = true) :
    Run run := by
  obtain digits | ⟨whole, more, digits, rfl⟩ := digits_or_point numerals
  · exact .whole digits
  · have others : ∀ c ∈ more, isNumeral c = true :=
      (List.forall_mem_cons.mp (List.forall_mem_append.mp numerals).2).2
    obtain digits' | ⟨part, more, digits', rfl⟩ := digits_or_point others
    · exact .point digits digits'
    · exact .points digits digits'

theorem isSome_read?_append {whole behind part mark : List Char}
    (digits : ∀ c ∈ whole, c.isDigit = true) (other : ∀ c ∈ behind.head?, c.isDigit = false)
    (fraction_eq : fraction behind = (part, mark)) : (read? (whole ++ behind)).isSome =
      (!(whole.isEmpty && part.isEmpty) && (scale? mark).isSome) := by
  rw [read?_append digits other fraction_eq]
  cases whole.isEmpty && part.isEmpty <;> simp

theorem count_point_of_digits {cs : List Char} (digits : ∀ c ∈ cs, c.isDigit = true) :
    cs.count '.' = 0 :=
  List.count_eq_zero.mpr fun member => absurd (digits _ member) (by decide)

theorem any_isDigit_of_digits {cs : List Char} (digits : ∀ c ∈ cs, c.isDigit = true) :
    cs.any Char.isDigit = !cs.isEmpty := by
  cases cs with
  | nil => rfl
  | cons c cs => simp [digits c List.mem_cons_self]

theorem isSome_read? {run mark : List Char} (numerals : ∀ c ∈ run, isNumeral c = true)
    (other : ∀ c ∈ mark.head?, isNumeral c = false) (scaled : (scale? mark).isSome = true) :
    (read? (run ++ mark)).isSome = !Piece.isMalformed (run ++ mark) := by
  -- Behind a second point nothing is read, since a point is no mark of an exponent.
  have no_digit : ∀ c ∈ mark.head?, c.isDigit = false := fun c first =>
    (Bool.or_eq_false_iff.mp (other c first)).1
  have no_point : ∀ c ∈ mark.head?, c ≠ '.' := fun c first =>
    beq_eq_false_iff_ne.mp (Bool.or_eq_false_iff.mp (other c first)).2
  rw [Piece.isMalformed, (span_append numerals other).1]
  cases run_of_isNumeral numerals with
  | whole digits =>
      rw [isSome_read?_append digits no_digit (fraction_of_no_point no_point), scaled]
      simp [count_point_of_digits digits, any_isDigit_of_digits digits]
  | point digits digits' =>
      rw [List.append_assoc, List.cons_append,
        isSome_read?_append digits (by simp) (fraction_point digits' no_digit), scaled]
      simp [count_point_of_digits digits, count_point_of_digits digits',
        any_isDigit_of_digits digits, any_isDigit_of_digits digits']
  | @points whole part more digits digits' =>
      have points : 1 < (whole ++ '.' :: (part ++ '.' :: more)).count '.' := by
        simp only [List.count_append, List.count_cons_self]
        omega
      rw [List.append_assoc, List.cons_append, List.append_assoc, List.cons_append,
        isSome_read?_append digits (by simp) (fraction_point digits' (by simp)),
        decide_eq_true points]
      simp [scale?]

theorem isSome_read?_numberTail {c : Char} (numeral : isNumeral c = true) (cs : List Char) :
    (read? (c :: (numberTail cs).1)).isSome = !Piece.isMalformed (c :: (numberTail cs).1) := by
  obtain ⟨scaled, other⟩ := scale?_exponentPart (cs.dropWhile isNumeral)
  exact isSome_read? (List.forall_mem_cons.mpr
    ⟨numeral, fun c' member => List.all_eq_true.mp List.all_takeWhile c' member⟩) other scaled

end Numbers

theorem signs_eq : signs = [['*', '*'], ['<', '='], ['>', '='], ['=', '='], ['!', '='], ['+'],
    ['-'], ['*'], ['/'], ['^'], ['('], [')'], [','], ['<'], ['>']] := rfl

/-- The signs are what is read as punctuation. -/
theorem punctuation?_cases (c : Char) (cs : List Char) :
    (c :: (signTail c cs).1 ∈ signs ∧
      ∃ token, punctuation? c cs = some (token, signTail c cs) ∧ ∀ name, token ≠ .name name) ∨
    (c :: (signTail c cs).1 ∉ signs ∧ punctuation? c cs = none) := by
  unfold punctuation?
  split
  -- Two characters, then a character that begins no sign, then one character.
  case h_1 | h_2 | h_3 | h_4 | h_5 => simp [signTail, signs_eq]
  case h_16 power le ge eq ne =>
    cases cs with
    | nil => simp_all [signTail, signs_eq]
    | cons d cs =>
        have no_pair : [c, d] ∉ signs := by
          intro pair
          obtain ⟨rfl, rfl⟩ | ⟨rfl, rfl⟩ | ⟨rfl, rfl⟩ | ⟨rfl, rfl⟩ | ⟨rfl, rfl⟩ :
              (c = '*' ∧ d = '*') ∨ (c = '<' ∧ d = '=') ∨ (c = '>' ∧ d = '=') ∨
                (c = '=' ∧ d = '=') ∨ (c = '!' ∧ d = '=') := by simpa [signs_eq] using pair
          · exact power _ rfl rfl
          · exact le _ rfl rfl
          · exact ge _ rfl rfl
          · exact eq _ rfl rfl
          · exact ne _ rfl rfl
        simp_all [signTail, signs_eq]
  all_goals cases cs <;> simp_all [signTail, signs_eq]

/-- The lexeme is what a piece means. -/
structure Piece.Means (p : Piece) (l : Lexeme) : Prop where
  position_eq : l.position = p.position
  text_eq : l.text = p.text
  name_eq : ∀ name, l.token = .name name → name = p.text

theorem next_cases (position : Nat) (c : Char) (cs : List Char) :
    let p : Piece := ⟨position, c, (pieceTail c cs).1⟩
    (p.isBad = true ∧ next position c cs = .error p.fault) ∨
      (p.isBad = false ∧ ∃ token, next position c cs = .ok (token, pieceTail c cs) ∧
        p.Means ⟨token, position, p.text⟩) := by
  dsimp only
  unfold next Piece.isBad Piece.fault pieceTail
  split
  · rename_i numeral
    have read := isSome_read?_numberTail numeral cs
    cases bad : Piece.isMalformed (c :: (numberTail cs).1) with
    | true =>
        rw [bad, Bool.not_true, Option.isSome_eq_false_iff, Option.isNone_iff_eq_none] at read
        refine .inl ⟨rfl, ?_⟩
        dsimp only
        rw [read]
        rfl
    | false =>
        rw [bad, Bool.not_false, Option.isSome_iff_exists] at read
        obtain ⟨d, read⟩ := read
        refine .inr ⟨rfl, .number (d.toFloat false), ?_, rfl, rfl, fun name named => by cases named⟩
        dsimp only
        rw [read]
  · rename_i no_numeral
    split
    · rename_i begins
      refine .inr ⟨by simp [begins], _, rfl, rfl, rfl, fun name named => ?_⟩
      exact (Token.name.inj named).symm
    · rename_i no_name
      rw [Bool.not_eq_true] at no_name
      rcases punctuation?_cases c cs with ⟨sign, token, found, no_name'⟩ | ⟨no_sign, found⟩
      · refine .inr ⟨by simp [sign], token, by rw [found], rfl, rfl, fun name named => ?_⟩
        exact absurd named (no_name' name)
      · exact .inl ⟨by simp [no_name, no_sign], by rw [found]⟩

theorem cut_of_error {position : Nat} {c : Char} {cs : List Char} {e : ParseError}
    (visible : ¬Text.isBlank c = true) (failed : next position c cs = .error e) :
    cut position (c :: cs) = .error e := by
  rw [cut, if_neg visible]
  split
  · rename_i e' failed'
    obtain rfl : e' = e := Except.error.inj (failed'.symm.trans failed)
    rfl
  · rename_i found
    cases found.symm.trans failed

theorem cut_of_ok {position : Nat} {c : Char} {cs tail rest : List Char} {token : Token}
    (visible : ¬Text.isBlank c = true) (found : next position c cs = .ok (token, tail, rest)) :
    cut position (c :: cs) =
      (cut (position + (String.ofList (c :: tail)).utf8ByteSize) rest).map
        (⟨token, position, String.ofList (c :: tail)⟩ :: ·) := by
  rw [cut, if_neg visible]
  split
  · rename_i failed
    cases failed.symm.trans found
  · rename_i found'
    obtain ⟨rfl, rfl, rfl⟩ : token = _ ∧ tail = _ ∧ rest = _ := by
      simpa using found.symm.trans found'
    dsimp only
    cases cut (position + (String.ofList (c :: tail)).utf8ByteSize) rest <;> rfl

/-- The first bad piece of a text is reported, or every piece becomes a lexeme. -/
theorem cut_cases (position : Nat) (cs : List Char) :
    (∃ p, (pieces position cs).find? Piece.isBad = some p ∧ cut position cs = .error p.fault) ∨
      ((pieces position cs).find? Piece.isBad = none ∧
        ∃ ls, cut position cs = .ok ls ∧ List.Forall₂ Piece.Means (pieces position cs) ls) := by
  fun_induction pieces position cs with
  | case1 position => exact .inr ⟨rfl, [], by rw [cut], .nil⟩
  | case2 position c cs blank ih => rwa [cut, if_pos blank]
  | case3 position c cs visible p shorter ih =>
      rcases next_cases position c cs with ⟨bad, failed⟩ | ⟨good, token, found, means⟩
      · exact .inl ⟨p, List.find?_cons_of_pos bad, cut_of_error visible failed⟩
      · rw [List.find?_cons_of_neg (by simpa using good), cut_of_ok visible found]
        rcases ih with ⟨first, is_first, cut_eq⟩ | ⟨none_bad, ls, cut_eq, each⟩
        · exact .inl ⟨first, is_first, congrArg (Except.map _) cut_eq⟩
        · exact .inr ⟨none_bad, _, congrArg (Except.map _) cut_eq, .cons means each⟩

end Lexeme

end FormulaFit
