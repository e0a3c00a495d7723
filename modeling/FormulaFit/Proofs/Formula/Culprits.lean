import FormulaFit.Proofs.Formula.CheckedParsing
import FormulaFit.Proofs.Formula.Reading

/-!
# Errors of the parser point at their culprits

A reader leaves a part of the lexemes that it was given, or it fails with an error about one of
them.  So whatever position an error of the parser gives, what the error is about stands there in
the text.  A bad piece of a text is reported before anything else, and the first one is reported.
-/

namespace FormulaFit

/-- Where the error is, if it says so. -/
def ParseError.position? : ParseError → Option Nat
  | unexpectedChar _ position | unexpectedToken _ position | unknownSymbol _ position
  | malformedNumber _ position | trailing position => some position
  | unexpectedEnd | arity .. | tooDeep _ => none

/-- The error is about a part of the text that is no lexeme. -/
def ParseError.isLexical : ParseError → Bool
  | unexpectedChar .. | malformedNumber .. => true
  | _ => false

namespace Formula

section Readers

variable {α β : Type} {ls rest : List Lexeme}

/-- The error is about one of the lexemes, or gives no position. -/
def Blames (ls : List Lexeme) : ParseError → Prop
  | .unexpectedToken text position => ∃ l ∈ ls, l.text = text ∧ l.position = position
  | .unknownSymbol name position => ∃ l ∈ ls, l.token = .name name ∧ l.position = position
  | .unexpectedEnd | .arity .. | .tooDeep _ => True
  | .unexpectedChar .. | .malformedNumber .. | .trailing _ => False

/-- The result leaves some last lexemes, or blames one of them. -/
def Leaves (ls : List Lexeme) : Except ParseError (α × List Lexeme) → Prop
  | .ok (_, rest) => rest <:+ ls
  | .error e => Blames ls e

/-- The reader leaves some last lexemes of those it is given, or blames one of them. -/
def Careful (reader : Reader α) : Prop := ∀ ls, Leaves ls (reader ls)

theorem Blames.mono {e : ParseError} (blames : Blames rest e) (suffix : rest <:+ ls) :
    Blames ls e := by
  cases e with
  | unexpectedToken text position =>
      obtain ⟨l, member, same⟩ := blames
      exact ⟨l, suffix.mem member, same⟩
  | unknownSymbol name position =>
      obtain ⟨l, member, same⟩ := blames
      exact ⟨l, suffix.mem member, same⟩
  | unexpectedEnd | arity | tooDeep => trivial
  | unexpectedChar | malformedNumber | trailing => exact blames.elim

theorem Leaves.mono {result : Except ParseError (α × List Lexeme)} (leaves : Leaves rest result)
    (suffix : rest <:+ ls) : Leaves ls result := by
  cases result with
  | error e => exact Blames.mono leaves suffix
  | ok found => exact List.IsSuffix.trans leaves suffix

theorem Leaves.bind {result : Except ParseError (α × List Lexeme)}
    {next : α × List Lexeme → Except ParseError (β × List Lexeme)} (leaves : Leaves ls result)
    (each : ∀ a rest, Leaves rest (next (a, rest))) : Leaves ls (result >>= next) := by
  cases result with
  | error e => exact leaves
  | ok found => exact (each found.1 found.2).mono leaves

theorem leaves_cons {l : Lexeme} {result : Except ParseError (α × List Lexeme)}
    (leaves : Leaves ls result) : Leaves (l :: ls) result :=
  leaves.mono (List.suffix_cons l ls)

theorem leaves_unexpected (l : Lexeme) :
    Leaves (l :: ls) (.error (unexpected l) : Except ParseError (α × List Lexeme)) :=
  ⟨l, List.mem_cons_self, rfl, rfl⟩

variable {operand : Reader Term}

/-- The loop ends, or it reads an item behind a separator and goes on. -/
def Loops (item : Reader Term) (tail : Nat → List Term → Reader α) : Prop :=
  ∀ bound chain ls result, tail bound chain ls = result → Leaves ls result ∨
    ∃ less l after, ∃ longer : Term → List Term, bound = less + 1 ∧ ls = l :: after ∧
      result = do
        let (t, rest) ← item after
        tail less (longer t) rest

theorem Loops.leaves {tail : Nat → List Term → Reader α} (loops : Loops operand tail)
    (careful : Careful operand) (bound : Nat) (chain : List Term) (ls : List Lexeme) :
    Leaves ls (tail bound chain ls) := by
  induction bound generalizing chain ls with
  | zero =>
      obtain ended | ⟨less, l, after, longer, impossible, -⟩ := loops 0 chain ls _ rfl
      · exact ended
      · exact absurd impossible (Nat.succ_ne_zero less).symm
  | succ bound ih =>
      obtain ended | ⟨less, l, after, longer, bound_eq, rfl, tail_eq⟩ :=
        loops (bound + 1) chain ls _ rfl
      · exact ended
      · obtain rfl := Nat.succ.inj bound_eq
        rw [tail_eq]
        exact leaves_cons ((careful after).bind fun t rest => ih (longer t) rest)

theorem Loops.careful {tail : Nat → List Term → Reader α} (loops : Loops operand tail)
    (careful : Careful operand) :
    Careful (fun ls => do
      let (first, rest) ← operand ls
      tail rest.length [first] rest) :=
  fun ls => (careful ls).bind fun first rest => loops.leaves careful rest.length [first] rest

theorem loops_productTail : Loops operand (productTail operand) := by
  intro bound chain ls result read
  unfold productTail at read
  split at read <;> subst read
  · exact .inr ⟨_, _, _, fun t => chain ++ [t], rfl, rfl, rfl⟩
  · exact .inr ⟨_, _, _, fun t => [.node (.binary .div (close .mul chain) t)], rfl, rfl, rfl⟩
  · exact .inl List.suffix_rfl

theorem loops_sumTail : Loops operand (sumTail operand) := by
  intro bound chain ls result read
  unfold sumTail at read
  split at read <;> subst read
  · exact .inr ⟨_, _, _, fun t => chain ++ [t], rfl, rfl, rfl⟩
  · exact .inr ⟨_, _, _, fun t => [.node (.binary .sub (close .add chain) t)], rfl, rfl, rfl⟩
  · exact .inl List.suffix_rfl

theorem loops_argumentsTail : Loops operand (argumentsTail operand) := by
  intro bound args ls result read
  unfold argumentsTail at read
  split at read <;> subst read
  · exact .inl (List.suffix_cons _ _)
  · exact .inr ⟨_, _, _, fun t => args ++ [t], rfl, rfl, rfl⟩
  · exact .inl (leaves_unexpected _)
  · exact .inl trivial

theorem careful_product (careful : Careful operand) : Careful (product operand) :=
  loops_productTail.careful careful

theorem careful_sum (careful : Careful operand) : Careful (sum operand) :=
  loops_sumTail.careful careful

theorem careful_comparison (careful : Careful operand) : Careful (comparison operand) := by
  intro ls
  refine (careful ls).bind fun left rest => ?_
  dsimp only
  split
  · exact leaves_cons ((careful _).bind fun right rest => List.suffix_rfl)
  · exact List.suffix_rfl

theorem careful_formula (careful : Careful operand) : Careful (formula operand) :=
  careful_comparison (careful_sum (careful_product careful))

theorem careful_arguments (careful : Careful operand) : Careful (arguments operand) := by
  intro ls
  unfold arguments
  split
  · exact List.suffix_cons _ _
  · exact loops_argumentsTail.careful careful ls

theorem arity_of_call {name : String} {args : List Term} {e : ParseError}
    (failed : call name args = .error e) : ∃ expected got, e = .arity name expected got := by
  unfold call at failed
  split at failed
  · split at failed
    · cases failed
    · exact ⟨_, _, (Except.error.inj failed).symm⟩
  · split at failed
    · exact ⟨_, _, (Except.error.inj failed).symm⟩
    · cases failed
  · split at failed
    · split at failed
      · cases failed
      · exact ⟨_, _, (Except.error.inj failed).symm⟩
    · split at failed
      · split at failed
        · cases failed
        · exact ⟨_, _, (Except.error.inj failed).symm⟩
      · cases failed

/-- A call fails for the number of its arguments only. -/
theorem leaves_call (name : String) (args : List Term) (rest : List Lexeme) :
    Leaves rest (do return (← call name args, rest)) := by
  cases value : call name args with
  | ok t => exact List.suffix_rfl
  | error e =>
      obtain ⟨expected, got, rfl⟩ := arity_of_call value
      trivial

theorem careful_primary (careful : Careful operand) : Careful (primary operand) := by
  intro ls
  unfold primary
  split
  · trivial
  · exact List.suffix_cons _ _
  · refine leaves_cons ((careful_formula careful _).bind fun t rest => ?_)
    dsimp only
    split
    · exact List.suffix_cons _ _
    · exact leaves_unexpected _
    · trivial
  · exact leaves_cons (leaves_cons ((careful_arguments (careful_formula careful) _).bind
      fun args rest => leaves_call _ args rest))
  · split
    · exact List.suffix_cons _ _
    · exact ⟨_, List.mem_cons_self, rfl, rfl⟩
  · exact leaves_unexpected _

theorem careful_power (careful : Careful operand) : Careful (power operand) := by
  intro ls
  refine (careful_primary careful ls).bind fun base rest => ?_
  dsimp only
  split
  · exact leaves_cons ((careful _).bind fun exponent rest => List.suffix_rfl)
  · exact List.suffix_rfl

theorem careful_signed (careful : Careful operand) : Careful (signed operand) := by
  intro ls
  unfold signed
  split
  · exact leaves_cons (careful _)
  · refine leaves_cons ?_
    split
    · rename_i literal
      obtain ⟨-, l, rfl, -⟩ := @negativeLiteral?_eq_some 0 _ _ _ literal
      exact List.suffix_cons _ _
    · exact (careful _).bind fun t rest => List.suffix_rfl
  · exact careful_power careful ls

theorem careful_operand (level : Nat) : Careful (Formula.operand level) := by
  induction level with
  | zero => exact fun ls => trivial
  | succ level ih => exact careful_signed ih

end Readers

/-- What the lexemes blame, or what follows the formula that they begin with. -/
theorem blames_or_trailing {ls : List Lexeme} {e : ParseError} (failed : ofLexemes? ls = .error e) :
    Blames ls e ∨ ∃ used l rest t, e = .trailing l.position ∧ ls = used ++ l :: rest ∧
      Derives depthLimit (used.map Lexeme.token) (.formula t) := by
  unfold ofLexemes? at failed
  have careful := careful_formula (careful_operand depthLimit) ls
  cases read : formula (operand depthLimit) ls with
  | error e' =>
      rw [read] at failed careful
      obtain rfl : e' = e := Except.error.inj failed
      exact .inl careful
  | ok found =>
      obtain ⟨t, rest⟩ := found
      rw [read] at failed
      cases rest with
      | nil =>
          dsimp only [bind, Except.bind] at failed
          split at failed
          · obtain rfl := Except.error.inj failed
            exact .inl trivial
          · cases failed
      | cons l rest =>
          obtain rfl := Except.error.inj failed
          obtain ⟨used, rfl, formed⟩ :=
            finds_formula (findsWhole_operand depthLimit).finds _ _ _ read
          exact .inr ⟨used, l, rest, t, rfl, rfl, formed⟩

/-- An error of the parser is about a part of the text. -/
inductive Culprit (text : String) : ParseError → String → Prop where
  | char (c : Char) (position : Nat) :
      Culprit text (.unexpectedChar c position) (String.singleton c)
  | number (number : String) (position : Nat) :
      Culprit text (.malformedNumber number position) number
  | token {ls : List Lexeme} {l : Lexeme} (cut : Lexeme.ofText? text = .ok ls) (member : l ∈ ls) :
      Culprit text (.unexpectedToken l.text l.position) l.text
  | name {ls : List Lexeme} {l : Lexeme} (cut : Lexeme.ofText? text = .ok ls) (member : l ∈ ls)
      (named : l.token = .name l.text) : Culprit text (.unknownSymbol l.text l.position) l.text
  /-- A lexeme behind those that form a formula. -/
  | trailing {used rest : List Lexeme} {l : Lexeme} {t : Term}
      (cut : Lexeme.ofText? text = .ok (used ++ l :: rest))
      (formed : Derives depthLimit (used.map Lexeme.token) (.formula t)) :
      Culprit text (.trailing l.position) l.text

section Text

variable {text : String} {ls : List Lexeme} {l : Lexeme} {e : ParseError} {position : Nat}

theorem standsAt_of_cut (cut : Lexeme.ofText? text = .ok ls) (member : l ∈ ls) :
    Text.StandsAt text l.position l.text ∧ ∀ name, l.token = .name name → name = l.text := by
  obtain ⟨p, -, failed⟩ | ⟨-, ls', cut', each⟩ := Lexeme.cut_cases 0 text.toList
  · cases failed.symm.trans cut
  · obtain rfl : ls' = ls := Except.ok.inj (cut'.symm.trans cut)
    obtain ⟨p, member', means⟩ := exists_mem_of_forall₂ each member
    rw [means.position_eq, means.text_eq]
    exact ⟨Lexeme.standsAt_of_mem_pieces (Text.remains_toList text) member', means.name_eq⟩

/-- What the reader of the lexemes reports stands where it says. -/
theorem exists_culprit_of_ofLexemes? (cut : Lexeme.ofText? text = .ok ls)
    (failed : ofLexemes? ls = .error e) (reported : e.position? = some position) :
    ∃ part, Culprit text e part ∧ Text.StandsAt text position part := by
  obtain blames | ⟨used, l, rest, t, rfl, rfl, formed⟩ := blames_or_trailing failed
  · cases e with
    | unexpectedToken token position' =>
        obtain rfl := Option.some.inj reported
        obtain ⟨l, member, rfl, rfl⟩ := blames
        exact ⟨_, .token cut member, (standsAt_of_cut cut member).1⟩
    | unknownSymbol name position' =>
        obtain rfl := Option.some.inj reported
        obtain ⟨l, member, named, rfl⟩ := blames
        obtain ⟨stands, text_eq⟩ := standsAt_of_cut cut member
        obtain rfl := text_eq name named
        exact ⟨_, .name cut member named, stands⟩
    | unexpectedEnd | arity | tooDeep => cases reported
    | unexpectedChar | malformedNumber | trailing => exact blames.elim
  · obtain rfl := Option.some.inj reported
    exact ⟨_, .trailing cut formed, (standsAt_of_cut cut (by simp)).1⟩

theorem isLexical_of_ofLexemes? (failed : ofLexemes? ls = .error e) : e.isLexical = false := by
  obtain blames | ⟨used, l, rest, t, rfl, -⟩ := blames_or_trailing failed
  · cases e with
    | unexpectedChar | malformedNumber => exact blames.elim
    | _ => rfl
  · rfl

/-- What is reported of a bad piece stands where the piece does. -/
theorem exists_culprit_of_piece {p : Lexeme.Piece} (member : p ∈ Lexeme.pieces 0 text.toList)
    (reported : p.fault.position? = some position) :
    ∃ part, Culprit text p.fault part ∧ Text.StandsAt text position part := by
  have stands := Lexeme.standsAt_of_mem_pieces (Text.remains_toList text) member
  unfold Lexeme.Piece.fault at reported ⊢
  split at reported
  · rename_i numeral
    obtain rfl : p.position = position := Option.some.inj reported
    rw [if_pos numeral]
    exact ⟨p.text, .number p.text p.position, stands⟩
  · rename_i no_numeral
    obtain rfl : p.position = position := Option.some.inj reported
    rw [if_neg no_numeral]
    exact ⟨_, .char p.first p.position, stands.first⟩

theorem isLexical_fault (p : Lexeme.Piece) : p.fault.isLexical = true := by
  unfold Lexeme.Piece.fault
  split <;> rfl

theorem parse_of_error (cut : Lexeme.ofText? text = .error e) : parse text = .error e := by
  rw [parse, cut]
  rfl

theorem ofLexemes?_of_parse (cut : Lexeme.ofText? text = .ok ls) (failed : parse text = .error e) :
    ofLexemes? ls = .error e := by
  rw [parse_eq, cut] at failed
  change (ofLexemes? ls >>= fun t => .ok t.store) = _ at failed
  cases read : ofLexemes? ls with
  | error e' =>
      rw [read] at failed
      exact congrArg Except.error (Except.error.inj failed)
  | ok t =>
      rw [read] at failed
      cases failed

/-- Parsing a text is safe: no slice splits a character, and no index is outside.  An error with a
position is about what stands there in the text.  The first bad piece is reported, whatever stands
before it. -/
theorem parse_points_at_culprit (text : String) :
    checkedParse? text = some (parse text) ∧
    (∀ e position, parse text = .error e → e.position? = some position →
      ∃ part, Culprit text e part ∧ Text.StandsAt text position part ∧
        String.Pos.Raw.IsValid text ⟨position⟩ ∧ position < text.utf8ByteSize) ∧
    ((∃ e, parse text = .error e ∧ e.isLexical = true) ↔
      ∃ p ∈ Lexeme.pieces 0 text.toList, p.isBad = true) ∧
    ∀ p, (Lexeme.pieces 0 text.toList).find? Lexeme.Piece.isBad = some p →
      parse text = .error p.fault := by
  refine ⟨checkedParse?_eq text, ?_⟩
  -- A bad piece is reported before the reader is asked; without one only the reader can fail.
  obtain ⟨p, first, cut⟩ | ⟨none_bad, ls, cut, -⟩ := Lexeme.cut_cases 0 text.toList
  · have failed : parse text = .error p.fault := parse_of_error cut
    refine ⟨fun e position failed' reported => ?_, ?_, fun p' first' => ?_⟩
    · obtain rfl : p.fault = e := Except.error.inj (failed.symm.trans failed')
      obtain ⟨part, culprit, stands⟩ :=
        exists_culprit_of_piece (List.mem_of_find?_eq_some first) reported
      exact ⟨part, culprit, stands, stands.isValid⟩
    · exact iff_of_true ⟨p.fault, failed, isLexical_fault p⟩
        ⟨p, List.mem_of_find?_eq_some first, List.find?_some first⟩
    · obtain rfl : p = p' := Option.some.inj (first.symm.trans first')
      exact failed
  · refine ⟨fun e position failed reported => ?_, ?_, fun p first => ?_⟩
    · obtain ⟨part, culprit, stands⟩ :=
        exists_culprit_of_ofLexemes? cut (ofLexemes?_of_parse cut failed) reported
      exact ⟨part, culprit, stands, stands.isValid⟩
    · refine iff_of_false ?_ ?_
      · rintro ⟨e, failed, lexical⟩
        rw [isLexical_of_ofLexemes? (ofLexemes?_of_parse cut failed)] at lexical
        cases lexical
      · rintro ⟨p, member, bad⟩
        exact List.find?_eq_none.mp none_bad p member bad
    · cases none_bad.symm.trans first

/-- The parenthesis before the character without meaning is not reported. -/
theorem accentedSum_points_at_culprit :
    parse "2 ) + é" = .error (.unexpectedChar 'é' 6) ∧
      ∃ part, Culprit "2 ) + é" (.unexpectedChar 'é' 6) part ∧
        Text.StandsAt "2 ) + é" 6 part ∧
        String.Pos.Raw.IsValid "2 ) + é" ⟨6⟩ ∧ 6 < "2 ) + é".utf8ByteSize := by
  have first : (Lexeme.pieces 0 "2 ) + é".toList).find? Lexeme.Piece.isBad =
      some ⟨6, 'é', []⟩ := by decide +kernel
  obtain ⟨-, points, -, reports⟩ := parse_points_at_culprit "2 ) + é"
  have failed := reports _ first
  exact ⟨failed, points _ 6 failed rfl⟩

end Text

end Formula

end FormulaFit
