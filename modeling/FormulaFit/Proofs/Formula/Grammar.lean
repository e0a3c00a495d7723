import FormulaFit.Proofs.Formula.Vocabulary
import Mathlib.Tactic.Common

/-!
# The grammar of formulas

`Derives` says which tokens form which phrase, and which term the phrase stands for.  The level
bounds how deeply operands are nested in each other.  Whatever derives is read as the grammar says,
if a token follows that cannot continue it.
-/

namespace FormulaFit

/-- Readers of phrases up to a rank leave a token of that rank for others: a parenthesis continues a
name, a power sign a primary, and so on up to the end of a formula. -/
def Token.rank : Token → Nat
  | .power => 1
  | .star | .slash => 2
  | .plus | .minus => 3
  | .relation _ => 4
  | .rightParen | .comma => 5
  | .number _ | .name _ | .leftParen => 0

/-- The token begins a primary. -/
def Token.isOpening : Token → Bool
  | .number _ | .name _ | .leftParen => true
  | _ => false

namespace Formula

/-- A minus before these tokens belongs to the literal that they begin with. -/
def TakesSign : List Token → Prop
  | .number _ :: ts => ts.head? ≠ some .power
  | .name name :: ts => name = "oo" ∧ ts.head? ≠ some .power
  | _ => False

/-- A phrase and the term it stands for, or the terms it lists. -/
inductive Phrase where
  | primary (t : Term)
  /-- What stands between the parentheses of a call. -/
  | arguments (args : List Term)
  | power (t : Term)
  | operand (t : Term)
  /-- A product that may go on, with the factors since its last division. -/
  | factors (chain : List Term)
  /-- A sum that may go on, with the summands since its last subtraction. -/
  | summands (chain : List Term)
  | formula (t : Term)

/-- The tokens form the phrase, and operands are nested at most as deeply as the level says. -/
inductive Derives : (level : Nat) → List Token → Phrase → Prop where
  | number {level : Nat} (v : Float) : Derives level [.number v] (.primary (.node (.const v)))
  | atom {level : Nat} {name : String} {n : Node Float Term} (value : Names name n) :
      Derives level [.name name] (.primary (.node n))
  | enclosed {level : Nat} {ts : List Token} {t : Term} (inner : Derives level ts (.formula t)) :
      Derives level (.leftParen :: (ts ++ [.rightParen])) (.primary t)
  | call {level : Nat} {name : String} {ts : List Token} {args : List Term} {t : Term}
      (inner : Derives level ts (.arguments args)) (value : Calls name args t) :
      Derives level (.name name :: .leftParen :: (ts ++ [.rightParen])) (.primary t)
  | noArguments {level : Nat} : Derives level [] (.arguments [])
  | firstArgument {level : Nat} {ts : List Token} {t : Term}
      (argument : Derives level ts (.formula t)) : Derives level ts (.arguments [t])
  | nextArgument {level : Nat} {ts us : List Token} {first t : Term} {args : List Term}
      (arguments : Derives level ts (.arguments (first :: args)))
      (argument : Derives level us (.formula t)) :
      Derives level (ts ++ .comma :: us) (.arguments (first :: args ++ [t]))
  | base {level : Nat} {ts : List Token} {t : Term} (primary : Derives level ts (.primary t)) :
      Derives level ts (.power t)
  | raised {level : Nat} {ts us : List Token} {t u : Term} (base : Derives level ts (.primary t))
      (exponent : Derives level us (.operand u)) :
      Derives level (ts ++ .power :: us) (.power (.node (.binary .pow t u)))
  | unsigned {level : Nat} {ts : List Token} {t : Term} (power : Derives level ts (.power t)) :
      Derives (level + 1) ts (.operand t)
  | plus {level : Nat} {ts : List Token} {t : Term} (operand : Derives level ts (.operand t)) :
      Derives (level + 1) (.plus :: ts) (.operand t)
  | minus {level : Nat} {ts : List Token} {t : Term} (operand : Derives level ts (.operand t))
      (separate : ¬TakesSign ts) :
      Derives (level + 1) (.minus :: ts) (.operand (.node (.unary .neg t)))
  | negativeNumber {level : Nat} (v : Float) :
      Derives (level + 1) [.minus, .number v] (.operand (.node (.const (-v))))
  | negativeInfinity {level : Nat} :
      Derives (level + 1) [.minus, .name "oo"] (.operand (.node (.symbol .negInf)))
  | factor {level : Nat} {ts : List Token} {t : Term} (operand : Derives level ts (.operand t)) :
      Derives level ts (.factors [t])
  | times {level : Nat} {ts us : List Token} {chain : List Term} {t : Term}
      (factors : Derives level ts (.factors chain)) (factor : Derives level us (.operand t)) :
      Derives level (ts ++ .star :: us) (.factors (chain ++ [t]))
  | divide {level : Nat} {ts us : List Token} {chain : List Term} {t : Term}
      (factors : Derives level ts (.factors chain)) (divisor : Derives level us (.operand t)) :
      Derives level (ts ++ .slash :: us) (.factors [.node (.binary .div (close .mul chain) t)])
  | summand {level : Nat} {ts : List Token} {chain : List Term}
      (product : Derives level ts (.factors chain)) :
      Derives level ts (.summands [close .mul chain])
  | add {level : Nat} {ts us : List Token} {chain factors : List Term}
      (summands : Derives level ts (.summands chain))
      (product : Derives level us (.factors factors)) :
      Derives level (ts ++ .plus :: us) (.summands (chain ++ [close .mul factors]))
  | subtract {level : Nat} {ts us : List Token} {chain factors : List Term}
      (summands : Derives level ts (.summands chain))
      (product : Derives level us (.factors factors)) :
      Derives level (ts ++ .minus :: us)
        (.summands [.node (.binary .sub (close .add chain) (close .mul factors))])
  | side {level : Nat} {ts : List Token} {chain : List Term}
      (sum : Derives level ts (.summands chain)) : Derives level ts (.formula (close .add chain))
  | comparison {level : Nat} {ts us : List Token} {left right : List Term} (op : Comparison)
      (first : Derives level ts (.summands left)) (second : Derives level us (.summands right)) :
      Derives level (ts ++ .relation op :: us)
        (.formula (.node (.relation op (close .add left) (close .add right))))

section Reading

variable {α : Type} {rank : Nat} {rest : List Lexeme}

/-- What is left begins with a token of the rank or more, if there is any. -/
def Stops (rank : Nat) (rest : List Lexeme) : Prop := ∀ l ∈ rest.head?, rank ≤ l.token.rank

theorem Stops.mono (stops : Stops rank rest) {less : Nat} (le : less ≤ rank) : Stops less rest :=
  fun l first => Nat.le_trans le (stops l first)

variable {token : Token} {position : Nat} {text : String}

theorem stops_cons (le : rank ≤ token.rank) : Stops rank (⟨token, position, text⟩ :: rest) := by
  simpa [Stops] using le

theorem Stops.rank_le (stops : Stops rank (⟨token, position, text⟩ :: rest)) :
    rank ≤ token.rank := stops _ rfl

/-- The reader reads the tokens in front of whatever stops it. -/
def Reads (rank : Nat) (reader : Reader α) (ts : List Token) (a : α) : Prop :=
  ∀ ls rest, ls.map Lexeme.token = ts → Stops rank rest → reader (ls ++ rest) = .ok (a, rest)

/-- The reader gets through the tokens to where a loop goes on with a chain. -/
def Reaches (rank : Nat) (reader : Reader α) (tail : Nat → List Term → Reader α)
    (ts : List Token) (chain : List Term) : Prop :=
  ∀ ls rest, ls.map Lexeme.token = ts → Stops rank rest →
    ∃ bound, rest.length ≤ bound ∧ reader (ls ++ rest) = tail bound chain rest

theorem exists_split {ls : List Lexeme} {ts us : List Token} {separator : Token}
    (tokens : ls.map Lexeme.token = ts ++ separator :: us) :
    ∃ before l after, ls = before ++ l :: after ∧ before.map Lexeme.token = ts ∧
      l.token = separator ∧ after.map Lexeme.token = us := by
  obtain ⟨before, others, rfl, before_eq, others_eq⟩ := List.map_eq_append_iff.mp tokens
  obtain ⟨l, after, rfl, l_eq, after_eq⟩ := List.map_eq_cons_iff.mp others_eq
  exact ⟨before, l, after, rfl, before_eq, l_eq, after_eq⟩

section Chains

variable {reader : Reader α} {item : Reader Term} {tail : Nat → List Term → Reader α}
  {ts us : List Token} {chain : List Term} {t : Term}

theorem Reads.reaches (reads : Reads rank item ts t)
    (starts : ∀ ls rest, ls.map Lexeme.token = ts → reader (ls ++ rest) = do
      let (first, rest) ← item (ls ++ rest)
      tail rest.length [first] rest) :
    Reaches rank reader tail ts [t] := by
  intro ls rest tokens stops
  refine ⟨rest.length, Nat.le_refl _, ?_⟩
  rw [starts ls rest tokens, reads ls rest tokens stops]
  rfl

/-- One more item behind a separator, if the loop takes both of them. -/
theorem Reaches.next (reaches : Reaches rank reader tail ts chain) (reads : Reads rank item us t)
    (separator : Token) (le : rank ≤ separator.rank) (extend : Term → List Term)
    (step : ∀ bound position text ls,
      tail (bound + 1) chain (⟨separator, position, text⟩ :: ls) = do
      let (t, rest) ← item ls
      tail bound (extend t) rest) :
    Reaches rank reader tail (ts ++ separator :: us) (extend t) := by
  intro ls rest tokens stops
  obtain ⟨before, ⟨token, position, text⟩, after, rfl, before_eq, rfl, after_eq⟩ :=
    exists_split tokens
  obtain ⟨bound, bound_ge, read_eq⟩ :=
    reaches before (⟨token, position, text⟩ :: (after ++ rest)) before_eq (stops_cons le)
  rw [List.length_cons, List.length_append] at bound_ge
  obtain ⟨bound, rfl⟩ := Nat.exists_eq_succ_of_ne_zero (Nat.ne_zero_of_lt bound_ge)
  refine ⟨bound, by omega, ?_⟩
  rw [List.append_assoc, List.cons_append, read_eq, step, reads after rest after_eq stops]
  rfl

end Chains

variable {operand : Reader Term} {ts us : List Token} {t u : Term} {chain : List Term}

theorem productTail_of_stops (bound : Nat) (stops : Stops 3 rest) :
    productTail operand bound chain rest = .ok (close .mul chain, rest) := by
  unfold productTail
  split
  · exact absurd stops.rank_le (by decide)
  · exact absurd stops.rank_le (by decide)
  · rfl

theorem sumTail_of_stops (bound : Nat) (stops : Stops 4 rest) :
    sumTail operand bound chain rest = .ok (close .add chain, rest) := by
  unfold sumTail
  split
  · exact absurd stops.rank_le (by decide)
  · exact absurd stops.rank_le (by decide)
  · rfl

theorem Reaches.product (reaches : Reaches 2 (product operand) (productTail operand) ts chain) :
    Reads 3 (product operand) ts (close .mul chain) := by
  intro ls rest tokens stops
  obtain ⟨bound, -, read_eq⟩ := reaches ls rest tokens (stops.mono (by decide))
  rw [read_eq, productTail_of_stops bound stops]

theorem Reaches.sum (reaches : Reaches 3 (sum operand) (sumTail operand) ts chain) :
    Reads 4 (sum operand) ts (close .add chain) := by
  intro ls rest tokens stops
  obtain ⟨bound, -, read_eq⟩ := reaches ls rest tokens (stops.mono (by decide))
  rw [read_eq, sumTail_of_stops bound stops]

theorem Reads.side {side : Reader Term} (reads : Reads 4 side ts t) :
    Reads 5 (comparison side) ts t := by
  intro ls rest tokens stops
  rw [comparison, reads ls rest tokens (stops.mono (by decide))]
  dsimp only [bind, Except.bind]
  split
  · exact absurd stops.rank_le (by simp [Token.rank])
  · rfl

theorem Reads.comparison {side : Reader Term} (reads : Reads 4 side ts t)
    (reads' : Reads 4 side us u) (op : Comparison) :
    Reads 5 (comparison side) (ts ++ .relation op :: us) (.node (.relation op t u)) := by
  intro ls rest tokens stops
  obtain ⟨before, ⟨token, position, text⟩, after, rfl, before_eq, rfl, after_eq⟩ :=
    exists_split tokens
  rw [Formula.comparison, List.append_assoc, List.cons_append,
    reads before (⟨.relation op, position, text⟩ :: (after ++ rest)) before_eq
      (stops_cons (Nat.le_refl 4))]
  dsimp only [bind, Except.bind]
  rw [reads' after rest after_eq (stops.mono (by decide))]
  rfl

theorem Reads.power (reads : Reads 1 (primary operand) ts t) : Reads 2 (power operand) ts t := by
  intro ls rest tokens stops
  rw [Formula.power, reads ls rest tokens (stops.mono (by decide))]
  dsimp only [bind, Except.bind]
  split
  · exact absurd stops.rank_le (by decide)
  · rfl

theorem Reads.raised (reads : Reads 1 (primary operand) ts t) (reads' : Reads 2 operand us u) :
    Reads 2 (Formula.power operand) (ts ++ .power :: us) (.node (.binary .pow t u)) := by
  intro ls rest tokens stops
  obtain ⟨before, ⟨token, position, text⟩, after, rfl, before_eq, rfl, after_eq⟩ :=
    exists_split tokens
  rw [Formula.power, List.append_assoc, List.cons_append,
    reads before (⟨.power, position, text⟩ :: (after ++ rest)) before_eq
      (stops_cons (Nat.le_refl 1))]
  dsimp only [bind, Except.bind]
  rw [reads' after rest after_eq stops]
  rfl

theorem exists_lexeme {ls : List Lexeme} (tokens : ls.map Lexeme.token = [token]) :
    ∃ position text, ls = [⟨token, position, text⟩] := by
  obtain ⟨l, rfl, rfl⟩ := List.map_eq_singleton_iff.mp tokens
  exact ⟨l.position, l.text, rfl⟩

theorem exists_lexeme_cons {ls : List Lexeme} (tokens : ls.map Lexeme.token = token :: ts) :
    ∃ position text after, ls = ⟨token, position, text⟩ :: after ∧
      after.map Lexeme.token = ts := by
  obtain ⟨l, after, rfl, rfl, after_eq⟩ := List.map_eq_cons_iff.mp tokens
  exact ⟨l.position, l.text, after, rfl, after_eq⟩

theorem reads_number (v : Float) :
    Reads 1 (primary operand) [.number v] (.node (.const v)) := by
  intro ls rest tokens stops
  obtain ⟨position, text, rfl⟩ := exists_lexeme tokens
  rfl

theorem reads_atom {name : String} {n : Node Float Term} (value : atom? name = some n) :
    Reads 1 (primary operand) [.name name] (.node n) := by
  intro ls rest tokens stops
  obtain ⟨position, text, rfl⟩ := exists_lexeme tokens
  cases rest with
  | nil => simp [primary, value, pure, Except.pure]
  | cons l rest =>
      obtain ⟨token, position', text'⟩ := l
      have apart : token ≠ .leftParen := by
        rintro rfl
        exact absurd stops.rank_le (by decide)
      simp [primary, value, apart, pure, Except.pure]

theorem Reads.enclosed (reads : Reads 5 (formula operand) ts t) :
    Reads 1 (primary operand) (.leftParen :: (ts ++ [.rightParen])) t := by
  intro ls rest tokens stops
  obtain ⟨position, text, others, rfl, others_eq⟩ := exists_lexeme_cons tokens
  obtain ⟨inner, ⟨token, position', text'⟩, last, rfl, inner_eq, rfl, last_eq⟩ :=
    exists_split others_eq
  obtain rfl := List.map_eq_nil_iff.mp last_eq
  have read_eq := reads inner (⟨.rightParen, position', text'⟩ :: rest) inner_eq
    (stops_cons (Nat.le_refl 5))
  simp [primary, List.append_assoc, read_eq, bind, Except.bind, pure, Except.pure]

theorem powerFollows_of_stops (stops : Stops 2 rest) : powerFollows rest = false := by
  unfold powerFollows
  split
  · exact absurd stops.rank_le (by decide)
  · rfl

theorem powerFollows_iff {ls : List Lexeme} (tokens : ls.map Lexeme.token = ts)
    (no_power : powerFollows rest = false) :
    powerFollows (ls ++ rest) = true ↔ ts.head? = some .power := by
  subst tokens
  cases ls with
  | nil => simp [no_power]
  | cons l ls =>
      obtain ⟨token, position, text⟩ := l
      cases token <;> simp [powerFollows]

theorem negativeLiteral?_eq_none_iff {ls : List Lexeme} (tokens : ls.map Lexeme.token = token :: ts)
    (no_power : powerFollows rest = false) :
    (negativeLiteral? (ls ++ rest) : Option (Node Float Term × List Lexeme)) = none ↔
      ¬TakesSign (token :: ts) := by
  obtain ⟨position, text, others, rfl, others_eq⟩ := exists_lexeme_cons tokens
  have power_iff := powerFollows_iff others_eq no_power
  cases token with
  | number v => simp [negativeLiteral?, TakesSign, power_iff]
  | name name => simp [negativeLiteral?, TakesSign, power_iff]
  | _ => simp [negativeLiteral?, TakesSign]

theorem Reads.unsigned (reads : Reads 2 (Formula.power operand) (token :: ts) t)
    (opens : token.isOpening = true) : Reads 2 (signed operand) (token :: ts) t := by
  intro ls rest tokens stops
  rw [← reads ls rest tokens stops]
  obtain ⟨position, text, others, rfl, -⟩ := exists_lexeme_cons tokens
  cases token <;> first | rfl | cases opens

theorem Reads.plus (reads : Reads 2 operand ts t) :
    Reads 2 (signed operand) (.plus :: ts) t := by
  intro ls rest tokens stops
  obtain ⟨position, text, others, rfl, others_eq⟩ := exists_lexeme_cons tokens
  exact reads others rest others_eq stops

theorem Reads.minus (reads : Reads 2 operand (token :: ts) t)
    (separate : ¬TakesSign (token :: ts)) :
    Reads 2 (signed operand) (.minus :: token :: ts) (.node (.unary .neg t)) := by
  intro ls rest tokens stops
  obtain ⟨position, text, others, rfl, others_eq⟩ := exists_lexeme_cons tokens
  have separate :=
    (negativeLiteral?_eq_none_iff others_eq (powerFollows_of_stops stops)).mpr separate
  simp [signed, separate, reads others rest others_eq stops, bind, Except.bind, pure, Except.pure]

theorem reads_negativeNumber (v : Float) :
    Reads 2 (signed operand) [.minus, .number v] (.node (.const (-v))) := by
  intro ls rest tokens stops
  obtain ⟨position, text, others, rfl, others_eq⟩ := exists_lexeme_cons tokens
  obtain ⟨position', text', rfl⟩ := exists_lexeme others_eq
  simp [signed, negativeLiteral?, powerFollows_of_stops stops, pure, Except.pure]

theorem reads_negativeInfinity :
    Reads 2 (signed operand) [.minus, .name "oo"] (.node (.symbol .negInf)) := by
  intro ls rest tokens stops
  obtain ⟨position, text, others, rfl, others_eq⟩ := exists_lexeme_cons tokens
  obtain ⟨position', text', rfl⟩ := exists_lexeme others_eq
  simp [signed, negativeLiteral?, powerFollows_of_stops stops, pure, Except.pure]

theorem Reads.call {name : String} {args : List Term} {t : Term}
    (reads : ∀ ls position text rest, ls.map Lexeme.token = ts →
      arguments (formula operand) (ls ++ ⟨.rightParen, position, text⟩ :: rest) = .ok (args, rest))
    (value : call name args = .ok t) :
    Reads 1 (primary operand) (.name name :: .leftParen :: (ts ++ [.rightParen])) t := by
  intro ls rest tokens stops
  obtain ⟨position, text, others, rfl, others_eq⟩ := exists_lexeme_cons tokens
  obtain ⟨position', text', others, rfl, enclosed_eq⟩ := exists_lexeme_cons others_eq
  obtain ⟨inner, ⟨token, position'', text''⟩, last, rfl, inner_eq, rfl, last_eq⟩ :=
    exists_split enclosed_eq
  obtain rfl := List.map_eq_nil_iff.mp last_eq
  have read_eq := reads inner position'' text'' rest inner_eq
  simp [primary, List.append_assoc, read_eq, value, bind, Except.bind, pure, Except.pure]

theorem Reaches.arguments {args : List Term}
    (reaches : Reaches 5 (arguments (formula operand)) (argumentsTail (formula operand)) ts args)
    {ls : List Lexeme} {position : Nat} {text : String} (tokens : ls.map Lexeme.token = ts) :
    arguments (formula operand) (ls ++ ⟨.rightParen, position, text⟩ :: rest) =
      .ok (args, rest) := by
  obtain ⟨bound, -, read_eq⟩ :=
    reaches ls (⟨.rightParen, position, text⟩ :: rest) tokens (stops_cons (Nat.le_refl 5))
  rw [read_eq]
  cases bound <;> rfl

end Reading

/-- Tokens that the phrase can begin with. -/
def Phrase.Begins : Phrase → Token → Prop
  | .primary _, token | .power _, token => token.isOpening = true
  | _, token => token.isOpening = true ∨ token = .plus ∨ token = .minus

/-- Only the arguments of a call can be missing. -/
theorem Derives.exists_first {level : Nat} {ts : List Token} {p : Phrase}
    (derives : Derives level ts p) : (ts = [] ∧ p = .arguments []) ∨
      ∃ first others, ts = first :: others ∧ p.Begins first := by
  induction derives with
  | noArguments => exact .inl ⟨rfl, rfl⟩
  | number v => exact .inr ⟨_, _, rfl, rfl⟩
  | atom value => exact .inr ⟨_, _, rfl, rfl⟩
  | enclosed inner => exact .inr ⟨_, _, rfl, rfl⟩
  | call inner value => exact .inr ⟨_, _, rfl, rfl⟩
  | plus operand => exact .inr ⟨_, _, rfl, .inr (.inl rfl)⟩
  | minus operand separate => exact .inr ⟨_, _, rfl, .inr (.inr rfl)⟩
  | negativeNumber v => exact .inr ⟨_, _, rfl, .inr (.inr rfl)⟩
  | negativeInfinity => exact .inr ⟨_, _, rfl, .inr (.inr rfl)⟩
  | unsigned power ih =>
      obtain ⟨-, impossible⟩ | ⟨first, others, rfl, begins⟩ := ih
      · cases impossible
      · exact .inr ⟨first, others, rfl, .inl begins⟩
  | base primary ih | firstArgument argument ih | factor operand ih | summand product ih
  | side sum ih =>
      obtain ⟨-, impossible⟩ | ⟨first, others, rfl, begins⟩ := ih
      · cases impossible
      · exact .inr ⟨first, others, rfl, begins⟩
  | raised base exponent ih | nextArgument arguments argument ih | times factors factor ih
  | divide factors divisor ih | add summands product ih | subtract summands product ih
  | comparison op left right ih =>
      obtain ⟨-, impossible⟩ | ⟨first, others, rfl, begins⟩ := ih
      · cases impossible
      · exact .inr ⟨first, _, rfl, begins⟩

/-- What the parser does with the tokens of a phrase. -/
def IsRead (level : Nat) (ts : List Token) : Phrase → Prop
  | .primary t => Reads 1 (primary (operand level)) ts t
  | .arguments args => (ts = [] ∧ args = []) ∨ Reaches 5 (arguments (formula (operand level)))
      (argumentsTail (formula (operand level))) ts args
  | .power t => Reads 2 (power (operand level)) ts t
  | .operand t => Reads 2 (operand level) ts t
  | .factors chain => Reaches 2 (product (operand level)) (productTail (operand level)) ts chain
  | .summands chain =>
    Reaches 3 (sum (product (operand level))) (sumTail (product (operand level))) ts chain
  | .formula t => Reads 5 (formula (operand level)) ts t

/-- Phrases are read as the grammar says. -/
theorem Derives.isRead {level : Nat} {ts : List Token} {p : Phrase} (derives : Derives level ts p) :
    IsRead level ts p := by
  -- A chain is read up to where its loop goes on, since a longer chain may continue it.
  induction derives with
  | number v => exact reads_number v
  | atom value => exact reads_atom (atom?_eq_some_iff.mpr value)
  | enclosed inner ih => exact Reads.enclosed ih
  | call inner value ih =>
      refine Reads.call (fun ls position text rest tokens => ?_) (call_eq_ok_iff.mpr value)
      obtain ⟨rfl, rfl⟩ | reaches := ih
      · obtain rfl := List.map_eq_nil_iff.mp tokens
        rfl
      · exact reaches.arguments tokens
  | noArguments => exact .inl ⟨rfl, rfl⟩
  | firstArgument argument ih =>
      obtain ⟨-, impossible⟩ | ⟨first, others, rfl, begins⟩ := argument.exists_first
      · cases impossible
      · refine .inr (Reads.reaches ih fun ls rest tokens => ?_)
        obtain ⟨position, text, ls, rfl, -⟩ := exists_lexeme_cons tokens
        cases first <;> first | rfl | simp [Phrase.Begins, Token.isOpening] at begins
  | @nextArgument level ts us first t args arguments argument ih ih' =>
      obtain ⟨-, impossible⟩ | reaches := ih
      · cases impossible
      · exact .inr (Reaches.next reaches ih' .comma (Nat.le_refl 5) (first :: args ++ [·])
          fun _ _ _ _ => rfl)
  | base primary ih => exact Reads.power ih
  | raised base exponent ih ih' => exact Reads.raised ih ih'
  | unsigned power ih =>
      obtain ⟨-, impossible⟩ | ⟨first, others, rfl, begins⟩ := power.exists_first
      · cases impossible
      · exact Reads.unsigned ih begins
  | plus operand ih => exact Reads.plus ih
  | minus operand separate ih =>
      obtain ⟨-, impossible⟩ | ⟨first, others, rfl, -⟩ := operand.exists_first
      · cases impossible
      · exact Reads.minus ih separate
  | negativeNumber v => exact reads_negativeNumber v
  | negativeInfinity => exact reads_negativeInfinity
  | factor operand ih => exact Reads.reaches ih fun _ _ _ => rfl
  | @times level ts us chain t factors factor ih ih' =>
      exact Reaches.next ih ih' .star (Nat.le_refl 2) (chain ++ [·]) fun _ _ _ _ => rfl
  | @divide level ts us chain t factors divisor ih ih' =>
      exact Reaches.next ih ih' .slash (Nat.le_refl 2)
        (fun t => [.node (.binary .div (close .mul chain) t)]) fun _ _ _ _ => rfl
  | summand product ih => exact (Reaches.product ih).reaches fun _ _ _ => rfl
  | @add level ts us chain factors summands product ih ih' =>
      exact Reaches.next ih (Reaches.product ih') .plus (Nat.le_refl 3) (chain ++ [·])
        fun _ _ _ _ => rfl
  | @subtract level ts us chain factors summands product ih ih' =>
      exact Reaches.next ih (Reaches.product ih') .minus (Nat.le_refl 3)
        (fun t => [.node (.binary .sub (close .add chain) t)]) fun _ _ _ _ => rfl
  | side sum ih => exact (Reaches.sum ih).side
  | comparison op first second ih ih' => exact (Reaches.sum ih).comparison (Reaches.sum ih') op

end Formula
end FormulaFit
