import FormulaFit.Proofs.Formula.Reading
import FormulaFit.Proofs.Formula.Terms

/-!
# The language of the parser

No tokens stand for two formulas, however deeply operands may nest.  So a text that can be cut into
tokens is accepted exactly if they derive a formula within the limits, and what is stored unfolds to
that formula.
-/

namespace FormulaFit
namespace Formula

variable {level : Nat} {ts : List Token}

theorem Derives.succ {p : Phrase} (derives : Derives level ts p) : Derives (level + 1) ts p := by
  induction derives with
  | number v => exact .number v
  | atom value => exact .atom value
  | enclosed inner ih => exact .enclosed ih
  | call inner value ih => exact .call ih value
  | noArguments => exact .noArguments
  | firstArgument argument ih => exact .firstArgument ih
  | nextArgument arguments argument ih ih' => exact .nextArgument ih ih'
  | base primary ih => exact .base ih
  | raised base exponent ih ih' => exact .raised ih ih'
  | unsigned power ih => exact .unsigned ih
  | plus operand ih => exact .plus ih
  | minus operand separate ih => exact .minus ih separate
  | negativeNumber v => exact .negativeNumber v
  | negativeInfinity => exact .negativeInfinity
  | factor operand ih => exact .factor ih
  | times factors factor ih ih' => exact .times ih ih'
  | divide factors divisor ih ih' => exact .divide ih ih'
  | summand product ih => exact .summand ih
  | add summands product ih ih' => exact .add ih ih'
  | subtract summands product ih ih' => exact .subtract ih ih'
  | side sum ih => exact .side ih
  | comparison op first second ih ih' => exact .comparison op ih ih'

theorem Derives.mono {p : Phrase} (derives : Derives level ts p) {more : Nat}
    (le : level ≤ more) : Derives more ts p := by
  induction le with
  | refl => exact derives
  | step _ ih => exact ih.succ

/-- The tokens of a formula derive no other formula at any level. -/
theorem Derives.unique {level' : Nat} {t u : Term} (derives : Derives level ts (.formula t))
    (derives' : Derives level' ts (.formula u)) : t = u := by
  let ls : List Lexeme := ts.map fun token => ⟨token, 0, ""⟩
  have tokens : ls.map Lexeme.token = ts := by simp [ls, Function.comp_def]
  have stops : Stops 5 [] := by simp [Stops]
  have read := (derives.mono (Nat.le_max_left level level')).isRead ls [] tokens stops
  have read' := (derives'.mono (Nat.le_max_right level level')).isRead ls [] tokens stops
  exact (Prod.mk.inj (Except.ok.inj (read.symm.trans read'))).1

/-- The parser accepts exactly its grammar, and stores the one formula that the tokens derive. -/
theorem parse_accepts_grammar {text : String} {ls : List Lexeme}
    (cut : Lexeme.ofText? text = .ok ls) :
    ((∃ e, parse text = .ok e) ↔ ∃ t, Derives depthLimit (ls.map Lexeme.token) (.formula t) ∧
      t.tree.depth ≤ depthLimit) ∧
    ∀ e, parse text = .ok e → ∃ t, Derives depthLimit (ls.map Lexeme.token) (.formula t) ∧
      e.unfold = t.tree ∧
      ∀ level u, Derives level (ls.map Lexeme.token) (.formula u) → u = t := by
  have parsed_iff (e : Expr Float) :
      parse text = .ok e ↔ ∃ t, ofLexemes? ls = .ok t ∧ t.store = e := by
    have read_eq : parse text = ofLexemes? ls >>= fun t => .ok t.store := by
      rw [parse_eq, cut]
      rfl
    rw [read_eq, bind_eq_ok_iff]
    simp only [Except.ok.injEq]
  constructor
  · constructor
    · rintro ⟨e, parsed⟩
      obtain ⟨t, read, -⟩ := (parsed_iff e).mp parsed
      exact ⟨t, ofLexemes?_eq_ok_iff.mp read⟩
    · rintro ⟨t, accepted⟩
      exact ⟨t.store, (parsed_iff _).mpr ⟨t, ofLexemes?_eq_ok_iff.mpr accepted, rfl⟩⟩
  · intro e parsed
    obtain ⟨t, read, rfl⟩ := (parsed_iff e).mp parsed
    obtain ⟨derives, -⟩ := ofLexemes?_eq_ok_iff.mp read
    exact ⟨t, derives, t.unfold_store, fun level u derives' => derives'.unique derives⟩

/-- The lexemes of `-2**x_0*3 < max(E)`. -/
def raisedLiteral : List Lexeme :=
  [⟨.minus, 0, "-"⟩, ⟨.number 2, 1, "2"⟩, ⟨.power, 2, "**"⟩, ⟨.name "x_0", 4, "x_0"⟩,
    ⟨.star, 7, "*"⟩, ⟨.number 3, 8, "3"⟩, ⟨.relation .lt, 10, "<"⟩, ⟨.name "max", 12, "max"⟩,
    ⟨.leftParen, 15, "("⟩, ⟨.name "E", 16, "E"⟩, ⟨.rightParen, 17, ")"⟩]

/-- The sign belongs to the power, and the maximum of one value is the value. -/
def raisedLiteralFormula : Expr Float :=
  ⟨#[.const 2, .var 0, .binary .pow 0 1, .unary .neg 2, .const 3, .nary .mul [3, 4],
    .const eulerNumber, .relation .lt 5 6], 7⟩

theorem raisedLiteral_accepted :
    Lexeme.ofText? "-2**x_0*3 < max(E)" = .ok raisedLiteral ∧
      parse "-2**x_0*3 < max(E)" = .ok raisedLiteralFormula ∧
      ∃ t, Derives depthLimit (raisedLiteral.map Lexeme.token) (.formula t) ∧
        raisedLiteralFormula.unfold = t.tree ∧
        ∀ level u, Derives level (raisedLiteral.map Lexeme.token) (.formula u) → u = t := by
  have cut : Lexeme.ofText? "-2**x_0*3 < max(E)" = .ok raisedLiteral := by decide +kernel
  have parsed : parse "-2**x_0*3 < max(E)" = .ok raisedLiteralFormula := by decide +kernel
  exact ⟨cut, parsed, (parse_accepts_grammar cut).2 _ parsed⟩

end Formula
end FormulaFit
