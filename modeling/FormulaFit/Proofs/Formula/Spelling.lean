import FormulaFit.Proofs.Formula.Printing

/-!
# Texts of printed formulas

The text that a formula is printed as is scanned as the tokens of the formula.  Nothing in it runs
together: a name or a number is followed by a blank, by a sign or by a parenthesis, and the sign of
a product is followed by the first character of an operand, so it is not taken for a power.
-/

namespace FormulaFit

/-- The text of a formula, and whether it is an atom. -/
def Tree.printed : Tree Float → Formula.Printed := fold Formula.printNode

namespace Formula

open Lexeme

/-- The characters are scanned as the tokens where a name or a number ends behind them. -/
def Covers (cs : List Char) (ts : List Token) : Prop :=
  ∀ rest, Ends rest → Scans (cs ++ rest) ts rest

/-- The first token does not continue the sign of a product. -/
def Starts (ts : List Token) : Prop :=
  ∃ first others, ts = first :: others ∧ first ≠ .star ∧ first ≠ .power

theorem ends_cons {c : Char} {cs : List Char} (other : continuesName c = false)
    (no_point : c ≠ '.') : Ends (c :: cs) := by
  simp [Ends, other, no_point]

theorem Starts.append {ts : List Token} (starts : Starts ts) (us : List Token) :
    Starts (ts ++ us) := by
  obtain ⟨first, others, rfl, apart⟩ := starts
  exact ⟨first, others ++ us, rfl, apart⟩

theorem Derives.starts {level : Nat} {ts : List Token} {t : Term}
    (derives : Derives level ts (.formula t)) : Starts ts := by
  obtain ⟨-, impossible⟩ | ⟨first, others, rfl, begins⟩ := derives.exists_first
  · cases impossible
  · refine ⟨first, others, rfl, ?_⟩
    rcases begins with opening | rfl | rfl
    · constructor <;> rintro rfl <;> cases opening
    · exact ⟨nofun, nofun⟩
    · exact ⟨nofun, nofun⟩

theorem Stands.starts {w : Written} {t : Term} (stands : Stands w t) : Starts w.tokens :=
  (stands.formula w.nesting (Nat.le_refl _)).starts

theorem Stands.starts_operand {w : Written} {t : Term} (stands : Stands w t) :
    Starts w.operandTokens :=
  Derives.starts (.side (.summand (.factor (stands.operand (Nat.le_refl _)))))

section Separators

variable {cs rest : List Char} {ts : List Token} {separator : String} {token : Token} {β : Type}

theorem punctuation?_star (apart : cs.head? ≠ some '*') :
    punctuation? '*' cs = some (.star, [], cs) := by
  cases cs with
  | nil => rfl
  | cons c cs =>
      rw [List.head?_cons, Ne, Option.some.injEq] at apart
      simp [punctuation?, apart]

theorem next_star (position : Nat) (cs : List Char) : ∃ token tail rest,
    next position '*' cs = .ok (token, tail, rest) ∧ (token = .star ∨ token = .power) := by
  by_cases again : cs.head? = some '*'
  · obtain ⟨after, rfl⟩ := List.head?_eq_some_iff.mp again
    exact ⟨_, _, _, rfl, .inr rfl⟩
  · refine ⟨.star, [], cs, ?_, .inl rfl⟩
    simp [next, isNumeral, beginsName, punctuation?_star again]

/-- What begins with a token of another kind does not begin with the sign of a product. -/
theorem head_ne_star (starts : Starts ts) (scans : Scans cs ts rest) : cs.head? ≠ some '*' := by
  obtain ⟨first, others, rfl, no_star, no_power⟩ := starts
  intro begins
  obtain ⟨after, rfl⟩ := List.head?_eq_some_iff.mp begins
  cases scans with
  | blank blank _ => cases blank
  | lexeme visible found _ =>
      obtain ⟨token, tail, left, star, kind⟩ := next_star 0 after
      rw [found 0] at star
      cases star
      exact kind.elim no_star no_power

/-- The text between two operands is scanned as the token. -/
structure Separates (separator : String) (token : Token) : Prop where
  ends : ∀ cs, Ends (separator.toList ++ cs)
  scans : ∀ {cs ts rest}, Starts ts → Scans cs ts rest →
    Scans (separator.toList ++ cs) (token :: ts) rest

/-- Texts with a separator between them are scanned as tokens with a token between them. -/
theorem covers_intercalate (separates : Separates separator token) {text : β → String}
    {tokens : β → List Token} {x : β} {xs : List β}
    (each : ∀ y ∈ x :: xs, Covers (text y).toList (tokens y) ∧ Starts (tokens y)) :
    Covers (separator.intercalate ((x :: xs).map text)).toList
      ([token].intercalate ((x :: xs).map tokens)) := by
  rw [String.toList_intercalate, List.map_map]
  induction xs generalizing x with
  | nil => simpa using (each x List.mem_cons_self).1
  | cons y xs ih =>
      rw [List.forall_mem_cons] at each
      intro rest ends
      -- The separator ends what stands before it, and the next text ends the separator.
      have starts : Starts ([token].intercalate ((y :: xs).map tokens)) := by
        rw [List.map_cons, intercalate_cons]
        exact (each.2 y List.mem_cons_self).2.append _
      have joined := (each.1.1 _ (separates.ends _)).append
        (separates.scans starts (ih each.2 rest ends))
      rw [List.map_cons, List.map_cons, List.map_cons, List.map_cons,
        List.intercalate_cons_cons, List.intercalate_cons_cons]
      simpa using joined

theorem separates_add : Separates " + " .plus where
  ends cs := ends_cons rfl (by decide)
  scans _ others := .blank rfl (.mark (.blank rfl others) rfl rfl)

theorem separates_sub : Separates " - " .minus where
  ends cs := ends_cons rfl (by decide)
  scans _ others := .blank rfl (.mark (.blank rfl others) rfl rfl)

theorem separates_mul : Separates "*" .star where
  ends cs := ends_cons rfl (by decide)
  scans starts others := .mark others rfl (punctuation?_star (head_ne_star starts others))

theorem separates_div : Separates "/" .slash where
  ends cs := ends_cons rfl (by decide)
  scans _ others := .mark others rfl rfl

theorem separates_pow : Separates "**" .power where
  ends cs := ends_cons rfl (by decide)
  scans _ others := .lexeme rfl (fun _ => rfl) others

theorem separates_comma : Separates ", " .comma where
  ends cs := ends_cons rfl (by decide)
  scans _ others := .mark (.blank rfl others) rfl rfl

theorem separates_relation (op : Comparison) : Separates op.separator (.relation op) where
  ends cs := by cases op <;> exact ends_cons rfl (by decide)
  scans _ others := by
    cases op <;> exact .blank rfl (.lexeme rfl (fun _ => rfl) (.blank rfl others))

end Separators

section Nodes

variable {cs : List Char} {ts : List Token}

theorem Covers.enclosed (covers : Covers cs ts) :
    Covers ('(' :: (cs ++ [')'])) (.leftParen :: (ts ++ [.rightParen])) := by
  intro rest ends
  have closing : Scans (')' :: rest) [.rightParen] rest := .mark .done rfl rfl
  have inner := (covers (')' :: rest) (ends_cons rfl (by decide))).append closing
  rw [List.cons_append, List.append_assoc]
  exact .mark inner rfl rfl

theorem Covers.minus (covers : Covers cs ts) : Covers ('-' :: cs) (.minus :: ts) :=
  fun rest ends => .mark (covers rest ends) rfl rfl

theorem covers_name {name : String} (is_name : IsName name) : Covers name.toList [.name name] :=
  fun _ ends => scans_name is_name ends

/-- The printed text of a tree is scanned as its tokens. -/
structure Spells (p : Printed) (w : Written) : Prop where
  isAtom_eq : p.isAtom = w.isAtom
  covers : Covers p.text.toList w.tokens

theorem Spells.operand {p : Printed} {w : Written} (spells : Spells p w) :
    Covers p.operand.toList w.operandTokens := by
  rw [Printed.operand, Written.operandTokens, spells.isAtom_eq]
  split
  · exact spells.covers
  · simpa using spells.covers.enclosed

theorem printed_mk (n : Node Float (Tree Float)) :
    (Tree.mk n).printed = printNode (n.map Tree.printed) := Tree.fold_mk printNode n

theorem spells_join {separator : String} {token : Token} (separates : Separates separator token)
    {args : List (Tree Float)} (nonempty : args ≠ [])
    (each : ∀ t ∈ args, Spells t.printed t.written)
    (stands : ∀ t ∈ args, Stands t.written (Term.ofTree t)) :
    Spells ⟨joined separator (args.map Tree.printed), false⟩
      (.join token (args.map Tree.written)) where
  isAtom_eq := rfl
  covers := by
    obtain ⟨a, others, rfl⟩ := List.exists_cons_of_ne_nil nonempty
    rw [joined, Written.join, List.map_map, List.map_map]
    exact covers_intercalate separates fun t member =>
      ⟨(each t member).operand, (stands t member).starts_operand⟩

theorem spells_apply {name : String} (is_name : IsName name) (args : List (Tree Float))
    (each : ∀ t ∈ args, Spells t.printed t.written)
    (stands : ∀ t ∈ args, Stands t.written (Term.ofTree t)) :
    Spells ⟨called name (args.map Tree.printed), true⟩
      (.apply name (args.map Tree.written)) where
  isAtom_eq := rfl
  covers := by
    have inner : Covers (", ".intercalate ((args.map Tree.printed).map Printed.text)).toList
        ([.comma].intercalate ((args.map Tree.written).map Written.tokens)) := by
      cases args with
      | nil => exact fun rest _ => .done
      | cons a args =>
          rw [List.map_map, List.map_map]
          exact covers_intercalate separates_comma fun t member =>
            ⟨(each t member).covers, (stands t member).starts⟩
    intro rest ends
    have opening (cs : List Char) : Ends ('(' :: cs) := ends_cons rfl (by decide)
    have call := (scans_name is_name (opening _)).append (inner.enclosed rest ends)
    simpa [called, Written.apply] using call

theorem isName_unary {op : UnaryOp} (not_sign : op ≠ .neg) : IsName op.name := by
  cases op with
  | neg => exact absurd rfl not_sign
  | _ => exact isName_of_all rfl rfl rfl

theorem isName_extremum : IsName "max" ∧ IsName "min" :=
  ⟨isName_of_all rfl rfl rfl, isName_of_all rfl rfl rfl⟩

theorem isName_bounds : IsName "AccumBounds" := isName_of_all rfl rfl rfl

theorem isName_indexed (n : Nat) : IsName s!"x_{n}" ∧ IsName s!"C_{n}" := by
  have digits : ∀ c ∈ '_' :: Decimal.digitsOf n, continuesName c = true := by
    rw [List.forall_mem_cons]
    refine ⟨rfl, fun c member => ?_⟩
    simp [continuesName, Char.isAlphanum, (Decimal.digits_digitsOf n).isDigit c member]
  exact ⟨⟨_, _, (toList_indexed n).1, rfl, digits⟩, ⟨_, _, (toList_indexed n).2, rfl, digits⟩⟩

theorem spells_const {v : Float} (finite : v.isFinite = true) :
    Spells (printNode (.const v)) (writeNode (.const v)) := by
  obtain ⟨d, numeral, value_eq⟩ := Decimal.Layout.exists_numeral_of_finite .literal finite
  let digits := Decimal.Layout.literal.spell
    (Decimal.shortest Decimal.Layout.literal.tie (Double.magnitude v))
  have covers : Covers digits [.number (Double.absolute v)] := fun rest ends =>
    value_eq ▸ scans_numeral numeral ends
  have render_eq : (Decimal.Layout.literal.render v).toList =
      (if Double.isNegative v then ['-'] else []) ++ digits := by
    rw [Decimal.Layout.render, if_neg (ne_true_of_eq_false (Double.isNaN_of_finite finite)),
      if_pos finite, String.toList_ofList]
    rfl
  rw [printNode, writeNode]
  cases sign : Double.isNegative v with
  | false =>
      refine ⟨rfl, ?_⟩
      rw [render_eq, sign]
      exact covers
  | true =>
      refine ⟨rfl, ?_⟩
      rw [render_eq, sign]
      exact covers.minus

/-- The text of a formula is scanned as the tokens of the formula. -/
theorem spells_printed {t : Tree Float} (writable : t.Writable)
    (legible : t.Legible) : Spells t.printed t.written := by
  induction t using Tree.induction with
  | step n each =>
      have each : ∀ t ∈ n.children, Spells t.printed t.written := fun t member =>
        each t member (writable.of_child member) (legible.of_child member)
      have stands : ∀ t ∈ n.children, Stands t.written (Term.ofTree t) := fun t member =>
        stands_written (writable.of_child member) (legible.of_child member)
      rw [printed_mk, written_mk]
      cases n with
      | const v => exact spells_const legible.here
      | var i => exact ⟨rfl, covers_name (isName_indexed i.toNat).1⟩
      | param i => exact ⟨rfl, covers_name (isName_indexed i.toNat).2⟩
      | symbol s =>
          cases s with
          | negInf =>
              have infinity : Covers "oo".toList [.name "oo"] :=
                covers_name (isName_of_all rfl rfl rfl)
              exact ⟨rfl, infinity.minus⟩
          | _ => exact ⟨rfl, covers_name (isName_of_all rfl rfl rfl)⟩
      | unary op a =>
          cases op with
          | neg =>
              have operand := (each a (by simp [Node.children])).operand
              refine ⟨rfl, ?_⟩
              simpa [Node.map, printNode, writeNode, UnaryOp.name] using operand.minus
          | _ =>
              refine spells_apply (isName_unary ?_) [a] each stands
              rintro ⟨⟩
      | binary op a b =>
          cases op with
          | sub => exact spells_join separates_sub (List.cons_ne_nil _ _) each stands
          | div => exact spells_join separates_div (List.cons_ne_nil _ _) each stands
          | pow =>
              have spells := spells_join separates_pow (List.cons_ne_nil _ _) each stands
              exact ⟨rfl, spells.covers⟩
      | nary op args =>
          have two_le : 2 ≤ args.length := writable.here
          have nonempty : args ≠ [] := List.ne_nil_of_length_pos (Nat.lt_of_succ_lt two_le)
          cases op with
          | add => exact spells_join separates_add nonempty each stands
          | mul => exact spells_join separates_mul nonempty each stands
          | max => exact spells_apply isName_extremum.1 args each stands
          | min => exact spells_apply isName_extremum.2 args each stands
      | relation op a b =>
          exact spells_join (separates_relation op) (List.cons_ne_nil _ _) each stands
      | bounds a b => exact spells_apply isName_bounds [a, b] each stands
      | call name args =>
          have foreign : IsForeign name := writable.here
          exact spells_apply foreign.isName args each stands

end Nodes

end Formula
end FormulaFit
