import FormulaFit.Proofs.Formula.Grammar
import FormulaFit.Proofs.Program.Slots

/-!
# What the parser reads derives

Every reader takes the tokens of a phrase from the start of the lexemes and gives the term that the
phrase stands for.
-/

namespace FormulaFit
namespace Formula

variable {α : Type}

/-- The reader takes lexemes whose tokens form what it gives. -/
def Finds (reader : Reader α) (forms : List Token → α → Prop) : Prop :=
  ∀ ls a rest, reader ls = .ok (a, rest) →
    ∃ used, ls = used ++ rest ∧ forms (used.map Lexeme.token) a

/-- The loop ends, or it takes a separator and an item, by which the chain grows. -/
def Grows (item : Reader Term) (formsItem : List Token → Term → Prop)
    (forms : List Token → List Term → Prop) (tail : Nat → List Term → Reader α)
    (ends : List Term → List Lexeme → α → List Lexeme → Prop) : Prop :=
  ∀ bound chain ls a rest, tail bound chain ls = .ok (a, rest) →
    ends chain ls a rest ∨ ∃ less l after t left longer, bound = less + 1 ∧ ls = l :: after ∧
      item after = .ok (t, left) ∧ tail less longer left = .ok (a, rest) ∧
      ∀ ts us, forms ts chain → formsItem us t → forms (ts ++ l.token :: us) longer

section Loops

variable {item : Reader Term} {formsItem : List Token → Term → Prop}
  {forms : List Token → List Term → Prop} {tail : Nat → List Term → Reader α}
  {ends : List Term → List Lexeme → α → List Lexeme → Prop}

theorem Grows.exists_longer (grows : Grows item formsItem forms tail ends)
    (finds : Finds item formsItem) {bound : Nat} {chain : List Term} {ls : List Lexeme} {a : α}
    {rest : List Lexeme} {ts : List Token} (before : forms ts chain)
    (read : tail bound chain ls = .ok (a, rest)) :
    ∃ used left longer, ls = used ++ left ∧ forms (ts ++ used.map Lexeme.token) longer ∧
      ends longer left a rest := by
  induction bound generalizing chain ls ts with
  | zero =>
      obtain ended | ⟨less, l, after, t, left, longer, impossible, -⟩ := grows _ _ _ _ _ read
      · exact ⟨[], ls, chain, rfl, by simpa using before, ended⟩
      · exact absurd impossible (Nat.succ_ne_zero less).symm
  | succ bound ih =>
      obtain ended | ⟨less, l, after, t, left, longer, bound_eq, rfl, item_eq, tail_eq, further⟩ :=
        grows _ _ _ _ _ read
      · exact ⟨[], ls, chain, rfl, by simpa using before, ended⟩
      · obtain rfl := Nat.succ.inj bound_eq
        obtain ⟨taken, rfl, formed⟩ := finds _ _ _ item_eq
        obtain ⟨used, left', longer', rfl, formed', ended⟩ := ih (further _ _ before formed) tail_eq
        exact ⟨l :: taken ++ used, left', longer', by simp, by simpa using formed', ended⟩

/-- An item and the loop behind it form a chain. -/
theorem Grows.exists_chain (grows : Grows item formsItem forms tail ends)
    (finds : Finds item formsItem) (first : ∀ ts t, formsItem ts t → forms ts [t])
    {ls : List Lexeme} {a : α} {rest : List Lexeme}
    (read : (do
      let (t, left) ← item ls
      tail left.length [t] left) = .ok (a, rest)) :
    ∃ used left chain, ls = used ++ left ∧ forms (used.map Lexeme.token) chain ∧
      ends chain left a rest := by
  obtain ⟨⟨t, left⟩, item_eq, tail_eq⟩ := bind_eq_ok_iff.mp read
  obtain ⟨taken, rfl, formed⟩ := finds _ _ _ item_eq
  obtain ⟨used, left', chain, rfl, formed', ended⟩ :=
    grows.exists_longer finds (first _ _ formed) tail_eq
  exact ⟨taken ++ used, left', chain, by simp, by simpa using formed', ended⟩

end Loops

section Phrases

variable {level : Nat} {operand : Reader Term}

/-- The tokens form a product of the factors that multiply to the term. -/
def FormsProduct (level : Nat) (ts : List Token) (t : Term) : Prop :=
  ∃ chain, t = close .mul chain ∧ Derives level ts (.factors chain)

def FormsSum (level : Nat) (ts : List Token) (t : Term) : Prop :=
  ∃ chain, t = close .add chain ∧ Derives level ts (.summands chain)

theorem finds_product (finds : Finds operand fun ts t => Derives level ts (.operand t)) :
    Finds (product operand) (FormsProduct level) := by
  intro ls t rest read
  have grows : Grows operand (fun ts t => Derives level ts (.operand t))
      (fun ts chain => Derives level ts (.factors chain)) (productTail operand)
      fun chain ls t rest => t = close .mul chain ∧ ls = rest := by
    intro bound chain ls t rest read
    unfold productTail at read
    split at read
    · obtain ⟨⟨u, left⟩, item_eq, tail_eq⟩ := bind_eq_ok_iff.mp read
      exact .inr ⟨_, _, _, u, left, _, rfl, rfl, item_eq, tail_eq, fun _ _ => .times⟩
    · obtain ⟨⟨u, left⟩, item_eq, tail_eq⟩ := bind_eq_ok_iff.mp read
      exact .inr ⟨_, _, _, u, left, _, rfl, rfl, item_eq, tail_eq, fun _ _ => .divide⟩
    · obtain ⟨rfl, rfl⟩ := Prod.mk.inj (Except.ok.inj read)
      exact .inl ⟨rfl, rfl⟩
  obtain ⟨used, _, chain, rfl, formed, rfl, rfl⟩ :=
    grows.exists_chain finds (fun _ _ => .factor) read
  exact ⟨used, rfl, chain, rfl, formed⟩

theorem finds_sum (finds : Finds (product operand) (FormsProduct level)) :
    Finds (sum (product operand)) (FormsSum level) := by
  intro ls t rest read
  have grows : Grows (product operand) (FormsProduct level)
      (fun ts chain => Derives level ts (.summands chain)) (sumTail (product operand))
      fun chain ls t rest => t = close .add chain ∧ ls = rest := by
    intro bound chain ls t rest read
    unfold sumTail at read
    split at read
    · obtain ⟨⟨u, left⟩, item_eq, tail_eq⟩ := bind_eq_ok_iff.mp read
      refine .inr ⟨_, _, _, u, left, _, rfl, rfl, item_eq, tail_eq, ?_⟩
      rintro ts us summands ⟨factors, rfl, product⟩
      exact .add summands product
    · obtain ⟨⟨u, left⟩, item_eq, tail_eq⟩ := bind_eq_ok_iff.mp read
      refine .inr ⟨_, _, _, u, left, _, rfl, rfl, item_eq, tail_eq, ?_⟩
      rintro ts us summands ⟨factors, rfl, product⟩
      exact .subtract summands product
    · obtain ⟨rfl, rfl⟩ := Prod.mk.inj (Except.ok.inj read)
      exact .inl ⟨rfl, rfl⟩
  have first (ts : List Token) (t : Term) (formed : FormsProduct level ts t) :
      Derives level ts (.summands [t]) := by
    obtain ⟨factors, rfl, product⟩ := formed
    exact .summand product
  obtain ⟨used, _, chain, rfl, formed, rfl, rfl⟩ := grows.exists_chain finds first read
  exact ⟨used, rfl, chain, rfl, formed⟩

theorem finds_formula (finds : Finds operand fun ts t => Derives level ts (.operand t)) :
    Finds (formula operand) fun ts t => Derives level ts (.formula t) := by
  intro ls t rest read
  have side := finds_sum (finds_product finds)
  rw [formula, comparison] at read
  obtain ⟨⟨left, others⟩, left_eq, read⟩ := bind_eq_ok_iff.mp read
  obtain ⟨used, rfl, chain, rfl, formed⟩ := side _ _ _ left_eq
  dsimp only at read
  split at read
  · rename_i op position text others _
    obtain ⟨⟨right, others'⟩, right_eq, read⟩ := bind_eq_ok_iff.mp read
    obtain ⟨used', rfl, chain', rfl, formed'⟩ := side _ _ _ right_eq
    obtain ⟨rfl, rfl⟩ := Prod.mk.inj (Except.ok.inj read)
    exact ⟨used ++ ⟨.relation op, position, text⟩ :: used', by simp,
      by simpa using .comparison op formed formed'⟩
  · obtain ⟨rfl, rfl⟩ := Prod.mk.inj (Except.ok.inj read)
    exact ⟨used, rfl, .side formed⟩

/-- The tokens form arguments of a call, at least one. -/
def FormsArguments (level : Nat) (ts : List Token) (args : List Term) : Prop :=
  args ≠ [] ∧ Derives level ts (.arguments args)

theorem exists_arguments (finds : Finds (formula operand) fun ts t => Derives level ts (.formula t))
    {ls : List Lexeme} {args : List Term} {rest : List Lexeme}
    (read : arguments (formula operand) ls = .ok (args, rest)) :
    ∃ used position text, ls = used ++ ⟨.rightParen, position, text⟩ :: rest ∧
      Derives level (used.map Lexeme.token) (.arguments args) := by
  have grows : Grows (formula operand) (fun ts t => Derives level ts (.formula t))
      (FormsArguments level) (argumentsTail (formula operand))
      fun args ls args' rest => args' = args ∧ ∃ position text,
        ls = ⟨.rightParen, position, text⟩ :: rest := by
    intro bound chain ls args rest read
    unfold argumentsTail at read
    split at read
    · obtain ⟨rfl, rfl⟩ := Prod.mk.inj (Except.ok.inj read)
      exact .inl ⟨rfl, _, _, rfl⟩
    · obtain ⟨⟨u, left⟩, item_eq, tail_eq⟩ := bind_eq_ok_iff.mp read
      refine .inr ⟨_, _, _, u, left, _, rfl, rfl, item_eq, tail_eq, ?_⟩
      rintro ts us ⟨nonempty, arguments⟩ argument
      obtain ⟨first, others, rfl⟩ := List.exists_cons_of_ne_nil nonempty
      exact ⟨List.cons_ne_nil _ _, .nextArgument arguments argument⟩
    · cases read
    · cases read
  have first (ts : List Token) (t : Term) (formed : Derives level ts (.formula t)) :
      FormsArguments level ts [t] := ⟨List.cons_ne_nil _ _, .firstArgument formed⟩
  unfold arguments at read
  split at read
  · obtain ⟨rfl, rfl⟩ := Prod.mk.inj (Except.ok.inj read)
    exact ⟨[], _, _, rfl, .noArguments⟩
  · obtain ⟨used, _, chain, rfl, ⟨-, formed⟩, rfl, position, text, rfl⟩ :=
      grows.exists_chain finds first read
    exact ⟨used, position, text, rfl, formed⟩

theorem finds_primary (finds : Finds operand fun ts t => Derives level ts (.operand t)) :
    Finds (primary operand) fun ts t => Derives level ts (.primary t) := by
  intro ls t rest read
  have inner := finds_formula finds
  unfold primary at read
  split at read
  · cases read
  · obtain ⟨rfl, rfl⟩ := Prod.mk.inj (Except.ok.inj read)
    exact ⟨[_], rfl, .number _⟩
  · obtain ⟨⟨u, left⟩, inner_eq, closes⟩ := bind_eq_ok_iff.mp read
    clear read
    obtain ⟨used, rfl, formed⟩ := inner _ _ _ inner_eq
    dsimp only at closes
    split at closes
    · obtain ⟨rfl, rfl⟩ := Prod.mk.inj (Except.ok.inj closes)
      exact ⟨_ :: (used ++ [_]), congrArg (_ :: ·) (List.append_cons used _ _),
        by simpa using .enclosed formed⟩
    · cases closes
    · cases closes
  · obtain ⟨⟨args, left⟩, inner_eq, calls⟩ := bind_eq_ok_iff.mp read
    obtain ⟨u, value, result⟩ := bind_eq_ok_iff.mp calls
    obtain ⟨used, position, text, rfl, formed⟩ := exists_arguments inner inner_eq
    obtain ⟨rfl, rfl⟩ := Prod.mk.inj (Except.ok.inj result)
    exact ⟨_ :: _ :: (used ++ [_]), congrArg (_ :: _ :: ·) (List.append_cons used _ _),
      by simpa using .call formed (call_eq_ok_iff.mp value)⟩
  · split at read
    · rename_i value
      obtain ⟨rfl, rfl⟩ := Prod.mk.inj (Except.ok.inj read)
      exact ⟨[_], rfl, .atom (atom?_eq_some_iff.mp value)⟩
    · cases read
  · cases read

/-- The reader finds a phrase and leaves no sign of a power behind it. -/
def FindsWhole (level : Nat) (reader : Reader Term) (phrase : Term → Phrase) : Prop :=
  ∀ ls t rest, reader ls = .ok (t, rest) →
    (∃ used, ls = used ++ rest ∧ Derives level (used.map Lexeme.token) (phrase t)) ∧
      powerFollows rest = false

theorem FindsWhole.finds {phrase : Term → Phrase} (finds : FindsWhole level operand phrase) :
    Finds operand fun ts t => Derives level ts (phrase t) :=
  fun ls t rest read => (finds ls t rest read).1

theorem findsWhole_power (finds : FindsWhole level operand .operand) :
    FindsWhole level (power operand) .power := by
  intro ls t rest read
  obtain ⟨⟨base, left⟩, base_eq, follows⟩ := bind_eq_ok_iff.mp read
  clear read
  obtain ⟨used, rfl, formed⟩ := finds_primary finds.finds _ _ _ base_eq
  dsimp only at follows
  split at follows
  · rename_i position text others
    obtain ⟨⟨exponent, left'⟩, exponent_eq, result⟩ := bind_eq_ok_iff.mp follows
    clear follows
    obtain ⟨⟨used', rfl, formed'⟩, no_power⟩ := finds _ _ _ exponent_eq
    obtain ⟨rfl, rfl⟩ := Prod.mk.inj (Except.ok.inj result)
    exact ⟨⟨used ++ ⟨.power, position, text⟩ :: used', by simp,
      by simpa using .raised formed formed'⟩, no_power⟩
  · rename_i no_power
    obtain ⟨rfl, rfl⟩ := Prod.mk.inj (Except.ok.inj follows)
    refine ⟨⟨used, rfl, .base formed⟩, ?_⟩
    unfold powerFollows
    split
    · exact absurd rfl (no_power _ _ _)
    · rfl

/-- A literal is negative if a minus stands directly before it and no power behind it. -/
theorem negativeLiteral?_eq_some {ls : List Lexeme} {n : Node Float Term} {rest : List Lexeme}
    (found : negativeLiteral? ls = some (n, rest)) : powerFollows rest = false ∧
      ∃ l, ls = l :: rest ∧ Derives (level + 1) [.minus, l.token] (.operand (.node n)) := by
  unfold negativeLiteral? at found
  split at found
  · split at found
    · cases found
    · rename_i no_power
      obtain ⟨rfl, rfl⟩ := Prod.mk.inj (Option.some.inj found)
      exact ⟨by simpa using no_power, _, rfl, .negativeNumber _⟩
  · split at found
    · cases found
    · rename_i infinite
      obtain ⟨rfl, rfl⟩ := Prod.mk.inj (Option.some.inj found)
      obtain ⟨rfl, no_power⟩ : _ = "oo" ∧ powerFollows _ = false := by simpa using infinite
      exact ⟨no_power, _, rfl, .negativeInfinity⟩
  · cases found

theorem findsWhole_signed (finds : FindsWhole level operand .operand) :
    FindsWhole (level + 1) (signed operand) .operand := by
  intro ls t rest read
  unfold signed at read
  split at read
  · obtain ⟨⟨used, rfl, formed⟩, no_power⟩ := finds _ _ _ read
    exact ⟨⟨⟨.plus, _, _⟩ :: used, rfl, .plus formed⟩, no_power⟩
  · split at read
    · rename_i literal
      obtain ⟨rfl, rfl⟩ := Prod.mk.inj (Except.ok.inj read)
      obtain ⟨no_power, l, rfl, derives⟩ := negativeLiteral?_eq_some literal
      exact ⟨⟨[_, l], rfl, derives⟩, no_power⟩
    · rename_i separate
      obtain ⟨⟨u, left⟩, operand_eq, result⟩ := bind_eq_ok_iff.mp read
      obtain ⟨⟨used, rfl, formed⟩, no_power⟩ := finds _ _ _ operand_eq
      obtain ⟨rfl, rfl⟩ := Prod.mk.inj (Except.ok.inj result)
      obtain ⟨-, impossible⟩ | ⟨first, others, tokens, -⟩ := formed.exists_first
      · cases impossible
      · have apart := (negativeLiteral?_eq_none_iff tokens no_power).mp separate
        rw [← tokens] at apart
        exact ⟨⟨_ :: used, rfl, .minus formed apart⟩, no_power⟩
  · obtain ⟨⟨used, rfl, formed⟩, no_power⟩ := findsWhole_power finds _ _ _ read
    exact ⟨⟨used, rfl, .unsigned formed⟩, no_power⟩

end Phrases

theorem findsWhole_operand (level : Nat) : FindsWhole level (operand level) .operand := by
  induction level with
  | zero => exact fun ls t rest read => by cases read
  | succ level ih => exact findsWhole_signed ih

theorem derives_of_ofLexemes? {ls : List Lexeme} {t : Term} (read : ofLexemes? ls = .ok t) :
    Derives depthLimit (ls.map Lexeme.token) (.formula t) ∧ t.tree.depth ≤ depthLimit := by
  obtain ⟨⟨u, left⟩, formula_eq, result⟩ := bind_eq_ok_iff.mp read
  obtain ⟨used, rfl, formed⟩ := finds_formula (findsWhole_operand depthLimit).finds _ _ _ formula_eq
  dsimp only at result
  split at result
  · cases result
  · split at result
    · cases result
    · rename_i shallow
      obtain rfl := Except.ok.inj result
      exact ⟨by simpa using formed, Nat.le_of_not_lt shallow⟩

/-- The parser accepts exactly the formulas of the grammar that are not too deep. -/
theorem ofLexemes?_eq_ok_iff {ls : List Lexeme} {t : Term} : ofLexemes? ls = .ok t ↔
    Derives depthLimit (ls.map Lexeme.token) (.formula t) ∧ t.tree.depth ≤ depthLimit := by
  refine ⟨derives_of_ofLexemes?, fun ⟨derives, depth_le⟩ => ?_⟩
  have read := derives.isRead ls [] rfl (by simp [Stops])
  rw [List.append_nil] at read
  rw [ofLexemes?, read]
  simp [bind, Except.bind, Nat.not_lt.mpr depth_le, pure, Except.pure]

end Formula
end FormulaFit
