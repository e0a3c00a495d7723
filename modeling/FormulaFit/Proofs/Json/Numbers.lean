import FormulaFit.Json.Reader
import FormulaFit.Proofs.Decimal.Numerals
import Mathlib.Data.List.Basic

/-!
# Numbers in JSON texts

A number is spelled without needless zeros before its digits and with digits behind its point.  Such
a spelling is read as a whole, and counts and finite doubles are written in it.  A double is written
by a decimal that rounds to it, so it comes back wherever its decimal is read as the nearest double.
-/

namespace FormulaFit

namespace Decimal

/-- The texts of decimals without needless zeros in front and with digits behind a point. -/
inductive Spelled : List Char → Prop where
  | mk {whole fraction part mark : List Char} {e : Int} (digits : Digits whole)
      (leading : whole = ['0'] ∨ whole.head? ≠ some '0') (behind : Fraction fraction part)
      (occupied : fraction = [] ∨ part ≠ []) (scaled : Exponent mark e) :
      Spelled (whole ++ (fraction ++ mark))

theorem head_digitsOf_ne {n : Nat} (positive : n ≠ 0) : (digitsOf n).head? ≠ some '0' := by
  induction n using Nat.strongRecOn with
  | ind n ih =>
      by_cases small : n < 10
      · have digit : ∀ n < 10, n ≠ 0 → (digitsOf n).head? ≠ some '0' := by decide
        exact digit n small positive
      · rw [digitsOf, Nat.toDigits_of_base_le (by decide) (Nat.le_of_not_lt small),
          List.head?_append_of_ne_nil _ Nat.toDigits_ne_nil]
        exact ih (n / 10) (by omega) (by omega)

theorem leading_digitsOf (n : Nat) : digitsOf n = ['0'] ∨ (digitsOf n).head? ≠ some '0' := by
  by_cases zero : n = 0
  · exact .inl (zero ▸ rfl)
  · exact .inr (head_digitsOf_ne zero)

theorem spelled_digitsOf (n : Nat) : Spelled (digitsOf n) := by
  have spelled := Spelled.mk (digits_digitsOf n) (leading_digitsOf n) .none (.inl rfl) .none
  rwa [List.append_nil, List.append_nil] at spelled

theorem spelled_whole {n : Nat} (e : Nat) (leading : n ≠ 0 ∨ e = 0) (keepsFraction : Bool) :
    Spelled (digitsOf n ++ List.replicate e '0' ++ (if keepsFraction then ['.', '0'] else [])) := by
  have digits := digits_digitsOf n
  have whole : Digits (digitsOf n ++ List.replicate e '0') :=
    ⟨List.append_ne_nil_of_left_ne_nil digits.ne_nil _, (digits_zeros_append digits.isDigit e).1⟩
  have leading : digitsOf n ++ List.replicate e '0' = ['0'] ∨
      (digitsOf n ++ List.replicate e '0').head? ≠ some '0' := by
    rw [List.head?_append_of_ne_nil _ digits.ne_nil]
    rcases leading with positive | rfl
    · exact .inr (head_digitsOf_ne positive)
    · rw [List.replicate_zero, List.append_nil]
      exact leading_digitsOf n
  cases keepsFraction with
  | true =>
      have zero : ∀ c ∈ ['0'], c.isDigit = true := List.forall_mem_singleton.mpr rfl
      exact .mk whole leading (.point zero) (.inr (List.cons_ne_nil _ _)) .none
  | false => exact .mk whole leading .none (.inl rfl) .none

theorem spelled_split {n places : Nat} (positive : n ≠ 0) (places_pos : 0 < places) :
    let padded := List.replicate (places + 1 - (digitsOf n).length) '0' ++ digitsOf n
    Spelled (padded.take (padded.length - places) ++
      '.' :: padded.drop (padded.length - places)) := by
  intro padded
  have digits := digits_digitsOf n
  have padded_digits : ∀ c ∈ padded, c.isDigit = true :=
    (digits_zeros_append digits.isDigit _).2
  have length_eq : padded.length =
      places + 1 - (digitsOf n).length + (digitsOf n).length := by
    simp only [padded, List.length_append, List.length_replicate]
  have nonempty : padded.take (padded.length - places) ≠ [] := by
    rw [← List.length_pos_iff, List.length_take]
    omega
  have leading : padded.take (padded.length - places) = ['0'] ∨
      (padded.take (padded.length - places)).head? ≠ some '0' := by
    by_cases long : places < (digitsOf n).length
    · have padded_eq : padded = digitsOf n := by
        simp only [padded, Nat.sub_eq_zero_of_le long, List.replicate_zero, List.nil_append]
      rw [List.head?_take, if_neg (by omega), padded_eq]
      exact .inr (head_digitsOf_ne positive)
    · have one : padded.length - places = 1 := by omega
      have zeros : places + 1 - (digitsOf n).length = (places - (digitsOf n).length) + 1 := by omega
      rw [one]
      simp only [padded, zeros, List.replicate_succ, List.cons_append]
      exact .inl rfl
  have occupied : padded.drop (padded.length - places) ≠ [] := by
    rw [← List.length_pos_iff, List.length_drop]
    omega
  have whole : Digits (padded.take (padded.length - places)) :=
    ⟨nonempty, fun c member => padded_digits c (List.mem_of_mem_take member)⟩
  have spelled := Spelled.mk whole leading
    (.point fun c member => padded_digits c (List.mem_of_mem_drop member)) (.inr occupied) .none
  rwa [List.append_nil] at spelled

theorem spelled_positional {n : Nat} {e : Int} (leading : n ≠ 0 ∨ e = 0) (keepsFraction : Bool) :
    Spelled (positional keepsFraction (digitsOf n) e) := by
  unfold positional
  split
  · exact spelled_whole e.toNat (leading.imp_right fun zero => by rw [zero]; rfl) keepsFraction
  · exact spelled_split (leading.resolve_right (by omega)) (by omega)

theorem spelled_exponential (signsExponent : Bool) (n : Nat) (lead : Int) :
    Spelled (exponential signsExponent (digitsOf n) lead) := by
  have scaled := exponent_of_lead signsExponent lead
  have digits := digits_digitsOf n
  unfold exponential
  cases digits_eq : digitsOf n with
  | nil => exact absurd digits_eq digits.ne_nil
  | cons c tail =>
      rw [digits_eq] at digits
      have whole : Digits [c] :=
        ⟨List.cons_ne_nil _ _, List.forall_mem_singleton.mpr (digits.isDigit c List.mem_cons_self)⟩
      have leading : [c] = ['0'] ∨ [c].head? ≠ some '0' := by
        by_cases zero : c = '0' <;> simp [zero]
      have part : ∀ c' ∈ tail, c'.isDigit = true :=
        fun c' member => digits.isDigit c' (List.mem_cons_of_mem _ member)
      rw [List.append_assoc, List.append_assoc]
      cases tail with
      | nil => exact .mk whole leading .none (.inl rfl) scaled
      | cons c' tail =>
          exact .mk whole leading (.point part) (.inr (List.cons_ne_nil _ _)) scaled

/-- What a layout spells has no needless zero in front, if the decimal itself has no needless
exponent. -/
theorem spelled_spell (layout : Layout) {d : Decimal} (leading : d.digits ≠ 0 ∨ d.exponent = 0) :
    Spelled (layout.spell d) := by
  unfold Layout.spell
  dsimp only
  split
  · exact spelled_positional leading _
  · exact spelled_exponential _ _ _

theorem toBits_eq_zero {d : Decimal} (empty : d.digits = 0) : d.toBits = 0 := by
  obtain ⟨digits, e | e⟩ := d <;> obtain rfl : digits = 0 := empty <;>
    simp [toBits, Double.nearestBits, Double.roundHalfEven]

theorem leading_shortest (tie : Tie) {bits : Nat} (finite : bits < Double.infinityBits) :
    (shortest tie bits).digits ≠ 0 ∨ (shortest tie bits).exponent = 0 := by
  by_cases zero : bits = 0
  · rw [zero]
    exact .inr rfl
  · refine .inl fun empty => zero ?_
    rw [← toBits_shortest tie finite, toBits_eq_zero empty]

end Decimal

namespace JsonNumber

/-- The double nearest to the number, if it is finite. -/
def nearest? (n : JsonNumber) : Option Float := do
  let d ← Decimal.read? n.spelling
  if d.toBits < Double.infinityBits then some (d.toFloat n.negative) else none

/-- A number that is a text of a decimal behind its sign. -/
def IsSpelled (n : JsonNumber) : Prop := Decimal.Spelled n.spelling

end JsonNumber

namespace Json

open Decimal (Digits Exponent Fraction Spelled)
open Lexeme (Ends)

variable {rest : List Char}

theorem wholePart?_append {whole : List Char} (digits : Digits whole)
    (leading : whole = ['0'] ∨ whole.head? ≠ some '0')
    (other : ∀ c ∈ rest.head?, c.isDigit = false) :
    wholePart? (whole ++ rest) = some (whole, rest) := by
  rcases leading with rfl | leading
  · rfl
  · obtain ⟨taken, left⟩ := span_append digits.isDigit other
    unfold wholePart?
    split
    · rename_i cs tail text_eq
      have head_eq : (whole ++ rest).head? = whole.head? :=
        List.head?_append_of_ne_nil whole digits.ne_nil
      rw [← head_eq, text_eq] at leading
      exact absurd rfl leading
    · simp [taken, left, digits.ne_nil]

theorem fractionPart?_append {fraction part : List Char} (behind : Fraction fraction part)
    (occupied : fraction = [] ∨ part ≠ []) (other : ∀ c ∈ rest.head?, c.isDigit = false ∧ c ≠ '.') :
    fractionPart? (fraction ++ rest) = some (fraction, rest) := by
  cases behind with
  | none =>
      rw [List.nil_append]
      unfold fractionPart?
      split
      · exact absurd rfl (other _ rfl).2
      · rfl
  | point digits =>
      obtain ⟨taken, left⟩ := span_append digits fun c member => (other c member).1
      have nonempty := occupied.resolve_left (List.cons_ne_nil _ _)
      simp [fractionPart?, taken, left, nonempty]

theorem exponentPart?_append {mark : List Char} {e : Int} (scaled : Exponent mark e)
    (ends : Ends rest) : exponentPart? (mark ++ rest) = some (mark, rest) := by
  cases scaled with
  | none =>
      rw [List.nil_append]
      unfold exponentPart?
      split
      · rfl
      · rename_i c tail
        have not_mark : (c == 'e' || c == 'E') = false := by
          have other := (ends c rfl).1
          rw [Bool.or_eq_false_iff, beq_eq_false_iff_ne, beq_eq_false_iff_ne]
          constructor <;> rintro rfl <;> cases other
        rw [not_mark]
        rfl
  | @bare cs digits =>
      obtain ⟨taken, left⟩ := span_append digits.isDigit ends.isDigit
      cases cs with
      | nil => exact absurd rfl digits.ne_nil
      | cons c cs =>
          have digit := digits.isDigit c List.mem_cons_self
          have unsigned : c ≠ '+' ∧ c ≠ '-' := by
            constructor <;> rintro rfl <;> cases digit
          rw [List.cons_append] at taken left
          simp [exponentPart?, unsigned, taken, left]
  | plus digits =>
      obtain ⟨taken, left⟩ := span_append digits.isDigit ends.isDigit
      simp [exponentPart?, taken, left, digits.ne_nil]
  | minus digits =>
      obtain ⟨taken, left⟩ := span_append digits.isDigit ends.isDigit
      simp [exponentPart?, taken, left, digits.ne_nil]

/-- A number is read as it is spelled, up to what it does not go on with. -/
theorem readNumber?_append {n : JsonNumber} (spelled : n.IsSpelled) (ends : Ends rest) :
    readNumber? n.negative (n.spelling ++ rest) = some (number n, rest) := by
  obtain ⟨negative, spelling⟩ := n
  obtain ⟨digits, leading, behind, occupied, scaled⟩ := spelled
  rename_i whole fraction part mark e
  have mark_head : ∀ c ∈ (mark ++ rest).head?, c.isDigit = false ∧ c ≠ '.' := by
    cases scaled with
    | none => exact fun c member => ⟨ends.isDigit c member, (ends c member).2⟩
    | _ => simp
  have fraction_head : ∀ c ∈ (fraction ++ (mark ++ rest)).head?, c.isDigit = false := by
    cases behind with
    | none => exact fun c member => (mark_head c member).1
    | point _ => simp
  have text_eq : whole ++ (fraction ++ mark) ++ rest = whole ++ (fraction ++ (mark ++ rest)) := by
    simp only [List.append_assoc]
  change readNumber? negative (whole ++ (fraction ++ mark) ++ rest) = _
  rw [text_eq, readNumber?, wholePart?_append digits leading fraction_head]
  simp only [bind, Option.bind, fractionPart?_append behind occupied mark_head,
    exponentPart?_append scaled ends]
  rw [List.append_assoc]
  rfl

theorem exists_digit_of_spelled {n : JsonNumber} (spelled : n.IsSpelled) :
    ∃ c cs, n.spelling = c :: cs ∧ c.isDigit = true := by
  obtain ⟨negative, spelling⟩ := n
  obtain ⟨digits, -, -, -, -⟩ := spelled
  rename_i whole fraction part mark e
  cases whole with
  | nil => exact absurd rfl digits.ne_nil
  | cons c whole => exact ⟨c, _, rfl, digits.isDigit c List.mem_cons_self⟩

theorem natBelow?_ofNat {n bound : Nat} (below : n < bound) :
    (ofNat n).natBelow? bound = some n := by
  have natural : JsonNumber.toNat? ⟨false, Decimal.digitsOf n⟩ = some n := by
    have digits := Decimal.digits_digitsOf n
    rw [JsonNumber.toNat?, if_neg Bool.false_ne_true, Decimal.natural?_of_digits digits,
      Decimal.ofDigits_digitsOf]
  rw [ofNat, natBelow?, natural, Option.filter_some, if_pos (decide_eq_true below)]

theorem word?_ofNat (w : UInt64) : (ofNat w.toNat).word? = some w := by
  rw [word?, natBelow?_ofNat w.toNat_lt, Option.map_some, UInt64.ofNat_toNat]

theorem exists_ofFloat_eq {v : Float} (finite : v.isFinite = true) :
    ∃ n, ofFloat v = number n ∧ n.IsSpelled ∧ n.nearest? = some v := by
  have magnitude_lt := (Double.isFinite_iff v).mp finite
  let shortest := Decimal.shortest Decimal.Layout.json.tie (Double.magnitude v)
  obtain ⟨d, numeral, rounds⟩ := Decimal.exists_numeral_spell Decimal.Layout.json
    (Decimal.exponent_shortest_le Decimal.Layout.json.tie magnitude_lt)
  rw [Decimal.toBits_shortest _ magnitude_lt] at rounds
  refine ⟨⟨Double.isNegative v, Decimal.Layout.json.spell shortest⟩, if_pos finite,
    Decimal.spelled_spell _ (Decimal.leading_shortest _ magnitude_lt), ?_⟩
  rw [JsonNumber.nearest?, Decimal.read?_of_numeral numeral]
  simp only [bind, Option.bind, rounds, if_pos magnitude_lt, Decimal.toFloat,
    Double.ofSignAndBits_eq]

theorem ofFloat_eq_null {v : Float} (infinite : v.isFinite = false) : ofFloat v = null :=
  if_neg (Bool.eq_false_iff.mp infinite)

/-- The finite double nearest to a number. -/
def nearest? : Json → Option Float
  | number n => n.nearest?
  | _ => none

/-- What is written for the double is read as the double nearest to it. -/
def IsReadNearest (v : Float) : Prop := (ofFloat v).float? = (ofFloat v).nearest?

instance (v : Float) : Decidable (IsReadNearest v) := inferInstanceAs (Decidable (_ = _))

/-- A double that is read as the nearest one comes back if and only if it is finite. -/
theorem float?_ofFloat {v : Float} (nearest : IsReadNearest v) :
    (ofFloat v).float? = if v.isFinite then some v else none := by
  cases finite : v.isFinite with
  | true =>
      obtain ⟨n, written, -, nearest_eq⟩ := exists_ofFloat_eq finite
      rw [nearest, written, nearest?, nearest_eq, if_pos rfl]
  | false =>
      rw [ofFloat_eq_null finite]
      rfl

-- Reading scales the digits in doubles, which rounds once more and can miss the nearest one.
example : ¬IsReadNearest 1.7083245614809905 := by decide +kernel

end Json

end FormulaFit
