import FormulaFit.Decimal.Layout
import FormulaFit.Formula.Lexeme
import FormulaFit.Proofs.Decimal.Shortest
import FormulaFit.Proofs.Scalar.Words

/-!
# Numerals

A numeral is a run of digits, possibly with a fraction and an exponent.  It is read, and cut off a
text, as a whole.  What a layout spells is a numeral of a decimal that rounds as the spelled one
does, so the numeral of a finite double reads back as that double.
-/

namespace FormulaFit

theorem span_append {p : Char → Bool} {run rest : List Char} (kind : ∀ c ∈ run, p c = true)
    (other : ∀ c ∈ rest.head?, p c = false) :
    (run ++ rest).takeWhile p = run ∧ (run ++ rest).dropWhile p = rest := by
  rw [List.takeWhile_append_of_pos kind, List.dropWhile_append_of_pos kind]
  cases rest with
  | nil => simp
  | cons c rest =>
      have stops : p c = false := other c rfl
      simp [stops]

namespace Decimal

/-- Characters that stand for digits, at least one. -/
structure Digits (cs : List Char) : Prop where
  ne_nil : cs ≠ []
  isDigit : ∀ c ∈ cs, c.isDigit = true

theorem digits_digitsOf (n : Nat) : Digits (digitsOf n) where
  ne_nil := Nat.toDigits_ne_nil
  isDigit _ member := Nat.isDigit_of_mem_toDigits (by decide) (by decide) member

theorem ofDigits_digitsOf (n : Nat) : ofDigits (digitsOf n) = n := Nat.ofDigitChars_ten_toDigits

theorem ofDigits_append_zeros (cs : List Char) (places : Nat) :
    ofDigits (cs ++ List.replicate places '0') = ofDigits cs * 10 ^ places :=
  (Nat.ofDigitChars_append 0).trans (Nat.ofDigitChars_replicate_zero.trans (Nat.mul_comm _ _))

theorem ofDigits_zeros_append (places : Nat) (cs : List Char) :
    ofDigits (List.replicate places '0' ++ cs) = ofDigits cs := by
  have leading : Nat.ofDigitChars 10 (List.replicate places '0') 0 = 0 :=
    Nat.ofDigitChars_replicate_zero
  refine (Nat.ofDigitChars_append 0).trans ?_
  rw [leading]
  rfl

/-- The point and the digits behind it, if there are any. -/
inductive Fraction : (text part : List Char) → Prop where
  | none : Fraction [] []
  | point {part : List Char} (digits : ∀ c ∈ part, c.isDigit = true) : Fraction ('.' :: part) part

/-- The mark of an exponent and the exponent, if there is one. -/
inductive Exponent : List Char → Int → Prop where
  | none : Exponent [] 0
  | bare {cs : List Char} (digits : Digits cs) : Exponent ('e' :: cs) (ofDigits cs)
  | plus {cs : List Char} (digits : Digits cs) : Exponent ('e' :: '+' :: cs) (ofDigits cs)
  | minus {cs : List Char} (digits : Digits cs) : Exponent ('e' :: '-' :: cs) (-(ofDigits cs))

/-- The texts of decimals, with any number of zeros at either end. -/
inductive Numeral : List Char → Decimal → Prop where
  | mk {whole fraction part mark : List Char} {e : Int} (digits : Digits whole)
      (behind : Fraction fraction part) (scaled : Exponent mark e) :
      Numeral (whole ++ (fraction ++ mark)) ⟨ofDigits (whole ++ part), e - part.length⟩

theorem natural?_of_digits {cs : List Char} (digits : Digits cs) :
    natural? cs = some (ofDigits cs) := by
  have all : cs.all Char.isDigit = true := List.all_eq_true.mpr digits.isDigit
  simp [natural?, digits.ne_nil, all]

theorem exponent?_of_digits {cs : List Char} (digits : Digits cs) :
    exponent? cs = some (ofDigits cs : Int) := by
  unfold exponent?
  split
  · exact absurd (digits.isDigit _ List.mem_cons_self) (by decide)
  · exact absurd (digits.isDigit _ List.mem_cons_self) (by decide)
  · rw [natural?_of_digits digits]
    rfl

theorem scale?_of_exponent {mark : List Char} {e : Int} (scaled : Exponent mark e) :
    scale? mark = some e := by
  cases scaled with
  | none => rfl
  | bare digits => exact exponent?_of_digits digits
  | plus digits => simp [scale?, exponent?, natural?_of_digits digits]
  | minus digits => simp [scale?, exponent?, natural?_of_digits digits]

theorem head_of_exponent {mark : List Char} {e : Int} (scaled : Exponent mark e) :
    ∀ c ∈ mark.head?, c = 'e' := by
  cases scaled <;> simp

theorem fraction_point {part rest : List Char} (digits : ∀ c ∈ part, c.isDigit = true)
    (other : ∀ c ∈ rest.head?, c.isDigit = false) :
    fraction ('.' :: (part ++ rest)) = (part, rest) := by
  obtain ⟨taken, left⟩ := span_append digits other
  exact congrArg₂ Prod.mk taken left

theorem fraction_of_no_point {cs : List Char} (other : ∀ c ∈ cs.head?, c ≠ '.') :
    fraction cs = ([], cs) := by
  unfold fraction
  split
  · exact absurd rfl (other '.' rfl)
  · rfl

/-- Digits are read together with the fraction and the mark of an exponent behind them. -/
theorem read?_append {whole behind part mark : List Char}
    (digits : ∀ c ∈ whole, c.isDigit = true) (other : ∀ c ∈ behind.head?, c.isDigit = false)
    (fraction_eq : fraction behind = (part, mark)) : read? (whole ++ behind) =
      if whole.isEmpty && part.isEmpty then none
      else (scale? mark).map fun e => ⟨ofDigits (whole ++ part), e - part.length⟩ := by
  obtain ⟨taken, left⟩ := span_append digits other
  rw [read?, taken, left, fraction_eq]

theorem read?_of_numeral {cs : List Char} {d : Decimal} (numeral : Numeral cs d) :
    read? cs = some d := by
  obtain ⟨digits, behind, scaled⟩ := numeral
  rename_i whole fraction part mark e
  have mark_head : ∀ c ∈ mark.head?, c.isDigit = false ∧ c ≠ '.' := by
    intro c member
    rw [head_of_exponent scaled c member]
    decide
  have fraction_eq : Decimal.fraction (fraction ++ mark) = (part, mark) := by
    cases behind with
    | none => exact fraction_of_no_point fun c member => (mark_head c member).2
    | point digits => exact fraction_point digits fun c member => (mark_head c member).1
  have fraction_head : ∀ c ∈ (fraction ++ mark).head?, c.isDigit = false := by
    cases behind with
    | none => exact fun c member => (mark_head c member).1
    | point _ => simp
  have nonempty : (whole.isEmpty && part.isEmpty) = false := by
    simp [digits.ne_nil]
  rw [read?_append digits.isDigit fraction_head fraction_eq, nonempty, scale?_of_exponent scaled]
  rfl

theorem toBits_written_out (digits : Nat) {e places : Nat} (le : e ≤ exponentBound)
    (places_le : places ≤ exponentBound) :
    toBits ⟨digits * 10 ^ (e + places), -places⟩ = toBits ⟨digits, e⟩ := by
  have scaled_eq : digits * 10 ^ (e + places) = digits * 10 ^ e * 10 ^ places := by
    rw [Nat.pow_add, Nat.mul_assoc]
  have power_pos : 0 < 10 ^ places := Nat.pow_pos (by decide)
  rw [toBits_eq (by simp only; omega) (by simp only; omega),
    toBits_eq (by simp only; omega) (by simp only; omega), scaled_eq]
  simpa using Double.nearestBits_mul_right (digits * 10 ^ e) 1 power_pos

theorem digits_zeros_append {cs : List Char} (digits : ∀ c ∈ cs, c.isDigit = true) (places : Nat) :
    (∀ c ∈ cs ++ List.replicate places '0', c.isDigit = true) ∧
      ∀ c ∈ List.replicate places '0' ++ cs, c.isDigit = true := by
  have zeros : ∀ c ∈ List.replicate places '0', c.isDigit = true := fun c member => by
    rw [List.eq_of_mem_replicate member]
    rfl
  exact ⟨List.forall_mem_append.mpr ⟨digits, zeros⟩, List.forall_mem_append.mpr ⟨zeros, digits⟩⟩

theorem numeral_whole {n e : Nat} (le : e ≤ exponentBound) (keepsFraction : Bool) :
    ∃ d, Numeral (digitsOf n ++ List.replicate e '0' ++
      (if keepsFraction then ['.', '0'] else [])) d ∧ d.toBits = toBits ⟨n, e⟩ := by
  have digits := digits_digitsOf n
  have whole : Digits (digitsOf n ++ List.replicate e '0') :=
    ⟨List.append_ne_nil_of_left_ne_nil digits.ne_nil _, (digits_zeros_append digits.isDigit e).1⟩
  have rounds (places : Nat) (places_le : places ≤ exponentBound) :
      toBits ⟨ofDigits (digitsOf n ++ List.replicate e '0' ++ List.replicate places '0'),
        -places⟩ = toBits ⟨n, e⟩ := by
    rw [ofDigits_append_zeros, ofDigits_append_zeros, ofDigits_digitsOf, Nat.mul_assoc,
      ← Nat.pow_add]
    exact toBits_written_out n le places_le
  cases keepsFraction with
  | true =>
      have zero : ∀ c ∈ ['0'], c.isDigit = true := List.forall_mem_singleton.mpr rfl
      exact ⟨_, .mk whole (.point zero) .none, rounds 1 (by decide)⟩
  | false => exact ⟨_, .mk whole .none .none, rounds 0 (Nat.zero_le _)⟩

theorem numeral_split {cs : List Char} {places : Nat} (digits : ∀ c ∈ cs, c.isDigit = true)
    (places_lt : places < cs.length) :
    Numeral (cs.take (cs.length - places) ++ '.' :: cs.drop (cs.length - places))
      ⟨ofDigits cs, -places⟩ := by
  have whole : Digits (cs.take (cs.length - places)) := by
    refine ⟨fun empty => ?_, fun c member => digits c (List.mem_of_mem_take member)⟩
    rw [List.take_eq_nil_iff] at empty
    rcases empty with empty | rfl
    · omega
    · exact absurd places_lt (Nat.not_lt_zero _)
  have part : ∀ c ∈ cs.drop (cs.length - places), c.isDigit = true :=
    fun c member => digits c (List.mem_of_mem_drop member)
  have numeral := Numeral.mk whole (.point part) .none
  rw [List.append_nil, List.take_append_drop, List.length_drop] at numeral
  have exponent_eq : (0 : Int) - (cs.length - (cs.length - places) : Nat) = -places := by omega
  rwa [exponent_eq] at numeral

theorem numeral_positional {n : Nat} {e : Int} (le : e ≤ exponentBound) (keepsFraction : Bool) :
    ∃ d, Numeral (positional keepsFraction (digitsOf n) e) d ∧ d.toBits = toBits ⟨n, e⟩ := by
  unfold positional
  split
  · rename_i nonneg
    obtain ⟨e, rfl⟩ := Int.eq_ofNat_of_zero_le nonneg
    exact numeral_whole (Int.ofNat_le.mp le) keepsFraction
  · rename_i negative
    have digits := (digits_zeros_append (digits_digitsOf n).isDigit
      ((-e).toNat + 1 - (digitsOf n).length)).2
    have places_lt : (-e).toNat <
        (List.replicate ((-e).toNat + 1 - (digitsOf n).length) '0' ++ digitsOf n).length := by
      rw [List.length_append, List.length_replicate]
      omega
    have numeral := numeral_split digits places_lt
    have exponent_eq : -((-e).toNat : Int) = e := by omega
    rw [ofDigits_zeros_append, ofDigits_digitsOf, exponent_eq] at numeral
    exact ⟨_, numeral, rfl⟩

theorem exponent_of_lead (signsExponent : Bool) (lead : Int) :
    Exponent ('e' :: (if lead < 0 then ['-'] else if signsExponent then ['+'] else []) ++
      digitsOf lead.natAbs) lead := by
  have digits := digits_digitsOf lead.natAbs
  have value_eq := ofDigits_digitsOf lead.natAbs
  split
  · have exponent := Exponent.minus digits
    rw [value_eq, show (-(lead.natAbs : Int)) = lead by omega] at exponent
    exact exponent
  · have abs_eq : (lead.natAbs : Int) = lead := by omega
    split
    · have exponent := Exponent.plus digits
      rw [value_eq, abs_eq] at exponent
      exact exponent
    · have exponent := Exponent.bare digits
      rw [value_eq, abs_eq] at exponent
      exact exponent

theorem numeral_of_lead {cs mark : List Char} {lead : Int} (digits : Digits cs)
    (scaled : Exponent mark lead) :
    Numeral (cs.take 1 ++ ((if (cs.drop 1).isEmpty then [] else '.' :: cs.drop 1) ++ mark))
      ⟨ofDigits cs, lead + 1 - cs.length⟩ := by
  cases cs with
  | nil => exact absurd rfl digits.ne_nil
  | cons c tail =>
      have whole_digits : Digits [c] := by
        refine ⟨List.cons_ne_nil _ _, fun c' member => ?_⟩
        rw [List.mem_singleton.mp member]
        exact digits.isDigit c List.mem_cons_self
      have tail_digits : ∀ c' ∈ tail, c'.isDigit = true :=
        fun c' member => digits.isDigit c' (List.mem_cons_of_mem _ member)
      have exponent_eq : lead + 1 - ((c :: tail).length : Nat) = lead - tail.length := by
        rw [List.length_cons]
        omega
      rw [exponent_eq]
      cases tail with
      | nil => exact .mk whole_digits .none scaled
      | cons c' tail => exact .mk whole_digits (.point tail_digits) scaled

theorem numeral_exponential (signsExponent : Bool) (n : Nat) (e : Int) :
    Numeral (exponential signsExponent (digitsOf n) (e + (digitsOf n).length - 1)) ⟨n, e⟩ := by
  have numeral := numeral_of_lead (digits_digitsOf n)
    (exponent_of_lead signsExponent (e + (digitsOf n).length - 1))
  have exponent_eq : e + (digitsOf n).length - 1 + 1 - (digitsOf n).length = e := by omega
  rw [exponent_eq, ofDigits_digitsOf] at numeral
  unfold exponential
  simpa only [List.append_assoc] using numeral

/-- What a layout spells is the numeral of a decimal that rounds alike. -/
theorem exists_numeral_spell (layout : Layout) {d : Decimal} (le : d.exponent ≤ exponentBound) :
    ∃ d', Numeral (layout.spell d) d' ∧ d'.toBits = d.toBits := by
  unfold Layout.spell
  dsimp only
  split
  · exact numeral_positional le _
  · exact ⟨d, numeral_exponential _ _ _, rfl⟩

end Decimal

namespace Lexeme

open Decimal (Digits Exponent Numeral)

/-- What a name or a number in front of it does not continue with. -/
def Ends (rest : List Char) : Prop := ∀ c ∈ rest.head?, continuesName c = false ∧ c ≠ '.'

variable {rest : List Char}

theorem Ends.isDigit (ends : Ends rest) : ∀ c ∈ rest.head?, c.isDigit = false := by
  intro c member
  have other := (ends c member).1
  simp only [continuesName, Char.isAlphanum, Bool.or_eq_false_iff] at other
  exact other.1.2

theorem Ends.isNumeral (ends : Ends rest) : ∀ c ∈ rest.head?, isNumeral c = false := by
  intro c member
  simp [Lexeme.isNumeral, ends.isDigit c member, (ends c member).2]

theorem exponentSign_of_digits {cs : List Char} (digits : Digits cs) :
    exponentSign (cs ++ rest) = ([], cs ++ rest) := by
  cases cs with
  | nil => exact absurd rfl digits.ne_nil
  | cons c cs =>
      have is_digit := digits.isDigit c List.mem_cons_self
      rw [List.cons_append]
      unfold exponentSign
      split
      · rename_i sign
        rw [(List.cons.inj sign).1] at is_digit
        cases is_digit
      · rename_i sign
        rw [(List.cons.inj sign).1] at is_digit
        cases is_digit
      · rfl

theorem exponentPart_of_ends (ends : Ends rest) : exponentPart rest = ([], rest) := by
  cases rest with
  | nil => rfl
  | cons c rest =>
      have other := (ends c rfl).1
      have not_mark : (c == 'e' || c == 'E') = false := by
        rw [Bool.or_eq_false_iff, beq_eq_false_iff_ne, beq_eq_false_iff_ne]
        constructor <;> rintro rfl <;> cases other
      simp [exponentPart, not_mark]

theorem exponentPart_of_exponent {mark : List Char} {e : Int} (scaled : Exponent mark e)
    (ends : Ends rest) : exponentPart (mark ++ rest) = (mark, rest) := by
  cases scaled with
  | none => exact exponentPart_of_ends ends
  | bare digits =>
      obtain ⟨taken, left⟩ := span_append digits.isDigit ends.isDigit
      simp [exponentPart, exponentSign_of_digits digits, taken, left, digits.ne_nil]
  | plus digits =>
      obtain ⟨taken, left⟩ := span_append digits.isDigit ends.isDigit
      simp [exponentPart, exponentSign, taken, left, digits.ne_nil]
  | minus digits =>
      obtain ⟨taken, left⟩ := span_append digits.isDigit ends.isDigit
      simp [exponentPart, exponentSign, taken, left, digits.ne_nil]

/-- A numeral is cut off as a whole. -/
theorem numberTail_of_numeral {cs : List Char} {d : Decimal} (numeral : Numeral cs d) :
    ∃ c tail, cs = c :: tail ∧ isNumeral c = true ∧
      ∀ rest, Ends rest → numberTail (tail ++ rest) = (tail, rest) := by
  obtain ⟨digits, behind, scaled⟩ := numeral
  rename_i whole fraction part mark e
  cases whole with
  | nil => exact absurd rfl digits.ne_nil
  | cons c whole =>
      have numeral_of_digit {c : Char} (digit : c.isDigit = true) : isNumeral c = true := by
        rw [isNumeral, digit, Bool.true_or]
      refine ⟨c, whole ++ (fraction ++ mark), rfl,
        numeral_of_digit (digits.isDigit c List.mem_cons_self), fun rest ends => ?_⟩
      have before : ∀ c' ∈ whole ++ fraction, isNumeral c' = true := by
        intro c' member
        rcases List.mem_append.mp member with member | member
        · exact numeral_of_digit (digits.isDigit c' (List.mem_cons_of_mem _ member))
        · cases behind with
          | none => cases member
          | point part_digits =>
              rcases List.mem_cons.mp member with rfl | member
              · rfl
              · exact numeral_of_digit (part_digits c' member)
      have behind : ∀ c' ∈ (mark ++ rest).head?, isNumeral c' = false := by
        cases scaled with
        | none => exact ends.isNumeral
        | _ => simp [isNumeral]
      obtain ⟨taken, left⟩ := span_append before behind
      have text_eq : whole ++ (fraction ++ mark) ++ rest = whole ++ fraction ++ (mark ++ rest) := by
        simp only [List.append_assoc]
      rw [text_eq, numberTail, taken, left, exponentPart_of_exponent scaled ends]
      simp only [List.append_assoc]

end Lexeme

namespace Decimal.Layout

/-- The text of a finite double without its sign is a numeral of its magnitude. -/
theorem exists_numeral_of_finite (layout : Layout) {v : Float} (finite : v.isFinite = true) :
    ∃ d, Numeral (layout.spell (shortest layout.tie (Double.magnitude v))) d ∧
      d.toFloat false = Double.absolute v := by
  have magnitude_lt := (Double.isFinite_iff v).mp finite
  obtain ⟨d, numeral, rounds⟩ :=
    exists_numeral_spell layout (exponent_shortest_le layout.tie magnitude_lt)
  refine ⟨d, numeral, ?_⟩
  rw [toFloat, rounds, toBits_shortest _ magnitude_lt, Double.absolute]

end Decimal.Layout
end FormulaFit
