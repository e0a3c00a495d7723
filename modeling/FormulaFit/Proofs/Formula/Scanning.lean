import FormulaFit.Proofs.Decimal.Numerals

/-!
# Scanning texts

`Scans` says which tokens stand at the start of some characters, and what is left behind them.  The
characters left are part of the judgment, since a name or a number is taken as far as it goes, so
what stands behind it decides where it ends.
-/

namespace FormulaFit

/-- A name as it stands in a text. -/
def IsName (name : String) : Prop :=
  ∃ c tail, name.toList = c :: tail ∧ Lexeme.beginsName c = true ∧
    ∀ c' ∈ tail, Lexeme.continuesName c' = true

theorem isName_of_all {name : String} {c : Char} {tail : List Char}
    (name_eq : name.toList = c :: tail) (begins : Lexeme.beginsName c = true)
    (continues : tail.all Lexeme.continuesName = true) : IsName name :=
  ⟨c, tail, name_eq, begins, List.all_eq_true.mp continues⟩

namespace Lexeme

open Decimal (Numeral)

/-- The characters begin with the tokens and go on with the rest. -/
inductive Scans : List Char → List Token → List Char → Prop where
  | done {rest : List Char} : Scans rest [] rest
  | blank {c : Char} {cs rest : List Char} {ts : List Token} (blank : Text.isBlank c = true)
      (others : Scans cs ts rest) : Scans (c :: cs) ts rest
  | lexeme {c : Char} {cs tail after rest : List Char} {token : Token} {ts : List Token}
      (visible : Text.isBlank c = false)
      (found : ∀ position, next position c cs = .ok (token, tail, after))
      (others : Scans after ts rest) : Scans (c :: cs) (token :: ts) rest

theorem Scans.append {cs middle rest : List Char} {ts us : List Token} (first : Scans cs ts middle)
    (second : Scans middle us rest) : Scans cs (ts ++ us) rest := by
  induction first with
  | done => exact second
  | blank blank _ ih => exact .blank blank (ih second)
  | lexeme visible found _ ih => exact .lexeme visible found (ih second)

/-- A text is cut into the tokens that it consists of. -/
theorem Scans.exists_cut {cs : List Char} {ts : List Token} (scans : Scans cs ts [])
    (position : Nat) : ∃ ls, cut position cs = .ok ls ∧ ls.map token = ts := by
  generalize rest_eq : ([] : List Char) = rest at scans
  induction scans generalizing position with
  | done =>
      subst rest_eq
      exact ⟨[], by simp [cut], rfl⟩
  | @blank c cs rest ts blank others ih =>
      obtain ⟨ls, cut_eq, tokens⟩ := ih (position + c.utf8Size) rest_eq
      exact ⟨ls, by rw [cut, if_pos blank, cut_eq], tokens⟩
  | @lexeme c cs tail after rest token ts visible found others ih =>
      obtain ⟨ls, cut_eq, tokens⟩ :=
        ih (position + (String.ofList (c :: tail)).utf8ByteSize) rest_eq
      refine ⟨⟨token, position, String.ofList (c :: tail)⟩ :: ls, ?_, congrArg (token :: ·) tokens⟩
      rw [cut, if_neg (by simp [visible])]
      split
      · rename_i failed
        rw [found] at failed
        cases failed
      · rename_i succeeded
        rw [found] at succeeded
        obtain ⟨rfl, rfl, rfl⟩ : token = _ ∧ tail = _ ∧ after = _ := by simpa using succeeded
        dsimp only
        rw [cut_eq]

theorem isName_of_next {position : Nat} {c : Char} {cs tail rest : List Char} {name : String}
    (found : next position c cs = .ok (.name name, tail, rest)) : IsName name := by
  unfold next at found
  split at found
  · dsimp only at found
    split at found <;> cases found
  · split at found
    · rename_i begins
      obtain ⟨rfl, -, -⟩ : String.ofList (c :: cs.takeWhile continuesName) = name ∧ _ ∧ _ := by
        simpa using found
      exact ⟨c, _, String.toList_ofList, begins,
        fun c' member => List.all_eq_true.mp List.all_takeWhile c' member⟩
    · split at found
      · rename_i punctuated
        obtain rfl := Except.ok.inj found
        unfold punctuation? at punctuated
        split at punctuated <;> simp at punctuated
      · cases found

theorem isName_of_cut {position : Nat} {cs : List Char} {ls : List Lexeme}
    (cut_eq : cut position cs = .ok ls) {l : Lexeme} (member : l ∈ ls) {name : String}
    (named : l.token = .name name) : IsName name := by
  fun_induction cut position cs generalizing ls with
  | case1 position =>
      obtain rfl := Except.ok.inj cut_eq
      cases member
  | case2 position c cs blank ih => exact ih cut_eq member
  | case3 position c cs visible e failed => cases cut_eq
  | case4 => cases cut_eq
  | case5 =>
      rename_i position c cs visible token tail rest found _ text lexemes others_eq ih
      obtain rfl := Except.ok.inj cut_eq
      rcases List.mem_cons.mp member with rfl | member
      · subst named
        exact isName_of_next found
      · exact ih others_eq member

/-- The visible characters of ASCII. -/
theorem isBlank_eq_false {c : Char} (above : 0x20 < c.toNat) (below : c.toNat < 0x7f) :
    Text.isBlank c = false := by
  simp [Text.isBlank, Text.blankRanges]
  omega

theorem isDigit_iff (c : Char) : c.isDigit = true ↔ 48 ≤ c.toNat ∧ c.toNat ≤ 57 := by
  rw [Char.isDigit, Bool.and_eq_true, decide_eq_true_eq, decide_eq_true_eq, ge_iff_le,
    UInt32.le_iff_toNat_le, UInt32.le_iff_toNat_le]
  rfl

theorem isAlpha_iff (c : Char) :
    c.isAlpha = true ↔ (65 ≤ c.toNat ∧ c.toNat ≤ 90) ∨ (97 ≤ c.toNat ∧ c.toNat ≤ 122) := by
  simp only [Char.isAlpha, Char.isUpper, Char.isLower, Bool.or_eq_true, Bool.and_eq_true,
    decide_eq_true_eq, ge_iff_le, UInt32.le_iff_toNat_le]
  rfl

theorem isBlank_of_isNumeral {c : Char} (numeral : isNumeral c = true) :
    Text.isBlank c = false := by
  rw [isNumeral, Bool.or_eq_true] at numeral
  rcases numeral with digit | point
  · rw [isDigit_iff] at digit
    exact isBlank_eq_false (by omega) (by omega)
  · rw [eq_of_beq point]
    rfl

theorem isBlank_of_beginsName {c : Char} (begins : beginsName c = true) :
    Text.isBlank c = false ∧ isNumeral c = false := by
  rw [beginsName, Bool.or_eq_true] at begins
  rcases begins with alpha | underscore
  · have range := (isAlpha_iff c).mp alpha
    refine ⟨isBlank_eq_false (by omega) (by omega), ?_⟩
    rw [isNumeral, Bool.or_eq_false_iff, Bool.eq_false_iff, Ne, isDigit_iff, beq_eq_false_iff_ne]
    refine ⟨by omega, ?_⟩
    rintro rfl
    cases alpha
  · obtain rfl := eq_of_beq underscore
    exact ⟨rfl, rfl⟩

theorem scans_numeral {cs rest : List Char} {d : Decimal} (numeral : Numeral cs d)
    (ends : Ends rest) : Scans (cs ++ rest) [.number (d.toFloat false)] rest := by
  obtain ⟨c, tail, rfl, numeral_c, tail_eq⟩ := numberTail_of_numeral numeral
  have found (position : Nat) : next position c (tail ++ rest) =
      .ok (.number (d.toFloat false), tail, rest) := by
    rw [next, if_pos numeral_c, tail_eq rest ends]
    simp only [Decimal.read?_of_numeral numeral]
  exact .lexeme (isBlank_of_isNumeral numeral_c) found .done

/-- A name is scanned as a whole. -/
theorem scans_name {name : String} {rest : List Char} (is_name : IsName name) (ends : Ends rest) :
    Scans (name.toList ++ rest) [.name name] rest := by
  obtain ⟨c, tail, name_eq, begins, continues⟩ := is_name
  obtain ⟨taken, left⟩ := span_append continues fun c' member => (ends c' member).1
  obtain ⟨visible, not_numeral⟩ := isBlank_of_beginsName begins
  have found (position : Nat) : next position c (tail ++ rest) = .ok (.name name, tail, rest) := by
    rw [next, if_neg (by simp [not_numeral]), if_pos begins, taken, left]
    dsimp only
    rw [← name_eq, String.ofList_toList]
  rw [name_eq]
  exact .lexeme visible found .done

theorem Scans.mark {c : Char} {cs rest : List Char} {token : Token} {ts : List Token}
    (others : Scans cs ts rest)
    (apart : (Text.isBlank c || isNumeral c || beginsName c) = false)
    (found : punctuation? c cs = some (token, [], cs)) : Scans (c :: cs) (token :: ts) rest := by
  simp only [Bool.or_eq_false_iff] at apart
  have found (position : Nat) : next position c cs = .ok (token, [], cs) := by
    simp [next, apart, found]
  exact .lexeme apart.1.1 found others

end Lexeme
end FormulaFit
