import FormulaFit.Json.Writer
import FormulaFit.Proofs.Json.Numbers

/-!
# JSON values and their texts

Reading a text that was written gives the value back.  A value is legible if its numbers are texts
of decimals and its strings have characters only; that is all a value needs, since quotes,
backslashes and control characters are escaped, and two characters of a text allow for every level
of nesting.
-/

namespace FormulaFit
namespace Json

open Lexeme (Ends)

section Strings

theorem assemble?_escape {code : Nat} (below : code < 0xd800) (units : List StringUnit) :
    assemble? (.escape code :: units) = (assemble? units).map (Char.ofNat code :: ·) := by
  have not_high : isHigh code = false := by
    simp only [isHigh, Bool.and_eq_false_iff, decide_eq_false_iff_not]
    omega
  have not_low : isLow code = false := by
    simp only [isLow, Bool.and_eq_false_iff, decide_eq_false_iff_not]
    omega
  cases units with
  | nil => simp [assemble?, not_high, not_low]
  | cons unit units => cases unit <;> simp [assemble?, not_high, not_low]

theorem hexCode?_control : ∀ code < 0x20,
    hexCode? '0' '0' (Nat.digitChar (code / 16)) (Nat.digitChar (code % 16)) = some code := by
  decide

theorem stringUnits_escaped {letter c : Char} (other : letter ≠ 'u')
    (escapes : escaped? letter = some c) (cs : List Char) :
    stringUnits ('\\' :: letter :: cs) =
      (stringUnits cs).map fun (units, rest) => (.char c :: units, rest) := by
  rw [stringUnits, escapes]
  · cases stringUnits cs <;> rfl
  · exact fun _ _ _ _ _ same => absurd same other

theorem stringUnits_char {c : Char} (quote : c ≠ '"') (backslash : c ≠ '\\')
    (printed : ¬c.toNat < 0x20) (cs : List Char) : stringUnits (c :: cs) =
      (stringUnits cs).map fun (units, rest) => (.char c :: units, rest) := by
  rw [stringUnits, if_neg printed]
  · cases stringUnits cs <;> rfl
  · exact quote
  · exact fun _ _ _ _ _ same => absurd same backslash
  · exact fun _ _ same => absurd same backslash

/-- A character is read as one unit that stands for it. -/
theorem exists_unit_writeChar (c : Char) : ∃ unit,
    (∀ cs, stringUnits (writeChar c ++ cs) =
      (stringUnits cs).map fun (units, rest) => (unit :: units, rest)) ∧
    ∀ units, assemble? (unit :: units) = (assemble? units).map (c :: ·) := by
  unfold writeChar
  split
  case h_8 quote backslash _ _ _ _ _ =>
    split
    · rename_i control
      refine ⟨.escape c.toNat, fun cs => ?_, fun units => ?_⟩
      · simp only [hexPair, List.cons_append, List.nil_append, stringUnits,
          hexCode?_control c.toNat control]
        cases stringUnits cs <;> rfl
      · rw [assemble?_escape (by omega), Char.ofNat_toNat]
    · rename_i printed
      exact ⟨.char c, stringUnits_char quote backslash printed, fun units => by rw [assemble?]⟩
  all_goals exact ⟨.char _, stringUnits_escaped (by decide) rfl, fun units => by rw [assemble?]⟩

theorem exists_units_writeChar (s rest : List Char) : ∃ units,
    stringUnits (s.flatMap writeChar ++ '"' :: rest) = some (units, rest) ∧
      assemble? units = some s := by
  induction s with
  | nil => exact ⟨[], rfl, rfl⟩
  | cons c s ih =>
      obtain ⟨unit, read_unit, assembled_unit⟩ := exists_unit_writeChar c
      obtain ⟨units, read, assembled⟩ := ih
      refine ⟨unit :: units, ?_, ?_⟩
      · rw [List.flatMap_cons, List.append_assoc, read_unit, read]
        rfl
      · rw [assembled_unit, assembled]
        rfl

end Strings

/-- A value whose text can be read: its numbers are texts of decimals, and its strings have
characters only. -/
inductive Legible : Json → Prop where
  | null : Legible null
  | bool (b : Bool) : Legible (bool b)
  | number {n : JsonNumber} (spelled : n.IsSpelled) : Legible (number n)
  | string (s : String) : Legible (string s)
  | array {items : List Json} (each : ∀ j ∈ items, Legible j) : Legible (array items)
  | object {members : List (String × Json)} (each : ∀ m ∈ members, Legible m.2) :
    Legible (object members)

theorem skip_cons {c : Char} (visible : isBlank c = false) (cs : List Char) :
    skip (c :: cs) = c :: cs := by
  rw [skip, List.dropWhile_cons_of_neg (by simp [visible])]

theorem isBlank_of_isDigit {c : Char} (digit : c.isDigit = true) : isBlank c = false := by
  simp only [isBlank, Bool.or_eq_false_iff, beq_eq_false_iff_ne, and_assoc]
  refine ⟨?_, ?_, ?_, ?_⟩ <;> rintro rfl <;> cases digit

/-- A text of a value does not begin with a blank or like the end of an array. -/
theorem Legible.exists_head_write {j : Json} (legible : j.Legible) :
    ∃ c cs, j.write = c :: cs ∧ isBlank c = false ∧ c ≠ ']' := by
  cases legible with
  | null => exact ⟨_, _, rfl, rfl, by decide⟩
  | bool b => cases b <;> exact ⟨_, _, rfl, rfl, by decide⟩
  | @number n spelled =>
      obtain ⟨negative, spelling⟩ := n
      cases negative with
      | true => exact ⟨_, _, rfl, rfl, by decide⟩
      | false =>
          obtain ⟨c, cs, spelling_eq, digit⟩ := exists_digit_of_spelled spelled
          refine ⟨c, cs, spelling_eq, isBlank_of_isDigit digit, ?_⟩
          rintro rfl
          cases digit
  | string s => exact ⟨_, _, rfl, rfl, by decide⟩
  | array each => exact ⟨_, _, rfl, rfl, by decide⟩
  | object each => exact ⟨_, _, rfl, rfl, by decide⟩

/-- The text of the value is read as the value, whatever stands behind it that does not go on with
a number. -/
def ReadsBack (j : Json) : Prop :=
  ∀ (bound : Nat) (rest : List Char), 2 * j.write.length ≤ bound → Ends rest →
    readValue? bound (j.write ++ rest) = some (j, rest)

theorem Legible.readsBack {j : Json} (legible : j.Legible)
    (read : ∀ (bound : Nat) (rest : List Char), 2 * j.write.length ≤ bound + 1 → Ends rest →
      readValue? (bound + 1) (j.write ++ rest) = some (j, rest)) : ReadsBack j := by
  intro bound rest room ends
  cases bound with
  | zero =>
      obtain ⟨c, cs, write_eq, -⟩ := legible.exists_head_write
      rw [write_eq] at room
      cases room
  | succ bound => exact read bound rest room ends

theorem readValue?_digit {c : Char} (digit : c.isDigit = true) (bound : Nat) (cs : List Char) :
    readValue? (bound + 1) (c :: cs) = readNumber? false (c :: cs) := by
  rw [readValue?, skip_cons (isBlank_of_isDigit digit)]
  split <;> first
    | rfl
    | rename_i same
      rw [(List.cons.inj same).1] at digit
      cases digit

theorem readsBack_number {n : JsonNumber} (spelled : n.IsSpelled) : ReadsBack (number n) := by
  refine (Legible.number spelled).readsBack fun bound rest room ends => ?_
  have read := readNumber?_append spelled ends
  obtain ⟨negative, spelling⟩ := n
  cases negative with
  | true => exact read
  | false =>
      obtain ⟨c, cs, spelling_eq, digit⟩ := exists_digit_of_spelled spelled
      change readValue? (bound + 1) (spelling ++ rest) = _
      change spelling = _ at spelling_eq
      simp only [spelling_eq, List.cons_append] at read ⊢
      rw [readValue?_digit digit, read]

theorem readsBack_string (s : String) : ReadsBack (string s) := by
  refine (Legible.string s).readsBack fun bound rest room ends => ?_
  obtain ⟨units, read, assembled⟩ := exists_units_writeChar s.toList rest
  have text_eq : (string s).write ++ rest =
      '"' :: (s.toList.flatMap writeChar ++ '"' :: rest) := by
    simp [write, writeString]
  rw [text_eq, readValue?, skip_cons rfl]
  simp only [read, assembled, bind, Option.bind, Option.elim, String.ofList_toList]
  rfl

theorem ends_cons {c : Char} (other : Lexeme.continuesName c = false) (point : c ≠ '.')
    (rest : List Char) : Ends (c :: rest) := by
  intro c' member
  obtain rfl := Option.some.inj member
  exact ⟨other, point⟩

theorem readItems?_item {item : Json} (legible : item.Legible) (reads : item.ReadsBack)
    {bound : Nat} (room : 2 * item.write.length ≤ bound) (isFirst : Bool) (rest : List Char) :
    readItems? (bound + 1) isFirst (item.write ++ ']' :: rest) = some ([item], rest) ∧
      readItems? (bound + 1) isFirst (item.write ++ ',' :: rest) =
        (readItems? bound false rest).map fun (items, rest) => (item :: items, rest) := by
  obtain ⟨c, cs, write_eq, visible, not_close⟩ := legible.exists_head_write
  have last := reads bound (']' :: rest) room (ends_cons rfl (by decide) rest)
  have next := reads bound (',' :: rest) room (ends_cons rfl (by decide) rest)
  rw [write_eq, List.cons_append] at last next ⊢
  constructor
  · rw [readItems?, skip_cons visible]
    · simp only [last, bind, Option.bind]
      rfl
    · rintro _ - same
      rw [skip_cons visible] at same
      exact absurd (List.cons.inj same).1 not_close
  · rw [List.cons_append, readItems?, skip_cons visible]
    · simp only [next, bind, Option.bind, skip_cons (c := ',') rfl]
      cases readItems? bound false rest <;> rfl
    · rintro _ - same
      rw [skip_cons visible] at same
      exact absurd (List.cons.inj same).1 not_close

/-- The items of an array are read one by one up to its end. -/
theorem readItems?_write {items : List Json} (legible : ∀ j ∈ items, j.Legible)
    (each : ∀ j ∈ items, j.ReadsBack) {bound : Nat}
    (room : 2 * (writeItems items).length + 1 ≤ bound) {isFirst : Bool}
    (occupied : items = [] → isFirst = true) (rest : List Char) :
    readItems? bound isFirst (writeItems items ++ ']' :: rest) = some (items, rest) := by
  induction items generalizing bound isFirst with
  | nil =>
      obtain ⟨bound, rfl⟩ := Nat.exists_eq_succ_of_ne_zero (Nat.ne_of_gt room)
      rw [occupied rfl]
      rfl
  | cons item items ih =>
      obtain ⟨bound, rfl⟩ := Nat.exists_eq_succ_of_ne_zero (Nat.ne_of_gt (Nat.zero_lt_of_lt room))
      obtain ⟨legible_item, legible⟩ := List.forall_mem_cons.mp legible
      obtain ⟨reads_item, each⟩ := List.forall_mem_cons.mp each
      cases items with
      | nil =>
          have room : 2 * item.write.length ≤ bound := Nat.le_of_succ_le_succ room
          exact (readItems?_item legible_item reads_item room isFirst rest).1
      | cons next items =>
          have text_eq : writeItems (item :: next :: items) =
              item.write ++ ',' :: writeItems (next :: items) :=
            writeItems.eq_3 _ _ (List.cons_ne_nil _ _)
          rw [text_eq, List.length_append, List.length_cons] at room
          rw [text_eq, List.append_assoc, List.cons_append,
            (readItems?_item legible_item reads_item (by omega) isFirst _).2,
            ih legible each (by omega) fun empty => absurd empty (List.cons_ne_nil _ _)]
          rfl

theorem readsBack_array {items : List Json} (legible : ∀ j ∈ items, j.Legible)
    (each : ∀ j ∈ items, j.ReadsBack) : ReadsBack (array items) := by
  refine (Legible.array legible).readsBack fun bound rest room ends => ?_
  have text_eq : (array items).write ++ rest = '[' :: (writeItems items ++ ']' :: rest) := by
    simp [write]
  have room : 2 * (writeItems items).length + 1 ≤ bound := by
    simp only [write, List.length_append, List.length_cons, List.length_nil] at room
    omega
  rw [text_eq, readValue?, skip_cons rfl]
  simp only [readItems?_write legible each room (fun _ => rfl) rest]
  rfl

theorem readMembers?_name (name : String) (bound : Nat) (isFirst : Bool) (cs : List Char) :
    readMembers? (bound + 1) isFirst (writeString name ++ ':' :: cs) = (do
      let (value, cs) ← readValue? bound cs
      match skip cs with
      | '\x7d' :: cs => return ([(name, value)], cs)
      | ',' :: cs =>
        let (members, cs) ← readMembers? bound false cs
        return ((name, value) :: members, cs)
      | _ => none) := by
  obtain ⟨units, read, assembled⟩ := exists_units_writeChar name.toList (':' :: cs)
  have text_eq : writeString name ++ ':' :: cs =
      '"' :: (name.toList.flatMap writeChar ++ '"' :: ':' :: cs) := by
    simp [writeString]
  have unfolded := readMembers?.eq_def (bound + 1) isFirst
    ('"' :: (name.toList.flatMap writeChar ++ '"' :: ':' :: cs))
  simp only [skip_cons (c := '"') rfl, read, assembled, bind, Option.bind, String.ofList_toList,
    skip_cons (c := ':') rfl] at unfolded
  rw [text_eq]
  exact unfolded

theorem readMembers?_member {name : String} {value : Json} (reads : value.ReadsBack) {bound : Nat}
    (room : 2 * value.write.length ≤ bound) (isFirst : Bool) (rest : List Char) :
    readMembers? (bound + 1) isFirst (writeString name ++ ':' :: (value.write ++ '\x7d' :: rest)) =
        some ([(name, value)], rest) ∧
      readMembers? (bound + 1) isFirst (writeString name ++ ':' :: (value.write ++ ',' :: rest)) =
        (readMembers? bound false rest).map fun (members, rest) =>
          ((name, value) :: members, rest) := by
  have last := reads bound ('\x7d' :: rest) room (ends_cons rfl (by decide) rest)
  have next := reads bound (',' :: rest) room (ends_cons rfl (by decide) rest)
  constructor
  · rw [readMembers?_name, last]
    rfl
  · rw [readMembers?_name, next]
    simp only [bind, Option.bind, skip_cons (c := ',') rfl]
    cases readMembers? bound false rest <;> rfl

theorem readMembers?_write {members : List (String × Json)}
    (each : ∀ m ∈ members, m.2.ReadsBack) {bound : Nat}
    (room : 2 * (writeMembers members).length + 1 ≤ bound) {isFirst : Bool}
    (occupied : members = [] → isFirst = true) (rest : List Char) :
    readMembers? bound isFirst (writeMembers members ++ '\x7d' :: rest) = some (members, rest) := by
  induction members generalizing bound isFirst with
  | nil =>
      obtain ⟨bound, rfl⟩ := Nat.exists_eq_succ_of_ne_zero (Nat.ne_of_gt room)
      rw [occupied rfl]
      rfl
  | cons m members ih =>
      obtain ⟨bound, rfl⟩ := Nat.exists_eq_succ_of_ne_zero (Nat.ne_of_gt (Nat.zero_lt_of_lt room))
      obtain ⟨name, value⟩ := m
      obtain ⟨(reads : value.ReadsBack), each⟩ := List.forall_mem_cons.mp each
      cases members with
      | nil =>
          rw [writeMembers, List.length_append, List.length_cons] at room
          rw [writeMembers, List.append_assoc, List.cons_append]
          exact (readMembers?_member reads (by omega) isFirst rest).1
      | cons next members =>
          have text_eq : writeMembers ((name, value) :: next :: members) =
              writeString name ++ ':' :: value.write ++ ',' :: writeMembers (next :: members) :=
            writeMembers.eq_3 _ _ _ (List.cons_ne_nil _ _)
          simp only [text_eq, List.length_append, List.length_cons] at room
          simp only [text_eq, List.append_assoc, List.cons_append]
          rw [(readMembers?_member reads (by omega) isFirst _).2,
            ih each (by omega) fun empty => absurd empty (List.cons_ne_nil _ _)]
          rfl

theorem readsBack_object {members : List (String × Json)} (legible : ∀ m ∈ members, m.2.Legible)
    (each : ∀ m ∈ members, m.2.ReadsBack) : ReadsBack (object members) := by
  refine (Legible.object legible).readsBack fun bound rest room ends => ?_
  have text_eq : (object members).write ++ rest =
      '\x7b' :: (writeMembers members ++ '\x7d' :: rest) := by
    simp [write]
  have room : 2 * (writeMembers members).length + 1 ≤ bound := by
    simp only [write, List.length_append, List.length_cons, List.length_nil] at room
    omega
  rw [text_eq, readValue?, skip_cons rfl]
  simp only [readMembers?_write each room (fun _ => rfl) rest]
  rfl

/-- Every legible value reads back. -/
theorem Legible.reads {j : Json} (legible : j.Legible) : j.ReadsBack := by
  induction legible with
  | null => exact Legible.null.readsBack fun _ _ _ _ => rfl
  | bool b => exact (Legible.bool b).readsBack fun _ _ _ _ => by cases b <;> rfl
  | number spelled => exact readsBack_number spelled
  | string s => exact readsBack_string s
  | array legible each => exact readsBack_array legible each
  | object legible each => exact readsBack_object legible each

theorem parse?_text {j : Json} (legible : j.Legible) : parse? j.text = some j := by
  have read := legible.reads (2 * j.write.length + 1) [] (Nat.le_succ _) (by simp [Lexeme.Ends])
  rw [List.append_nil] at read
  rw [parse?, text, String.toList_ofList]
  simp only [read, bind, Option.bind]
  rfl

end Json
end FormulaFit
