import FormulaFit.Proofs.Formula.Pieces
import FormulaFit.Proofs.Formula.TermReaders
import FormulaFit.Proofs.Rewriting.Confinement

/-!
# Parsing with checked access

A formula can be scanned at a cursor that counts bytes: the bytes of a number one by one, everything
else by characters.  A slice has to begin and end where characters do, an index has to be below the
number of bytes, and every loop has a number of turns.  The levels of a stored formula can be looked
up node by node, if every child is stored before its parent.  `checkedParse?` is none as soon as one
of these fails.  It never is, and it gives what parsing gives.
-/

namespace FormulaFit

namespace Text

/-- The text from one byte up to another, if characters begin or the text ends at both. -/
def slice? (text : String) (i j : Nat) : Option String :=
  if bounds : i ≤ j ∧ String.Pos.Raw.IsValid text ⟨i⟩ ∧ String.Pos.Raw.IsValid text ⟨j⟩ then
    some (text.extract (text.pos ⟨i⟩ bounds.2.1) (text.pos ⟨j⟩ bounds.2.2))
  else none

/-- The byte at an index is a character of a kind; no byte behind the end is.  None if the bytes are
read where there are none. -/
def byteIs? (text : String) (kind : Char → Bool) (i : Nat) : Option Bool :=
  if i < text.utf8ByteSize then text.toByteArray.data[i]?.map fun b => kind (Char.ofUInt8 b)
  else some false

/-- The character that begins at a byte, if the text does not end there. -/
def peek? (text : String) (i : Nat) : Option (Option Char) := do
  let rest ← slice? text i text.utf8ByteSize
  return rest.toList.head?

/-- Characters of the kind are one byte each. -/
def IsAscii (kind : Char → Bool) : Prop := ∀ c, kind c = true → c.toNat < 128

variable {text : String} {i : Nat} {c : Char} {part rest : List Char} {kind : Char → Bool}

theorem slice?_append (before middle after : String) :
    slice? (before ++ middle ++ after) before.utf8ByteSize
      (before.utf8ByteSize + middle.utf8ByteSize) = some middle := by
  have begins : String.Pos.Raw.IsValid (before ++ middle ++ after) ⟨before.utf8ByteSize⟩ :=
    String.Pos.Raw.isValid_iff_exists_append.mpr
      ⟨before, middle ++ after, String.append_assoc, rfl⟩
  have ends : String.Pos.Raw.IsValid (before ++ middle ++ after)
      ⟨before.utf8ByteSize + middle.utf8ByteSize⟩ :=
    String.Pos.Raw.isValid_iff_exists_append.mpr
      ⟨before ++ middle, after, rfl, by rw [String.rawEndPos, String.utf8ByteSize_append]⟩
  rw [slice?, dif_pos ⟨Nat.le_add_right _ _, begins, ends⟩]
  refine congrArg some (String.toByteArray_inj.mp ?_)
  rw [String.toByteArray_extract, String.offset_pos, String.offset_pos]
  dsimp only
  rw [← String.utf8ByteSize_append, ← String.size_toByteArray, ← String.size_toByteArray,
    String.toByteArray_append, ByteArray.extract_append_size_left, String.toByteArray_append]
  exact ByteArray.extract_append_eq_right rfl ByteArray.size_append

/-- Slices of what is left of a text begin and end where characters do. -/
theorem Remains.slice?_eq (remains : Remains text i (part ++ rest)) :
    slice? text i (i + (String.ofList part).utf8ByteSize) = some (String.ofList part) := by
  obtain ⟨before, rfl, rfl⟩ := remains
  rw [String.ofList_append, ← String.append_assoc]
  exact slice?_append before (String.ofList part) (String.ofList rest)

theorem Remains.slice?_end (remains : Remains text i rest) :
    slice? text i text.utf8ByteSize = some (String.ofList rest) := by
  obtain ⟨before, rfl, rfl⟩ := remains
  have slice_eq := slice?_append before (String.ofList rest) ""
  rwa [String.append_empty, ← String.utf8ByteSize_append] at slice_eq

theorem Remains.peek?_eq (remains : Remains text i rest) : peek? text i = some rest.head? := by
  rw [peek?, remains.slice?_end]
  exact congrArg (fun cs => some (List.head? cs)) String.toList_ofList

/-- The first byte of a character is the character itself or none of ASCII. -/
theorem exists_utf8EncodeChar (c : Char) : ∃ b bs, String.utf8EncodeChar c = b :: bs ∧
    (Char.ofUInt8 b = c ∨ 128 ≤ c.toNat ∧ 128 ≤ (Char.ofUInt8 b).toNat) := by
  -- The lead byte of two or more has its highest bit set.
  have wide {lead : Nat} (above : 128 ≤ lead) (lead_lt : lead < 256) (le : 128 ≤ c.toNat) :
      Char.ofUInt8 (UInt8.ofNat lead) = c ∨
        128 ≤ c.toNat ∧ 128 ≤ (Char.ofUInt8 (UInt8.ofNat lead)).toNat := by
    refine .inr ⟨le, ?_⟩
    change 128 ≤ (UInt8.ofNat lead).toNat
    rwa [UInt8.toNat_ofNat', Nat.mod_eq_of_lt lead_lt]
  fun_cases String.utf8EncodeChar c with
  | case1 v small =>
      refine ⟨_, _, rfl, .inl (Char.toNat_inj.mp ?_)⟩
      change (UInt8.ofNat v).toNat = v
      rw [UInt8.toNat_ofNat']
      exact Nat.mod_eq_of_lt (by omega)
  | case2 v large => exact ⟨_, _, rfl, wide (by omega) (by omega) (Nat.lt_of_not_le large)⟩
  | case3 v large => exact ⟨_, _, rfl, wide (by omega) (by omega) (Nat.lt_of_not_le large)⟩
  | case4 v large => exact ⟨_, _, rfl, wide (by omega) (by omega) (Nat.lt_of_not_le large)⟩

theorem Remains.byteIs?_cons (remains : Remains text i (c :: rest)) (ascii : IsAscii kind) :
    byteIs? text kind i = some (kind c) := by
  obtain ⟨before, rfl, rfl⟩ := remains
  obtain ⟨b, bs, encoded, same⟩ := exists_utf8EncodeChar c
  have found : (before ++ String.ofList (c :: rest)).toByteArray.data[before.utf8ByteSize]? =
      some b := by
    simp [List.utf8Encode, encoded]
  have inside : before.utf8ByteSize < (before ++ String.ofList (c :: rest)).utf8ByteSize :=
    (Array.getElem?_eq_some_iff.mp found).1
  rw [byteIs?, if_pos inside, found, Option.map_some]
  rcases same with rfl | ⟨wide, wide'⟩
  · rfl
  · have other {d : Char} (above : 128 ≤ d.toNat) : kind d = false :=
      Bool.eq_false_iff.mpr fun holds => Nat.not_lt.mpr above (ascii d holds)
    rw [other wide, other wide']

theorem Remains.byteIs?_nil (remains : Remains text i []) : byteIs? text kind i = some false := by
  obtain ⟨before, rfl, rfl⟩ := remains
  rw [byteIs?, if_neg (by simp)]

theorem utf8ByteSize_ofList_cons (c : Char) (cs : List Char) :
    (String.ofList (c :: cs)).utf8ByteSize = c.utf8Size + (String.ofList cs).utf8ByteSize := by
  rw [← List.singleton_append, String.ofList_append, String.utf8ByteSize_append,
    ← String.singleton_eq_ofList, String.utf8ByteSize_singleton]

theorem length_le_utf8ByteSize (cs : List Char) : cs.length ≤ (String.ofList cs).utf8ByteSize := by
  induction cs with
  | nil => exact Nat.zero_le _
  | cons c cs ih =>
      have positive := c.utf8Size_pos
      rw [List.length_cons, utf8ByteSize_ofList_cons]
      omega

theorem utf8Size_eq_one (small : c.toNat < 128) : c.utf8Size = 1 := by
  have le : c.val ≤ 0x7f := UInt32.le_iff_toNat_le.mpr (Nat.le_of_lt_succ small)
  exact if_pos le

theorem Remains.succ (remains : Remains text i (c :: rest)) (ascii : IsAscii kind)
    (holds : kind c = true) : Remains text (i + 1) rest := by
  have tail := remains.tail
  rwa [utf8Size_eq_one (ascii c holds)] at tail

end Text

namespace Lexeme

open Text

section Scanner

variable (text : String)

/-- Goes on from a byte to the next one that is not of a kind. -/
def skipBytes? (kind : Char → Bool) : (turns : Nat) → (i : Nat) → Option Nat
  | 0, _ => none
  | turns + 1, i => do
    if ← byteIs? text kind i then skipBytes? kind turns (i + 1) else return i

/-- Where the exponent that begins at a byte ends, if there is one. -/
def exponentEnd? (turns i : Nat) : Option Nat := do
  if ← byteIs? text (fun c => c == 'e' || c == 'E') i then
    let signed ← byteIs? text (fun c => c == '+' || c == '-') (i + 1)
    let look := if signed then i + 2 else i + 1
    if ← byteIs? text Char.isDigit look then skipBytes? text Char.isDigit turns look else return i
  else return i

/-- Where the number that begins at a byte ends. -/
def numberEnd? (turns i : Nat) : Option Nat := do
  exponentEnd? text turns (← skipBytes? text isNumeral turns i)

/-- Where the name that begins at a byte ends. -/
def nameEnd? : (turns : Nat) → (i : Nat) → Option Nat
  | 0, _ => none
  | turns + 1, i => do
    match ← peek? text i with
    | some c => if continuesName c then nameEnd? turns (i + 1) else return i
    | none => return i

/-- The token that begins with a character at a byte, and where it ends. -/
def token? (turns i : Nat) (c : Char) : Option (Except ParseError (Token × Nat)) := do
  if isNumeral c then
    let j ← numberEnd? text turns i
    let number ← slice? text i j
    match Decimal.read? number.toList with
    | some d => return .ok (.number (d.toFloat false), j)
    | none => return .error (.malformedNumber number i)
  else if beginsName c then
    let j ← nameEnd? text turns i
    let name ← slice? text i j
    return .ok (.name name, j)
  else
    let rest ← slice? text i text.utf8ByteSize
    match punctuation? c rest.toList.tail with
    | some (token, tail, _) => return .ok (token, i + (String.ofList (c :: tail)).utf8ByteSize)
    | none => return .error (.unexpectedChar c i)

/-- Scans the text from a byte on. -/
def scanFrom? : (turns : Nat) → (i : Nat) → Option (Except ParseError (List Lexeme))
  | 0, _ => none
  | turns + 1, i => do
    match ← peek? text i with
    | none => return .ok []
    | some c =>
      if Text.isBlank c then scanFrom? turns (i + c.utf8Size)
      else
        match ← token? text (turns + 1) i c with
        | .error e => return .error e
        | .ok (token, j) =>
          let piece ← slice? text i j
          let others ← scanFrom? turns j
          return others.map (⟨token, i, piece⟩ :: ·)

/-- Scans a text byte by byte, with one turn more than there are bytes. -/
def scan? : Option (Except ParseError (List Lexeme)) := scanFrom? text (text.utf8ByteSize + 1) 0

end Scanner

variable {text : String} {turns i : Nat} {c : Char} {cs : List Char}

theorem isAscii_isDigit : IsAscii Char.isDigit := fun c digit => by
  rw [isDigit_iff] at digit
  omega

theorem isAscii_isNumeral : IsAscii isNumeral := fun c numeral => by
  rw [isNumeral, Bool.or_eq_true, beq_iff_eq] at numeral
  rcases numeral with digit | rfl
  · exact isAscii_isDigit c digit
  · decide

theorem isAscii_continuesName : IsAscii continuesName := fun c continues => by
  rw [continuesName, Char.isAlphanum, Bool.or_eq_true, Bool.or_eq_true, isAlpha_iff, isDigit_iff,
    beq_iff_eq] at continues
  rcases continues with (letter | digit) | rfl
  · omega
  · omega
  · decide

theorem continuesName_of_beginsName (begins : beginsName c = true) :
    continuesName c = true := by
  rw [beginsName, Bool.or_eq_true] at begins
  rcases begins with letter | underscore
  · simp [continuesName, Char.isAlphanum, letter]
  · simp [continuesName, underscore]

theorem isAscii_either (a b : Char) (small : a.toNat < 128) (small' : b.toNat < 128) :
    IsAscii fun c => c == a || c == b := fun c either => by
  rw [Bool.or_eq_true, beq_iff_eq, beq_iff_eq] at either
  rcases either with rfl | rfl
  · exact small
  · exact small'

theorem skipBytes?_eq {kind : Char → Bool} (ascii : IsAscii kind) (remains : Remains text i cs)
    (enough : cs.length < turns) : skipBytes? text kind turns i =
      some (i + (String.ofList (cs.takeWhile kind)).utf8ByteSize) := by
  induction turns generalizing i cs with
  | zero => exact absurd enough (Nat.not_lt_zero _)
  | succ turns ih =>
      rw [skipBytes?]
      cases cs with
      | nil =>
          rw [remains.byteIs?_nil]
          rfl
      | cons c cs =>
          rw [remains.byteIs?_cons ascii, List.takeWhile_cons]
          cases kind_c : kind c with
          | false => rfl
          | true =>
              have one := utf8Size_eq_one (ascii c kind_c)
              refine (ih (remains.succ ascii kind_c) (Nat.lt_of_succ_lt_succ enough)).trans ?_
              simp only [if_true, utf8ByteSize_ofList_cons, one, Nat.add_assoc]

theorem exists_signed (remains : Remains text (i + 1) cs) : ∃ signed,
    byteIs? text (fun c => c == '+' || c == '-') (i + 1) = some signed ∧
    (if signed then i + 2 else i + 1) =
      i + 1 + (String.ofList (exponentSign cs).1).utf8ByteSize := by
  have ascii := isAscii_either '+' '-' (by decide) (by decide)
  unfold exponentSign
  split
  · exact ⟨true, remains.byteIs?_cons ascii, rfl⟩
  · exact ⟨true, remains.byteIs?_cons ascii, rfl⟩
  · rename_i no_plus no_minus
    refine ⟨false, ?_, rfl⟩
    cases cs with
    | nil => exact remains.byteIs?_nil
    | cons d cs =>
        have other : (d == '+' || d == '-') = false := by
          rw [Bool.or_eq_false_iff, beq_eq_false_iff_ne, beq_eq_false_iff_ne]
          exact ⟨fun plus => no_plus cs (plus ▸ rfl), fun minus => no_minus cs (minus ▸ rfl)⟩
        rw [remains.byteIs?_cons ascii, other]

theorem byteIs?_eq {kind : Char → Bool} (ascii : IsAscii kind) (remains : Remains text i cs) :
    byteIs? text kind i = some !(cs.takeWhile kind).isEmpty := by
  cases cs with
  | nil => exact remains.byteIs?_nil
  | cons c cs =>
      rw [remains.byteIs?_cons ascii, List.takeWhile_cons]
      cases kind c <;> rfl

theorem exponentEnd?_eq (remains : Remains text i cs) (enough : cs.length < turns) :
    exponentEnd? text turns i =
      some (i + (String.ofList (exponentPart cs).1).utf8ByteSize) := by
  have ascii := isAscii_either 'e' 'E' (by decide) (by decide)
  cases cs with
  | nil =>
      rw [exponentEnd?, remains.byteIs?_nil]
      rfl
  | cons mark cs =>
      rw [exponentEnd?, remains.byteIs?_cons ascii, exponentPart]
      cases marked : (mark == 'e' || mark == 'E') with
      | false => rfl
      | true =>
          have behind := remains.succ ascii marked
          obtain ⟨signed, signed_eq, look_eq⟩ := exists_signed behind
          rw [← exponentSign_append cs] at behind
          simp only [if_true, signed_eq, Option.bind_eq_bind, Option.bind_some, look_eq,
            byteIs?_eq isAscii_isDigit behind.advance, Bool.true_and]
          cases none_there : ((exponentSign cs).2.takeWhile Char.isDigit).isEmpty with
          | true => rfl
          | false =>
              have one := utf8Size_eq_one (ascii mark marked)
              have fewer : (exponentSign cs).2.length < turns := by
                have length_eq := congrArg List.length (exponentSign_append cs)
                rw [List.length_append] at length_eq
                rw [List.length_cons] at enough
                omega
              refine (skipBytes?_eq isAscii_isDigit behind.advance fewer).trans ?_
              simp only [Bool.not_false, if_true, List.cons_append, utf8ByteSize_ofList_cons, one,
                String.ofList_append, String.utf8ByteSize_append, Nat.add_assoc]

theorem numberEnd?_eq (remains : Remains text i (c :: cs)) (numeral : isNumeral c = true)
    (enough : (c :: cs).length < turns) : numberEnd? text turns i =
      some (i + (String.ofList (c :: (numberTail cs).1)).utf8ByteSize) := by
  have tail_eq : c :: (numberTail cs).1 =
      (c :: cs).takeWhile isNumeral ++ (exponentPart ((c :: cs).dropWhile isNumeral)).1 := by
    rw [List.takeWhile_cons_of_pos numeral, List.dropWhile_cons_of_pos numeral]
    rfl
  have left_le := (List.dropWhile_sublist isNumeral (l := c :: cs)).length_le
  rw [numberEnd?, skipBytes?_eq isAscii_isNumeral remains enough, tail_eq, String.ofList_append,
    String.utf8ByteSize_append, ← Nat.add_assoc]
  refine exponentEnd?_eq (Remains.advance ?_) (Nat.lt_of_le_of_lt left_le enough)
  rwa [List.takeWhile_append_dropWhile]

theorem nameEnd?_eq (remains : Remains text i cs) (enough : cs.length < turns) :
    nameEnd? text turns i =
      some (i + (String.ofList (cs.takeWhile continuesName)).utf8ByteSize) := by
  induction turns generalizing i cs with
  | zero => exact absurd enough (Nat.not_lt_zero _)
  | succ turns ih =>
      rw [nameEnd?, remains.peek?_eq]
      cases cs with
      | nil => rfl
      | cons c cs =>
          change (if continuesName c = true then nameEnd? text turns (i + 1) else some i) = _
          rw [List.takeWhile_cons]
          cases continues : continuesName c with
          | false => rfl
          | true =>
              have one := utf8Size_eq_one (isAscii_continuesName c continues)
              refine (ih (remains.succ isAscii_continuesName continues)
                (Nat.lt_of_succ_lt_succ enough)).trans ?_
              simp only [if_true, utf8ByteSize_ofList_cons, one, Nat.add_assoc]

/-- The token that begins at a byte is the one that begins with the character there. -/
theorem token?_eq (remains : Remains text i (c :: cs)) (enough : (c :: cs).length < turns) :
    token? text turns i c = some ((next i c cs).map fun found =>
      (found.1, i + (String.ofList (c :: found.2.1)).utf8ByteSize)) := by
  unfold token? next
  split
  · rename_i numeral
    have whole : Remains text i ((c :: (numberTail cs).1) ++ (numberTail cs).2) := by
      rwa [List.cons_append, numberTail_append]
    simp only [numberEnd?_eq remains numeral enough, whole.slice?_eq, Option.bind_eq_bind,
      Option.bind_some, String.toList_ofList]
    cases Decimal.read? (c :: (numberTail cs).1) <;> rfl
  · split
    · rename_i begins
      have taken : (c :: cs).takeWhile continuesName = c :: cs.takeWhile continuesName :=
        List.takeWhile_cons_of_pos (continuesName_of_beginsName begins)
      have whole : Remains text i
          ((c :: cs.takeWhile continuesName) ++ cs.dropWhile continuesName) := by
        rwa [List.cons_append, List.takeWhile_append_dropWhile]
      simp only [nameEnd?_eq remains enough, taken, whole.slice?_eq, Option.bind_eq_bind,
        Option.bind_some]
      rfl
    · simp only [remains.slice?_end, Option.bind_eq_bind, Option.bind_some, String.toList_ofList,
        List.tail_cons]
      cases punctuation? c cs <;> rfl

theorem scanFrom?_eq (remains : Remains text i cs) (enough : cs.length < turns) :
    scanFrom? text turns i = some (cut i cs) := by
  -- Every turn takes at least one character off those that remain behind the cursor.
  induction turns generalizing i cs with
  | zero => exact absurd enough (Nat.not_lt_zero _)
  | succ turns ih =>
      rw [scanFrom?, remains.peek?_eq, Option.bind_eq_bind, Option.bind_some]
      cases cs with
      | nil =>
          rw [cut]
          rfl
      | cons c cs =>
          dsimp only [List.head?_cons]
          split
          · rename_i blank
            rw [cut, if_pos blank]
            exact ih remains.tail (Nat.lt_of_succ_lt_succ enough)
          · rename_i visible
            rw [token?_eq remains enough, Option.bind_eq_bind, Option.bind_some]
            cases found : next i c cs with
            | error e =>
                rw [cut_of_error visible found]
                rfl
            | ok piece =>
                obtain ⟨token, tail, rest⟩ := piece
                obtain rfl := next_append found
                rw [← List.cons_append] at remains
                have fewer : rest.length < turns := by
                  rw [List.length_cons, List.length_append] at enough
                  omega
                simp only [Except.map, remains.slice?_eq, ih remains.advance fewer,
                  Option.bind_eq_bind, Option.bind_some, cut_of_ok visible found]
                rfl

theorem scan?_eq (text : String) : scan? text = some (ofText? text) := by
  refine scanFrom?_eq (remains_toList text) (Nat.lt_succ_of_le ?_)
  have le := length_le_utf8ByteSize text.toList
  rwa [String.ofList_toList] at le

end Lexeme

namespace Expr

variable {α : Type}

/-- Appends the levels of the next node, with those of its children looked up. -/
def nextLevels? (levels : Array Nat) (n : Node α NodeId) : Option (Array Nat) := do
  let below ← n.children.mapM fun c => levels[c]?
  return levels.push (1 + below.foldl max 0)

/-- The depth, with every access checked: none if a child is not stored before its parent, or the
root is not stored. -/
def checkedDepth? (e : Expr α) : Option Nat := do
  let levels ← e.nodes.foldlM nextLevels? #[]
  levels[e.root]?

/-- Appends the levels of the next node, as a scan does. -/
def nextLevels (levels : Array Nat) (n : Node α NodeId) : Array Nat :=
  levels.push (1 + (n.map fun c => levels.getD c default).children.foldl max 0)

theorem nextLevels?_eq {levels : Array Nat} {n : Node α NodeId}
    (stored : ∀ c ∈ n.children, c < levels.size) :
    nextLevels? levels n = some (nextLevels levels n) := by
  have below : n.children.mapM (fun c => levels[c]?) =
      some (n.children.map fun c => levels.getD c default) :=
    mapM_eq_some_map fun c member => by
      rw [Array.getD_eq_getD_getElem?, Array.getElem?_eq_getElem (stored c member)]
      rfl
  rw [nextLevels?, below, nextLevels, Node.children_map]
  rfl

theorem foldlM_nextLevels? {ns : List (Node α NodeId)} {levels : Array Nat}
    (stored : ∀ (k : Nat) n, ns[k]? = some n → ∀ c ∈ n.children, c < levels.size + k) :
    ns.foldlM nextLevels? levels = some (ns.foldl nextLevels levels) := by
  induction ns generalizing levels with
  | nil => rfl
  | cons n ns ih =>
      rw [List.foldlM_cons, nextLevels?_eq (stored 0 n rfl)]
      refine ih fun k m found c member => ?_
      have c_lt := stored (k + 1) m found c member
      rwa [nextLevels, Array.size_push, Nat.add_right_comm]

/-- Looking up the levels of children never fails where they come before their parents. -/
theorem checkedDepth?_eq {e : Expr α} (ordered : e.nodes.Ordered)
    (root_lt : e.root < e.nodes.size) : e.checkedDepth? = some e.depth := by
  have levels_eq : e.nodes.foldlM nextLevels? #[] =
      some (e.scan fun _ n => 1 + n.children.foldl max 0) := by
    rw [← Array.foldlM_toList, foldlM_nextLevels?, scan, ← Array.foldl_toList]
    · rfl
    · intro k n found c member
      rw [Array.getElem?_toList] at found
      exact (ordered k n found c member).trans_eq (Nat.zero_add k).symm
  have stored : e.root < (e.scan fun _ n => 1 + n.children.foldl max 0).size := by
    rwa [size_scan]
  rw [checkedDepth?, levels_eq]
  change (e.scan fun _ n => 1 + n.children.foldl max 0)[e.root]? = _
  rw [Array.getElem?_eq_getElem stored, depth, scanRoot, Array.getD_eq_getD_getElem?,
    Array.getElem?_eq_getElem stored]
  rfl

end Expr

namespace Formula

/-- Parses a text with every access checked. -/
def checkedParse? (text : String) : Option (Except ParseError (Expr Float)) := do
  match ← Lexeme.scan? text with
  | .error e => return .error e
  | .ok ls =>
    match Parser.formula (Parser.operand depthLimit) ls #[] with
    | .error e => return .error e
    | .ok ((_, l :: _), _) => return .error (.trailing l.position)
    | .ok ((root, []), nodes) =>
      let e : Expr Float := ⟨nodes, root⟩
      let depth ← e.checkedDepth?
      return if depthLimit < depth then .error (.tooDeep depthLimit) else .ok e

/-- Parsing a text with every access checked never fails, and gives what parsing gives. -/
theorem checkedParse?_eq (text : String) : checkedParse? text = some (parse text) := by
  rw [checkedParse?, Lexeme.scan?_eq, parse, Option.bind_eq_bind, Option.bind_some]
  cases Lexeme.ofText? text with
  | error e => rfl
  | ok ls =>
      dsimp only [bind, Except.bind]
      rw [Parser.ofLexemes?, Parser.builds_formula (Parser.builds_operand depthLimit) ls #[]]
      cases formula (operand depthLimit) ls with
      | error e => rfl
      | ok found =>
          obtain ⟨t, rest⟩ := found
          cases rest with
          | cons l rest => rfl
          | nil =>
              have depth_eq : t.store.checkedDepth? = some t.store.depth :=
                Expr.checkedDepth?_eq t.ordered_store t.root_store_lt
              change (t.store.checkedDepth?.bind _) = some (if depthLimit < t.store.depth then _ else _)
              rw [depth_eq]
              dsimp only [Option.bind]
              split <;> rfl

end Formula

end FormulaFit
