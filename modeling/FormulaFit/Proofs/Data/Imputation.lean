import FormulaFit.Data.Imputer
import FormulaFit.Proofs.Scalar.Nearest

/-!
# Filling missing values

An imputation learned from a matrix fills every missing value of a matrix of the same width with the
mean of its column, and keeps every observed value.  What is filled is complete as far as the means
are numbers.  The mean of a column is none exactly if a running sum of its observed values meets the
opposite infinity.
-/

namespace FormulaFit

namespace Double

open Float.Model

/-- The two infinities, one way or the other. -/
def Opposite (a b : Float) : Prop :=
  (a = Scalar.posInf ∧ b = Scalar.negInf) ∨ (a = Scalar.negInf ∧ b = Scalar.posInf)

variable {a b : Float}

theorem unpack_eq_posInf_iff : a.toModel.unpack = .infinity .positive ↔ a = Scalar.posInf := by
  refine ⟨fun unpacked => ?_, fun infinite => infinite ▸ rfl⟩
  rw [← ofModel_pack_unpack a, unpacked]
  rfl

theorem unpack_eq_negInf_iff : a.toModel.unpack = .infinity .negative ↔ a = Scalar.negInf := by
  refine ⟨fun unpacked => ?_, fun infinite => infinite ▸ rfl⟩
  rw [← ofModel_pack_unpack a, unpacked]
  rfl

theorem isNaN_notANumber : (ofUnpacked .notANumber).isNaN = true := rfl

theorem isNaN_infinity (sign : UnpackedFloat.Sign) : ¬(ofUnpacked (.infinity sign)).isNaN = true :=
  by cases sign <;> exact Bool.false_ne_true

/-- A sum of doubles is undefined exactly if a summand is, or if opposite infinities meet. -/
theorem isNaN_add_iff :
    (a + b).isNaN = true ↔ a.isNaN = true ∨ b.isNaN = true ∨ Opposite a b := by
  rw [Opposite, ← unpack_eq_posInf_iff, ← unpack_eq_posInf_iff, ← unpack_eq_negInf_iff,
    ← unpack_eq_negInf_iff]
  by_cases finite : a.isFinite = true ∧ b.isFinite = true
  · have number := (nearest_add finite.1 finite.2).number
    refine iff_of_false (Bool.eq_false_iff.mp number) ?_
    obtain ⟨a_finite, b_finite⟩ := finite
    have infinite : ∀ sign, a.toModel.unpack ≠ .infinity sign := fun sign unpacked => by
      change a.toModel.unpack.isFinite = true at a_finite
      rw [unpacked] at a_finite
      cases a_finite
    rw [isNaN_of_finite a_finite, isNaN_of_finite b_finite]
    simp [infinite]
  · change ¬(a.toModel.unpack.isFinite = true ∧ b.toModel.unpack.isFinite = true) at finite
    change (ofUnpacked (.add Format.binary64 a.toModel.unpack b.toModel.unpack)).isNaN = true ↔
      a.toModel.unpack.isNaN = true ∨ b.toModel.unpack.isNaN = true ∨ _
    generalize a.toModel.unpack = u at finite
    generalize b.toModel.unpack = w at finite
    cases u with
    | notANumber => cases w <;> exact iff_of_true isNaN_notANumber (.inl rfl)
    | infinity sign =>
        cases w with
        | notANumber => exact iff_of_true isNaN_notANumber (.inr (.inl rfl))
        | infinity sign' =>
            cases sign <;> cases sign'
            · exact iff_of_false (isNaN_infinity .negative) (by simp)
            · exact iff_of_true isNaN_notANumber (by simp)
            · exact iff_of_true isNaN_notANumber (by simp)
            · exact iff_of_false (isNaN_infinity .positive) (by simp)
        | _ => exact iff_of_false (isNaN_infinity sign) (by simp)
    | _ =>
        cases w with
        | notANumber => exact iff_of_true isNaN_notANumber (.inr (.inl rfl))
        | infinity sign' => exact iff_of_false (isNaN_infinity sign') (by simp)
        | _ => exact absurd ⟨rfl, rfl⟩ finite

theorem isNaN_div (b_finite : b.isFinite = true) (nonzero : value b ≠ 0) :
    (a / b).isNaN = a.isNaN := by
  by_cases a_finite : a.isFinite = true
  · rw [(nearest_div a_finite b_finite nonzero).number, isNaN_of_finite a_finite]
  · change a.toModel.unpack.isFinite ≠ true at a_finite
    change b.toModel.unpack.isFinite = true at b_finite
    change (ofUnpacked (.div Format.binary64 a.toModel.unpack b.toModel.unpack)).isNaN =
      a.toModel.unpack.isNaN
    generalize a.toModel.unpack = u at a_finite
    generalize b.toModel.unpack = w at b_finite
    cases w with
    | notANumber | infinity => cases b_finite
    | _ =>
        cases u with
        | notANumber => exact isNaN_notANumber
        | infinity sign => exact Bool.eq_false_iff.mpr (isNaN_infinity _)
        | _ => exact absurd rfl a_finite

theorem isNaN_div_ofNat {n : Nat} (pos : 0 < n) (small : n < UInt64.size) :
    (a / Float.ofNat n).isNaN = a.isNaN := by
  obtain ⟨nearest, finite⟩ := nearest_ofNat (UInt64.ofNat n)
  rw [UInt64.toNat_ofNat_of_lt' small] at nearest finite
  have one_le : (1 : ℚ) ≤ value (Float.ofNat n) := by
    rw [← value_one]
    refine nearest.le_value (show (1 : Float).isNaN = false from rfl) ?_
    rw [value_one]
    exact_mod_cast pos
  exact isNaN_div finite (by linarith)

theorem isNaN_foldl_add {start : Float} (undefined : start.isNaN = true) (values : List Float) :
    (values.foldl (· + ·) start).isNaN = true := by
  induction values generalizing start with
  | nil => exact undefined
  | cons v values ih => exact ih (isNaN_add_iff.mpr (.inl undefined))

/-- A sum of numbers from the left is undefined exactly if it meets the opposite infinity. -/
theorem isNaN_foldl_add_iff {values : List Float} {start : Float} (number : start.isNaN = false)
    (numbers : ∀ v ∈ values, v.isNaN = false) :
    (values.foldl (· + ·) start).isNaN = true ↔ ∃ before v after,
      values = before ++ v :: after ∧ Opposite (before.foldl (· + ·) start) v := by
  induction values generalizing start with
  | nil =>
      refine iff_of_false (Bool.eq_false_iff.mp number) ?_
      rintro ⟨before, v, after, values_eq, -⟩
      cases before <;> cases values_eq
  | cons v values ih =>
      obtain ⟨v_number, numbers⟩ := List.forall_mem_cons.mp numbers
      have undefined_iff : (start + v).isNaN = true ↔ Opposite start v := by
        rw [isNaN_add_iff, number, v_number]
        simp
      by_cases meets : Opposite start v
      · exact iff_of_true (isNaN_foldl_add (undefined_iff.mpr meets) values)
          ⟨[], v, values, rfl, meets⟩
      · rw [List.foldl_cons, ih (Bool.eq_false_iff.mpr (undefined_iff.not.mpr meets)) numbers]
        constructor
        · rintro ⟨before, w, after, rfl, opposite⟩
          exact ⟨v :: before, w, after, rfl, opposite⟩
        · rintro ⟨before, w, after, values_eq, opposite⟩
          cases before with
          | nil =>
              cases values_eq
              exact absurd opposite meets
          | cons u before =>
              cases values_eq
              exact ⟨before, w, after, rfl, opposite⟩

end Double

/-- A running sum of the observed values of a column meets the opposite infinity. -/
def Clashes (column : List Float) : Prop :=
  ∃ before v after, column.filter (fun v => !Scalar.isNaN v) = before ++ v :: after ∧
    Double.Opposite (Scalar.sum before) v

theorem isNaN_observedMean_iff {column : List Float} (short : column.length < UInt64.size) :
    (observedMean column).isNaN = true ↔ Clashes column := by
  rw [observedMean, Clashes]
  have numbers : ∀ v ∈ column.filter fun v => !Scalar.isNaN v, v.isNaN = false := by
    simp [Scalar.isNaN]
  have length_le := List.length_filter_le (fun v => !Scalar.isNaN v) column
  generalize column.filter (fun v => !Scalar.isNaN v) = observed at numbers length_le
  cases observed with
  | nil =>
      refine iff_of_false Bool.false_ne_true ?_
      rintro ⟨before, v, after, observed_eq, -⟩
      cases before <;> cases observed_eq
  | cons v observed =>
      change (Scalar.sum (v :: observed) / Float.ofNat (v :: observed).length).isNaN = true ↔ _
      rw [Double.isNaN_div_ofNat (List.length_pos_of_ne_nil (List.cons_ne_nil v observed))
        (Nat.lt_of_le_of_lt length_le short)]
      exact Double.isNaN_foldl_add_iff rfl numbers

namespace Matrix

section Entries

variable {α : Type} {m : Matrix α} {i j : Nat} {v : α}

theorem get?_eq_some_iff :
    m.get? i j = some v ↔ i < m.rows ∧ j < m.cols ∧ m.entries[i * m.cols + j]? = some v := by
  rw [get?]
  split <;> simp_all

theorem exists_get?_iff : (∃ v, m.get? i j = some v) ↔ i < m.rows ∧ j < m.cols := by
  constructor
  · rintro ⟨v, entry⟩
    exact ⟨(get?_eq_some_iff.mp entry).1, (get?_eq_some_iff.mp entry).2.1⟩
  · rintro ⟨above, inside⟩
    have stored : i * m.cols + j < m.entries.size :=
      Nat.lt_of_lt_of_le (Nat.add_lt_add_left inside _) (m.row_end_le above)
    exact ⟨_, get?_eq_some_iff.mpr ⟨above, inside, Array.getElem?_eq_getElem stored⟩⟩

theorem get?_mapColumns (f : Nat → α → α) (m : Matrix α) (i j : Nat) :
    (m.mapColumns f).get? i j = (m.get? i j).map (f j) := by
  rw [get?, get?]
  change (if (i < m.rows && j < m.cols) = true then
    (m.entries.mapIdx fun k v => f (k % m.cols) v)[i * m.cols + j]? else none) = _
  split
  · rename_i inside
    simp only [Bool.and_eq_true, decide_eq_true_eq] at inside
    rw [Array.getElem?_mapIdx, Nat.mul_comm, Nat.mul_add_mod, Nat.mod_eq_of_lt inside.2]
  · rfl

theorem mapColumns_mapColumns (f g : Nat → α → α) (m : Matrix α) :
    (m.mapColumns f).mapColumns g = m.mapColumns fun j v => g j (f j v) := by
  simp only [mapColumns, Array.mapIdx_mapIdx]
  rfl

theorem exists_get? {k : Nat} (found : m.entries[k]? = some v) : ∃ i j, m.get? i j = some v := by
  obtain ⟨inside, -⟩ := Array.getElem?_eq_some_iff.mp found
  rw [m.size_entries] at inside
  have wide : 0 < m.cols := Nat.pos_of_mul_pos_left (Nat.zero_lt_of_lt inside)
  refine ⟨k / m.cols, k % m.cols, get?_eq_some_iff.mpr ⟨Nat.div_lt_of_lt_mul ?_,
    Nat.mod_lt k wide, ?_⟩⟩
  · rwa [Nat.mul_comm]
  · rwa [Nat.div_add_mod']

theorem hasMissing_iff {m : Matrix Float} :
    m.hasMissing = true ↔ ∃ i j v, m.get? i j = some v ∧ v.isNaN = true := by
  rw [hasMissing, Array.any_eq_true']
  constructor
  · rintro ⟨v, member, undefined⟩
    obtain ⟨k, found⟩ := Array.getElem?_of_mem member
    obtain ⟨i, j, entry⟩ := exists_get? found
    exact ⟨i, j, v, entry, undefined⟩
  · rintro ⟨i, j, v, entry, undefined⟩
    exact ⟨v, Array.mem_of_getElem? (get?_eq_some_iff.mp entry).2.2, undefined⟩

end Entries

/-- A matrix filled with the means of the columns of another one: the shape and the observed values
are kept. -/
structure IsFilled (x z f : Matrix Float) : Prop where
  rows_eq : f.rows = z.rows
  cols_eq : f.cols = z.cols
  observed : ∀ i j v, z.get? i j = some v → v.isNaN = false → f.get? i j = some v
  missing : ∀ i j v, z.get? i j = some v → v.isNaN = true →
    f.get? i j = some (observedMean (x.column j))

variable {x z f : Matrix Float}

theorem length_column_le (x : Matrix Float) (j : Nat) : (x.column j).length ≤ x.rows :=
  (List.length_filterMap_le _ _).trans_eq List.length_range

theorem length_columnMeans (x : Matrix Float) : x.columnMeans.length = x.cols := by
  simp [columnMeans, columnList]

theorem getD_columnMeans {j : Nat} (inside : j < x.cols) (v : Float) :
    x.columnMeans.getD j v = observedMean (x.column j) := by
  simp [columnMeans, columnList, inside]

/-- The entry that takes the place of an entry of a column. -/
def patch (means : List Float) (j : Nat) (v : Float) : Float :=
  if Scalar.isNaN v then means.getD j v else v

theorem patch_patch (means : List Float) (j : Nat) (v : Float) :
    patch means j (patch means j v) = patch means j v := by
  cases undefined : Scalar.isNaN v with
  | false => simp [patch, undefined]
  | true =>
      have patched : patch means j v = means.getD j v := if_pos undefined
      have again : means.getD j (means.getD j v) = means.getD j v := by
        rcases Nat.lt_or_ge j means.length with inside | outside
        · rw [List.getD_eq_getElem _ _ inside, List.getD_eq_getElem _ _ inside]
        · rw [List.getD_eq_default _ _ outside, List.getD_eq_default _ _ outside]
      rw [patched, patch, again, ite_self]

theorem fill_eq (width : z.cols = x.cols) :
    fill x.columnMeans z = .ok (z.mapColumns (patch x.columnMeans)) := by
  rw [fill, length_columnMeans, if_neg (not_not.mpr width)]
  rfl

theorem isFilled_patch (width : z.cols = x.cols) :
    IsFilled x z (z.mapColumns (patch x.columnMeans)) where
  rows_eq := rfl
  cols_eq := rfl
  observed i j v entry number := by
    have kept : patch x.columnMeans j v = v := if_neg (Bool.eq_false_iff.mp number)
    rw [get?_mapColumns, entry, Option.map_some, kept]
  missing i j v entry undefined := by
    have inside : j < x.cols := width ▸ (get?_eq_some_iff.mp entry).2.1
    have patched : patch x.columnMeans j v = observedMean (x.column j) :=
      (if_pos undefined).trans (getD_columnMeans inside v)
    rw [get?_mapColumns, entry, Option.map_some, patched]

/-- What stays missing are the missing values of columns without a mean. -/
theorem IsFilled.hasMissing_iff (filled : IsFilled x z f) (short : x.rows < UInt64.size) :
    f.hasMissing = true ↔ ∃ i j v, z.get? i j = some v ∧ v.isNaN = true ∧ Clashes (x.column j) := by
  have clashes_iff (j : Nat) : (observedMean (x.column j)).isNaN = true ↔ Clashes (x.column j) :=
    isNaN_observedMean_iff (Nat.lt_of_le_of_lt (length_column_le x j) short)
  rw [Matrix.hasMissing_iff]
  constructor
  · rintro ⟨i, j, w, entry, w_undefined⟩
    have inside := exists_get?_iff.mp ⟨w, entry⟩
    rw [filled.rows_eq, filled.cols_eq] at inside
    obtain ⟨v, before⟩ := exists_get?_iff.mpr inside
    -- An observed value would have been kept.
    have undefined : v.isNaN = true := by
      by_contra number
      rw [filled.observed i j v before (Bool.eq_false_iff.mpr number)] at entry
      cases entry
      exact number w_undefined
    rw [filled.missing i j v before undefined] at entry
    cases entry
    exact ⟨i, j, v, before, undefined, (clashes_iff j).mp w_undefined⟩
  · rintro ⟨i, j, v, before, undefined, clashes⟩
    exact ⟨i, j, _, filled.missing i j v before undefined, (clashes_iff j).mpr clashes⟩

end Matrix

namespace Imputer

/-- The means of the columns fill every matrix of their width, the one they are learned from
included, and refuse every other one.  Shape and observed values are kept, a second filling changes
nothing, and a missing value stays missing exactly in a column in which infinities clash. -/
theorem columnMean_fills (x : Matrix Float) (short : x.rows < UInt64.size) :
    ∃ imputation filled, columnMean.fit x = .ok (imputation, filled) ∧
      imputation.apply x = .ok filled ∧
      (∀ z : Matrix Float, z.cols ≠ x.cols →
        imputation.apply z = .error (.data (.imputerWidth x.cols z.cols))) ∧
      ∀ z : Matrix Float, z.cols = x.cols → ∃ f, imputation.apply z = .ok f ∧ x.IsFilled z f ∧
        imputation.apply f = .ok f ∧
        (f.hasMissing = true ↔
          ∃ i j v, z.get? i j = some v ∧ v.isNaN = true ∧ Clashes (x.column j)) := by
  have fitted : columnMean.fit x = .ok (⟨Matrix.fill x.columnMeans⟩,
      x.mapColumns (Matrix.patch x.columnMeans)) := by
    change (Matrix.fill x.columnMeans x >>= fun filled => _) = _
    rw [Matrix.fill_eq rfl]
    rfl
  refine ⟨_, _, fitted, Matrix.fill_eq rfl, fun z width => ?_, fun z width => ?_⟩
  · change Matrix.fill x.columnMeans z = _
    rw [Matrix.fill, Matrix.length_columnMeans, if_pos width]
  · have filled := Matrix.isFilled_patch width
    refine ⟨_, Matrix.fill_eq width, filled, ?_, filled.hasMissing_iff short⟩
    refine (Matrix.fill_eq (z := z.mapColumns (Matrix.patch x.columnMeans)) width).trans ?_
    rw [Matrix.mapColumns_mapColumns]
    exact congrArg (fun patched => Except.ok (z.mapColumns patched))
      (funext fun j => funext fun v => Matrix.patch_patch x.columnMeans j v)

/-- A column with a missing entry between two others. -/
def brokenColumn : Matrix Float := Matrix.ofColumn [1, 0 / 0, 3]

/-- Later features of the same width. -/
def laterColumn : Matrix Float := Matrix.ofColumn [0 / 0, Scalar.posInf]

theorem brokenColumn_filled :
    brokenColumn.rows < UInt64.size ∧ ∃ imputation filled f,
      columnMean.fit brokenColumn = .ok (imputation, filled) ∧ filled.entries = #[1, 2, 3] ∧
      imputation.apply laterColumn = .ok f ∧ f.entries = #[2, Scalar.posInf] ∧
      imputation.apply f = .ok f := by
  obtain ⟨imputation, filled, fitted, -, -, fills⟩ := columnMean_fills brokenColumn (by decide)
  obtain ⟨f, applied, -, again, -⟩ := fills laterColumn rfl
  have filled_eq : filled.entries = #[1, 2, 3] := by
    cases fitted
    decide +kernel
  have f_eq : f.entries = #[2, Scalar.posInf] := by
    cases fitted
    cases applied
    decide +kernel
  exact ⟨by decide, imputation, filled, f, fitted, filled_eq, applied, f_eq, again⟩

/-- Opposite infinities have no mean, so that nothing fills the missing value beside them. -/
theorem infinities_not_filled :
    ∃ imputation filled,
      columnMean.fit (Matrix.ofColumn [Scalar.posInf, Scalar.negInf, 0 / 0]) =
        .ok (imputation, filled) ∧ filled.hasMissing = true :=
  ⟨_, _, rfl, by decide +kernel⟩

end Imputer

end FormulaFit
