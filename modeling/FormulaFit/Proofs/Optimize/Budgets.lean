import FormulaFit.Optimize.Budget
import FormulaFit.Proofs.Program.Slots
import FormulaFit.Proofs.Random.Sampling
import FormulaFit.Random.ChaCha
import Mathlib

/-!
# Conservation of budgets

Beside every operation on budgets stands one in checked arithmetic, which gives up where a word
would wrap around, a division has no divisor, an index lies outside or a sample asks for more
indices than there are.  None of these ever gives up, and the allotments always sum to the total:
the shares rounded down fall short of it by less than the number of candidates, and what settling a
candidate takes from it is what those after it gain.
-/

namespace FormulaFit
namespace Budget

variable {σ : Type} [WordSource σ]

/-- The sum of words as a number. -/
def exactSum (slots : List UInt64) : Nat := (slots.map UInt64.toNat).sum

@[simp] theorem exactSum_cons (a : UInt64) (slots : List UInt64) :
    exactSum (a :: slots) = a.toNat + exactSum slots := rfl

@[simp] theorem exactSum_append (front back : List UInt64) :
    exactSum (front ++ back) = exactSum front + exactSum back := by
  simp [exactSum]

theorem toNat_add_of_lt {a b : UInt64} (fits : a.toNat + b.toNat < UInt64.size) :
    (a + b).toNat = a.toNat + b.toNat := by
  rw [UInt64.toNat_add]
  exact Nat.mod_eq_of_lt fits

theorem toNat_ofNat_of_lt {n : Nat} (fits : n < UInt64.size) : (UInt64.ofNat n).toNat = n :=
  UInt64.toNat_ofNat_of_lt' fits

theorem toNat_sum {slots : List UInt64} (fits : exactSum slots < UInt64.size) :
    slots.sum.toNat = exactSum slots := by
  induction slots with
  | nil => rfl
  | cons a slots ih =>
      rw [exactSum_cons] at fits ⊢
      have later := ih (by omega)
      rw [List.sum_cons, toNat_add_of_lt (by omega), later]

/-! ### Checked arithmetic -/

/-- The sum of two words, if it is a word. -/
def add? (a b : UInt64) : Option UInt64 :=
  if a.toNat + b.toNat < UInt64.size then some (a + b) else none

/-- The difference of two words, if it is not negative. -/
def sub? (a b : UInt64) : Option UInt64 := if b ≤ a then some (a - b) else none

/-- A number of 128 bits. -/
def wide? (n : Nat) : Option Nat := if n < 2 ^ 128 then some n else none

/-- A number as a word, if it is one. -/
def narrow? (n : Nat) : Option UInt64 :=
  if n < UInt64.size then some (UInt64.ofNat n) else none

/-- The sum of words, if all of its partial sums are words. -/
def sum? : List UInt64 → Option UInt64
  | [] => some 0
  | a :: slots => do add? a (← sum? slots)

/-- Gives one more iteration to the entry at an index, if there is one. -/
def increment? (slots : List UInt64) (i : Nat) : Option (List UInt64) := do
  return slots.set i (← add? (← slots[i]?) 1)

/-- Gives one more iteration to each of some distinct entries, if there are so many. -/
def spread? (slots : List UInt64) (remainder : Nat) (source : σ) : Option (List UInt64 × σ) := do
  guard (remainder ≤ slots.length)
  let (chosen, source) := Random.sample slots.length remainder source
  return (← chosen.foldlM increment? slots, source)

/-- Shares of a total in proportion to weights, rounded down.  Products and the sum of the weights
have 128 bits. -/
def floors? (total : UInt64) (weights : List Nat) : Option (List UInt64) := do
  let sum ← wide? weights.sum
  guard (sum ≠ 0)
  weights.mapM fun w => do narrow? ((← wide? (total.toNat * w)) / sum)

/-- Shares of a total in proportion to constant counts. -/
def partition? (total : UInt64) (counts : List Nat) (source : σ) : Option (List UInt64 × σ) :=
  if counts.isEmpty then some ([], source)
  else do
    let shares ← floors? total (weights counts)
    spread? shares (← sub? total (← sum? shares)).toNat source

/-- Records how many iterations a candidate used. -/
def Ledger.settle? (ledger : Ledger) (i : Nat) (used : UInt64) (source : σ) :
    Option (Ledger × σ) :=
  match ledger.allotted.drop i with
  | [] | [_] => some (ledger, source)
  | allotment :: later => do
    let used := if used < allotment then used else allotment
    let unused := (← sub? allotment used).toNat
    let share ← narrow? (unused / later.length)
    let evenly ← later.mapM fun a => add? a share
    let (later, source) ← spread? evenly (unused % later.length) source
    return (⟨ledger.total, ledger.allotted.take i ++ used :: later⟩, source)

/-- Candidates that are settled one after the other, with the iterations they are said to use. -/
def Ledger.settleAll : List (Nat × UInt64) → Ledger → σ → Ledger × σ
  | [], ledger, source => (ledger, source)
  | (i, used) :: later, ledger, source =>
    let (ledger, source) := ledger.settle i used source
    settleAll later ledger source

/-- Candidates that are settled one after the other, in checked arithmetic. -/
def Ledger.settleAll? : List (Nat × UInt64) → Ledger → σ → Option (Ledger × σ)
  | [], ledger, source => some (ledger, source)
  | (i, used) :: later, ledger, source => do
    let (ledger, source) ← ledger.settle? i used source
    settleAll? later ledger source

theorem add?_eq_some {a b : UInt64} (fits : a.toNat + b.toNat < UInt64.size) :
    add? a b = some (a + b) :=
  if_pos fits

theorem sub?_eq_some {a b : UInt64} (le : b ≤ a) : sub? a b = some (a - b) := if_pos le

theorem narrow?_eq_some {n : Nat} (fits : n < UInt64.size) : narrow? n = some (UInt64.ofNat n) :=
  if_pos fits

theorem wide?_eq_some {n : Nat} (fits : n < 2 ^ 128) : wide? n = some n := if_pos fits

theorem sum?_eq_some {slots : List UInt64} (fits : exactSum slots < UInt64.size) :
    sum? slots = some slots.sum := by
  induction slots with
  | nil => rfl
  | cons a slots ih =>
      rw [exactSum_cons] at fits
      have later_fits : exactSum slots < UInt64.size := by omega
      rw [sum?, ih later_fits, List.sum_cons]
      exact add?_eq_some (by rwa [toNat_sum later_fits])

/-! ### Gains -/

/-- Words that gain some iterations in all, and none of which loses any. -/
structure Gains (before after : List UInt64) (amount : Nat) : Prop where
  le : List.Forall₂ (· ≤ ·) before after
  sum_eq : exactSum after = exactSum before + amount

theorem forall₂_le_trans {first second third : List UInt64} (le : List.Forall₂ (· ≤ ·) first second)
    (le' : List.Forall₂ (· ≤ ·) second third) : List.Forall₂ (· ≤ ·) first third := by
  induction le generalizing third with
  | nil => exact le'
  | cons head _ ih =>
      cases le' with
      | cons head' tail' => exact .cons (UInt64.le_trans head head') (ih tail')

theorem Gains.refl (slots : List UInt64) : Gains slots slots 0 where
  le := List.forall₂_same.mpr fun _ _ => UInt64.le_refl _
  sum_eq := rfl

theorem Gains.trans {first second third : List UInt64} {m n : Nat} (gains : Gains first second m)
    (more : Gains second third n) : Gains first third (m + n) where
  le := forall₂_le_trans gains.le more.le
  sum_eq := by rw [more.sum_eq, gains.sum_eq, Nat.add_assoc]

theorem Gains.length_eq {before after : List UInt64} {amount : Nat}
    (gains : Gains before after amount) : after.length = before.length :=
  gains.le.length_eq.symm

theorem Gains.cons {a b : UInt64} {before after : List UInt64} {m n : Nat}
    (head : b.toNat = a.toNat + m) (tail : Gains before after n) :
    Gains (a :: before) (b :: after) (m + n) where
  le := .cons (UInt64.le_iff_toNat_le.mpr (by omega)) tail.le
  sum_eq := by rw [exactSum_cons, exactSum_cons, head, tail.sum_eq]; omega

theorem gains_modify {slots : List UInt64} {i : Nat} (inside : i < slots.length)
    (fits : exactSum slots + 1 < UInt64.size) : Gains slots (slots.modify i (· + 1)) 1 := by
  induction slots generalizing i with
  | nil => cases inside
  | cons a slots ih =>
      rw [exactSum_cons] at fits
      cases i with
      | zero =>
          have raised : (a + 1).toNat = a.toNat + 1 := toNat_add_of_lt (by simp; omega)
          exact .cons raised (.refl slots)
      | succ i => simpa using Gains.cons rfl (ih (Nat.lt_of_succ_lt_succ inside) (by omega))

theorem toNat_getElem_le_exactSum {slots : List UInt64} {i : Nat} (inside : i < slots.length) :
    slots[i].toNat ≤ exactSum slots :=
  List.le_sum_of_mem (List.mem_map_of_mem (List.getElem_mem inside))

theorem increment?_eq_some {slots : List UInt64} {i : Nat} (inside : i < slots.length)
    (fits : exactSum slots + 1 < UInt64.size) :
    increment? slots i = some (slots.modify i (· + 1)) := by
  have entry_le := toNat_getElem_le_exactSum inside
  have added : add? slots[i] 1 = some (slots[i] + 1) := add?_eq_some (by simp; omega)
  rw [increment?, List.getElem?_eq_getElem inside, List.modify_eq_set_getElem?,
    List.getElem?_eq_getElem inside]
  simp [added]

theorem gains_increments {chosen : List Nat} {slots : List UInt64}
    (inside : ∀ i ∈ chosen, i < slots.length)
    (fits : exactSum slots + chosen.length < UInt64.size) :
    chosen.foldlM increment? slots =
        some (chosen.foldl (fun slots i => slots.modify i (· + 1)) slots) ∧
      Gains slots (chosen.foldl (fun slots i => slots.modify i (· + 1)) slots) chosen.length := by
  induction chosen generalizing slots with
  | nil => exact ⟨rfl, .refl slots⟩
  | cons i chosen ih =>
      obtain ⟨i_inside, later_inside⟩ := List.forall_mem_cons.mp inside
      rw [List.length_cons] at fits ⊢
      have gains := gains_modify i_inside (by omega)
      have modified_inside : ∀ j ∈ chosen, j < (slots.modify i (· + 1)).length := by
        simpa only [List.length_modify] using later_inside
      obtain ⟨defined, more⟩ := ih modified_inside (by rw [gains.sum_eq]; omega)
      rw [List.foldlM_cons, increment?_eq_some i_inside (by omega), List.foldl_cons]
      exact ⟨defined, by simpa only [Nat.add_comm] using gains.trans more⟩

/-- Whichever entries are drawn gain one iteration each. -/
theorem gains_of_draws {slots : List UInt64} {remainder : Nat} {chosen : List Nat}
    (draws : Random.Draws slots.length remainder chosen)
    (fits : exactSum slots + remainder < UInt64.size) :
    chosen.foldlM increment? slots =
        some (chosen.foldl (fun slots i => slots.modify i (· + 1)) slots) ∧
      Gains slots (chosen.foldl (fun slots i => slots.modify i (· + 1)) slots) remainder := by
  have gained := gains_increments draws.lt_length (by rwa [draws.length_eq])
  rwa [draws.length_eq] at gained

theorem gains_spread {slots : List UInt64} {remainder : Nat} (enough : remainder ≤ slots.length)
    (fits : exactSum slots + remainder < UInt64.size) (source : σ) :
    spread? slots remainder source = some (spread slots remainder source) ∧
      Gains slots (spread slots remainder source).1 remainder := by
  obtain ⟨defined, gains⟩ := gains_of_draws (Random.draws_sample enough source) fits
  refine ⟨?_, gains⟩
  rw [spread?, guard, if_pos enough, Option.pure_def, Option.bind_eq_bind, Option.bind_some]
  dsimp only
  rw [defined]
  rfl

theorem gains_map_add (slots : List UInt64) (share : UInt64)
    (fits : exactSum slots + slots.length * share.toNat < UInt64.size) :
    slots.mapM (fun a => add? a share) = some (slots.map (· + share)) ∧
      Gains slots (slots.map (· + share)) (slots.length * share.toNat) := by
  induction slots with
  | nil => exact ⟨rfl, by simpa using Gains.refl []⟩
  | cons a slots ih =>
      rw [exactSum_cons, List.length_cons, Nat.succ_mul] at fits
      obtain ⟨defined, gains⟩ := ih (by omega)
      have head_fits : a.toNat + share.toNat < UInt64.size := by omega
      refine ⟨?_, ?_⟩
      · rw [List.mapM_cons, defined, add?_eq_some head_fits]
        rfl
      · rw [List.length_cons, Nat.succ_mul, Nat.add_comm]
        exact .cons (toNat_add_of_lt head_fits) gains

/-! ### Shares -/

theorem length_weights (counts : List Nat) : (weights counts).length = counts.length := by
  rw [weights]
  split <;> simp

theorem sum_weights_pos {counts : List Nat} (nonempty : counts ≠ []) :
    0 < (weights counts).sum := by
  rw [weights]
  split
  · simpa [List.map_const'] using List.length_pos_iff.mpr nonempty
  · rename_i some_positive
    obtain ⟨c, member, positive⟩ : ∃ c ∈ counts, c ≠ 0 := by simpa using some_positive
    exact Nat.lt_of_lt_of_le (Nat.pos_of_ne_zero positive) (List.le_sum_of_mem member)

theorem weights_lt {counts : List Nat} (words : ∀ c ∈ counts, c < UInt64.size) :
    ∀ w ∈ weights counts, w < UInt64.size := by
  rw [weights]
  split
  · intro w member
    obtain ⟨-, -, rfl⟩ := List.mem_map.mp member
    decide
  · exact words

theorem sum_le_length_mul {bound : Nat} {items : List Nat} (le : ∀ n ∈ items, n ≤ bound) :
    items.sum ≤ items.length * bound := by
  simpa using List.sum_le_card_nsmul items bound le

/-- The sum of the weights of a list in memory has 128 bits. -/
theorem sum_weights_lt {counts : List Nat} (words : ∀ c ∈ counts, c < UInt64.size)
    (countable : counts.length < UInt64.size) : (weights counts).sum < 2 ^ 128 := by
  have bounded := sum_le_length_mul fun w member => Nat.le_pred_of_lt (weights_lt words w member)
  rw [length_weights] at bounded
  calc
    (weights counts).sum ≤ counts.length * (UInt64.size - 1) := bounded
    _ ≤ (UInt64.size - 1) * (UInt64.size - 1) :=
      Nat.mul_le_mul_right _ (Nat.le_pred_of_lt countable)
    _ < 2 ^ 128 := by decide

theorem sum_div_mul_le (total divisor : Nat) (weights : List Nat) :
    (weights.map fun w => total * w / divisor).sum * divisor ≤ total * weights.sum := by
  induction weights with
  | nil => simp
  | cons w weights ih =>
      have head := Nat.div_mul_le_self (total * w) divisor
      rw [List.map_cons, List.sum_cons, List.sum_cons, Nat.add_mul, Nat.mul_add]
      omega

/-- Rounding down loses less than one for each quotient. -/
theorem mul_sum_add_length_le (total : Nat) {divisor : Nat} (pos : 0 < divisor)
    (weights : List Nat) : total * weights.sum + weights.length ≤
      ((weights.map fun w => total * w / divisor).sum + weights.length) * divisor := by
  induction weights with
  | nil => simp
  | cons w weights ih =>
      have head : total * w < total * w / divisor * divisor + divisor :=
        Nat.lt_div_mul_add pos
      rw [List.map_cons, List.sum_cons, List.sum_cons, List.length_cons, Nat.mul_add]
      rw [Nat.add_mul] at ih ⊢
      rw [Nat.add_mul, Nat.add_mul, Nat.one_mul]
      omega

theorem share_le {total w : Nat} {weights : List Nat} (member : w ∈ weights) :
    total * w / weights.sum ≤ total := by
  refine Nat.div_le_of_le_mul ?_
  rw [Nat.mul_comm weights.sum]
  exact Nat.mul_le_mul_left total (List.le_sum_of_mem member)

theorem exactSum_floors (total : UInt64) (weights : List Nat) :
    exactSum (floors total weights) =
      (weights.map fun w => total.toNat * w / weights.sum).sum := by
  rw [exactSum, floors, List.map_map]
  refine congrArg List.sum (List.map_congr_left fun w member => ?_)
  exact toNat_ofNat_of_lt (Nat.lt_of_le_of_lt (share_le member) total.toNat_lt)

theorem exactSum_floors_le (total : UInt64) {weights : List Nat} (pos : 0 < weights.sum) :
    exactSum (floors total weights) ≤ total.toNat := by
  have scaled := sum_div_mul_le total.toNat weights.sum weights
  rw [exactSum_floors]
  exact Nat.le_of_mul_le_mul_right scaled pos

theorem lt_exactSum_floors_add_length (total : UInt64) {weights : List Nat}
    (pos : 0 < weights.sum) :
    total.toNat < exactSum (floors total weights) + weights.length := by
  have nonempty : 0 < weights.length := by
    refine List.length_pos_iff.mpr fun empty => ?_
    rw [empty] at pos
    cases pos
  have scaled := mul_sum_add_length_le total.toNat pos weights
  rw [exactSum_floors]
  refine Nat.lt_of_mul_lt_mul_right (a := weights.sum) ?_
  omega

theorem floors?_eq_some {total : UInt64} {weights : List Nat} (pos : 0 < weights.sum)
    (wide : weights.sum < 2 ^ 128) (words : ∀ w ∈ weights, w < UInt64.size) :
    floors? total weights = some (floors total weights) := by
  have products (w : Nat) (member : w ∈ weights) : total.toNat * w < 2 ^ 128 :=
    Nat.lt_of_lt_of_eq (Nat.mul_lt_mul'' total.toNat_lt (words w member)) (by decide)
  have shares (w : Nat) (member : w ∈ weights) :
      (do narrow? ((← wide? (total.toNat * w)) / weights.sum)) =
        some (UInt64.ofNat (total.toNat * w / weights.sum)) := by
    rw [wide?_eq_some (products w member)]
    exact narrow?_eq_some (Nat.lt_of_le_of_lt (share_le member) total.toNat_lt)
  rw [floors?, wide?_eq_some wide, Option.bind_eq_bind, Option.bind_some, guard,
    if_pos (Nat.ne_of_gt pos)]
  exact mapM_eq_some_map shares

/-- What is left of the total behind the shares rounded down. -/
theorem remainder_floors (total : UInt64) {weights : List Nat} (pos : 0 < weights.sum) :
    sub? total (floors total weights).sum = some (total - (floors total weights).sum) ∧
      exactSum (floors total weights) + (total - (floors total weights).sum).toNat =
        total.toNat ∧
      (total - (floors total weights).sum).toNat ≤ (floors total weights).length := by
  have sum_le := exactSum_floors_le total pos
  have short := lt_exactSum_floors_add_length total pos
  have sum_eq : (floors total weights).sum.toNat = exactSum (floors total weights) :=
    toNat_sum (Nat.lt_of_le_of_lt sum_le total.toNat_lt)
  have le : (floors total weights).sum ≤ total := UInt64.le_iff_toNat_le.mpr (by omega)
  have length_eq : (floors total weights).length = weights.length := List.length_map _
  rw [UInt64.toNat_sub_of_le _ _ le, sum_eq, length_eq]
  exact ⟨sub?_eq_some le, by omega, by omega⟩

/-- The candidates' shares are what was rounded down and one for some of them. -/
theorem gains_partition (total : UInt64) {counts : List Nat} (nonempty : counts ≠ [])
    (source : σ) :
    ∃ remainder, remainder ≤ counts.length ∧
      exactSum (floors total (weights counts)) + remainder = total.toNat ∧
      Gains (floors total (weights counts)) (partition total counts source).1 remainder := by
  obtain ⟨-, sum_eq, enough⟩ := remainder_floors total (sum_weights_pos nonempty)
  have length_eq : (floors total (weights counts)).length = counts.length :=
    (List.length_map _).trans (length_weights counts)
  have occupied : counts.isEmpty = false := by simpa using nonempty
  refine ⟨_, length_eq ▸ enough, sum_eq, ?_⟩
  rw [partition, occupied]
  exact (gains_spread enough (by rw [sum_eq]; exact total.toNat_lt) source).2

theorem exactSum_partition (total : UInt64) {counts : List Nat} (nonempty : counts ≠ [])
    (source : σ) : exactSum (partition total counts source).1 = total.toNat := by
  obtain ⟨remainder, -, sum_eq, gains⟩ := gains_partition total nonempty source
  rw [gains.sum_eq, sum_eq]

theorem partition?_eq_some (total : UInt64) {counts : List Nat} (nonempty : counts ≠ [])
    (words : ∀ c ∈ counts, c < UInt64.size) (countable : counts.length < UInt64.size)
    (source : σ) : partition? total counts source = some (partition total counts source) := by
  have pos := sum_weights_pos nonempty
  obtain ⟨defined, sum_eq, enough⟩ := remainder_floors total pos
  have fits : exactSum (floors total (weights counts)) < UInt64.size :=
    Nat.lt_of_le_of_lt (exactSum_floors_le total pos) total.toNat_lt
  have occupied : counts.isEmpty = false := by simpa using nonempty
  rw [partition?, partition, occupied, floors?_eq_some pos (sum_weights_lt words countable)
    (weights_lt words)]
  simp only [Bool.false_eq_true, if_false, Option.bind_eq_bind, Option.bind_some,
    sum?_eq_some fits, defined]
  exact (gains_spread enough (by rw [sum_eq]; exact total.toNat_lt) source).1

/-! ### Settlement -/

namespace Ledger

variable {ledger : Ledger} {i : Nat} {used : UInt64}

/-- What settling a candidate does to the allotments.  Without a candidate behind it nothing
changes; else its allotment shrinks to what it used, and those behind it gain the difference. -/
inductive Settles (ledger : Ledger) (i : Nat) (used : UInt64) : Ledger → Prop
  | unchanged (last : ledger.allotted.length ≤ i + 1) : Settles ledger i used ledger
  | moved {allotment spent : UInt64} {later raised : List UInt64}
      (drop_eq : ledger.allotted.drop i = allotment :: later)
      (spent_eq : spent.toNat = min used.toNat allotment.toNat)
      (gains : Gains later raised (allotment.toNat - spent.toNat)) :
      Settles ledger i used ⟨ledger.total, ledger.allotted.take i ++ spent :: raised⟩

theorem toNat_clamped (used allotment : UInt64) :
    (if used < allotment then used else allotment).toNat = min used.toNat allotment.toNat := by
  split <;> rename_i used_lt <;> rw [UInt64.lt_iff_toNat_lt] at used_lt <;> omega

theorem exactSum_drop (slots : List UInt64) (i : Nat) :
    exactSum (slots.take i) + exactSum (slots.drop i) = exactSum slots := by
  rw [← exactSum_append, List.take_append_drop]

/-- Candidates share a number of iterations: each gets as many, and distinct ones the remainder. -/
theorem gains_share {slots : List UInt64} (nonempty : slots ≠ []) {unused : Nat}
    (fits : exactSum slots + unused < UInt64.size) (source : σ) :
    (do
      let share ← narrow? (unused / slots.length)
      let evenly ← slots.mapM fun a => add? a share
      spread? evenly (unused % slots.length) source) = some (spread
        (slots.map fun a => a + UInt64.ofNat (unused / slots.length))
        (unused % slots.length) source) ∧
      Gains slots (spread (slots.map fun a => a + UInt64.ofNat (unused / slots.length))
        (unused % slots.length) source).1 unused := by
  have pos : 0 < slots.length := List.length_pos_iff.mpr nonempty
  have share_le : unused / slots.length ≤ unused := Nat.div_le_self _ _
  have share_fits : unused / slots.length < UInt64.size := by omega
  have whole := Nat.div_add_mod unused slots.length
  have share_eq := toNat_ofNat_of_lt share_fits
  obtain ⟨defined, even⟩ := gains_map_add slots (UInt64.ofNat (unused / slots.length))
    (by rw [share_eq]; omega)
  have enough : unused % slots.length ≤
      (slots.map fun a => a + UInt64.ofNat (unused / slots.length)).length := by
    rw [List.length_map]
    exact Nat.le_of_lt (Nat.mod_lt _ pos)
  obtain ⟨defined', rest⟩ := gains_spread enough (by rw [even.sum_eq, share_eq]; omega) source
  refine ⟨?_, ?_⟩
  · simp only [narrow?_eq_some share_fits, Option.bind_eq_bind, Option.bind_some, defined, defined']
  · have both := even.trans rest
    rwa [share_eq, whole] at both

theorem settles_settle (fits : exactSum ledger.allotted < UInt64.size) (i : Nat) (used : UInt64)
    (source : σ) :
    ledger.settle? i used source = some (ledger.settle i used source) ∧
      Settles ledger i used (ledger.settle i used source).1 := by
  have parts := exactSum_drop ledger.allotted i
  have length_eq : (ledger.allotted.drop i).length = ledger.allotted.length - i := List.length_drop
  rw [settle?, settle]
  match drop_eq : ledger.allotted.drop i with
  | [] =>
    rw [drop_eq, List.length_nil] at length_eq
    exact ⟨rfl, .unchanged (by omega)⟩
  | [_] =>
    rw [drop_eq, List.length_singleton] at length_eq
    exact ⟨rfl, .unchanged (by omega)⟩
  | allotment :: a :: later =>
    have spent_eq := toNat_clamped used allotment
    dsimp only
    generalize (if used < allotment then used else allotment) = spent at spent_eq
    have le : spent ≤ allotment := UInt64.le_iff_toNat_le.mpr (by omega)
    rw [drop_eq, exactSum_cons] at parts
    have unused_eq := UInt64.toNat_sub_of_le _ _ le
    have later_fits : exactSum (a :: later) + (allotment - spent).toNat < UInt64.size := by omega
    obtain ⟨defined, gains⟩ := gains_share (List.cons_ne_nil a later) later_fits source
    refine ⟨?_, .moved drop_eq spent_eq (unused_eq ▸ gains)⟩
    rw [sub?_eq_some le, Option.bind_eq_bind, Option.bind_some]
    simp only [← Option.bind_assoc, Option.bind_eq_bind] at defined ⊢
    rw [defined]
    rfl

/-- Settling moves iterations and neither makes nor loses any. -/
theorem Settles.conserves {after : Ledger} (settles : Settles ledger i used after) :
    after.total = ledger.total ∧ exactSum after.allotted = exactSum ledger.allotted := by
  cases settles with
  | unchanged => exact ⟨rfl, rfl⟩
  | moved drop_eq spent_eq gains =>
      have parts := exactSum_drop ledger.allotted i
      rw [drop_eq, exactSum_cons] at parts
      refine ⟨rfl, ?_⟩
      rw [exactSum_append, exactSum_cons, gains.sum_eq]
      omega

theorem settleAll_conserves (settlements : List (Nat × UInt64))
    (fits : exactSum ledger.allotted < UInt64.size) (source : σ) :
    settleAll? settlements ledger source = some (settleAll settlements ledger source) ∧
      (settleAll settlements ledger source).1.total = ledger.total ∧
      exactSum (settleAll settlements ledger source).1.allotted = exactSum ledger.allotted := by
  induction settlements generalizing ledger source with
  | nil => exact ⟨rfl, rfl, rfl⟩
  | cons settlement settlements ih =>
      obtain ⟨i, used⟩ := settlement
      obtain ⟨defined, settles⟩ := settles_settle fits i used source
      obtain ⟨total_eq, sum_eq⟩ := settles.conserves
      obtain ⟨defined', total_eq', sum_eq'⟩ := ih (by rwa [sum_eq])
        (ledger.settle i used source).2
      rw [settleAll?, defined, settleAll]
      exact ⟨defined', total_eq'.trans total_eq, sum_eq'.trans sum_eq⟩

/-- The allotments of a ledger sum to its total. -/
structure Balanced (total : UInt64) (ledger : Ledger) : Prop where
  total_eq : ledger.total = total
  exactSum_eq : exactSum ledger.allotted = total.toNat

theorem Balanced.fits {total : UInt64} (balanced : Balanced total ledger) :
    exactSum ledger.allotted < UInt64.size :=
  balanced.exactSum_eq ▸ total.toNat_lt

theorem Balanced.allottedTotal_eq {total : UInt64} (balanced : Balanced total ledger) :
    ledger.allottedTotal = total :=
  UInt64.toNat_inj.mp ((toNat_sum balanced.fits).trans balanced.exactSum_eq)

theorem Balanced.settle {total : UInt64} (balanced : Balanced total ledger) (i : Nat)
    (used : UInt64) (source : σ) : Balanced total (ledger.settle i used source).1 := by
  obtain ⟨total_eq, sum_eq⟩ := (settles_settle balanced.fits i used source).2.conserves
  exact ⟨total_eq.trans balanced.total_eq, sum_eq.trans balanced.exactSum_eq⟩

theorem balanced_proportional (total : UInt64) {counts : List Nat} (nonempty : counts ≠ [])
    (source : σ) : Balanced total (proportional total counts source).1 :=
  ⟨rfl, exactSum_partition total nonempty source⟩

end Ledger

/-- A batch of candidates that are settled in any order, any number of times, and whatever they are
said to use. -/
structure Conserved (total : UInt64) (counts : List Nat) (settlements : List (Nat × UInt64))
    (source : σ) : Prop where
  /-- Nothing wraps around or is missing when shares are made, for a list that fits in memory. -/
  partition_defined : counts.length < UInt64.size →
    partition? total counts source = some (partition total counts source)
  /-- Fixed shares sum to the total. -/
  partition_sum : exactSum (partition total counts source).1 = total.toNat
  /-- The allotments start as these shares. -/
  proportional_eq : Ledger.proportional total counts source =
    (⟨total, (partition total counts source).1⟩, (partition total counts source).2)
  /-- Nothing wraps around or is missing when candidates are settled. -/
  settled_defined :
    let (ledger, source) := Ledger.proportional total counts source
    Ledger.settleAll? settlements ledger source = some (Ledger.settleAll settlements ledger source)
  /-- The allotments still sum to the total. -/
  settled_balanced :
    let (ledger, source) := Ledger.proportional total counts source
    Ledger.Balanced total (Ledger.settleAll settlements ledger source).1
  /-- So does their sum in words. -/
  settled_total :
    let (ledger, source) := Ledger.proportional total counts source
    (Ledger.settleAll settlements ledger source).1.allottedTotal = total

/-- Iterations are moved between candidates, never made or lost, and no step of the arithmetic is
undefined. -/
theorem conserved_of_words (total : UInt64) {counts : List Nat} (nonempty : counts ≠ [])
    (words : ∀ c ∈ counts, c < UInt64.size) (settlements : List (Nat × UInt64)) (source : σ) :
    Conserved total counts settlements source := by
  have start := Ledger.balanced_proportional total nonempty source
  obtain ⟨defined, total_eq, sum_eq⟩ := Ledger.settleAll_conserves settlements start.fits
    (Ledger.proportional total counts source).2
  have final : Ledger.Balanced total (Ledger.settleAll settlements
      (Ledger.proportional total counts source).1 (Ledger.proportional total counts source).2).1 :=
    ⟨total_eq.trans start.total_eq, sum_eq.trans start.exactSum_eq⟩
  exact {
    partition_defined := fun countable => partition?_eq_some total nonempty words countable source
    partition_sum := exactSum_partition total nonempty source
    proportional_eq := rfl
    settled_defined := defined
    settled_balanced := final
    settled_total := final.allottedTotal_eq }

/-- The largest total, shared by three candidates of which one has no constants and one as many as
there can be, and settled out of order, beyond the last, twice and for more than was allotted. -/
theorem largestTotal_conserved :
    [3, 0, 2 ^ 64 - 1] ≠ [] ∧ (∀ c ∈ [3, 0, 2 ^ 64 - 1], c < UInt64.size) ∧
      Conserved (2 ^ 64 - 1) [3, 0, 2 ^ 64 - 1] [(1, 7), (0, 2 ^ 64 - 1), (9, 4), (0, 1), (0, 0)]
        (ChaCha.Generator.ofSeed 1 0) :=
  ⟨by decide, by decide, conserved_of_words _ (by decide) (by decide) _ _⟩

end Budget
end FormulaFit
