import FormulaFit.Proofs.Optimize.Budgets
import FormulaFit.Proofs.Refine.Accounting

/-!
# Spending of a shared budget

An optimization spends at most the steps it may.  When candidates take turns with the allotments of
a ledger, each therefore spends within its own, and what it leaves goes to those whose turn is still
to come: at any time the steps spent and the allotments still open sum to the total.
-/

namespace FormulaFit

namespace Finetune

variable {σ : Type} [WordSource σ] {settings : Settings} {data : Dataset} {e : Expr Float}

/-- A run evaluates at most as many coefficients as it may. -/
theorem steps_le_of_descend {program : Program Float} {maxSteps : Nat} {state : Lbfgs.State Float}
    {params : List Float} {lastLoss : Float} {d : Descent}
    (descended : descend settings program data maxSteps state params lastLoss = .ok d) :
    d.steps ≤ maxSteps := by
  induction maxSteps generalizing state params lastLoss d with
  | zero =>
      cases descended
      exact Nat.le_refl 0
  | succ maxSteps ih =>
      cases proceeds_of_descend descended with
      | late => exact Nat.zero_le _
      | failed | still => exact Nat.le_add_left 1 maxSteps
      | moved _ _ continued =>
          rw [Descent.steps_after]
          exact Nat.succ_le_succ (ih continued)

theorem steps_le_of_finetune {maxSteps : Nat} {source : σ} {outcome : Outcome}
    (finished : finetune settings data maxSteps e source = .ok outcome) :
    outcome.steps ≤ maxSteps := by
  rcases steps_eq_zero_or_exists_descend finished with
    ⟨none_spent, -⟩ | ⟨-, program, initial, d, -, descended, concluded⟩
  · exact none_spent ▸ Nat.zero_le maxSteps
  · exact (conclude_cases concluded).1 ▸ steps_le_of_descend descended

end Finetune

namespace Budget
namespace Ledger

variable {ledger after : Ledger} {i : Nat} {used : UInt64}

theorem allotment_eq (ledger : Ledger) (inside : i < ledger.allotted.length) :
    ledger.allotment i = ledger.allotted[i] := by
  rw [allotment, List.getD_eq_getElem?_getD, List.getElem?_eq_getElem inside, Option.getD_some]

theorem exactSum_drop_eq (ledger : Ledger) (inside : i < ledger.allotted.length) :
    exactSum (ledger.allotted.drop i) =
      (ledger.allotment i).toNat + exactSum (ledger.allotted.drop (i + 1)) := by
  rw [List.drop_eq_getElem_cons inside, exactSum_cons, allotment_eq ledger inside]

/-- What a candidate leaves of its allotment is gained by those behind it, if there are any. -/
theorem Settles.exists_gains (settles : Settles ledger i used after) :
    ∃ amount, Gains (ledger.allotted.drop (i + 1)) (after.allotted.drop (i + 1)) amount ∧
      (i + 1 < ledger.allotted.length →
        amount = (ledger.allotment i).toNat - min used.toNat (ledger.allotment i).toNat) := by
  cases settles with
  | unchanged last => exact ⟨0, .refl _, fun behind => absurd behind (Nat.not_lt.mpr last)⟩
  | @moved allotment spent later raised drop_eq spent_eq gains =>
      have inside : i < ledger.allotted.length := by
        refine Nat.lt_of_not_le fun outside => ?_
        rw [List.drop_eq_nil_of_le outside] at drop_eq
        cases drop_eq
      have take_length : (ledger.allotted.take i).length = i :=
        List.length_take_of_le (Nat.le_of_lt inside)
      rw [List.drop_eq_getElem_cons inside, List.cons.injEq, ← allotment_eq ledger inside]
        at drop_eq
      obtain ⟨rfl, rfl⟩ := drop_eq
      refine ⟨_, ?_, fun _ => by rw [← spent_eq]⟩
      have dropped : (ledger.allotted.take i ++ spent :: raised).drop (i + 1) = raised := by
        rw [← List.drop_drop, List.drop_left' take_length, List.drop_one, List.tail_cons]
      rwa [dropped]

theorem Settles.length_eq (settles : Settles ledger i used after) :
    after.allotted.length = ledger.allotted.length := by
  cases settles with
  | unchanged => rfl
  | moved drop_eq spent_eq gains =>
      have parts := congrArg List.length (List.take_append_drop i ledger.allotted)
      rw [drop_eq, List.length_append, List.length_cons] at parts
      rw [List.length_append, List.length_cons, gains.length_eq, parts]

/-- What a candidate spends and what is still open behind it make up what was open before. -/
theorem Settles.open_eq (settles : Settles ledger i used after)
    (behind : i + 1 < ledger.allotted.length) (within : used ≤ ledger.allotment i) :
    used.toNat + exactSum (after.allotted.drop (i + 1)) = exactSum (ledger.allotted.drop i) := by
  obtain ⟨amount, gains, amount_eq⟩ := settles.exists_gains
  have within := UInt64.le_iff_toNat_le.mp within
  rw [exactSum_drop_eq ledger (Nat.lt_of_succ_lt behind), gains.sum_eq, amount_eq behind]
  omega

theorem getD_le_of_forall₂ {before after : List UInt64} (le : List.Forall₂ (· ≤ ·) before after)
    (k : Nat) : before.getD k 0 ≤ after.getD k 0 := by
  induction le generalizing k with
  | nil => exact UInt64.le_refl _
  | cons head _ ih =>
      cases k with
      | zero => exact head
      | succ k => exact ih k

theorem Settles.allotment_le (settles : Settles ledger i used after) {k : Nat} (behind : i < k) :
    ledger.allotment k ≤ after.allotment k := by
  obtain ⟨amount, gains, -⟩ := settles.exists_gains
  obtain ⟨m, rfl⟩ := Nat.exists_eq_add_of_le behind
  have le := getD_le_of_forall₂ gains.le m
  simp only [List.getD_eq_getElem?_getD, List.getElem?_drop] at le
  simpa only [allotment, List.getD_eq_getElem?_getD] using le

theorem settle_last {σ : Type} [WordSource σ] (ledger : Ledger)
    (last : ledger.allotted.length = i + 1) (used : UInt64) (source : σ) :
    ledger.settle i used source = (ledger, source) := by
  have inside : i < ledger.allotted.length := by omega
  rw [settle, List.drop_eq_getElem_cons inside, List.drop_eq_nil_of_le (Nat.le_of_eq last)]

end Ledger
end Budget

namespace Refinement

open Budget

variable {config : Config} {data : Dataset}

/-- The steps of all turns. -/
def spent (taken : List Turn) : Nat := (taken.map fun t => t.working.candidate.steps).sum

/-- What the turn of a candidate leaves of its allotment. -/
def Turn.rest (t : Turn) (i : Nat) : Nat :=
  (t.ledger.allotment i).toNat - t.working.candidate.steps

/-- Turns of candidates, the first of which has a given index in a ledger, that waste no steps but
those the last one leaves. -/
structure Thrifty (total : UInt64) (i : Nat) (ledger : Ledger) (taken : List Turn) : Prop where
  /-- The first turn starts from the ledger. -/
  head_eq : ∀ t : Turn, taken[0]? = some t → t.ledger = ledger
  /-- Allotments always sum to the total. -/
  balanced : ∀ t ∈ taken, t.ledger.Balanced total
  /-- Nobody spends more than is allotted when the turn comes. -/
  within : ∀ (j : Nat) (t : Turn), taken[j]? = some t →
    t.working.candidate.steps ≤ (t.ledger.allotment (i + j)).toNat
  /-- The allotment of a candidate whose turn is still to come never shrinks. -/
  grows : ∀ (j j' k : Nat) (t t' : Turn), j ≤ j' → j' ≤ k → taken[j]? = some t →
    taken[j']? = some t' → t.ledger.allotment (i + k) ≤ t'.ledger.allotment (i + k)
  /-- What is spent and what the last candidate leaves are all that was open. -/
  spent_eq : ∀ (j : Nat) (t : Turn), taken.length = j + 1 → taken[j]? = some t →
    spent taken + t.rest (i + j) = exactSum (ledger.allotted.drop i)
  /-- The last allotments are final. -/
  settle_eq : ∀ (j : Nat) (t : Turn) (source : ChaCha.Generator), taken.length = j + 1 →
    taken[j]? = some t →
      t.ledger.settle (i + j) (UInt64.ofNat t.working.candidate.steps) source = (t.ledger, source)

variable {total : UInt64} {i : Nat} {ledger settled : Ledger} {w : Working} {taken : List Turn}

theorem thrifty_nil : Thrifty total i ledger [] where
  head_eq _ found := by cases found
  balanced _ member := by cases member
  within _ _ found := by cases found
  grows _ _ _ _ _ _ _ found := by cases found
  spent_eq _ _ _ found := by cases found
  settle_eq _ _ _ _ found := by cases found

theorem Thrifty.allotment_le (thrifty : Thrifty total i ledger taken) {j k : Nat} {t : Turn}
    (j_le : j ≤ k) (found : taken[j]? = some t) :
    ledger.allotment (i + k) ≤ t.ledger.allotment (i + k) := by
  have nonempty : 0 < taken.length := Nat.zero_lt_of_lt (List.getElem?_eq_some_iff.mp found).1
  have first_found : taken[0]? = some taken[0] := List.getElem?_eq_getElem nonempty
  have grown := thrifty.grows 0 j k _ t (Nat.zero_le j) j_le first_found found
  rwa [thrifty.head_eq _ first_found] at grown

theorem toNat_ofNat_of_le {n : Nat} {a : UInt64} (le : n ≤ a.toNat) :
    (UInt64.ofNat n).toNat = n :=
  toNat_ofNat_of_lt (Nat.lt_of_le_of_lt le a.toNat_lt)

theorem Thrifty.cons (balanced : ledger.Balanced total)
    (length_eq : ledger.allotted.length = i + (taken.length + 1))
    (within : w.candidate.steps ≤ (ledger.allotment i).toNat)
    (settles : ledger.Settles i (UInt64.ofNat w.candidate.steps) settled)
    (later : Thrifty total (i + 1) settled taken) :
    Thrifty total i ledger (⟨ledger, w⟩ :: taken) where
  head_eq _ found := by
    cases found
    rfl
  balanced := List.forall_mem_cons.mpr ⟨balanced, later.balanced⟩
  within j t found := by
    cases j with
    | zero =>
        cases found
        exact within
    | succ j =>
        rw [← Nat.add_assoc, Nat.add_right_comm]
        exact later.within j t found
  grows j j' k t t' j_le j'_le found found' := by
    -- Both turns are later ones, or the first of them is this one, which lowers no later allotment.
    cases j' with
    | zero =>
        obtain rfl := Nat.le_zero.mp j_le
        obtain rfl := Option.some.inj (found.symm.trans found')
        exact UInt64.le_refl _
    | succ j' =>
        obtain ⟨k, rfl⟩ := Nat.exists_eq_add_one_of_ne_zero (Nat.ne_zero_of_lt j'_le)
        have j'_le := Nat.le_of_succ_le_succ j'_le
        cases j with
        | zero =>
            cases found
            have start_le := settles.allotment_le (k := i + (k + 1)) (by omega)
            have later_le := later.allotment_le j'_le found'
            rw [Nat.add_right_comm, Nat.add_assoc] at later_le
            exact UInt64.le_trans start_le later_le
        | succ j =>
            rw [← Nat.add_assoc, Nat.add_right_comm]
            exact later.grows j j' k t t' (Nat.le_of_succ_le_succ j_le) j'_le found found'
  spent_eq j t taken_length found := by
    have inside : i < ledger.allotted.length := by omega
    rw [List.length_cons, Nat.add_right_cancel_iff] at taken_length
    cases j with
    | zero =>
        cases found
        obtain rfl := List.length_eq_zero_iff.mp taken_length
        have last : ledger.allotted.drop (i + 1) = [] :=
          List.drop_eq_nil_of_le (by simp [length_eq])
        rw [Ledger.exactSum_drop_eq ledger inside, last]
        exact Nat.add_sub_cancel' within
    | succ j =>
        have later_eq := later.spent_eq j t taken_length found
        have open_eq := settles.open_eq (by omega)
          (UInt64.le_iff_toNat_le.mpr ((toNat_ofNat_of_le within).symm ▸ within))
        rw [toNat_ofNat_of_le within] at open_eq
        rw [← open_eq, ← later_eq, spent, List.map_cons, List.sum_cons, Nat.add_assoc,
          Nat.add_right_comm i 1 j, Nat.add_assoc i j 1]
        rfl
  settle_eq j t source taken_length found := by
    rw [List.length_cons, Nat.add_right_cancel_iff] at taken_length
    cases j with
    | zero =>
        cases found
        exact Ledger.settle_last ledger (by omega) _ source
    | succ j =>
        rw [← Nat.add_assoc, Nat.add_right_comm]
        exact later.settle_eq j t source taken_length found

/-- Turns are thrifty if every candidate keeps to its allotment, whatever its steps are spent on. -/
theorem thrifty_of_turns {optimize : UInt64 → Working → Except Error Working}
    (keeps : ∀ budget w after, optimize budget w = .ok after →
      after.candidate.steps ≤ budget.toNat)
    {source : ChaCha.Generator} {pool : List Working} (balanced : ledger.Balanced total)
    (length_eq : ledger.allotted.length = i + pool.length)
    (taken_eq : turns optimize i ledger source pool = .ok taken) :
    taken.length = pool.length ∧ Thrifty total i ledger taken := by
  induction pool generalizing i ledger source taken with
  | nil =>
      cases taken_eq
      exact ⟨rfl, thrifty_nil⟩
  | cons w pool ih =>
      obtain ⟨after, optimized, taken_eq⟩ := bind_eq_ok_iff.mp taken_eq
      obtain ⟨later, later_eq, taken_eq⟩ := bind_eq_ok_iff.mp taken_eq
      cases taken_eq
      have within := keeps _ _ _ optimized
      have settled :=
        (Ledger.settles_settle balanced.fits i (UInt64.ofNat after.candidate.steps) source).2
      obtain ⟨later_length, thrifty⟩ := ih (balanced.settle i _ source)
        (by rw [settled.length_eq, length_eq, List.length_cons]; omega) later_eq
      rw [List.length_cons] at length_eq
      refine ⟨congrArg (· + 1) later_length, .cons balanced ?_ within settled thrifty⟩
      rw [later_length, length_eq]

theorem steps_le_of_tune {seed budget : UInt64} {after : Working}
    (tuned : tune config data seed budget w = .ok after) :
    after.candidate.steps ≤ budget.toNat := by
  obtain ⟨outcome, finished, after_eq⟩ := bind_eq_ok_iff.mp tuned
  cases after_eq
  have steps_le := Finetune.steps_le_of_finetune finished
  dsimp only
  split <;> exact steps_le

theorem sum_steps_le_of_forall₂ {budgets : List UInt64} {results : List Working}
    (within : List.Forall₂ (fun budget w => w.candidate.steps ≤ budget.toNat) budgets results) :
    (results.map fun w => w.candidate.steps).sum ≤ exactSum budgets := by
  induction within with
  | nil => exact Nat.le_refl 0
  | cons head _ ih => exact Nat.add_le_add head ih

/-- The constants of the candidates of a pool. -/
def constantCounts (pool : List Working) : List Nat :=
  pool.map fun w => w.candidate.expr.freeConstantCount

theorem sum_steps_le_of_partition {seed : UInt64} {pool results : List Working}
    (tuned : (pool.zip (partition total (constantCounts pool)
      (ChaCha.Generator.ofSeed seed 0)).1).mapM (fun (w, budget) => tune config data seed budget w) =
        .ok results) :
    (results.map fun w => w.candidate.steps).sum ≤ total.toNat := by
  by_cases empty : pool = []
  · rw [empty, List.zip_nil_left] at tuned
    cases tuned
    exact Nat.zero_le _
  · have counted : constantCounts pool ≠ [] := by simpa [constantCounts] using empty
    have shares_sum := exactSum_partition total counted (ChaCha.Generator.ofSeed seed 0)
    have length_eq := length_partition total (constantCounts pool) (ChaCha.Generator.ofSeed seed 0)
    generalize (partition total (constantCounts pool) (ChaCha.Generator.ofSeed seed 0)).1 = shares
      at tuned shares_sum length_eq
    have seconds : (pool.zip shares).map Prod.snd = shares :=
      List.map_snd_zip (by rw [length_eq, constantCounts, List.length_map])
    rw [← shares_sum, ← seconds]
    refine sum_steps_le_of_forall₂ (List.forall₂_map_left_iff.mpr ?_)
    exact (mapM_eq_ok_iff.mp tuned).imp fun item after tuned => steps_le_of_tune tuned

/-- The shares that the turns of a pool start from. -/
def opening (config : Config) (total : UInt64) (pool : List Working) :
    Ledger × ChaCha.Generator :=
  Ledger.proportional total (constantCounts pool)
    (ChaCha.Generator.ofSeed (config.randomState.getD 0) 0)

/-- The candidates of a pool take turns with the allotments of a ledger. -/
structure TakesTurns (config : Config) (data : Dataset) (total : UInt64) (pool : List Working)
    (taken : List Turn) : Prop where
  taken_eq : turns (tune config data (config.randomState.getD 0)) 0 (opening config total pool).1
    (opening config total pool).2 pool = .ok taken
  /-- Every candidate has its turn. -/
  length_eq : taken.length = pool.length
  /-- No steps are wasted but those the last candidate leaves. -/
  thrifty : Thrifty total 0 (opening config total pool).1 taken
  /-- Together with them, all steps are spent. -/
  total_eq : ∀ (j : Nat) (t : Turn), pool.length = j + 1 → taken[j]? = some t →
    spent taken + t.rest j = total.toNat

theorem takesTurns_of_turns {pool : List Working}
    (taken_eq : turns (tune config data (config.randomState.getD 0)) 0
      (opening config total pool).1 (opening config total pool).2 pool = .ok taken) :
    TakesTurns config data total pool taken := by
  cases pool with
  | nil =>
      have none_taken : taken = [] := by
        cases taken_eq
        rfl
      subst none_taken
      exact ⟨taken_eq, rfl, thrifty_nil, fun _ _ length_eq => by cases length_eq⟩
  | cons w pool =>
      have balanced : (opening config total (w :: pool)).1.Balanced total :=
        Ledger.balanced_proportional total (List.cons_ne_nil _ _) _
      have shares_length : (opening config total (w :: pool)).1.allotted.length =
          0 + (w :: pool).length := by
        rw [Nat.zero_add]
        exact (length_partition total (constantCounts (w :: pool)) _).trans (List.length_map _)
      obtain ⟨length_eq, thrifty⟩ := thrifty_of_turns (fun _ _ _ => steps_le_of_tune) balanced
        shares_length taken_eq
      refine ⟨taken_eq, length_eq, thrifty, fun j t pool_length found => ?_⟩
      have spent_eq := thrifty.spent_eq j t (length_eq.trans pool_length) found
      rwa [Nat.zero_add, List.drop_zero, balanced.exactSum_eq] at spent_eq

/-- Turns spend the total at most. -/
theorem TakesTurns.spent_le {pool : List Working}
    (takes_turns : TakesTurns config data total pool taken) : spent taken ≤ total.toNat := by
  cases length_eq : pool.length with
  | zero =>
      rw [List.length_eq_zero_iff.mp (takes_turns.length_eq.trans length_eq)]
      exact Nat.zero_le _
  | succ j =>
      have inside : j < taken.length := by rw [takes_turns.length_eq, length_eq]; omega
      have total_eq := takes_turns.total_eq j _ length_eq (List.getElem?_eq_getElem inside)
      omega

variable {raw : List String} {r : Refinement} {scored : List Candidate}

theorem sum_steps_candidates (candidates_eq : r.candidates =
      if scored.isEmpty then [fallback config data raw.length] else scored) :
    (r.candidates.map Candidate.steps).sum = (scored.map Candidate.steps).sum := by
  rcases unscored_or_scored candidates_eq with ⟨empty, made_up⟩ | ⟨-, same⟩
  · rw [made_up, empty]
    rfl
  · rw [same]

/-- A refinement that shares a number of steps spends no more of them.  Candidates that take turns
waste none. -/
theorem spent_of_refine (config : Config) (raw : List String) (data : Dataset) (r : Refinement)
    (total : UInt64) (refined : refine config raw data = .ok r) (finetune : config.finetune = true)
    (few : data.rowCount ≤ config.maxFinetuneRows.toNat)
    (shared : config.finetuneMaxEvals = some total) :
    r.summary.steps ≤ total.toNat ∧ (r.candidates.map Candidate.steps).sum = r.summary.steps ∧
      (config.parallel = false → ∃ taken,
        TakesTurns config data total (repaired config 0 raw) taken ∧
          spent taken = r.summary.steps) := by
  obtain ⟨pool, summary, scored, summary', optimized, finished, candidates_eq, -, summary_eq⟩ :=
    exists_stages_of_refine refined
  obtain ⟨advances, counted⟩ := advances_of_finetuneStage (fun w => fresh_of_mem_repaired) rfl rfl
    optimized
  have scores := scores_of_scoreAll (ready_of_advances advances) finished
  have steps_eq : r.summary.steps = (pool.map fun w => w.candidate.steps).sum := by
    rw [summary_eq, scores.others_eq, counted]
  have tuning : isTuning config data = true := by simp [isTuning, finetune, few]
  rw [finetuneStage, if_pos tuning] at optimized
  obtain ⟨results, tuned, optimized⟩ := bind_eq_ok_iff.mp optimized
  cases optimized
  rw [tuneAll_shared shared] at tuned
  rw [sum_steps_candidates candidates_eq, scores.steps_eq, steps_eq]
  cases side_by_side : config.parallel with
  | true =>
      simp only [side_by_side, if_true] at tuned
      exact ⟨sum_steps_le_of_partition tuned, rfl, fun sequential => by cases sequential⟩
  | false =>
      simp only [side_by_side] at tuned
      obtain ⟨taken, taken_eq, pool_eq⟩ := bind_eq_ok_iff.mp tuned
      cases pool_eq
      have takes_turns := takesTurns_of_turns taken_eq
      have spent_eq : spent taken =
          ((taken.map Turn.working).map fun w => w.candidate.steps).sum := by
        rw [List.map_map]
        rfl
      exact ⟨spent_eq ▸ takes_turns.spent_le, rfl, fun _ => ⟨taken, takes_turns, spent_eq⟩⟩

/-- A configuration that shares four steps between candidates that take turns. -/
def fourSteps : Config := { finetune := true, finetuneMaxEvals := some 4, randomState := some 1 }

/-- The first candidate needs one of its two steps.  The second one gets the other and still leaves
one of its three. -/
theorem twoLines_spent :
    ∃ r, refine fourSteps ["2*x_0", "1.5*x_0"] lineSamples = .ok r ∧ fourSteps.finetune = true ∧
      lineSamples.rowCount ≤ fourSteps.maxFinetuneRows.toNat ∧
      fourSteps.finetuneMaxEvals = some 4 ∧ r.summary.steps = 3 ∧
      ∃ taken,
        TakesTurns fourSteps lineSamples 4 (repaired fourSteps 0 ["2*x_0", "1.5*x_0"]) taken ∧
        spent taken = 3 := by
  have steps_eq : (refine fourSteps ["2*x_0", "1.5*x_0"] lineSamples).toOption.map
      (fun r => r.summary.steps) = some 3 := by decide +kernel
  obtain ⟨r, refined, three⟩ := exists_of_map_toOption steps_eq
  have few : lineSamples.rowCount ≤ fourSteps.maxFinetuneRows.toNat := by decide
  obtain ⟨-, -, turns⟩ := spent_of_refine fourSteps _ _ r 4 refined rfl few rfl
  obtain ⟨taken, takes_turns, spent_eq⟩ := turns rfl
  exact ⟨r, refined, rfl, few, rfl, three, taken, takes_turns, spent_eq.trans three⟩

end Refinement

end FormulaFit
