import FormulaFit.Proofs.Refine.Scoring
import FormulaFit.Proofs.Refine.Spending
import FormulaFit.Proofs.Refine.Usability

/-!
# Candidates do not influence each other

Where optimizer iterations are not shared, what becomes of a text depends on the text, its position,
the data and the configuration: every candidate has a generator of its own, and nothing is handed
from one to the next.  So it does not matter what the other texts are, nor in which order the
candidates are optimized.  A shared budget is the one thing that is handed on, and if nobody leaves
anything of it, then candidates that take turns fare as those that are refined side by side.
-/

namespace FormulaFit

section Order

variable {ε β : Type} {step : β → Except ε β} {order : List Nat} {items results : List β}

/-- Replaces the items at some indices by what a step makes of them, one after the other in the
given order. -/
def advanceInOrder (step : β → Except ε β) : (order : List Nat) → List β → Except ε (List β)
  | [], items => .ok items
  | i :: order, items =>
    match items[i]? with
    | some item => do advanceInOrder step order (items.set i (← step item))
    | none => advanceInOrder step order items

/-- The items at some indices are advanced, and the others stay. -/
structure AdvancedAt (step : β → Except ε β) (order : List Nat) (items results : List β) :
    Prop where
  length_eq : results.length = items.length
  advanced : ∀ k item result, k ∈ order → items[k]? = some item → results[k]? = some result →
    step item = .ok result
  kept : ∀ k, k ∉ order → results[k]? = items[k]?

theorem advancedAt_cons_iff {i : Nat} {item result : β} (fresh : i ∉ order)
    (found : items[i]? = some item) (stepped : step item = .ok result) :
    AdvancedAt step (i :: order) items results ↔
      AdvancedAt step order (items.set i result) results := by
  have i_lt : i < items.length := (List.getElem?_eq_some_iff.mp found).1
  have set_self : (items.set i result)[i]? = some result := List.getElem?_set_self i_lt
  have set_other {k : Nat} (other : i ≠ k) : (items.set i result)[k]? = items[k]? :=
    List.getElem?_set_ne other
  constructor
  · intro advanced
    refine ⟨by rw [advanced.length_eq, List.length_set],
      fun k item' result' member at_k at_k' => ?_, fun k other => ?_⟩
    · have different : i ≠ k := fun same => fresh (same ▸ member)
      rw [set_other different] at at_k
      exact advanced.advanced k item' result' (List.mem_cons_of_mem i member) at_k at_k'
    · by_cases same : i = k
      · subst same
        obtain ⟨result', found'⟩ : ∃ result', results[i]? = some result' :=
          ⟨_, List.getElem?_eq_getElem (advanced.length_eq ▸ i_lt)⟩
        have stepped' := advanced.advanced i item result' List.mem_cons_self found found'
        obtain rfl := Except.ok.inj (stepped.symm.trans stepped')
        rw [set_self, found']
      · rw [set_other same]
        exact advanced.kept k fun member =>
          (List.mem_cons.mp member).elim (fun eq => same eq.symm) other
  · intro advanced
    refine ⟨by rw [advanced.length_eq, List.length_set],
      fun k item' result' member at_k at_k' => ?_, fun k other => ?_⟩
    · rcases List.mem_cons.mp member with rfl | later
      · rw [advanced.kept k fresh, set_self] at at_k'
        obtain rfl := Option.some.inj (found.symm.trans at_k)
        obtain rfl := Option.some.inj at_k'
        exact stepped
      · have different : i ≠ k := fun same => fresh (same ▸ later)
        exact advanced.advanced k item' result' later ((set_other different).trans at_k) at_k'
    · obtain ⟨different, other⟩ := not_or.mp (List.mem_cons.not.mp other)
      rw [advanced.kept k other, set_other (Ne.symm different)]

theorem advanceInOrder_eq_ok_iff (distinct : order.Nodup) (inside : ∀ i ∈ order, i < items.length) :
    advanceInOrder step order items = .ok results ↔ AdvancedAt step order items results := by
  induction order generalizing items with
  | nil =>
      rw [advanceInOrder, Except.ok.injEq]
      constructor
      · rintro rfl
        exact ⟨rfl, fun k item result member => absurd member List.not_mem_nil, fun _ _ => rfl⟩
      · intro advanced
        exact (List.ext_getElem? fun k => advanced.kept k List.not_mem_nil).symm
  | cons i order ih =>
      obtain ⟨fresh, distinct⟩ := List.nodup_cons.mp distinct
      obtain ⟨i_lt, inside⟩ := List.forall_mem_cons.mp inside
      have found := List.getElem?_eq_getElem i_lt
      rw [advanceInOrder, found]
      change (step items[i] >>= fun result => advanceInOrder step order (items.set i result)) =
        .ok results ↔ _
      cases stepped : step items[i] with
      | ok result =>
          rw [advancedAt_cons_iff fresh found stepped, ← ih distinct (by simpa using inside)]
          rfl
      | error e =>
          refine iff_of_false (fun advanced => by cases advanced) fun advanced => ?_
          have found' := List.getElem?_eq_getElem (advanced.length_eq ▸ i_lt : i < results.length)
          have stepped' := advanced.advanced i _ _ List.mem_cons_self found found'
          cases stepped.symm.trans stepped'

/-- In whatever order all items are advanced, the results are those of advancing them from first to
last. -/
theorem advanceInOrder_eq_ok_iff_mapM (all : order.Perm (List.range items.length)) :
    advanceInOrder step order items = .ok results ↔ items.mapM step = .ok results := by
  have distinct : order.Nodup := all.nodup_iff.mpr List.nodup_range
  have mem_iff {k : Nat} : k ∈ order ↔ k < items.length := by rw [all.mem_iff, List.mem_range]
  rw [advanceInOrder_eq_ok_iff distinct fun i => mem_iff.mp, mapM_eq_ok_iff, List.forall₂_iff_get]
  constructor
  · intro advanced
    refine ⟨advanced.length_eq.symm, fun k k_lt k_lt' => ?_⟩
    exact advanced.advanced k _ _ (mem_iff.mpr k_lt) (List.getElem?_eq_getElem k_lt)
      (List.getElem?_eq_getElem k_lt')
  · rintro ⟨length_eq, each⟩
    refine ⟨length_eq.symm, fun k item result member found found' => ?_, fun k other => ?_⟩
    · obtain ⟨k_lt, rfl⟩ := List.getElem?_eq_some_iff.mp found
      obtain ⟨k_lt', rfl⟩ := List.getElem?_eq_some_iff.mp found'
      exact each k k_lt k_lt'
    · have beyond : items.length ≤ k := Nat.le_of_not_lt fun k_lt => other (mem_iff.mpr k_lt)
      rw [List.getElem?_eq_none beyond, List.getElem?_eq_none (length_eq ▸ beyond)]

end Order

namespace Budget

variable {σ : Type} [WordSource σ]

theorem spread_zero (slots : List UInt64) (source : σ) :
    spread slots 0 source = (slots, source) := by
  rw [spread, Random.sample_zero]
  rfl

/-- A candidate that uses its whole allotment hands nothing on, and nothing is drawn. -/
theorem Ledger.settle_spent {ledger : Ledger} {i n : Nat}
    (length_eq : ledger.allotted.length = i + (n + 1)) {used : UInt64}
    (spent : 0 < n → used = ledger.allotment i) (source : σ) :
    ledger.settle i used source = (ledger, source) := by
  cases n with
  | zero => exact settle_last ledger length_eq used source
  | succ n =>
      have inside : i < ledger.allotted.length := by omega
      obtain rfl := spent (Nat.succ_pos n)
      have drop_eq := List.drop_eq_getElem_cons inside
      rw [← allotment_eq ledger inside] at drop_eq
      obtain ⟨next, later, later_eq⟩ : ∃ next later, ledger.allotted.drop (i + 1) = next :: later :=
        List.exists_cons_of_length_pos (by rw [List.length_drop]; omega)
      have unused_eq : ledger.allotment i - ledger.allotment i = 0 := UInt64.sub_self _
      rw [settle, drop_eq, later_eq]
      dsimp only
      rw [if_neg (UInt64.lt_irrefl _), unused_eq, UInt64.toNat_zero, Nat.zero_div, Nat.zero_mod]
      have unraised : (next :: later).map (fun a => a + UInt64.ofNat 0) = next :: later := by simp
      rw [unraised, spread_zero, ← later_eq, ← drop_eq, List.take_append_drop]

end Budget

namespace Refinement

variable {config : Config} {data : Dataset}

/-- Optimizes the constants of one candidate by the steps of one candidate, if they are optimized at
all. -/
def advance (config : Config) (data : Dataset) (w : Working) : Except Error Working :=
  if isTuning config data then
    tune config data (config.randomState.getD 0) config.finetuneSteps w
  else .ok w

/-- What becomes of the text at a position by itself; nothing if it is dropped. -/
def refineText (config : Config) (data : Dataset) (i : Nat) (text : String) :
    Except Error (Option Candidate) :=
  match repair config text with
  | .ok s => do score config data (← advance config data ⟨.ofExpr i s, s⟩)
  | .error _ => .ok none

/-- The candidate of the text at a position, if it survives. -/
def candidate? (r : Refinement) (i : Nat) : Option Candidate :=
  r.candidates.find? fun c => c.source = i

section Texts

theorem finetuneStage_eq_ok_iff (unshared : config.finetuneMaxEvals = none)
    {pool results : List Working} {summary : Summary} :
    (∃ after, finetuneStage config data (config.randomState.getD 0) pool summary =
      .ok (results, after)) ↔
      List.Forall₂ (fun w after => advance config data w = .ok after) pool results := by
  rw [← mapM_eq_ok_iff, finetuneStage]
  cases tuning : isTuning config data with
  | true =>
      have advance_eq : advance config data =
          tune config data (config.randomState.getD 0) config.finetuneSteps := by
        funext w
        rw [advance, if_pos tuning]
      rw [if_pos rfl, tuneAll_unshared unshared, advance_eq]
      constructor
      · rintro ⟨after, staged⟩
        obtain ⟨tuned, tuned_eq, staged⟩ := bind_eq_ok_iff.mp staged
        cases staged
        exact tuned_eq
      · intro tuned_eq
        exact ⟨_, bind_eq_ok_iff.mpr ⟨results, tuned_eq, rfl⟩⟩
  | false =>
      have advance_eq : advance config data = pure := by
        funext w
        rw [advance, tuning]
        rfl
      have unchanged : pool.mapM (pure : Working → Except Error Working) = .ok pool := by
        rw [List.mapM_pure, List.map_id']
        rfl
      rw [advance_eq, unchanged]
      constructor
      · rintro ⟨after, staged⟩
        cases staged
        rfl
      · rintro same
        cases same
        exact ⟨summary, rfl⟩

theorem forall₂_bind_iff {ε β γ δ : Type} {f : β → Except ε γ} {g : γ → Except ε δ} {items : List β}
    {results : List δ} :
    List.Forall₂ (fun b d => (f b >>= g) = .ok d) items results ↔
      ∃ between, List.Forall₂ (fun b c => f b = .ok c) items between ∧
        List.Forall₂ (fun c d => g c = .ok d) between results := by
  constructor
  · intro each
    induction each with
    | nil => exact ⟨[], .nil, .nil⟩
    | cons head _ ih =>
        obtain ⟨c, first, second⟩ := bind_eq_ok_iff.mp head
        obtain ⟨between, firsts, seconds⟩ := ih
        exact ⟨c :: between, .cons first firsts, .cons second seconds⟩
  · rintro ⟨between, firsts, seconds⟩
    induction firsts generalizing results with
    | nil =>
        cases seconds
        exact .nil
    | cons first _ ih =>
        cases seconds with
        | cons second seconds => exact .cons (bind_eq_ok_iff.mpr ⟨_, first, second⟩) (ih seconds)

theorem exists_repaired_iff {position : Nat} {texts : List String} {scored : List Candidate} :
    (∃ results, List.Forall₂ (fun w result => (advance config data w >>= score config data) =
        .ok result) (repaired config position texts) results ∧ scored = results.filterMap id) ↔
      ∃ results, List.Forall₂ (fun item result => refineText config data item.2 item.1 = .ok result)
        (texts.zipIdx position) results ∧ scored = results.filterMap id := by
  induction texts generalizing position scored with
  | nil =>
      constructor <;> rintro ⟨results, each, rfl⟩ <;> cases each <;> exact ⟨[], .nil, rfl⟩
  | cons text texts ih =>
      rw [List.zipIdx_cons, repaired]
      cases fixed : repair config text with
      | ok s =>
          have refined : refineText config data position text =
              advance config data ⟨.ofExpr position s, s⟩ >>= score config data := by
            rw [refineText, fixed]
          constructor
          · rintro ⟨results, each, rfl⟩
            cases each with
            | @cons _ result _ results head tail =>
            obtain ⟨results', tail', same⟩ := ih.mp ⟨results, tail, rfl⟩
            refine ⟨result :: results', .cons (refined.trans head) tail', ?_⟩
            rw [List.filterMap_cons, List.filterMap_cons, same]
          · rintro ⟨results, each, rfl⟩
            cases each with
            | @cons _ result _ results head tail =>
            obtain ⟨results', tail', same⟩ := ih.mpr ⟨results, tail, rfl⟩
            refine ⟨result :: results', .cons (refined.symm.trans head) tail', ?_⟩
            rw [List.filterMap_cons, List.filterMap_cons, same]
      | error e =>
          have dropped : refineText config data position text = .ok none := by
            rw [refineText, fixed]
          rw [ih]
          constructor
          · rintro ⟨results, each, rfl⟩
            exact ⟨none :: results, .cons dropped each, rfl⟩
          · rintro ⟨results, each, rfl⟩
            cases each with
            | cons head tail =>
            cases dropped.symm.trans head
            exact ⟨_, tail, rfl⟩

theorem source_of_predictions (w : Working) :
    (predictions config data w).1.source = w.candidate.source := by
  rw [predictions]
  dsimp only
  split
  · split <;> rfl
  · rfl

theorem source_of_score {w : Working} {c : Candidate}
    (scored : score config data w = .ok (some c)) : c.source = w.candidate.source := by
  have source_eq : (predictions config data w).1.source = w.candidate.source :=
    source_of_predictions w
  rw [score] at scored
  split at scored
  · rename_i predicted
    cases scored
    rw [source_rate, ← source_eq, predicted]
  · split at scored <;> cases scored

theorem source_of_advance {w after : Working} (advanced : advance config data w = .ok after) :
    after.candidate.source = w.candidate.source := by
  rw [advance] at advanced
  split at advanced
  · obtain ⟨outcome, -, after_eq⟩ := bind_eq_ok_iff.mp advanced
    cases after_eq
    dsimp only
    split <;> rfl
  · cases advanced
    rfl

theorem source_of_refineText {i : Nat} {text : String} {c : Candidate}
    (refined : refineText config data i text = .ok (some c)) : c.source = i := by
  rw [refineText] at refined
  split at refined
  · obtain ⟨w, advanced, scored⟩ := bind_eq_ok_iff.mp refined
    rw [source_of_score scored, source_of_advance advanced]
    rfl
  · cases refined

theorem find?_source {results : List (Option Candidate)} {position : Nat}
    (sources : ∀ k c, results[k]? = some (some c) → c.source = position + k) (i : Nat) :
    (results.filterMap id).find? (fun c => c.source = position + i) = results[i]?.join := by
  induction results generalizing position i with
  | nil => rfl
  | cons result results ih =>
      have later : ∀ k c, results[k]? = some (some c) → c.source = position + 1 + k :=
        fun k c found => by rw [sources (k + 1) c found, Nat.add_assoc, Nat.add_comm 1]
      cases i with
      | zero =>
          have beyond : ∀ c ∈ results.filterMap id, c.source ≠ position := by
            intro c member
            obtain ⟨result, member, result_eq⟩ := List.mem_filterMap.mp member
            obtain ⟨k, found⟩ := List.mem_iff_getElem?.mp member
            rw [later k c (found.trans (congrArg some result_eq))]
            omega
          cases result with
          | none => exact List.find?_eq_none.mpr fun c member => by simpa using beyond c member
          | some c => exact List.find?_cons_of_pos (decide_eq_true (sources 0 c rfl))
      | succ i =>
          have rest := ih later i
          rw [Nat.add_assoc, Nat.add_comm 1] at rest
          cases result with
          | none => exact rest
          | some c =>
              have other : ¬decide (c.source = position + (i + 1)) = true := by
                rw [sources 0 c rfl, decide_eq_true_eq]
                omega
              refine Eq.trans ?_ rest
              exact List.find?_cons_of_neg other

variable {raw : List String}

theorem exists_results_of_refine (unshared : config.finetuneMaxEvals = none) {r : Refinement}
    (refined : refine config raw data = .ok r) : ∃ results,
      List.Forall₂ (fun item result => refineText config data item.2 item.1 = .ok result)
        raw.zipIdx results ∧ r.candidates = gather config data raw results := by
  obtain ⟨pool, summary, scored, summary', optimized, finished, candidates_eq, -, -⟩ :=
    exists_stages_of_refine refined
  obtain ⟨results, scores, rfl⟩ := exists_scoreAll_iff.mp ⟨_, finished⟩
  have advanced := (finetuneStage_eq_ok_iff unshared).mp ⟨_, optimized⟩
  obtain ⟨results', each, same⟩ := exists_repaired_iff.mp
    ⟨results, forall₂_bind_iff.mpr ⟨pool, advanced, scores⟩, rfl⟩
  refine ⟨results', each, ?_⟩
  rw [candidates_eq, gather, same]

theorem exists_scored_of_score {w : Working} {c : Candidate}
    (scored : score config data w = .ok (some c)) : ∃ pair, Selection.scored c = .ok pair := by
  rw [score] at scored
  split at scored
  · cases scored
    rw [rate]
    split <;> exact ⟨_, rfl⟩
  · split at scored <;> cases scored

/-- Nothing but a text by itself stops a refinement. -/
theorem exists_refine_of_texts (unshared : config.finetuneMaxEvals = none)
    (accepted : config.validate = .ok ()) {results : List (Option Candidate)}
    (each : List.Forall₂ (fun item result => refineText config data item.2 item.1 = .ok result)
      raw.zipIdx results) : ∃ r, refine config raw data = .ok r := by
  obtain ⟨results', each', -⟩ := exists_repaired_iff.mpr ⟨results, each, rfl⟩
  obtain ⟨pool, advanced, scores⟩ := forall₂_bind_iff.mp each'
  have optimizes (summary : Summary) : Yields (finetuneStage config data
      (config.randomState.getD 0) (repaired config 0 raw) summary) fun staged =>
        staged.1 = pool := by
    obtain ⟨after, optimized⟩ := (finetuneStage_eq_ok_iff unshared).mpr advanced
    exact ⟨_, optimized, rfl⟩
  have scored : ∀ staged : List Working × Summary, staged.1 = pool →
      Yields (scoreAll config data staged.1 staged.2) fun result =>
        ∀ c ∈ result.1, ∃ pair, Selection.scored c = .ok pair := by
    rintro staged rfl
    obtain ⟨after, finished⟩ := exists_scoreAll_iff.mpr ⟨results', scores, rfl⟩
    refine ⟨_, finished, fun c member => ?_⟩
    obtain ⟨result, member, rfl⟩ := List.mem_filterMap.mp member
    obtain ⟨w, -, scored⟩ := exists_mem_of_forall₂ scores member
    exact exists_scored_of_score scored
  obtain ⟨r, refined, -⟩ := yields_refine_of_stages accepted optimizes scored ⟨_, rfl⟩ fun c => id
  exact ⟨r, refined⟩

/-- The surviving candidate of a text is what becomes of it by itself. -/
theorem refineText_eq {results : List (Option Candidate)}
    (each : List.Forall₂ (fun item result => refineText config data item.2 item.1 = .ok result)
      raw.zipIdx results) {r : Refinement}
    (candidates_eq : r.candidates = gather config data raw results) {i : Nat} {text : String}
    (found : raw[i]? = some text) :
    refineText config data i text = .ok (r.candidate? i) := by
  obtain ⟨length_eq, at_each⟩ := List.forall₂_iff_get.mp each
  have at_position {k : Nat} {text : String} {result : Option Candidate}
      (at_k : raw[k]? = some text) (at_k' : results[k]? = some result) :
      refineText config data k text = .ok result := by
    obtain ⟨k_lt, rfl⟩ := List.getElem?_eq_some_iff.mp at_k
    obtain ⟨k_lt', rfl⟩ := List.getElem?_eq_some_iff.mp at_k'
    simpa using at_each k (by simpa using k_lt) k_lt'
  have sources : ∀ k c, results[k]? = some (some c) → c.source = 0 + k := by
    intro k c at_k'
    have k_lt : k < raw.length := by
      have k_lt' := (List.getElem?_eq_some_iff.mp at_k').1
      simpa [← length_eq] using k_lt'
    rw [Nat.zero_add]
    exact source_of_refineText (at_position (List.getElem?_eq_getElem k_lt) at_k')
  have i_lt : i < raw.length := (List.getElem?_eq_some_iff.mp found).1
  have i_lt' : i < results.length := by simpa [← length_eq] using i_lt
  have candidate_eq : r.candidate? i = results[i]?.join := by
    have searched := find?_source sources i
    rw [Nat.zero_add] at searched
    rw [candidate?, candidates_eq, gather, ← searched]
    split
    · rename_i empty
      rw [List.isEmpty_iff.mp empty]
      refine List.find?_cons_of_neg ?_
      rw [source_fallback, decide_eq_true_eq]
      exact Nat.ne_of_gt i_lt
    · rfl
  rw [candidate_eq, List.getElem?_eq_getElem i_lt', Option.join_some]
  exact at_position found (List.getElem?_eq_getElem i_lt')

end Texts

section Modes

open Budget

variable {optimize : UInt64 → Working → Except Error Working} {raw : List String}

/-- No candidate but the last one uses fewer steps than its share. -/
def UsesShares (shares : List UInt64) (results : List Working) : Prop :=
  ∀ k share w, k + 1 < results.length → shares[k]? = some share → results[k]? = some w →
    share.toNat ≤ w.candidate.steps

theorem UsesShares.tail {share : UInt64} {shares : List UInt64} {w : Working}
    {results : List Working} (uses : UsesShares (share :: shares) (w :: results)) :
    UsesShares shares results := fun k share w k_lt found found' =>
  uses (k + 1) share w (Nat.succ_lt_succ k_lt) found found'

theorem exists_turns_iff
    (keeps : ∀ budget w after, optimize budget w = .ok after →
      after.candidate.steps ≤ budget.toNat)
    {ledger : Ledger} {i : Nat} {pool results : List Working}
    (length_eq : ledger.allotted.length = i + pool.length)
    (uses : UsesShares (ledger.allotted.drop i) results) (source : ChaCha.Generator) :
    (∃ taken, turns optimize i ledger source pool = .ok taken ∧ taken.map Turn.working = results) ↔
      (pool.zip (ledger.allotted.drop i)).mapM (fun (w, budget) => optimize budget w) =
        .ok results := by
  induction pool generalizing i results with
  | nil =>
      rw [List.zip_nil_left]
      constructor
      · rintro ⟨taken, taken_eq, rfl⟩
        cases taken_eq
        rfl
      · intro none_taken
        cases none_taken
        exact ⟨[], rfl, rfl⟩
  | cons w pool ih =>
      have inside : i < ledger.allotted.length := by
        rw [length_eq, List.length_cons]
        omega
      have later_length : ledger.allotted.length = i + 1 + pool.length := by
        rw [length_eq, List.length_cons]
        omega
      have drop_eq : ledger.allotted.drop i =
          ledger.allotment i :: ledger.allotted.drop (i + 1) := by
        rw [List.drop_eq_getElem_cons inside, Ledger.allotment_eq ledger inside]
      rw [drop_eq] at uses
      -- Nothing is left of the allotment, so the ledger and the generator stay as they are.
      have settled {after : Working} {later : List Working}
          (optimized : optimize (ledger.allotment i) w = .ok after)
          (results_eq : results = after :: later) (later_length : later.length = pool.length) :
          ledger.settle i (UInt64.ofNat after.candidate.steps) source = (ledger, source) := by
        refine Ledger.settle_spent length_eq (fun behind => ?_) source
        have within := keeps _ _ _ optimized
        subst results_eq
        have used := uses 0 _ after (by simp; omega) rfl rfl
        rw [Nat.le_antisymm within used, UInt64.ofNat_toNat]
      rw [drop_eq, List.zip_cons_cons, List.mapM_cons]
      constructor
      · rintro ⟨taken, taken_eq, rfl⟩
        obtain ⟨after, optimized, taken_eq⟩ := bind_eq_ok_iff.mp taken_eq
        obtain ⟨later, later_eq, taken_eq⟩ := bind_eq_ok_iff.mp taken_eq
        cases taken_eq
        have settled := settled optimized rfl (forall₂_of_turns later_eq).length_eq.symm
        change turns optimize (i + 1)
          (ledger.settle i (UInt64.ofNat after.candidate.steps) source).1
          (ledger.settle i (UInt64.ofNat after.candidate.steps) source).2 pool = _ at later_eq
        rw [settled] at later_eq
        have rest := (ih later_length uses.tail).mp ⟨later, later_eq, rfl⟩
        exact bind_eq_ok_iff.mpr ⟨after, optimized, bind_eq_ok_iff.mpr ⟨_, rest, rfl⟩⟩
      · intro mapped
        obtain ⟨after, optimized, mapped⟩ := bind_eq_ok_iff.mp mapped
        obtain ⟨later, rest, mapped⟩ := bind_eq_ok_iff.mp mapped
        cases mapped
        have rest_length : later.length = pool.length := by
          rw [← (mapM_eq_ok_iff.mp rest).length_eq, List.length_zip, List.length_drop]
          omega
        obtain ⟨taken, taken_eq, rfl⟩ := (ih later_length uses.tail).mpr rest
        refine ⟨⟨ledger, after⟩ :: taken, ?_, rfl⟩
        refine bind_eq_ok_iff.mpr ⟨after, optimized, ?_⟩
        rw [settled optimized rfl rest_length]
        exact bind_eq_ok_iff.mpr ⟨taken, taken_eq, rfl⟩

/-- The shares that candidates start from when they share a budget. -/
def shares (config : Config) (total : UInt64) (pool : List Working) : List UInt64 :=
  (partition total (constantCounts pool)
    (ChaCha.Generator.ofSeed (config.randomState.getD 0) 0)).1

theorem tuneAll_withParallel_iff {total : UInt64} (shared : config.finetuneMaxEvals = some total)
    {pool results : List Working} (uses : UsesShares (shares config total pool) results) :
    tuneAll (config.withParallel false) data (config.randomState.getD 0) pool = .ok results ↔
      tuneAll (config.withParallel true) data (config.randomState.getD 0) pool = .ok results := by
  have in_turn : tuneAll (config.withParallel false) data (config.randomState.getD 0) pool =
      (do return (← turns (tune config data (config.randomState.getD 0)) 0
        (opening config total pool).1 (opening config total pool).2 pool).map Turn.working) := by
    have shared : (config.withParallel false).finetuneMaxEvals = some total := shared
    rw [tuneAll_shared shared]
    rfl
  have side_by_side : tuneAll (config.withParallel true) data (config.randomState.getD 0) pool =
      (pool.zip (shares config total pool)).mapM fun (w, budget) =>
        tune config data (config.randomState.getD 0) budget w := by
    have shared : (config.withParallel true).finetuneMaxEvals = some total := shared
    rw [tuneAll_shared shared]
    rfl
  have length_eq : (opening config total pool).1.allotted.length = 0 + pool.length := by
    rw [Nat.zero_add]
    exact (length_partition total (constantCounts pool) _).trans (List.length_map _)
  have keeps : ∀ budget w after, tune config data (config.randomState.getD 0) budget w = .ok after →
      after.candidate.steps ≤ budget.toNat := fun _ _ _ => steps_le_of_tune
  have shares_eq : (opening config total pool).1.allotted.drop 0 = shares config total pool := rfl
  rw [← shares_eq] at uses side_by_side
  rw [in_turn, side_by_side]
  refine Iff.trans ?_ (exists_turns_iff keeps length_eq uses (opening config total pool).2)
  constructor
  · intro tuned
    obtain ⟨taken, taken_eq, tuned⟩ := bind_eq_ok_iff.mp tuned
    cases tuned
    exact ⟨taken, taken_eq, rfl⟩
  · rintro ⟨taken, taken_eq, rfl⟩
    exact bind_eq_ok_iff.mpr ⟨taken, taken_eq, rfl⟩

/-- Only the optimization of a pool depends on whether candidates are refined side by side. -/
theorem refine_withParallel {p q : Bool}
    (same : isTuning config data = true →
      tuneAll (config.withParallel p) data (config.randomState.getD 0) (repaired config 0 raw) =
        tuneAll (config.withParallel q) data (config.randomState.getD 0)
          (repaired config 0 raw)) :
    refine (config.withParallel p) raw data = refine (config.withParallel q) raw data := by
  have scoreAll_eq (p : Bool) (pool : List Working) (before : Summary) :
      scoreAll (config.withParallel p) data pool before = scoreAll config data pool before := by
    induction pool generalizing before with
    | nil => rfl
    | cons w pool ih =>
        simp only [scoreAll, ih]
        rfl
  have repaired_eq (p : Bool) : repaired (config.withParallel p) 0 raw = repaired config 0 raw :=
    have policy_eq : (config.withParallel p).sanitizePolicy = config.sanitizePolicy := rfl
    repaired_congr policy_eq 0 raw
  have stage_eq (summary : Summary) :
      finetuneStage (config.withParallel p) data (config.randomState.getD 0)
          (repaired config 0 raw) summary =
        finetuneStage (config.withParallel q) data (config.randomState.getD 0)
          (repaired config 0 raw) summary := by
    have tuning_eq (p : Bool) : isTuning (config.withParallel p) data = isTuning config data := rfl
    rw [finetuneStage, finetuneStage, tuning_eq, tuning_eq]
    cases tuning : isTuning config data with
    | true => rw [if_pos rfl, if_pos rfl, same tuning]
    | false => rfl
  rw [refine, refine, sanitizeAll_eq, sanitizeAll_eq, repaired_eq, repaired_eq]
  refine congrArg (config.validate >>= ·) (funext fun _ => ?_)
  refine congrArg₂ (· >>= ·) (stage_eq _) (funext fun staged => ?_)
  obtain ⟨pool, summary⟩ := staged
  simp only [scoreAll_eq]
  rfl

end Modes

/-- Candidates do not influence each other. -/
structure Independent (config : Config) (data : Dataset) : Prop where
  /-- What becomes of a text in any pool is what becomes of it by itself. -/
  refineText_eq : ∀ raw r, refine config raw data = .ok r → ∀ i text, raw[i]? = some text →
    refineText config data i text = .ok (r.candidate? i)
  /-- Another pool with the same text at a position makes the same candidate of it. -/
  candidate?_eq : ∀ raw raw' r r', refine config raw data = .ok r →
    refine config raw' data = .ok r' → ∀ i text, raw[i]? = some text → raw'[i]? = some text →
      r'.candidate? i = r.candidate? i
  /-- A pool is refined if and only if each of its texts can be by itself. -/
  exists_iff : ∀ raw, (∃ r, refine config raw data = .ok r) ↔
    ∀ i text, raw[i]? = some text → ∃ result, refineText config data i text = .ok result
  /-- It does not matter in which order the candidates are optimized. -/
  any_order : ∀ (pool results : List Working) (order : List Nat),
    order.Perm (List.range pool.length) →
      (advanceInOrder (tune config data (config.randomState.getD 0) config.finetuneSteps) order
          pool = .ok results ↔
        tuneAll config data (config.randomState.getD 0) pool = .ok results)
  /-- Nor does it matter whether they are optimized side by side. -/
  parallel_eq : ∀ raw, refine (config.withParallel true) raw data =
    refine (config.withParallel false) raw data

/-- Without a shared budget candidates do not influence each other, and with one it does not matter
whether they take turns or are refined side by side as long as nobody but the last one leaves
anything of their share. -/
theorem candidates_independent (config : Config) (data : Dataset)
    (accepted : config.validate = .ok ()) :
    (config.finetuneMaxEvals = none → Independent config data) ∧
      ∀ total, config.finetuneMaxEvals = some total → ∀ raw,
        (isTuning config data = true → ∃ parallel results,
          tuneAll (config.withParallel parallel) data (config.randomState.getD 0)
            (repaired config 0 raw) = .ok results ∧
          UsesShares (shares config total (repaired config 0 raw)) results) →
          refine (config.withParallel true) raw data =
            refine (config.withParallel false) raw data := by
  constructor
  · intro unshared
    have alone : ∀ raw r, refine config raw data = .ok r → ∀ i text, raw[i]? = some text →
        refineText config data i text = .ok (r.candidate? i) := by
      intro raw r refined i text found
      obtain ⟨results, each, candidates_eq⟩ := exists_results_of_refine unshared refined
      exact refineText_eq each candidates_eq found
    refine ⟨alone, ?_, ?_, ?_, ?_⟩
    · intro raw raw' r r' refined refined' i text found found'
      exact Except.ok.inj ((alone raw' r' refined' i text found').symm.trans
        (alone raw r refined i text found))
    · intro raw
      constructor
      · rintro ⟨r, refined⟩ i text found
        exact ⟨_, alone raw r refined i text found⟩
      · intro each
        have all : ∀ item ∈ raw.zipIdx, Yields (refineText config data item.2 item.1)
            fun _ => True := by
          rintro ⟨text, i⟩ member
          obtain ⟨result, refined⟩ := each i text (List.mem_zipIdx_iff_getElem?.mp member)
          exact ⟨result, refined, trivial⟩
        obtain ⟨results, mapped, -⟩ := yields_mapM all
        exact exists_refine_of_texts unshared accepted (mapM_eq_ok_iff.mp mapped)
    · intro pool results order all
      rw [advanceInOrder_eq_ok_iff_mapM all, tuneAll_unshared unshared]
    · intro raw
      refine refine_withParallel fun _ => ?_
      have unshared (p : Bool) : (config.withParallel p).finetuneMaxEvals = none := unshared
      rw [tuneAll_unshared (unshared true), tuneAll_unshared (unshared false)]
      rfl
  · intro total shared raw uses_shares
    refine refine_withParallel fun tuning => ?_
    obtain ⟨parallel, results, tuned, uses⟩ := uses_shares tuning
    cases parallel with
    | true => rw [tuned, (tuneAll_withParallel_iff shared uses).mpr tuned]
    | false => rw [tuned, (tuneAll_withParallel_iff shared uses).mp tuned]

/-- The first of two candidates uses its half of four steps, so it does not matter whether they
take turns. -/
theorem twoLines_independent :
    oneStep.validate = .ok () ∧ oneStep.finetuneMaxEvals = none ∧
      Independent oneStep lineSamples ∧
      fourSteps.validate = .ok () ∧ fourSteps.finetuneMaxEvals = some 4 ∧
      ∃ results, tuneAll (fourSteps.withParallel true) lineSamples 1
          (repaired fourSteps 0 ["1.5*x_0", "2*x_0"]) = .ok results ∧
        UsesShares (shares fourSteps 4 (repaired fourSteps 0 ["1.5*x_0", "2*x_0"])) results ∧
        refine (fourSteps.withParallel true) ["1.5*x_0", "2*x_0"] lineSamples =
          refine (fourSteps.withParallel false) ["1.5*x_0", "2*x_0"] lineSamples := by
  have accepted : oneStep.validate = .ok () := by decide +kernel
  have accepted' : fourSteps.validate = .ok () := by decide +kernel
  have shares_eq : shares fourSteps 4 (repaired fourSteps 0 ["1.5*x_0", "2*x_0"]) = [2, 2] := by
    decide +kernel
  have steps_eq : (tuneAll (fourSteps.withParallel true) lineSamples 1
      (repaired fourSteps 0 ["1.5*x_0", "2*x_0"])).toOption.map
        (fun results => results.map fun w => w.candidate.steps) = some [2, 1] := by decide +kernel
  obtain ⟨results, tuned, steps_eq⟩ := exists_of_map_toOption steps_eq
  have uses : UsesShares (shares fourSteps 4 (repaired fourSteps 0 ["1.5*x_0", "2*x_0"]))
      results := by
    intro k share w k_lt found found'
    have length_eq := congrArg List.length steps_eq
    rw [List.length_map, List.length_cons, List.length_singleton] at length_eq
    obtain rfl : k = 0 := by omega
    have first_steps := congrArg (fun steps => steps[0]?) steps_eq
    rw [shares_eq] at found
    simp only [List.getElem?_map, found', Option.map_some] at first_steps
    rw [Option.some.inj first_steps, ← Option.some.inj found]
    decide
  obtain ⟨-, agree⟩ := candidates_independent fourSteps lineSamples accepted'
  exact ⟨accepted, rfl, (candidates_independent oneStep lineSamples accepted).1 rfl, accepted', rfl,
    results, tuned, uses, agree 4 rfl _ fun _ => ⟨true, results, tuned, uses⟩⟩

end Refinement

end FormulaFit
