import FormulaFit.Program.Basic
import FormulaFit.Proofs.Arena.Unfolding
import Mathlib.Data.List.Induction
import Mathlib.Tactic.Common

/-!
# Slots of programs

A run of a program over one row overwrites its buffer from the first slot to the last.  If every
instruction reads only slots before its own, columns that the row has and coefficients that are
supplied, then the run succeeds, and it leaves the same slots behind whatever the buffer held.
-/

namespace FormulaFit

section Checked

variable {ε β γ σ : Type}

theorem bind_eq_ok_iff {first : Except ε β} {next : β → Except ε γ} {c : γ} :
    (first >>= next) = .ok c ↔ ∃ b, first = .ok b ∧ next b = .ok c := by
  cases first with
  | error e => simp [bind, Except.bind]
  | ok b => simp [bind, Except.bind]

theorem exists_of_map_toOption {result : Except ε β} {f : β → γ} {c : γ}
    (known : result.toOption.map f = some c) : ∃ b, result = .ok b ∧ f b = c := by
  cases result with
  | error e => cases known
  | ok b => exact ⟨b, rfl, Option.some.inj known⟩

theorem fetch_eq_ok_iff {entries : Array β} {i : Nat} {b : β} :
    fetch entries i = .ok b ↔ entries[i]? = some b := by
  unfold fetch
  cases entries[i]? <;> simp

theorem fetch_eq_getD {entries : Array β} {i : Nat} (i_lt : i < entries.size) (default : β) :
    fetch entries i = .ok (entries.getD i default) := by
  simp [fetch, Array.getD_eq_getD_getElem?, Array.getElem?_eq_getElem i_lt]

theorem put_eq_ok {entries : Array β} {i : Nat} (i_lt : i < entries.size) (b : β) :
    put entries i b = .ok (entries.setIfInBounds i b) := if_pos i_lt

theorem extract_setIfInBounds (entries : Array β) (k : Nat) (b : β) :
    (entries.setIfInBounds k b).extract 0 k = entries.extract 0 k := by
  apply Array.ext_getElem?
  intro i
  rw [Array.getElem?_extract, Array.getElem?_extract, Array.size_setIfInBounds]
  split
  · rename_i i_lt
    rw [Array.getElem?_setIfInBounds_ne (by omega)]
  · rfl

theorem mapM_eq_ok {items : List β} {f : β → Except ε γ} {g : β → γ}
    (pointwise : ∀ b ∈ items, f b = .ok (g b)) : items.mapM f = .ok (items.map g) := by
  induction items with
  | nil => rfl
  | cons head items ih =>
      rw [List.mapM_cons, pointwise head (by simp),
        ih fun b member => pointwise b (List.mem_cons_of_mem _ member)]
      rfl

theorem mapM_const {items : List β} (nonempty : items ≠ []) (result : Except ε γ) :
    (items.mapM fun _ => result) = result.map (List.replicate items.length) := by
  cases result with
  | ok c =>
      have repeated : (items.mapM fun _ => (Except.ok c : Except ε γ)) =
          .ok (items.map fun _ => c) := mapM_eq_ok fun _ _ => rfl
      rw [repeated, List.map_const']
      rfl
  | error fault =>
      obtain ⟨head, rest, rfl⟩ := List.exists_cons_of_ne_nil nonempty
      rfl

theorem mapM_eq_ok_iff {items : List β} {f : β → Except ε γ} {results : List γ} :
    items.mapM f = .ok results ↔ List.Forall₂ (fun b c => f b = .ok c) items results := by
  constructor
  · intro mapped
    induction items generalizing results with
    | nil =>
        cases mapped
        exact .nil
    | cons head items ih =>
        rw [List.mapM_cons] at mapped
        obtain ⟨first, first_eq, mapped⟩ := bind_eq_ok_iff.mp mapped
        obtain ⟨rest, rest_eq, mapped⟩ := bind_eq_ok_iff.mp mapped
        cases mapped
        exact .cons first_eq (ih rest_eq)
  · intro each
    induction each with
    | nil => rfl
    | cons head _ ih =>
        rw [List.mapM_cons, head]
        exact bind_eq_ok_iff.mpr ⟨_, rfl, bind_eq_ok_iff.mpr ⟨_, ih, rfl⟩⟩

theorem mapM_eq_some_map {items : List β} {f? : β → Option γ} {f : β → γ}
    (defined : ∀ b ∈ items, f? b = some (f b)) : items.mapM f? = some (items.map f) := by
  induction items with
  | nil => rfl
  | cons b items ih =>
      obtain ⟨head, tail⟩ := List.forall_mem_cons.mp defined
      rw [List.mapM_cons, head, ih tail]
      rfl

theorem mapM_eq_none {items : List β} {f? : β → Option γ} {b : β} (member : b ∈ items)
    (absent : f? b = none) : items.mapM f? = none := by
  induction items with
  | nil => cases member
  | cons head items ih =>
      rw [List.mapM_cons]
      rcases List.mem_cons.mp member with rfl | member
      · rw [absent]
        rfl
      · rw [ih member]
        cases f? head <;> rfl

theorem exists_mem_of_forall₂ {R : β → γ → Prop} {items : List β} {results : List γ}
    (related : List.Forall₂ R items results) {c : γ} (member : c ∈ results) :
    ∃ b ∈ items, R b c := by
  induction related with
  | nil => cases member
  | @cons b _ _ _ first _ ih =>
      rcases List.mem_cons.mp member with rfl | member
      · exact ⟨b, List.mem_cons_self, first⟩
      · obtain ⟨b', member', belongs⟩ := ih member
        exact ⟨b', List.mem_cons_of_mem _ member', belongs⟩

theorem foldlM_congr {items : List β} {step step' : σ → β → Except ε σ}
    (agree : ∀ b ∈ items, ∀ s, step s b = step' s b) (start : σ) :
    items.foldlM step start = items.foldlM step' start := by
  induction items generalizing start with
  | nil => rfl
  | cons b items ih =>
      rw [List.foldlM_cons, List.foldlM_cons, agree b List.mem_cons_self]
      exact congrArg (step' start b >>= ·)
        (funext fun s => ih (fun b' member => agree b' (List.mem_cons_of_mem b member)) s)

theorem foldlM_invariant {items : List β} {step : σ → β → Except ε σ} (P : Nat → σ → Prop)
    {start result : σ} (initially : P 0 start)
    (keeps : ∀ i b s s', items[i]? = some b → P i s → step s b = .ok s' → P (i + 1) s')
    (finished : items.foldlM step start = .ok result) : P items.length result := by
  induction items generalizing start P with
  | nil =>
      obtain rfl : start = result := by simpa [pure, Except.pure] using finished
      exact initially
  | cons head items ih =>
      rw [List.foldlM_cons, bind_eq_ok_iff] at finished
      obtain ⟨next, stepped, finished⟩ := finished
      exact ih (fun i => P (i + 1)) (keeps 0 head start next rfl initially stepped)
        (fun i b s s' found => keeps (i + 1) b s s' (by simpa using found)) finished

/-- A checked fold ends, or stops with one of some faults, if every step does where the steps before
it lead to. -/
theorem foldlM_exists_or {items : List β} {step : σ → β → Except ε σ} (P : Nat → σ → Prop)
    {fault : ε → Prop} {start : σ} (initially : P 0 start)
    (progress : ∀ i b s, items[i]? = some b → P i s →
      (∃ s', step s b = .ok s' ∧ P (i + 1) s') ∨ ∃ e, fault e ∧ step s b = .error e) :
    (∃ result, items.foldlM step start = .ok result) ∨
      ∃ e, fault e ∧ items.foldlM step start = .error e := by
  induction items generalizing start P with
  | nil => exact .inl ⟨start, rfl⟩
  | cons head items ih =>
      rw [List.foldlM_cons]
      rcases progress 0 head start rfl initially with ⟨next, stepped, holds⟩ | ⟨e, expected, failed⟩
      · rw [stepped]
        exact ih (fun i => P (i + 1)) holds
          fun i b s found => progress (i + 1) b s (by simpa using found)
      · rw [failed]
        exact .inr ⟨e, expected, rfl⟩

theorem foldlM_exists {items : List β} {step : σ → β → Except ε σ} (P : Nat → σ → Prop)
    {start : σ} (initially : P 0 start)
    (progress : ∀ i b s, items[i]? = some b → P i s → ∃ s', step s b = .ok s' ∧ P (i + 1) s') :
    ∃ result, items.foldlM step start = .ok result := by
  have ends : (∃ result, items.foldlM step start = .ok result) ∨
      ∃ e, False ∧ items.foldlM step start = .error e :=
    foldlM_exists_or P initially fun i b s found holds => .inl (progress i b s found holds)
  simpa using ends

/-- If the computation fails, then by a crash. -/
def CrashOnly (result : Except Error β) : Prop := ∀ e, result = .error e → e.isCrash = true

theorem CrashOnly.ok (b : β) : CrashOnly (.ok b) := fun _ failed => by cases failed

theorem CrashOnly.fetch (entries : Array β) (i : Nat) : CrashOnly (fetch entries i) := by
  intro e failed
  unfold FormulaFit.fetch at failed
  split at failed <;> cases failed
  rfl

theorem CrashOnly.put (entries : Array β) (i : Nat) (b : β) : CrashOnly (put entries i b) := by
  intro e failed
  unfold FormulaFit.put at failed
  split at failed <;> cases failed
  rfl

theorem CrashOnly.bind {first : Except Error β} {next : β → Except Error γ}
    (crash : CrashOnly first) (crash_next : ∀ b, first = .ok b → CrashOnly (next b)) :
    CrashOnly (first >>= next) := by
  cases first with
  | error e =>
      intro e' failed
      cases failed
      exact crash e rfl
  | ok b => exact crash_next b rfl

theorem CrashOnly.mapM {items : List β} {f : β → Except Error γ}
    (each : ∀ b ∈ items, CrashOnly (f b)) : CrashOnly (items.mapM f) := by
  induction items with
  | nil => exact .ok _
  | cons head items ih =>
      rw [List.mapM_cons]
      refine (each head (by simp)).bind fun _ _ => ?_
      exact (ih fun b member => each b (List.mem_cons_of_mem _ member)).bind fun _ _ => .ok _

theorem CrashOnly.foldlM {items : List β} {step : σ → β → Except Error σ}
    (each : ∀ s, ∀ b ∈ items, CrashOnly (step s b)) (start : σ) :
    CrashOnly (items.foldlM step start) := by
  induction items generalizing start with
  | nil => exact .ok _
  | cons head items ih =>
      rw [List.foldlM_cons]
      refine (each start head (by simp)).bind fun next _ => ?_
      exact ih (fun s b member => each s b (List.mem_cons_of_mem _ member)) next

end Checked

namespace Instr

variable {α β γ : Type}

/-- The value of an instruction over operands that are values. -/
def result [Scalar α] (placeholder : α) (row params : Array α) : Instr α α → α
  | const v => v
  | var i => row.getD i 0
  | param i => params.getD i 0
  | unary op a => op.apply a
  | binary .div a b => quotient placeholder a b
  | binary op a b => op.apply a b
  | nary op args => op.fold args

/-- The instruction over the contents of slots. -/
def atSlots [Zero γ] (slots : Array γ) (instr : Instr α Nat) : Instr α γ :=
  instr.map fun a => slots.getD a 0

/-- The instruction reads only columns of the row, supplied coefficients and slots before its
own. -/
structure Fits (row params : Array α) (k : Nat) (instr : Instr α Nat) : Prop where
  column : ∀ i, instr = .var i → i < row.size
  coefficient : ∀ i, instr = .param i → i < params.size
  operand : ∀ a ∈ instr.operands, a < k

theorem map_congr {f g : β → γ} {instr : Instr α β} (agree : ∀ a ∈ instr.operands, f a = g a) :
    instr.map f = instr.map g := by
  cases instr <;> simp_all [map, operands]

@[simp]
theorem map_map {δ : Type} (g : γ → δ) (f : β → γ) (instr : Instr α β) :
    (instr.map f).map g = instr.map (g ∘ f) := by
  cases instr <;> simp [map]

theorem atSlots_extract [Zero γ] (slots : Array γ) {k : Nat} {instr : Instr α Nat}
    (operand_lt : ∀ a ∈ instr.operands, a < k) :
    instr.atSlots (slots.extract 0 k) = instr.atSlots slots :=
  map_congr fun a member => getD_extract slots (operand_lt a member) 0

theorem Fits.leaves [Zero γ] {row params : Array α} {k : Nat} {instr : Instr α Nat}
    (fits : instr.Fits row params k) (slots : Array γ) :
    (∀ i, instr.atSlots slots = .var i → i < row.size) ∧
      ∀ i, instr.atSlots slots = .param i → i < params.size := by
  constructor <;> intro i same <;> cases instr <;> simp [Instr.atSlots, map] at same
  · exact same ▸ fits.column _ rfl
  · exact same ▸ fits.coefficient _ rfl

/-- An instruction that fits is evaluated over the slots that are there. -/
theorem Fits.value_eq [Scalar α] {row params slots : Array α} {k : Nat} {instr : Instr α Nat}
    (fits : instr.Fits row params k) (placeholder : α) (k_le : k ≤ slots.size) :
    instr.value placeholder row params slots =
      .ok ((instr.atSlots slots).result placeholder row params) := by
  have fetched : ∀ a ∈ instr.operands, fetch slots a = .ok (slots.getD a 0) :=
    fun a member => fetch_eq_getD (Nat.lt_of_lt_of_le (fits.operand a member) k_le) 0
  cases instr with
  | const v => rfl
  | var i => exact fetch_eq_getD (fits.column i rfl) 0
  | param i => exact fetch_eq_getD (fits.coefficient i rfl) 0
  | unary op a => simp [value, fetched a (by simp [operands]), atSlots, map, result, bind,
      Except.bind, pure, Except.pure]
  | binary op a b =>
      simp only [value, fetched a (by simp [operands]), fetched b (by simp [operands]),
        atSlots, map, bind, Except.bind, pure, Except.pure]
      cases op <;> rfl
  | nary op args =>
      rw [value, (mapM_eq_ok fetched : args.mapM (fetch slots) = _)]
      rfl

theorem Fits.put_value [Scalar α] {row params slots : Array α} {k : Nat} {instr : Instr α Nat}
    (fits : instr.Fits row params k) (placeholder : α) (k_lt : k < slots.size) :
    (do put slots k (← instr.value placeholder row params slots)) =
      .ok (slots.setIfInBounds k ((instr.atSlots slots).result placeholder row params)) := by
  rw [fits.value_eq placeholder (Nat.le_of_lt k_lt)]
  exact put_eq_ok k_lt _

theorem crashOnly_value [Scalar α] (placeholder : α) (row params slots : Array α)
    (instr : Instr α Nat) : CrashOnly (instr.value placeholder row params slots) := by
  cases instr with
  | const v => exact .ok v
  | var i => exact .fetch row i
  | param i => exact .fetch params i
  | unary op a => exact (CrashOnly.fetch slots a).bind fun _ _ => .ok _
  | binary op a b =>
      exact (CrashOnly.fetch slots a).bind fun _ _ =>
        (CrashOnly.fetch slots b).bind fun _ _ => .ok _
  | nary op args => exact (CrashOnly.mapM fun a _ => .fetch slots a).bind fun _ _ => .ok _

/-- The slots that instructions fill by a rule, one after the other. -/
def fill [Zero γ] (rule : Instr α γ → γ) (instrs : List (Instr α Nat)) : Array γ :=
  instrs.foldl (fun slots instr => slots.push (rule (instr.atSlots slots))) #[]

theorem fill_append [Zero γ] (rule : Instr α γ → γ) (instrs : List (Instr α Nat))
    (instr : Instr α Nat) :
    fill rule (instrs ++ [instr]) =
      (fill rule instrs).push (rule (instr.atSlots (fill rule instrs))) := by
  simp [fill]

theorem size_fill [Zero γ] (rule : Instr α γ → γ) (instrs : List (Instr α Nat)) :
    (fill rule instrs).size = instrs.length := by
  simpa [fill] using (getElem?_foldl_push
    (fun slots (instr : Instr α Nat) => rule (instr.atSlots slots)) instrs #[]).1

theorem getD_fill [Zero γ] (rule : Instr α γ → γ) {instrs : List (Instr α Nat)} {k : Nat}
    {instr : Instr α Nat} (found : instrs[k]? = some instr)
    (operand_lt : ∀ a ∈ instr.operands, a < k) :
    (fill rule instrs).getD k 0 = rule (instr.atSlots (fill rule instrs)) := by
  have entry := (getElem?_foldl_push (fun slots (instr : Instr α Nat) => rule (instr.atSlots slots))
    instrs #[]).2.2 k instr found
  simp only [Array.size_empty, Nat.zero_add] at entry
  change (fill rule instrs)[k]? =
    some (rule (instr.atSlots ((fill rule instrs).extract 0 k))) at entry
  rw [atSlots_extract _ operand_lt] at entry
  simp [Array.getD_eq_getD_getElem?, entry]

/-- A function that turns the results of one rule into those of another turns the slots filled by
the one into those filled by the other. -/
theorem fill_map {δ : Type} [Zero γ] [Zero δ] {f : γ → δ} (f_zero : f 0 = 0)
    {rule : Instr α γ → γ} {rule' : Instr α δ → δ} {instrs : List (Instr α Nat)}
    (commutes : ∀ instr ∈ instrs, ∀ slots : Array γ,
      rule' ((instr.atSlots slots).map f) = f (rule (instr.atSlots slots))) :
    fill rule' instrs = (fill rule instrs).map f := by
  induction instrs using List.reverseRecOn with
  | nil => simp [fill]
  | append_singleton instrs instr ih =>
      have before := ih fun instr member => commutes instr (List.mem_append_left _ member)
      have read : ∀ a, ((fill rule instrs).map f).getD a 0 = f ((fill rule instrs).getD a 0) := by
        intro a
        rw [Array.getD_eq_getD_getElem?, Array.getElem?_map, Array.getD_eq_getD_getElem?]
        cases (fill rule instrs)[a]? <;> simp [f_zero]
      have last := commutes instr (by simp) (fill rule instrs)
      rw [fill_append, fill_append, before, Array.map_push, ← last]
      simp only [atSlots, map_map, read, Function.comp_def]

end Instr

namespace Program

variable {α : Type} [Scalar α]

/-- The slots of a program at a row of data. -/
def rowSlots (p : Program α) (row params : Array α) : Array α :=
  Instr.fill (Instr.result p.divisionPlaceholder row params) p.instrs.toList

/-- Every instruction fits. -/
def Fits (p : Program α) (row params : Array α) : Prop :=
  ∀ (k : Nat) (instr : Instr α Nat), p.instrs[k]? = some instr → instr.Fits row params k

@[simp]
theorem size_rowSlots (p : Program α) (row params : Array α) :
    (p.rowSlots row params).size = p.instrs.size := by
  simp [rowSlots, Instr.size_fill]

/-- One run over a row succeeds and leaves the slots of the row behind, whatever its buffer held
before. -/
theorem forward_eq_rowSlots {p : Program α} {row params buffer : Array α}
    (fits : p.Fits row params) (size_eq : buffer.size = p.instrs.size) :
    p.forward row params buffer = .ok (p.rowSlots row params) := by
  -- After `k` instructions the first `k` slots are filled, and the buffer is as large as before.
  let Filled (k : Nat) (slots : Array α) : Prop :=
    slots.size = p.instrs.size ∧
      slots.extract 0 k =
        Instr.fill (Instr.result p.divisionPlaceholder row params) (p.instrs.toList.take k)
  have progress : ∀ k item slots, p.instrs.toList.zipIdx[k]? = some item → Filled k slots →
      ∃ next, (do put slots item.2 (← item.1.value p.divisionPlaceholder row params slots)) =
        Except.ok next ∧ Filled (k + 1) next := by
    rintro k ⟨instr, index⟩ slots found ⟨slots_size, slots_eq⟩
    simp only [List.getElem?_zipIdx, Array.getElem?_toList, Option.map_eq_some_iff, Prod.mk.injEq,
      Nat.zero_add] at found
    obtain ⟨instr, found, rfl, rfl⟩ := found
    have k_lt : k < p.instrs.size := (Array.getElem?_eq_some_iff.mp found).1
    have instr_fits := fits k _ found
    refine ⟨_, instr_fits.put_value _ (slots_size ▸ k_lt), by simpa using slots_size, ?_⟩
    rw [List.take_add_one, Array.getElem?_toList, found, Option.toList_some, Instr.fill_append,
      ← slots_eq, Instr.atSlots_extract _ instr_fits.operand,
      Array.extract_succ_right (by omega) (by simpa [slots_size] using k_lt)]
    simp [extract_setIfInBounds]
  obtain ⟨result, finished⟩ := foldlM_exists Filled ⟨size_eq, by simp [Instr.fill]⟩ progress
  have filled := foldlM_invariant Filled ⟨size_eq, by simp [Instr.fill]⟩
    (fun k item slots next found holds stepped => by
      obtain ⟨next', stepped', holds'⟩ := progress k item slots found holds
      rw [stepped] at stepped'
      obtain rfl := Except.ok.inj stepped'
      exact holds') finished
  obtain ⟨result_size, result_eq⟩ := filled
  have result_extract : result.extract 0 p.instrs.toList.zipIdx.length = result := by
    rw [List.length_zipIdx, Array.length_toList, ← result_size]
    exact Array.extract_size
  rw [result_extract, List.length_zipIdx, List.take_length] at result_eq
  rw [forward, finished, result_eq, rowSlots]

theorem lt_of_forward_eq_ok {p : Program α} {row params buffer slots : Array α}
    (finished : p.forward row params buffer = .ok slots) {k i : Nat}
    (found : p.instrs[k]? = some (.param i)) : i < params.size := by
  have supplied := foldlM_invariant
    (fun k (_ : Array α) => ∀ j i, j < k → p.instrs[j]? = some (.param i) → i < params.size)
    (fun j i j_lt => absurd j_lt (Nat.not_lt_zero _))
    (fun k item s s' at_k before stepped j i j_lt at_j => by
      rcases Nat.lt_succ_iff_lt_or_eq.mp j_lt with j_lt | rfl
      · exact before j i j_lt at_j
      · have same : item.1 = .param i := by
          simp only [List.getElem?_zipIdx, Array.getElem?_toList, Option.map_eq_some_iff] at at_k
          obtain ⟨instr, at_k, rfl⟩ := at_k
          exact Option.some.inj (at_k.symm.trans at_j)
        obtain ⟨v, evaluated, -⟩ := bind_eq_ok_iff.mp stepped
        rw [same, Instr.value, fetch_eq_ok_iff] at evaluated
        exact (Array.getElem?_eq_some_iff.mp evaluated).1)
    finished
  refine supplied k i ?_ found
  simpa using (Array.getElem?_eq_some_iff.mp found).1

theorem crashOnly_forward (p : Program α) (row params buffer : Array α) :
    CrashOnly (p.forward row params buffer) :=
  CrashOnly.foldlM (fun slots item _ => (item.1.crashOnly_value _ row params slots).bind
    fun _ _ => .put slots item.2 _) buffer

/-- Once the shapes are checked, evaluation fails only by a crash. -/
theorem crashOnly_evaluateRows (p : Program α) (params buffer : Array α) (rows : List (Array α)) :
    CrashOnly (p.evaluateRows params buffer rows) := by
  induction rows generalizing buffer with
  | nil => exact .ok _
  | cons row rows ih =>
      exact (p.crashOnly_forward row params buffer).bind fun slots _ =>
        (CrashOnly.fetch slots _).bind fun _ _ => (ih slots).bind fun _ _ => .ok _

theorem length_of_evaluateRows {p : Program α} {params buffer : Array α} {rows : List (Array α)}
    {values : List α} (evaluated : p.evaluateRows params buffer rows = .ok values) :
    values.length = rows.length := by
  induction rows generalizing buffer values with
  | nil =>
      cases evaluated
      rfl
  | cons row rows ih =>
      rw [evaluateRows, bind_eq_ok_iff] at evaluated
      obtain ⟨slots, -, evaluated⟩ := evaluated
      rw [bind_eq_ok_iff] at evaluated
      obtain ⟨value, -, evaluated⟩ := evaluated
      rw [bind_eq_ok_iff] at evaluated
      obtain ⟨later, evaluated, rest⟩ := evaluated
      cases rest
      rw [List.length_cons, ih evaluated, List.length_cons]

omit [Scalar α] in
theorem checkInputs_eq_ok_iff {p : Program α} {x : Matrix α} {params : Array α} :
    p.checkInputs x params = .ok () ↔ params.size = p.paramCount ∧ p.featureCount ≤ x.cols := by
  rw [checkInputs]
  split
  · rename_i other
    exact iff_of_false (by simp) fun ⟨supplied, _⟩ => other supplied
  · rename_i supplied
    split
    · rename_i narrow
      exact iff_of_false (by simp) fun ⟨_, wide⟩ => Nat.not_lt.mpr wide narrow
    · rename_i wide
      exact iff_of_true rfl ⟨not_not.mp supplied, Nat.not_lt.mp wide⟩

theorem exists_forward_of_evaluate {p : Program α} {x : Matrix α} {params : Array α}
    {values : List α} (rows_pos : 0 < x.rows) (evaluated : p.evaluate x params = .ok values) :
    params.size = p.paramCount ∧ ∃ row buffer slots, p.forward row params buffer = .ok slots := by
  rw [evaluate, bind_eq_ok_iff] at evaluated
  obtain ⟨_, checked, evaluated⟩ := evaluated
  refine ⟨(checkInputs_eq_ok_iff.mp checked).1, ?_⟩
  obtain ⟨row, rows, rows_eq⟩ : ∃ row rows, x.rowList = row :: rows :=
    List.exists_cons_of_length_pos (by simpa [Matrix.rowList] using rows_pos)
  rw [rows_eq, evaluateRows, bind_eq_ok_iff] at evaluated
  obtain ⟨slots, finished, -⟩ := evaluated
  exact ⟨row, _, slots, finished⟩

/-- A program that fits every row gives the last slot of each, and rows do not depend on each
other. -/
theorem evaluateRows_eq {p : Program α} {params buffer : Array α} {rows : List (Array α)}
    (fits : ∀ row ∈ rows, p.Fits row params) (size_eq : buffer.size = p.instrs.size)
    (nonempty : 0 < p.instrs.size) :
    p.evaluateRows params buffer rows =
      .ok (rows.map fun row => (p.rowSlots row params).getD (p.instrs.size - 1) 0) := by
  induction rows generalizing buffer with
  | nil => rfl
  | cons row rows ih =>
      have last_lt : p.instrs.size - 1 < (p.rowSlots row params).size := by
        rw [size_rowSlots]
        exact Nat.sub_one_lt (Nat.ne_of_gt nonempty)
      have later := ih (fun row member => fits row (List.mem_cons_of_mem _ member))
        (size_rowSlots p row params)
      rw [evaluateRows, forward_eq_rowSlots (fits row (by simp)) size_eq]
      simp only [bind, Except.bind, output, fetch_eq_getD last_lt 0, later]
      rfl

end Program

end FormulaFit
