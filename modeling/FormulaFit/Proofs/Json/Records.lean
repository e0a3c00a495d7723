import FormulaFit.Proofs.Json.Text
import FormulaFit.Proofs.Program.Slots
import FormulaFit.Refine.Model
import Mathlib.Data.List.Nodup

/-!
# Models as records

A record that is written names each of its fields once and in order, so it is read field by field.
Stored formulas, summaries and models come back as they were if their doubles do and their counts
and indices fit their words.
-/

namespace FormulaFit

namespace Json

theorem lookup_zip {names : List String} {values : List Json} (distinct : names.Nodup)
    (length_eq : names.length = values.length) :
    names.map (fun name => (names.zip values).lookup name) = values.map some := by
  induction names generalizing values with
  | nil =>
      cases values with
      | nil => rfl
      | cons value values => cases length_eq
  | cons name names ih =>
      cases values with
      | nil => cases length_eq
      | cons value values =>
          obtain ⟨fresh, distinct⟩ := List.nodup_cons.mp distinct
          have later : ∀ other ∈ names, ((name, value) :: names.zip values).lookup other =
              (names.zip values).lookup other := fun other member => by
            have apart : (other == name) = false :=
              beq_eq_false_iff_ne.mpr fun same => fresh (same ▸ member)
            rw [List.lookup_cons, apart]
          rw [List.zip_cons_cons, List.map_cons, List.map_cons, List.map_congr_left later,
            ih distinct (Nat.succ.inj length_eq), List.lookup_cons_self]

/-- A record is read as the values of its fields. -/
theorem record?_zip {names : List String} {values : List Json} (distinct : names.Nodup)
    (length_eq : names.length = values.length) :
    (object (names.zip values)).record? false names = some (values.map some) := by
  have given : (names.zip values).map Prod.fst = names :=
    List.map_fst_zip (Nat.le_of_eq length_eq)
  have once : (names.any fun name => decide (1 < names.count name)) = false := by
    rw [List.any_eq_false]
    intro name _
    have count_le := List.nodup_iff_count_le_one.mp distinct name
    simpa using count_le
  simp only [record?, given, once, Bool.false_and, Bool.or_false, Bool.false_eq_true, if_false,
    lookup_zip distinct length_eq]

theorem legible_zip (names : List String) {values : List Json}
    (each : ∀ j ∈ values, j.Legible) : (object (names.zip values)).Legible :=
  .object fun _ member => each _ (List.of_mem_zip member).2

theorem legible_ofNat (n : Nat) : (ofNat n).Legible := .number (Decimal.spelled_digitsOf n)

theorem legible_ofFloat (v : Float) : (ofFloat v).Legible := by
  cases finite : v.isFinite with
  | true =>
      obtain ⟨n, written, spelled, -⟩ := exists_ofFloat_eq finite
      exact written ▸ .number spelled
  | false => exact ofFloat_eq_null finite ▸ .null

end Json

theorem ofTag?_tag {α : Type} {all : List α} {tag : α → String} (distinct : (all.map tag).Nodup)
    {a : α} (member : a ∈ all) : ofTag? all tag (.string (tag a)) = some a := by
  have found : ∃ b, all.find? (fun b => tag b == tag a) = some b := by
    rw [← Option.isSome_iff_exists, List.find?_isSome]
    exact ⟨a, member, beq_self_eq_true _⟩
  obtain ⟨b, found⟩ := found
  have tag_eq : tag b = tag a := by simpa using List.find?_some found
  rw [List.inj_on_of_nodup_map distinct (List.mem_of_find?_eq_some found) member tag_eq] at found
  exact found

theorem mapM_map_eq_some {α β : Type} {write : α → β} {read? : β → Option α} {items : List α}
    (each : ∀ a ∈ items, read? (write a) = some a) : (items.map write).mapM read? = some items := by
  induction items with
  | nil => rfl
  | cons a items ih =>
      obtain ⟨read_a, each⟩ := List.forall_mem_cons.mp each
      rw [List.map_cons, List.mapM_cons, read_a, ih each]
      rfl

namespace Node

/-- The node comes back from its JSON form: its literal does, and its children are words. -/
structure IsStorable (n : Node Float NodeId) : Prop where
  literal : ∀ v, n = .const v → (Json.ofFloat v).float? = some v
  child_lt : ∀ c ∈ n.children, c < UInt32.size

theorem ofJson?_toJson {n : Node Float NodeId} (storable : n.IsStorable) :
    ofJson? n.toJson = some n := by
  have reads : ∀ c ∈ n.children, id? (idJson c) = some c :=
    fun c member => Json.natBelow?_ofNat (storable.child_lt c member)
  have literal := storable.literal
  rw [ofJson?]
  cases n with
  | const v => simp [toJson, Json.variant?, ofKind?, literal v rfl]
  | var i => simp [toJson, Json.variant?, ofKind?, Json.word?_ofNat]
  | param i => simp [toJson, Json.variant?, ofKind?, Json.word?_ofNat]
  | symbol s =>
      have tag_read : ofTag? Symbol.all Symbol.tag (.string s.tag) = some s :=
        ofTag?_tag (by decide) (by cases s <;> decide)
      simp [toJson, Json.variant?, ofKind?, tag_read]
  | unary op a =>
      have tag_read : ofTag? UnaryOp.all UnaryOp.tag (.string op.tag) = some op :=
        ofTag?_tag (by decide) (by cases op <;> decide)
      simp [toJson, Json.variant?, ofKind?, tag_read, reads a (by simp [children])]
  | binary op a b =>
      have tag_read : ofTag? BinaryOp.all BinaryOp.tag (.string op.tag) = some op :=
        ofTag?_tag (by decide) (by cases op <;> decide)
      simp [toJson, Json.variant?, ofKind?, tag_read, reads a (by simp [children]),
        reads b (by simp [children])]
  | nary op args =>
      have tag_read : ofTag? NaryOp.all NaryOp.tag (.string op.tag) = some op :=
        ofTag?_tag (by decide) (by cases op <;> decide)
      have args_read : ids? (.array (args.map idJson)) = some args := mapM_map_eq_some reads
      simp [toJson, Json.variant?, ofKind?, tag_read, args_read]
  | relation op a b =>
      have tag_read : ofTag? Comparison.all Comparison.tag (.string op.tag) = some op :=
        ofTag?_tag (by decide) (by cases op <;> decide)
      simp [toJson, Json.variant?, ofKind?, tag_read, reads a (by simp [children]),
        reads b (by simp [children])]
  | bounds a b =>
      simp [toJson, Json.variant?, ofKind?, reads a (by simp [children]),
        reads b (by simp [children])]
  | call name args =>
      have args_read : ids? (.array (args.map idJson)) = some args := mapM_map_eq_some reads
      have fields :
          (Json.object [("name", .string name), ("args", .array (args.map idJson))]).record? false
            ["name", "args"] = some [some (.string name), some (.array (args.map idJson))] :=
        @Json.record?_zip ["name", "args"] [_, _] (by decide) rfl
      simp [toJson, Json.variant?, ofKind?, fields, args_read, Json.string?]

theorem legible_toJson (n : Node Float NodeId) : n.toJson.Legible := by
  have ids (args : List NodeId) : (Json.array (args.map idJson)).Legible := by
    refine .array fun j member => ?_
    obtain ⟨id, -, rfl⟩ := List.mem_map.mp member
    exact Json.legible_ofNat id
  have alternative {kind : String} {content : Json} (legible : content.Legible) :
      (Json.object [(kind, content)]).Legible := .object (List.forall_mem_singleton.mpr legible)
  cases n with
  | const v => exact alternative (Json.legible_ofFloat v)
  | var i => exact alternative (Json.legible_ofNat _)
  | param i => exact alternative (Json.legible_ofNat _)
  | symbol s => exact alternative (.string _)
  | unary op a =>
      refine alternative (.array ?_)
      simp [Json.Legible.string, idJson, Json.legible_ofNat]
  | binary op a b =>
      refine alternative (.array ?_)
      simp [Json.Legible.string, idJson, Json.legible_ofNat]
  | nary op args =>
      refine alternative (.array ?_)
      simp only [List.forall_mem_cons]
      exact ⟨.string _, ids args, fun _ member => by cases member⟩
  | relation op a b =>
      refine alternative (.array ?_)
      simp [Json.Legible.string, idJson, Json.legible_ofNat]
  | bounds a b =>
      refine alternative (.array ?_)
      simp [idJson, Json.legible_ofNat]
  | call name args =>
      refine alternative (@Json.legible_zip ["name", "args"] [_, _] ?_)
      simp only [List.forall_mem_cons]
      exact ⟨.string _, ids args, fun _ member => by cases member⟩

end Node

namespace Expr

theorem record?_toJson (e : Expr Float) : e.toJson.record? false ["nodes", "root"] =
    some [some (.array (e.nodes.toList.map Node.toJson)), some (Node.idJson e.root)] :=
  @Json.record?_zip ["nodes", "root"] [_, _] (by decide) rfl

theorem ofJson?_toJson {e : Expr Float} (each : ∀ n ∈ e.nodes.toList, n.IsStorable)
    (root_lt : e.root < UInt32.size) : ofJson? e.toJson = some e := by
  have nodes_read : (e.nodes.toList.map Node.toJson).mapM Node.ofJson? = some e.nodes.toList :=
    mapM_map_eq_some fun n member => Node.ofJson?_toJson (each n member)
  have root_read : Node.id? (Node.idJson e.root) = some e.root := Json.natBelow?_ofNat root_lt
  simp [ofJson?, record?_toJson, Json.items?, nodes_read, root_read]

theorem legible_toJson (e : Expr Float) : e.toJson.Legible := by
  have nodes : (Json.array (e.nodes.toList.map Node.toJson)).Legible := by
    refine .array fun j member => ?_
    obtain ⟨n, -, rfl⟩ := List.mem_map.mp member
    exact n.legible_toJson
  refine @Json.legible_zip ["nodes", "root"] [_, _] ?_
  simp only [List.forall_mem_cons]
  exact ⟨nodes, Json.legible_ofNat _, fun _ member => by cases member⟩

theorem ofJson?_toJson_eq_none {e : Expr Float} {v : Float} (member : .const v ∈ e.nodes.toList)
    (infinite : v.isFinite = false) : ofJson? e.toJson = none := by
  have unread : Node.ofJson? (Node.toJson (.const v)) = none := by
    rw [Node.toJson, Json.ofFloat_eq_null infinite]
    rfl
  have nodes_unread : (e.nodes.toList.map Node.toJson).mapM Node.ofJson? = none :=
    mapM_eq_none (List.mem_map_of_mem member) unread
  simp [ofJson?, record?_toJson, Json.items?, nodes_unread]

/-- The indices in the formula are words, whether they name nodes or not. -/
structure IsIndexed {α : Type} (e : Expr α) : Prop where
  root_lt : e.root < UInt32.size
  child_lt : ∀ n ∈ e.nodes.toList, ∀ c ∈ n.children, c < UInt32.size

/-- The nodes of a valid formula have places before its end, so up to `2 ^ 32` of them are named by
words. -/
theorem Valid.isIndexed {α : Type} {e : Expr α} (valid : e.Valid)
    (few : e.nodes.size ≤ UInt32.size) : e.IsIndexed where
  root_lt := Nat.lt_of_lt_of_le valid.root_lt few
  child_lt n member c is_child := by
    obtain ⟨i, found⟩ := Array.getElem?_of_mem (Array.mem_toList_iff.mp member)
    have i_lt := (Array.getElem?_eq_some_iff.mp found).1
    exact Nat.lt_of_lt_of_le (Nat.lt_trans (valid.child_lt found c is_child) i_lt) few

/-- A stored formula, valid or not, is read from its JSON text as it was if its literals are finite
and are read as the nearest doubles.  With any other literal it is not read at all. -/
theorem jsonText_reads_back (e : Expr Float) :
    (e.IsIndexed → (∀ v, .const v ∈ e.nodes.toList → v.isFinite = true ∧ Json.IsReadNearest v) →
      ofJsonText? e.jsonText = some e) ∧
    ∀ v, .const v ∈ e.nodes.toList → v.isFinite = false → ofJsonText? e.jsonText = none := by
  have text_read : ofJsonText? e.jsonText = ofJson? e.toJson := by
    rw [ofJsonText?, jsonText, Json.parse?_text e.legible_toJson]
    rfl
  rw [text_read]
  constructor
  · intro indexed literals
    refine ofJson?_toJson (fun n member => ⟨?_, indexed.child_lt n member⟩) indexed.root_lt
    rintro v rfl
    obtain ⟨finite, nearest⟩ := literals v member
    rw [Json.float?_ofFloat nearest, if_pos finite]
  · exact fun v member infinite => ofJson?_toJson_eq_none member infinite

/-- Nodes of all kinds, with a negative zero, the smallest double, a name of special characters, and
indices that name no nodes. -/
def looseNodes : Expr Float :=
  ⟨#[.const (-0.0), .const 5e-324, .var 18446744073709551615, .param 3, .symbol .complexInf,
    .unary .sqrt 9, .binary .pow 1 4294967295, .nary .min [], .nary .max [0, 1, 20],
    .relation .ne 9 9, .bounds 2 0, .call "\"\\/\n\u0001\u00e9 x_0" [3, 8]], 77⟩

theorem looseNodes_reads_back :
    looseNodes.IsIndexed ∧
      (∀ v, .const v ∈ looseNodes.nodes.toList → v.isFinite = true ∧ Json.IsReadNearest v) ∧
      ofJsonText? looseNodes.jsonText = some looseNodes ∧
      (1 / 0 : Float).isFinite = false ∧
      ofJsonText? (jsonText ⟨#[.const (1 / 0), .var 0], 1⟩) = none := by
  have indexed : looseNodes.IsIndexed := ⟨by decide +kernel, by decide +kernel⟩
  have literals (v : Float) (member : .const v ∈ looseNodes.nodes.toList) :
      v.isFinite = true ∧ Json.IsReadNearest v := by
    obtain rfl | rfl : v = -0.0 ∨ v = 5e-324 := by simpa [looseNodes] using member
    · decide +kernel
    · decide +kernel
  have infinite : (1 / 0 : Float).isFinite = false := by decide +kernel
  exact ⟨indexed, literals, (jsonText_reads_back _).1 indexed literals, infinite,
    (jsonText_reads_back _).2 (1 / 0) (by simp) infinite⟩

end Expr

namespace Summary

/-- The counts of a summary, the position of the winner's text among them. -/
def counts (s : Summary) : List Nat :=
  [s.raw, s.parsed, s.sanitized, s.finetuned, s.degraded, s.dropped, s.steps] ++ s.selected.toList

theorem ofJson?_toJson {s : Summary} (words : ∀ n ∈ s.counts, n < UInt64.size) :
    ofJson? s.toJson = some s := by
  have reads : ∀ n ∈ s.counts, count? (.ofNat n) = some n :=
    fun n member => Json.natBelow?_ofNat (words n member)
  have selected_read : ((s.selected.map Json.ofNat).getD .null).optional? count? =
      some s.selected := by
    cases selected : s.selected with
    | none => rfl
    | some i =>
        have read := reads i (by simp [counts, selected])
        simp only [Option.map_some, Option.getD_some, Json.ofNat, Json.optional?] at read ⊢
        rw [read]
        rfl
  simp only [counts, List.forall_mem_append, List.forall_mem_cons] at reads
  rw [ofJson?, toJson, Json.record?_zip (by decide) rfl]
  simp [reads, selected_read]

theorem legible_toJson (s : Summary) : s.toJson.Legible := by
  refine Json.legible_zip _ fun j member => ?_
  rcases List.mem_append.mp member with member | member
  · obtain ⟨n, -, rfl⟩ := List.mem_map.mp member
    exact Json.legible_ofNat n
  · obtain rfl := List.mem_singleton.mp member
    cases s.selected with
    | none => exact .null
    | some i => exact Json.legible_ofNat i

end Summary

namespace Model

theorem legible_toJson (m : Model) : m.toJson.Legible := by
  refine Json.legible_zip _ ?_
  simp only [List.forall_mem_cons]
  exact ⟨m.expr.legible_toJson, Json.legible_ofFloat _, Json.legible_ofNat _, .string _,
    m.summary.legible_toJson, Json.legible_ofFloat _, fun _ member => by cases member⟩

theorem ofJsonText_jsonText (m : Model) : ofJsonText m.jsonText =
    match ofJson? m.toJson with
    | some m => .ok m
    | none => .error .serialization := by
  rw [ofJsonText, jsonText, Json.parse?_text m.legible_toJson]
  rfl

/-- What a model needs to come back from its JSON form, apart from its error. -/
structure IsStorable (m : Model) : Prop where
  nodes : ∀ n ∈ m.expr.nodes.toList, n.IsStorable
  root_lt : m.expr.root < UInt32.size
  complexity_lt : m.complexity < UInt64.size
  counts_lt : ∀ n ∈ m.summary.counts, n < UInt64.size
  placeholder : (Json.ofFloat m.divisionPlaceholder).float? = some m.divisionPlaceholder

/-- A storable model whose error comes back is reloaded without its imputation and otherwise as it
was. -/
theorem reload_eq_ok {m : Model} (storable : m.IsStorable)
    (error_read : (Json.ofFloat m.trainingError).float? = some m.trainingError) :
    ofJsonText m.jsonText = .ok { m with imputation := none } := by
  have expr_read := Expr.ofJson?_toJson storable.nodes storable.root_lt
  have complexity_read : Summary.count? (.ofNat m.complexity) = some m.complexity :=
    Json.natBelow?_ofNat storable.complexity_lt
  have status_read : ofTag? CandidateStatus.all CandidateStatus.tag (.string m.status.tag) =
      some m.status := ofTag?_tag (by decide) (by cases m.status <;> decide)
  have summary_read := Summary.ofJson?_toJson storable.counts_lt
  have model_read : ofJson? m.toJson = some { m with imputation := none } := by
    rw [ofJson?, toJson, Json.record?_zip (by decide) rfl]
    simp [expr_read, error_read, complexity_read, status_read, summary_read, storable.placeholder]
  rw [ofJsonText_jsonText, model_read]

/-- An error that is not finite is stored as null, which is no error, so the model is refused. -/
theorem reload_eq_error {m : Model} (infinite : m.trainingError.isFinite = false) :
    ofJsonText m.jsonText = .error .serialization := by
  have model_read : ofJson? m.toJson = none := by
    rw [ofJson?, toJson, Json.record?_zip (by decide) rfl, Json.ofFloat_eq_null infinite]
    simp [Json.float?]
  rw [ofJsonText_jsonText, model_read]

end Model

end FormulaFit
