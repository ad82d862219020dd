import Zizq.Client.Bulk
import Zizq.Data.Delimited

/-! Lists of names in a query.

A list filter and `take` put their names into one pair, joined by commas, and the
server reads a `CommaSet`: it splits at the commas. Nothing escapes a comma inside a
name, so a list comes back as it was given exactly when no name has one
(`commaSet_iff`). -/
namespace Zizq.Client
open Data

/-- How the server reads a list parameter. -/
def commaSet (value : String) : List String := (value.toList.splitOn ',').map String.ofList

structure TakeBuilder where
  queues : List String := []
  prefetch : Option Nat := none

/-- The URL of `take_raw`. -/
def TakeBuilder.target (crate : UrlCrate) (base : AbsoluteUrl) (builder : TakeBuilder) : Target where
  url := requestUrl crate base ["jobs", "take"]
  pairs :=
    if !builder.queues.isEmpty || builder.prefetch.isSome then
      (if !builder.queues.isEmpty then [("queue", ",".intercalate builder.queues)] else []) ++
        valuePair "prefetch" toString builder.prefetch
    else []

/-! ### Lists of names -/

/-- The setters that take a list of names. -/
inductive NameSetter where
  | queue | jobType | id | budgetsKey | takeQueues

/-- A query that names go into: of a bulk operation, by its filter, or of `take`. -/
inductive NameQuery where
  | filter (filters : JobFilter)
  | take (builder : TakeBuilder)

namespace NameSetter

def parameter : NameSetter → String
  | .queue | .takeQueues => "queue"
  | .jobType => "type"
  | .id => "id"
  | .budgetsKey => "budgets.key"

/-- The names that the setter has put into the query. -/
def names : NameSetter → NameQuery → Option (List String)
  | .queue, .filter filters => filters.queue
  | .jobType, .filter filters => filters.jobType
  | .id, .filter filters => filters.id
  | .budgetsKey, .filter filters => filters.budgetsKey
  | .takeQueues, .take builder => some builder.queues
  | _, _ => none

end NameSetter

/-- The pairs of the query. -/
def NameQuery.pairs (crate : UrlCrate) (base : AbsoluteUrl) : NameQuery → List (String × String)
  | .filter filters => filters.appendTo
  | .take builder => (builder.target crate base).pairs

/-- The values of a parameter, in the order of the query. -/
def values (parameter : String) (pairs : List (String × String)) : List String :=
  pairs.filterMap fun pair => if pair.1 = parameter then some pair.2 else none

/-! ### What a query holds -/

@[simp] theorem values_nil (parameter : String) : values parameter [] = [] := rfl

@[simp] theorem values_cons (parameter name value : String) (pairs : List (String × String)) :
    values parameter ((name, value) :: pairs) =
      if name = parameter then value :: values parameter pairs else values parameter pairs := by
  by_cases h : name = parameter <;> simp [values, h]

@[simp] theorem values_append (parameter : String) (pairs pairs' : List (String × String)) :
    values parameter (pairs ++ pairs') = values parameter pairs ++ values parameter pairs' :=
  List.filterMap_append

@[simp] theorem values_listPair {α : Type} (parameter name : String) (text : α → String) (opt : Option (List α)) :
    values parameter (listPair name text opt) =
      if name = parameter then (listPair name text opt).map Prod.snd else [] := by
  rcases opt with _ | _ | ⟨x, xs⟩ <;> by_cases h : name = parameter <;> simp [values, h]

@[simp] theorem values_valuePair {α : Type} (parameter name : String) (text : α → String) (opt : Option α) :
    values parameter (valuePair name text opt) =
      if name = parameter then (valuePair name text opt).map Prod.snd else [] := by
  cases opt <;> by_cases h : name = parameter <;> simp [values, valuePair, h]

/-- The names of a list make one value, joined by commas. -/
theorem values_names (crate : UrlCrate) (base : AbsoluteUrl) {setter : NameSetter} {query : NameQuery}
    {names : List String} (h : setter.names query = some names) (hne : names ≠ []) :
    values setter.parameter (query.pairs crate base) = [",".intercalate names] := by
  obtain ⟨name, rest, rfl⟩ := List.exists_cons_of_ne_nil hne
  cases query with
  | filter filters =>
    cases setter <;> simp_all [NameSetter.names, NameSetter.parameter, NameQuery.pairs, JobFilter.appendTo]
  | take builder =>
    cases setter <;> simp_all [NameSetter.names, NameSetter.parameter, NameQuery.pairs, TakeBuilder.target]

theorem commaSet_intercalate_iff {names : List String} (h : names ≠ []) :
    commaSet (",".intercalate names) = names ↔ ∀ name ∈ names, ',' ∉ name.toList := by
  have hne : names.map String.toList ≠ [] := by simpa using h
  have hsplit := Delimited.splitOn_intercalate_iff ',' hne
  rw [List.forall_mem_map] at hsplit
  rw [← hsplit, commaSet, String.toList_intercalate]
  constructor
  · intro hset
    have htexts := congrArg (List.map String.toList) hset
    simpa [List.map_map, Function.comp_def] using htexts
  · intro htexts
    have hset := congrArg (List.map String.ofList) htexts
    simpa [List.map_map, Function.comp_def] using hset

/-- **Main theorem.** A list of names in a query comes back from the server's splitting as it was given
exactly when no name has a comma in it. -/
theorem commaSet_iff (crate : UrlCrate) (base : AbsoluteUrl) (setter : NameSetter) {query : NameQuery}
    {names : List String} (h : setter.names query = some names) (hne : names ≠ []) :
    (∃ value, values setter.parameter (query.pairs crate base) = [value] ∧ commaSet value = names) ↔
      ∀ name ∈ names, ',' ∉ name.toList := by
  rw [values_names crate base h hne]
  simp only [List.cons.injEq, and_true, exists_eq_left', commaSet_intercalate_iff hne]

theorem commaSet_iff_emails :
    let base : AbsoluteUrl := ⟨.http, "host", none, ⟨[[]], by decide⟩, none⟩
    let query : NameQuery := .filter { queue := some ["emails", "webhooks"] }
    (∃ value, values "queue" (query.pairs urlStandard base) = [value] ∧
      commaSet value = ["emails", "webhooks"]) ↔ ∀ name ∈ ["emails", "webhooks"], ',' ∉ name.toList :=
  commaSet_iff urlStandard _ .queue rfl (by decide)

/-- The queue `a,b` is asked for as the two queues `a` and `b`. -/
theorem not_commaSet_twoQueues : ¬ ∀ (crate : UrlCrate) (base : AbsoluteUrl) (setter : NameSetter)
    (query : NameQuery) (names : List String), setter.names query = some names → names ≠ [] →
      ∃ value, values setter.parameter (query.pairs crate base) = [value] ∧ commaSet value = names := by
  intro h
  obtain ⟨value, hvalue, hset⟩ := h urlStandard ⟨.http, "host", none, ⟨[[]], by decide⟩, none⟩ .queue
    (.filter { queue := some ["a,b"] }) ["a,b"] rfl (by decide)
  have heq : value = "a,b" := by
    simpa [NameQuery.pairs, JobFilter.appendTo, NameSetter.parameter, valuePair] using hvalue.symm
  rw [heq] at hset
  exact absurd hset (by decide)

end Zizq.Client
