import Mathlib.Data.List.Basic

/-! Streams of pages.

A source of pages answers a cursor with the items of a page and the cursor behind it,
with an error, or with nothing where there is no further page. A stream holds what is
left of a page and a cursor; polled, it takes an item off the page, and fetches only
from an empty one, in a loop that skips pages without items. The rule says what any
number of polls yield and fetch along a chain of pages (`polled_chain`). The loop has
fuel; a chain is finite, and its length is fuel enough. -/
namespace Zizq.Data.Paging
universe u v w
variable {κ : Type u} {α : Type v} {ε : Type w}

structure State (κ : Type u) (α : Type v) where
  buffer : List α
  cursor : κ

/-- What one poll yields, and the cursors that it fetches. -/
structure Step (κ : Type u) (α : Type v) (ε : Type w) where
  result : Option (Except ε α)
  fetched : List κ

section Stream
variable (fetch : κ → Option (Except ε (List α × κ)))

/-- The loop of a poll, up to the result that ends it: an item and the state behind it, an error, or the
end. -/
def loop : Nat → State κ α → Option (Except ε (Option (α × State κ α)) × List κ)
  | 0, _ => none
  | fuel + 1, state =>
    match state.buffer with
    | item :: buffer => some (.ok (some (item, { state with buffer := buffer })), [])
    | [] =>
      match fetch state.cursor with
      | none => some (.ok none, [])
      | some (.error e) => some (.error e, [state.cursor])
      | some (.ok (items, cursor)) =>
        (loop fuel ⟨items, cursor⟩).map fun (result, fetched) => (result, state.cursor :: fetched)

/-- A poll of the stream that unfolds from a state. Behind an error or the end there is none. -/
def poll (fuel : Nat) : Option (State κ α) → Option (Step κ α ε × Option (State κ α))
  | none => some (⟨none, []⟩, none)
  | some state =>
    (loop fetch fuel state).map fun (result, fetched) =>
      match result with
      | .ok (some (item, state)) => (⟨some (.ok item), fetched⟩, some state)
      | .ok none => (⟨none, fetched⟩, none)
      | .error e => (⟨some (.error e), fetched⟩, none)

/-- The first `k` polls; `none` if one of them runs out of fuel. -/
def polls (fuel : Nat) : Nat → Option (State κ α) → Option (List (Step κ α ε))
  | 0, _ => some []
  | k + 1, state => do
    let (step, state) ← poll fetch fuel state
    let steps ← polls fuel k state
    return step :: steps

/-- `k` polls run, and come to these results and fetches. -/
def Polled (fuel k : Nat) (state : State κ α) (results : List (Option (Except ε α)))
    (fetched : List κ) : Prop :=
  ∃ steps, polls fetch fuel k (some state) = some steps ∧ steps.map Step.result = results ∧
    steps.flatMap Step.fetched = fetched

/-! ### Chains -/

/-- How a chain of pages ends: with the last page, with an error, or where it is followed no further. -/
inductive Ending (κ : Type u) (ε : Type w) where
  | last
  | failed (cursor : κ) (e : ε)
  | more

/-- The pages that are reached from a cursor, each with the cursor it is fetched by. -/
inductive Chain : κ → List (κ × List α) → Ending κ ε → Prop where
  | last {c : κ} (h : fetch c = none) : Chain c [] .last
  | failed {c : κ} {e : ε} (h : fetch c = some (.error e)) : Chain c [] (.failed c e)
  | more (c : κ) : Chain c [] .more
  | page {c c' : κ} {items : List α} {pages : List (κ × List α)} {ending : Ending κ ε}
      (h : fetch c = some (.ok (items, c'))) (rest : Chain c' pages ending) :
      Chain c ((c, items) :: pages) ending

end Stream

/-- What `k` polls yield: the items of all pages, then the error, then nothing any more. -/
def yielded (items : List α) (ending : Ending κ ε) (k : Nat) : List (Option (Except ε α)) :=
  let results := items.map .ok ++
    match ending with
    | .failed _ e => [.error e]
    | _ => []
  (results.map some ++ List.replicate k none).take k

/-- What `k` polls fetch: a page if one of them goes past the last item in front of it. -/
def reached : List (κ × List α) → Ending κ ε → Nat → List κ
  | _, _, 0 => []
  | (c, items) :: pages, ending, k + 1 => c :: reached pages ending (k + 1 - items.length)
  | [], .failed c _, _ + 1 => [c]
  | [], _, _ + 1 => []

/-- The ending under other cursors. -/
def Ending.map {κ' : Type*} (f : κ → κ') : Ending κ ε → Ending κ' ε
  | .last => .last
  | .failed c e => .failed (f c) e
  | .more => .more

/-- The items of the pages. -/
def itemsOf (pages : List (κ × List α)) : List α := pages.flatMap Prod.snd

section Polls
variable {fetch : κ → Option (Except ε (List α × κ))}

theorem loop_succ {fuel : Nat} {state : State κ α} {r : Except ε (Option (α × State κ α)) × List κ}
    (h : loop fetch fuel state = some r) : loop fetch (fuel + 1) state = some r := by
  induction fuel generalizing state r with
  | zero => cases h
  | succ fuel ih =>
    rw [loop] at h ⊢
    split at h
    · exact h
    · split at h
      · exact h
      · exact h
      · obtain ⟨r', hr', rfl⟩ := Option.map_eq_some_iff.mp h
        rw [ih hr']
        rfl

/-- Along a chain the loop ends: at an item, or with the chain. -/
theorem loop_ends {c : κ} {pages : List (κ × List α)} {ending : Ending κ ε}
    (hchain : Chain fetch c pages ending) {fuel : Nat} (hfuel : pages.length < fuel) {buffer : List α}
    (hmore : ending = .more → buffer ++ itemsOf pages ≠ []) :
    ∃ r, loop fetch fuel ⟨buffer, c⟩ = some r := by
  obtain ⟨fuel, rfl⟩ := Nat.exists_eq_succ_of_ne_zero (Nat.ne_zero_of_lt hfuel)
  cases buffer with
  | cons item buffer => exact ⟨_, rfl⟩
  | nil =>
    induction hchain generalizing fuel with
    | last h => exact ⟨(.ok none, []), by simp only [loop, h]⟩
    | @failed c e h => exact ⟨(.error e, [c]), by simp only [loop, h]⟩
    | more c => exact absurd rfl (hmore rfl)
    | @page c c' items pages ending h rest ih =>
      rw [List.length_cons, Nat.succ_lt_succ_iff] at hfuel
      have hnext : ∃ r, loop fetch fuel ⟨items, c'⟩ = some r := by
        obtain ⟨fuel, rfl⟩ := Nat.exists_eq_succ_of_ne_zero (Nat.ne_zero_of_lt hfuel)
        cases items with
        | cons item items => exact ⟨_, rfl⟩
        | nil => exact ih fuel hfuel fun heq => by simpa [itemsOf] using hmore heq
      obtain ⟨r, hr⟩ := hnext
      exact ⟨_, by simp only [loop, h, hr]; rfl⟩

theorem polls_succ {fuel : Nat} {state state' : Option (State κ α)} {step : Step κ α ε}
    (h : poll fetch fuel state = some (step, state')) (k : Nat) :
    polls fetch fuel (k + 1) state = (polls fetch fuel k state').map (step :: ·) := by
  rw [polls, h]
  cases hpolls : polls fetch fuel k state' <;> simp [hpolls]

/-- Behind an error or the end there is nothing. -/
theorem polls_none (fuel k : Nat) : polls fetch fuel k none = some (List.replicate k ⟨none, []⟩) := by
  induction k with
  | zero => rfl
  | succ k ih => rw [polls_succ rfl, ih]; rfl

/-- A poll that fetches a page goes on as on that page. -/
theorem polled_page {c c' : κ} {items : List α} (h : fetch c = some (.ok (items, c'))) {fuel k : Nat}
    {r : Except ε (Option (α × State κ α)) × List κ} (hr : loop fetch fuel ⟨items, c'⟩ = some r)
    {results : List (Option (Except ε α))} {fetched : List κ}
    (hpolled : Polled fetch (fuel + 1) (k + 1) ⟨items, c'⟩ results fetched) :
    Polled fetch (fuel + 1) (k + 1) ⟨[], c⟩ results (c :: fetched) := by
  have hnext : loop fetch (fuel + 1) ⟨[], c⟩ = some (r.1, c :: r.2) := by simp only [loop, h, hr]; rfl
  obtain ⟨result, cursors⟩ := r
  obtain ⟨step, state, hpoll, hpoll'⟩ : ∃ step state,
      poll fetch (fuel + 1) (some ⟨items, c'⟩) = some (step, state) ∧
      poll fetch (fuel + 1) (some ⟨[], c⟩) = some ({ step with fetched := c :: step.fetched }, state) := by
    simp only [poll, loop_succ hr, hnext, Option.map_some]
    rcases result with e | _ | ⟨item, state⟩ <;> exact ⟨_, _, rfl, rfl⟩
  obtain ⟨steps, hsteps, rfl, rfl⟩ := hpolled
  rw [polls_succ hpoll, Option.map_eq_some_iff] at hsteps
  obtain ⟨rest, hrest, rfl⟩ := hsteps
  refine ⟨{ step with fetched := c :: step.fetched } :: rest, ?_, rfl, rfl⟩
  rw [polls_succ hpoll', hrest, Option.map_some]

/-- A poll that finds an item in front of it takes it, and fetches nothing. -/
theorem polled_item {fuel k : Nat} (hfuel : 0 < fuel) (item : α) {buffer : List α} {c : κ}
    {results : List (Option (Except ε α))} {fetched : List κ}
    (hpolled : Polled fetch fuel k ⟨buffer, c⟩ results fetched) :
    Polled fetch fuel (k + 1) ⟨item :: buffer, c⟩ (some (.ok item) :: results) fetched := by
  obtain ⟨fuel, rfl⟩ := Nat.exists_eq_succ_of_ne_zero (Nat.ne_zero_of_lt hfuel)
  have hpoll : poll fetch (fuel + 1) (some ⟨item :: buffer, c⟩) =
      some (⟨some (.ok item), []⟩, some ⟨buffer, c⟩) := rfl
  obtain ⟨steps, hsteps, rfl, rfl⟩ := hpolled
  exact ⟨⟨some (.ok item), []⟩ :: steps, by rw [polls_succ hpoll, hsteps]; rfl, rfl, rfl⟩

/-- A poll behind which there is nothing is the last that yields or fetches. -/
theorem polled_end {fuel : Nat} {state : State κ α} {step : Step κ α ε}
    (hpoll : poll fetch fuel (some state) = some (step, none)) (k : Nat) :
    Polled fetch fuel (k + 1) state (step.result :: List.replicate k none) step.fetched :=
  ⟨_, by rw [polls_succ hpoll, polls_none]; rfl, by simp, by simp⟩

@[simp]
theorem reached_zero (pages : List (κ × List α)) (ending : Ending κ ε) : reached pages ending 0 = [] := by
  rw [reached]

theorem yielded_cons (item : α) (items : List α) (ending : Ending κ ε) (k : Nat) :
    yielded (item :: items) ending (k + 1) = some (.ok item) :: yielded items ending k := by
  have hmin (n : Nat) : min (k - n) (k + 1) = min (k - n) k := by omega
  simp only [yielded, List.map_cons, List.cons_append, List.take_succ_cons, List.take_append,
    List.take_replicate, hmin]

/-- What is yielded does not depend on the cursors. -/
theorem yielded_map {κ' : Type*} (f : κ → κ') (items : List α) (ending : Ending κ ε) (k : Nat) :
    yielded items (ending.map f) k = yielded items ending k := by
  cases ending <;> rfl

theorem polled_last {c : κ} (h : fetch c = none) (fuel k : Nat) :
    Polled fetch (fuel + 1) (k + 1) ⟨[], c⟩ (List.replicate (k + 1) none) [] := by
  have hpoll : poll fetch (fuel + 1) (some ⟨[], c⟩) = some (⟨none, []⟩, none) := by
    simp only [poll, loop, h, Option.map_some]
  exact polled_end hpoll k

theorem polled_done {c : κ} (h : fetch c = none) {fuel : Nat} (hfuel : 0 < fuel) (k : Nat) :
    Polled fetch fuel k ⟨[], c⟩ (List.replicate k none) [] := by
  obtain ⟨fuel, rfl⟩ := Nat.exists_eq_succ_of_ne_zero (Nat.ne_zero_of_lt hfuel)
  cases k with
  | zero => exact ⟨[], rfl, rfl, rfl⟩
  | succ k => exact polled_last h fuel k

theorem polled_failed {c : κ} {e : ε} (h : fetch c = some (.error e)) (fuel k : Nat) :
    Polled fetch (fuel + 1) (k + 1) ⟨[], c⟩ (some (.error e) :: List.replicate k none) [c] := by
  have hpoll : poll fetch (fuel + 1) (some ⟨[], c⟩) = some (⟨some (.error e), [c]⟩, none) := by
    simp only [poll, loop, h, Option.map_some]
  exact polled_end hpoll k

/-- The rule: along a chain, any number of polls yield the items of its pages in order, then its error,
then nothing, and fetch each page once, when an item behind the last one in front of it is asked for. -/
theorem polled_chain {c : κ} {pages : List (κ × List α)} {ending : Ending κ ε}
    (hchain : Chain fetch c pages ending) {fuel : Nat} (hfuel : pages.length < fuel) {k : Nat} (buffer : List α)
    (hmore : ending = .more → k ≤ (buffer ++ itemsOf pages).length) :
    Polled fetch fuel k ⟨buffer, c⟩ (yielded (buffer ++ itemsOf pages) ending k)
      (reached pages ending (k - buffer.length)) := by
  induction k generalizing c pages buffer with
  | zero => exact ⟨[], rfl, by simp [yielded], by simp⟩
  | succ k ihk =>
    -- an item in front of the poll is the next one, whatever the chain is
    have hitem {c : κ} {pages : List (κ × List α)} (hchain : Chain fetch c pages ending)
        (hfuel : pages.length < fuel) (item : α) (buffer : List α)
        (hmore : ending = .more → k + 1 ≤ (item :: buffer ++ itemsOf pages).length) :
        Polled fetch fuel (k + 1) ⟨item :: buffer, c⟩
          (yielded (item :: buffer ++ itemsOf pages) ending (k + 1))
          (reached pages ending (k + 1 - (item :: buffer).length)) := by
      rw [List.cons_append, yielded_cons, List.length_cons, Nat.add_sub_add_right]
      exact polled_item (Nat.zero_lt_of_lt hfuel) item
        (ihk hchain hfuel buffer fun heq => Nat.le_of_succ_le_succ (hmore heq))
    cases buffer with
    | cons item buffer => exact hitem hchain hfuel item buffer hmore
    | nil =>
      clear ihk
      obtain ⟨fuel, rfl⟩ := Nat.exists_eq_succ_of_ne_zero (Nat.ne_zero_of_lt hfuel)
      induction hchain with
      | last h => simpa [yielded, itemsOf, reached] using polled_last h fuel k
      | failed h => simpa [yielded, itemsOf, reached] using polled_failed h fuel k
      | more c => exact absurd (hmore rfl) (by simp [itemsOf])
      | @page c c' items pages ending h rest ih =>
        have hfuel' : pages.length < fuel := Nat.lt_of_succ_lt_succ hfuel
        have hmore' (heq : ending = .more) : k + 1 ≤ (items ++ itemsOf pages).length := by
          simpa [itemsOf] using hmore heq
        have hrest : Polled fetch (fuel + 1) (k + 1) ⟨items, c'⟩
            (yielded (items ++ itemsOf pages) ending (k + 1))
            (reached pages ending (k + 1 - items.length)) := by
          cases items with
          | cons item items => exact hitem rest (Nat.lt_succ_of_lt hfuel') item items hmore'
          | nil => exact ih hmore' (Nat.lt_succ_of_lt hfuel') hitem
        obtain ⟨r, hr⟩ := loop_ends rest hfuel' fun heq =>
          List.ne_nil_of_length_pos (Nat.zero_lt_of_lt (hmore' heq))
        exact polled_page h hr hrest

end Polls

end Zizq.Data.Paging
