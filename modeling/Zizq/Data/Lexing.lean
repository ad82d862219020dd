import Zizq.Data.Delimited

/-! Lexers.

A lexer looks at the text before it and takes something off its front: a token, or a
blank, which is none. What a text reads as can depend on what follows it, up to a symbol
that ends its last token. `Lexer.Reads` says what the text reads as before all such
symbols, and its laws put texts together (`Reads.append`, `reads_separated`). -/
namespace Zizq.Data
variable {α τ : Type}

structure Lexer (α τ : Type) where
  /-- The tokens of what is taken off the front, and the rest. -/
  next : α → List α → Option (List τ × List α)
  shorter : ∀ {c cs toks rest}, next c cs = some (toks, rest) → rest.length ≤ cs.length

namespace Lexer

def run (lexer : Lexer α τ) : List α → Option (List τ)
  | [] => some []
  | c :: cs =>
    match _h : lexer.next c cs with
    | some (toks, rest) => (run lexer rest).map (toks ++ ·)
    | none => none
termination_by cs => cs.length
decreasing_by exact Nat.lt_succ_of_le (lexer.shorter _h)

variable {lexer : Lexer α τ} {stop : α → Prop}

theorem run_nil : lexer.run [] = some [] := by rw [run]

theorem run_next {c : α} {cs rest : List α} {toks : List τ} (h : lexer.next c cs = some (toks, rest)) :
    lexer.run (c :: cs) = (lexer.run rest).map (toks ++ ·) := by
  rw [run]
  split
  · next h' =>
    obtain ⟨rfl, rfl⟩ := Prod.mk.inj (Option.some.inj (h.symm.trans h'))
    rfl
  · next h' => cases h.symm.trans h'

/-- Before a symbol of `stop`, or at the end, the text reads as the tokens. -/
def Reads (lexer : Lexer α τ) (stop : α → Prop) (text : List α) (toks : List τ) : Prop :=
  ∀ rest, Delimited.Stops stop rest → lexer.run (text ++ rest) = (lexer.run rest).map (toks ++ ·)

theorem Reads.run {text : List α} {toks : List τ} (h : Reads lexer stop text toks) : lexer.run text = some toks := by
  have hend := h [] Delimited.stops_nil
  rwa [List.append_nil, run_nil, Option.map_some, List.append_nil] at hend

theorem reads_nil : Reads lexer stop [] [] := by
  intro rest _
  simp

/-- What is taken off the front in one step. -/
theorem reads_next {c : α} {cs : List α} {toks : List τ}
    (h : ∀ rest, Delimited.Stops stop rest → lexer.next c (cs ++ rest) = some (toks, rest)) :
    Reads lexer stop (c :: cs) toks := fun rest hrest => run_next (h rest hrest)

/-- A text that reads the same before anything. -/
theorem Reads.before {text : List α} {toks : List τ} (h : Reads lexer (fun _ => True) text toks) :
    Reads lexer stop text toks := fun rest _ => h rest fun _ _ => trivial

/-- A text, with one behind it that ends its last token. -/
theorem Reads.append {stop' : α → Prop} {text text' : List α} {toks toks' : List τ} (h : Reads lexer stop text toks)
    (h' : Reads lexer stop' text' toks') (hne : text' ≠ []) (hstop : ∀ c ∈ text'.head?, stop c) :
    Reads lexer stop' (text ++ text') (toks ++ toks') := by
  intro rest hrest
  have hstops : Delimited.Stops stop (text' ++ rest) := by
    intro c hc
    rw [List.head?_append_of_ne_nil _ hne] at hc
    exact hstop c hc
  rw [List.append_assoc, h _ hstops, h' rest hrest, Option.map_map]
  exact congrArg (Option.map · (lexer.run rest)) (funext fun _ => (List.append_assoc ..).symm)

/-- A text behind one that reads the same before anything. -/
theorem Reads.then {text text' : List α} {toks toks' : List τ} (h : Reads lexer (fun _ => True) text toks)
    (h' : Reads lexer stop text' toks') : Reads lexer stop (text ++ text') (toks ++ toks') := by
  intro rest hrest
  rw [List.append_assoc, h _ fun _ _ => trivial, h' rest hrest, Option.map_map]
  exact congrArg (Option.map · (lexer.run rest)) (funext fun _ => (List.append_assoc ..).symm)

section Separated
variable {β : Type} {text : β → List α} {toks : β → List τ} {sep : α} {mark : τ}

/-- Texts that come each behind a separator. -/
theorem reads_flatMap_sep (hmark : Reads lexer (fun _ => True) [sep] [mark]) (hstop : stop sep) {xs : List β}
    (h : ∀ x ∈ xs, Reads lexer stop (text x) (toks x)) :
    Reads lexer stop (xs.flatMap fun x => sep :: text x) (xs.flatMap fun x => mark :: toks x) := by
  induction xs with
  | nil => exact reads_nil
  | cons x xs ih =>
    obtain ⟨hx, hxs⟩ := List.forall_mem_cons.mp h
    have hhead : Reads lexer stop (sep :: text x) (mark :: toks x) := hmark.then hx
    rw [List.flatMap_cons, List.flatMap_cons]
    cases xs with
    | nil => simpa using hhead
    | cons y ys =>
      refine hhead.append (ih hxs) nofun fun c hc => ?_
      obtain rfl := Option.some.inj hc
      exact hstop

theorem reads_separated (hmark : Reads lexer (fun _ => True) [sep] [mark]) (hstop : stop sep) {xs : List β}
    (h : ∀ x ∈ xs, Reads lexer stop (text x) (toks x)) :
    Reads lexer stop (Delimited.separated sep (xs.map text)) (Delimited.separated mark (xs.map toks)) := by
  cases xs with
  | nil => exact reads_nil
  | cons x xs =>
    obtain ⟨hx, hxs⟩ := List.forall_mem_cons.mp h
    rw [List.map_cons, List.map_cons, Delimited.separated, Delimited.separated, List.flatMap_map, List.flatMap_map]
    cases xs with
    | nil => simpa using hx
    | cons y ys =>
      refine hx.append (reads_flatMap_sep hmark hstop hxs) (List.cons_ne_nil _ _) fun c hc => ?_
      obtain rfl := Option.some.inj hc
      exact hstop

end Separated

end Lexer

end Zizq.Data
