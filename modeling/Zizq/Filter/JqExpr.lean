import Zizq.Client.Error
import Zizq.Filter.Literal

/-! Filters that are made of values.

The three helpers set the JSON of a value into a jq program. As it reads as one literal,
no text in the value can become a part of the program, and what the programs select is
said of the value: the payloads that equal it (`eq_selects`), the ones that contain it
(`contains_selects`), and the arrays that begin with it (`arrayPrefix_selects`). The
value is the one that a server holds for a payload that was enqueued with it. -/
namespace Zizq.Filter
open Client Data Jq

/-! ### The helpers -/

mutual
/-- What is written for a value, with the members in the order of its fields. -/
def listed : Datum Numeral → Value Numeral
  | .unit | .none | .unitStruct _ => .null
  | .bool b => .bool b
  | .number n => .number n
  | .str s => .string s
  | .some value | .newtypeStruct _ value => listed value
  | .seq items | .tuple items | .tupleStruct _ items => .array (listedItems items)
  | .struct _ members | .map members => .object (listedMembers members)
  | .unitVariant _ variant => .string variant
  | .newtypeVariant _ variant value => .object [(variant, listed value)]
  | .tupleVariant _ variant items => .object [(variant, .array (listedItems items))]
  | .structVariant _ variant fields => .object [(variant, .object (listedMembers fields))]

def listedItems : List (Datum Numeral) → List (Value Numeral)
  | [] => []
  | item :: items => listed item :: listedItems items

def listedMembers : List (String × Datum Numeral) → List (String × Value Numeral)
  | [] => []
  | (key, value) :: members => (key, listed value) :: listedMembers members
end

/-- A `Serialize` impl makes calls, or fails. -/
abbrev Serialized := Except String (Datum Numeral)

def toJson (value : Serialized) : Except ZizqError String :=
  match value with
  | .ok value => .ok (String.ofList (text (listed value)))
  | .error e => .error (.encode e)

def jqEq (value : Serialized) : Except ZizqError String := do
  return ". == " ++ (← toJson value)

def jqContains (value : Serialized) : Except ZizqError String := do
  return ". | contains(" ++ (← toJson value) ++ ")"

/-- `serde_json::to_value`. It widens an `f32`, so the numerals of the value are then those of the wider number, other
digits than `toJson` has; apart from the numerals only the shape of the value is used. -/
def toValue (value : Serialized) : Except ZizqError (Value Numeral) :=
  match value with
  | .ok value => .ok (wireValue .json value)
  | .error e => .error (.encode e)

def jqArrayPrefixEq (value : Serialized) : Except ZizqError String := do
  match ← toValue value with
  | .array items =>
    return ".[0:" ++ items.length.repr ++ "] == " ++ String.ofList (text (.array items))
  | _ => throw (.encode "jq_array_prefix_eq expects a value that serialises to a JSON array")

/-! ### What a server holds -/

theorem listedItems_eq (items : List (Datum Numeral)) : listedItems items = items.map listed := by
  induction items with
  | nil => rfl
  | cons item items ih => rw [listedItems, ih, List.map_cons]

theorem listedMembers_eq (members : List (String × Datum Numeral)) :
    listedMembers members = members.map fun e => (e.1, listed e.2) := by
  induction members with
  | nil => rfl
  | cons e members ih => rw [listedMembers, ih, List.map_cons]

section Held
variable {κ : Type} (decimals : Decimals κ)

theorem heldItems_eq (items : List (Value Numeral)) : heldItems decimals items = items.map (held decimals) := by
  induction items with
  | nil => rfl
  | cons item items ih => rw [heldItems, ih, List.map_cons]

theorem heldMembers_eq (members : List (String × Value Numeral)) :
    heldMembers decimals members = members.map fun e => (e.1, held decimals e.2) := by
  induction members with
  | nil => rfl
  | cons e members ih => rw [heldMembers, ih, List.map_cons]

theorem ordered_held (v : Value Numeral) : (held decimals v).ordered = true := by
  induction v with
  | array items ih =>
    rw [held, heldItems_eq]
    refine Value.ordered_array.mpr fun w hw => ?_
    obtain ⟨item, hitem, rfl⟩ := List.mem_map.mp hw
    exact ih item hitem
  | object members ih =>
    rw [held, heldMembers_eq, ofMembers_map]
    refine Value.ordered_object.mpr ⟨?_, fun e he => ?_⟩
    · rw [← ofMembers_map]
      exact sorted_ofMembers _
    · obtain ⟨member, hmember, rfl⟩ := List.mem_map.mp he
      exact ih member (mem_of_ofMembers hmember)
  | _ => rfl

/-- A list of members and the map of them are held alike. -/
theorem held_ofMembers {members : List (String × Value Numeral)} {members' : List (String × Value Numeral)}
    (h : members.map (fun e => (e.1, held decimals e.2)) = members'.map fun e => (e.1, held decimals e.2)) :
    held decimals (.object members) = held decimals (.object (ofMembers members')) := by
  rw [held, held, heldMembers_eq, heldMembers_eq, h, ofMembers_map, ofMembers_map, ofMembers_idem]

/-- The text of a value is held as what is read of its enqueue. -/
theorem held_listed (value : Datum Numeral) :
    held decimals (listed value) = held decimals (wireValue .json value) := by
  have hitems {items : List (Datum Numeral)}
      (ih : ∀ item ∈ items, held decimals (listed item) = held decimals (wireValue .json item)) :
      held decimals (.array (listedItems items)) = held decimals (.array (wireItems .json items)) := by
    rw [held, held, heldItems_eq, heldItems_eq, listedItems_eq, wireItems_eq, List.map_map, List.map_map]
    exact congrArg Value.array (List.map_congr_left ih)
  have hmembers {members : List (String × Datum Numeral)}
      (ih : ∀ e ∈ members, held decimals (listed e.2) = held decimals (wireValue .json e.2)) :
      held decimals (.object (listedMembers members)) =
        held decimals (.object (ofMembers (wireMembers .json members))) := by
    refine held_ofMembers decimals ?_
    rw [listedMembers_eq, wireMembers_eq, List.map_map, List.map_map]
    exact List.map_congr_left fun e he => congrArg (Prod.mk e.1) (ih e he)
  have hvariant (variant : String) {v w : Value Numeral} (h : held decimals v = held decimals w) :
      held decimals (.object [(variant, v)]) = held decimals (.object [(variant, w)]) :=
    congrArg (fun v => Value.object [(variant, v)]) h
  induction value with
  | some value ih | newtypeStruct _ value ih => exact ih
  | seq items ih | tuple items ih | tupleStruct _ items ih => exact hitems ih
  | struct _ members ih | map members ih => exact hmembers ih
  | newtypeVariant _ variant value ih => exact hvariant variant ih
  | tupleVariant _ variant items ih => exact hvariant variant (hitems ih)
  | structVariant _ variant fields ih => exact hvariant variant (hmembers ih)
  | _ => rfl

end Held

/-! ### The programs -/

theorem reads_dot : lexer.Reads (fun c => c = ' ' ∨ c = '[') ['.'] [.dot] := by
  refine Lexer.reads_next fun rest hrest => ?_
  cases rest with
  | nil => rfl
  | cons c cs => rcases hrest c rfl with rfl | rfl <;> rfl

theorem reads_pipe : lexer.Reads (fun c => c = ' ') ['|'] [.pipe] := by
  refine Lexer.reads_next fun rest hrest => ?_
  cases rest with
  | nil => rfl
  | cons c cs =>
    obtain rfl := hrest c rfl
    rfl

theorem reads_contains : lexer.Reads (fun c => c = '(') "contains".toList [.ident "contains"] := by
  have hstop (c : Char) (hc : c = '(') : isNameChar c = false ∧ c ≠ ':' := by
    subst hc
    decide
  exact reads_word hstop (fun _ => rfl) rfl rfl

theorem reads_zero : lexer.Reads (fun c => c = ':') ['0'] [.number "0"] := by
  refine Lexer.reads_next fun rest hrest => ?_
  cases rest with
  | nil => rfl
  | cons c cs =>
    obtain rfl := hrest c rfl
    rfl

theorem reads_equals : lexer.Reads (fun _ => True) " == ".toList [.eq] := by
  have heq : lexer.Reads (fun _ => True) ['=', '='] [.eq] := Lexer.reads_next fun _ _ => rfl
  exact reads_blank.then (heq.then reads_blank)

theorem reads_dotEquals : lexer.Reads (fun _ => True) ". == ".toList [.dot, .eq] :=
  reads_dot.append reads_equals nofun fun _ hc => .inl (Option.some.inj hc).symm

theorem reads_dotContains :
    lexer.Reads (fun _ => True) ". | contains(".toList [.dot, .pipe, .ident "contains", .lparen] := by
  have hopen : lexer.Reads (fun _ => True) ['('] [.lparen] := reads_symbol fun _ => rfl
  have hcontains := reads_contains.append hopen nofun fun _ hc => (Option.some.inj hc).symm
  have hpipe := reads_pipe.append (reads_blank.then hcontains) nofun fun _ hc => (Option.some.inj hc).symm
  exact reads_dot.append (reads_blank.then hpipe) nofun fun _ hc => .inl (Option.some.inj hc).symm

theorem reads_dotBracket : lexer.Reads (fun _ => True) ".[0:".toList [.dot, .lbracket, .number "0", .colon] := by
  have hopen : lexer.Reads (fun _ => True) ['['] [.lbracket] := reads_symbol fun _ => rfl
  have hcolon : lexer.Reads (fun _ => True) [':'] [.colon] := reads_symbol fun _ => rfl
  have hzero := reads_zero.append hcolon nofun fun _ hc => (Option.some.inj hc).symm
  exact reads_dot.append (hopen.then hzero) nofun fun _ hc => .inr (Option.some.inj hc).symm

/-- The digits of a natural, as a numeral. -/
def naturalDigits (n : Nat) : Digits where
  first := (Nat.toDigits 10 n).head Nat.toDigits_ne_nil
  others := (Nat.toDigits 10 n).tail
  isDigit := by
    rw [List.cons_head_tail, List.all_eq_true]
    exact fun c hc => Nat.isDigit_of_mem_toDigits (by decide) (by decide) hc

theorem chars_naturalDigits (n : Nat) : (naturalDigits n).chars = n.repr.toList := by
  rw [Nat.toList_repr]
  exact List.cons_head_tail _

theorem reads_natural (n : Nat) : lexer.Reads Closes n.repr.toList [.number n.repr] := by
  have h := reads_unsigned ⟨false, naturalDigits n, none, none⟩
  have hunsigned : Numeral.unsigned ⟨false, naturalDigits n, none, none⟩ = n.repr.toList := by
    rw [← chars_naturalDigits]
    simp [Numeral.unsigned, Numeral.fractionChars, Numeral.exponentChars]
  rwa [hunsigned, String.ofList_toList] at h

section Run
variable {κ : Type} [DecidableEq κ] {decimals : Decimals κ}

theorem run_eq {program : String} {toks : List Token} {e : Expr} (hlex : lexer.run program.toList = some toks)
    (hparse : (readAll ⟨[], none⟩ toks).bind finish = some e) (payload : Value κ) :
    run decimals program payload = outputs decimals e payload := by
  have hparse' : parse toks = some e := hparse
  rw [run, hlex]
  show (parse toks).bind _ = _
  rw [hparse']
  rfl

/-- A value on the right of `==`, at the end of a program. -/
theorem finish_equals {l e : Expr} {r : Reading} (h : Completed [.operand l .eq] e r) :
    finish r = some (.binary .eq l e) := by
  cases h <;> rfl

theorem run_equals (hsigned : decimals.Signed) (v : Value Numeral) (payload : Value κ) :
    run decimals (". == " ++ String.ofList (text v)) payload =
      some [.bool (decide (payload = held decimals v))] := by
  obtain ⟨r, hread, hcompleted⟩ := read_tokens v [.operand .identity .eq] trivial
  have hlex : lexer.run (". == " ++ String.ofList (text v)).toList = some ([.dot, .eq] ++ tokens v) := by
    simp only [String.toList_append, String.toList_ofList]
    exact (reads_dotEquals.then (reads_text v)).run
  have hhead : readAll ⟨[], none⟩ [.dot, .eq] = some ⟨[.operand .identity .eq], none⟩ := rfl
  have hparse : (readAll ⟨[], none⟩ ([.dot, .eq] ++ tokens v)).bind finish =
      some (.binary .eq .identity (literal v)) := by
    rw [readAll_append hhead, hread]
    exact finish_equals hcompleted
  rw [run_eq hlex hparse, outputs, outputs_literal hsigned v]
  rfl

theorem outputs_pipe (e : Expr) (payload : Value κ) :
    outputs decimals (.binary .pipe .identity e) payload = outputs decimals e payload := by
  have hidentity : outputs decimals .identity payload = some [payload] := rfl
  rw [outputs, hidentity]
  cases h : outputs decimals e payload <;> simp [h]

theorem run_contains (hsigned : decimals.Signed) (v : Value Numeral) (payload : Value κ) :
    run decimals (". | contains(" ++ String.ofList (text v) ++ ")") payload =
      if kind (held decimals v) = kind payload then some [.bool (within (held decimals v) payload)] else none := by
  obtain ⟨r, hread, hcompleted⟩ := read_tokens v [.call "contains", .operand .identity .pipe] trivial
  have hclose : lexer.Reads (fun _ => True) [')'] [.rparen] := reads_symbol fun _ => rfl
  have hlex : lexer.run (". | contains(" ++ String.ofList (text v) ++ ")").toList =
      some ([.dot, .pipe, .ident "contains", .lparen] ++ (tokens v ++ [.rparen])) := by
    simp only [String.toList_append, String.toList_ofList, List.append_assoc]
    exact (reads_dotContains.then ((reads_text v).append hclose nofun
      (closes_of_bracket (.inr (.inr (.inr rfl)))))).run
  have hhead : readAll ⟨[], none⟩ [.dot, .pipe, .ident "contains", .lparen] =
      some ⟨[.call "contains", .operand .identity .pipe], none⟩ := rfl
  have hrparen : read r .rparen = some ⟨[.operand .identity .pipe], some (.apply "contains" (literal v))⟩ := by
    generalize literal v = e at hcompleted
    cases hcompleted <;> rfl
  have hparse :
      (readAll ⟨[], none⟩ ([.dot, .pipe, .ident "contains", .lparen] ++ (tokens v ++ [.rparen]))).bind finish =
        some (.binary .pipe .identity (.apply "contains" (literal v))) := by
    rw [readAll_append hhead, readAll_append hread, readAll_cons hrparen]
    rfl
  have harg : outputs decimals (.apply "contains" (literal v)) payload =
      if kind (held decimals v) = kind payload then some [.bool (within (held decimals v) payload)] else none := by
    rw [outputs, outputs_literal hsigned v]
    rfl
  rw [run_eq hlex hparse, outputs_pipe, harg]

theorem run_prefixEquals (hsigned : decimals.Signed) {n : Nat} (hcounts : decimals.Counts n) (v : Value Numeral)
    (payload : Value κ) :
    run decimals (".[0:" ++ n.repr ++ "] == " ++ String.ofList (text v)) payload =
      (slice 0 n payload).map fun head => [.bool (decide (head = held decimals v))] := by
  obtain ⟨r, hread, hcompleted⟩ :=
    read_tokens v [.operand (.slice .identity (.number "0") (.number n.repr)) .eq] trivial
  have hclose : lexer.Reads (fun _ => True) [']'] [.rbracket] := reads_symbol fun _ => rfl
  have hlex : lexer.run (".[0:" ++ n.repr ++ "] == " ++ String.ofList (text v)).toList =
      some ([.dot, .lbracket, .number "0", .colon] ++
        ([.number n.repr] ++ ([.rbracket] ++ ([.eq] ++ tokens v)))) := by
    simp only [String.toList_append, String.toList_ofList, List.append_assoc]
    exact (reads_dotBracket.then ((reads_natural n).append (hclose.then (reads_equals.then (reads_text v))) nofun
      (closes_of_bracket (.inr (.inl rfl))))).run
  have hparse : (readAll ⟨[], none⟩ ([.dot, .lbracket, .number "0", .colon] ++
      ([.number n.repr] ++ ([.rbracket] ++ ([.eq] ++ tokens v))))).bind finish =
        some (.binary .eq (.slice .identity (.number "0") (.number n.repr)) (literal v)) := by
    have hhead : readAll ⟨[], none⟩
        ([.dot, .lbracket, .number "0", .colon] ++ [.number n.repr] ++ [.rbracket] ++ [.eq]) =
        some ⟨[.operand (.slice .identity (.number "0") (.number n.repr)) .eq], none⟩ := rfl
    rw [← List.append_assoc, ← List.append_assoc, ← List.append_assoc, readAll_append hhead, hread]
    exact finish_equals hcompleted
  have hslice : outputs decimals (.slice .identity (.number "0") (.number n.repr)) payload =
      (slice 0 n payload).map fun head => [head] := by
    have hzero : decimals.toIndex (decimals.ofText "0") = some 0 := hcounts 0 (Nat.zero_le n)
    simp only [outputs, single, index, Option.bind_eq_bind, Option.bind_some, hzero, hcounts n (Nat.le_refl n)]
    cases slice 0 n payload <;> rfl
  rw [run_eq hlex hparse, outputs, hslice, outputs_literal hsigned v]
  cases slice 0 n payload <;> rfl

end Run

/-! ### Containment -/

/-- The first value has all that the second has: its members, whatever others there are, and all else as it is. -/
inductive Includes {κ : Type} : Value κ → Value κ → Prop where
  | same (v : Value κ) : Includes v v
  | members {m m' : List (String × Value κ)} (hkey : ∀ key, (Assoc.get key m').isSome → (Assoc.get key m).isSome)
      (hmember : ∀ key v w, Assoc.get key m = some v → Assoc.get key m' = some w → Includes v w) :
      Includes (.object m) (.object m')

mutual
/-- Neither a string nor an array occurs in the value. -/
def flat {κ : Type} : Value κ → Bool
  | .string _ | .array _ => false
  | .object m => flatMembers m
  | _ => true

def flatMembers {κ : Type} : List (String × Value κ) → Bool
  | [] => true
  | (_, v) :: m => flat v && flatMembers m
end

section Within
variable {κ : Type}

theorem flatMembers_iff {m : List (String × Value κ)} : flatMembers m = true ↔ ∀ e ∈ m, flat e.2 = true := by
  induction m with
  | nil => simp [flatMembers]
  | cons e m ih => simp only [flatMembers, Bool.and_eq_true, ih, List.forall_mem_cons]

theorem Includes.kind {v w : Value κ} (h : Includes v w) : kind w = kind v := by
  cases h <;> rfl

theorem get_of_mem {m : List (String × Value κ)} (hm : Assoc.Sorted m) {e : String × Value κ} (he : e ∈ m) :
    Assoc.get e.1 m = some e.2 := by
  induction m with
  | nil => cases he
  | cons d m ih =>
    obtain ⟨hhead, htail⟩ := List.pairwise_cons.mp hm
    rw [Assoc.get_cons]
    rcases List.mem_cons.mp he with rfl | he
    · exact if_pos rfl
    · rw [if_neg (hhead e he).ne']
      exact ih htail he

variable [DecidableEq κ]

theorem itemsWithin_iff {ys xs : List (Value κ)} :
    itemsWithin ys xs = true ↔ ∀ y ∈ ys, ∃ x ∈ xs, within y x = true := by
  induction ys with
  | nil => simp [itemsWithin]
  | cons y ys ih => simp only [itemsWithin, Bool.and_eq_true, ih, List.forall_mem_cons, List.any_eq_true]

theorem membersWithin_iff {m' m : List (String × Value κ)} :
    membersWithin m' m = true ↔ ∀ e ∈ m', ∃ v, Assoc.get e.1 m = some v ∧ within e.2 v = true := by
  induction m' with
  | nil => simp [membersWithin]
  | cons e m' ih =>
    simp only [membersWithin, Bool.and_eq_true, ih, List.forall_mem_cons, Option.any_eq_true]

theorem within_self {v : Value κ} (hv : v.ordered = true) : within v v = true := by
  induction v with
  | string s => exact decide_eq_true (List.infix_refl _)
  | array xs ih =>
    rw [within, itemsWithin_iff]
    exact fun x hx => ⟨x, hx, ih x hx (Value.ordered_array.mp hv x hx)⟩
  | object m ih =>
    obtain ⟨hsorted, hmembers⟩ := Value.ordered_object.mp hv
    rw [within, membersWithin_iff]
    exact fun e he => ⟨e.2, get_of_mem hsorted he, ih e he (hmembers e he)⟩
  | _ => simp [within]

theorem Includes.within {v w : Value κ} (h : Includes v w) (hw : w.ordered = true) : within w v = true := by
  induction h with
  | same v => exact within_self hw
  | @members m m' hkey hmember ih =>
    rw [Filter.within, membersWithin_iff]
    intro e he
    have hget := get_of_mem (Value.ordered_object.mp hw).1 he
    obtain ⟨v, hv⟩ := Option.isSome_iff_exists.mp (hkey e.1 (by rw [hget]; rfl))
    exact ⟨v, hv, ih e.1 v e.2 hv hget (Value.ordered_get hw hget)⟩

/-- Without strings and arrays there is nothing else that contains a value. -/
theorem includes_of_within {v w : Value κ} (hw : flat w = true) (h : within w v = true) : Includes v w := by
  induction w generalizing v with
  | string s => cases hw
  | array ys => cases hw
  | object m' ih =>
    cases v with
    | object m =>
      rw [within, membersWithin_iff] at h
      rw [flat, flatMembers_iff] at hw
      refine .members (fun key hkey => ?_) fun key v w hv hw' => ?_
      · obtain ⟨w, hw'⟩ := Option.isSome_iff_exists.mp hkey
        obtain ⟨v, hv, -⟩ := h _ (Assoc.mem_of_get hw')
        rw [hv]
        rfl
      · have he := Assoc.mem_of_get hw'
        obtain ⟨v', hv', hwithin⟩ := h _ he
        obtain rfl := Option.some.inj (hv.symm.trans hv')
        exact ih _ he (hw _ he) hwithin
    | _ => simp [within] at h
  | _ =>
    simp only [within, decide_eq_true_eq] at h
    exact h ▸ .same _

end Within

/-! ### The main results -/

theorem jqArrayPrefixEq_eq_ok {value : Datum Numeral} {program : String}
    (h : jqArrayPrefixEq (.ok value) = .ok program) :
    ∃ items, wireValue .json value = .array items ∧
      ".[0:" ++ items.length.repr ++ "] == " ++ String.ofList (text (.array items)) = program := by
  have hvalue : toValue (.ok value) = .ok (wireValue .json value) := rfl
  rw [jqArrayPrefixEq, hvalue] at h
  cases hitems : wireValue .json value with
  | array items =>
    rw [hitems] at h
    exact ⟨items, rfl, Except.ok.inj h⟩
  | _ =>
    rw [hitems] at h
    cases h

section Results
variable {κ : Type} [DecidableEq κ] {decimals : Decimals κ}

/-- **Main theorem.** Whatever is in the value, the filter is true of the payloads that an enqueue of it makes, and is
false of all others. -/
theorem eq_selects (hsigned : decimals.Signed) {value : Datum Numeral} {program : String}
    (h : jqEq (.ok value) = .ok program) (payload : Value κ) :
    run decimals program payload = some [.bool (decide (payload = held decimals (wireValue .json value)))] := by
  obtain rfl : ". == " ++ String.ofList (text (listed value)) = program := Except.ok.inj h
  rw [run_equals hsigned, held_listed]

/-- Numbers by their texts. -/
def texts : Decimals String where
  ofText := id
  negate text := "-" ++ text
  toIndex text :=
    let n := Nat.ofDigitChars 10 text.toList 0
    if n.repr = text then some n else none

theorem texts_signed : texts.Signed := fun _ => rfl

theorem texts_counts (bound : Nat) : texts.Counts bound := fun n _ => by simp [texts]

def minusOne : Numeral := ⟨true, ⟨'1', [], rfl⟩, none, none⟩

/-- A value with a text that would end its literal, were it not escaped. -/
def noted : Datum Numeral := .struct "Noted" [("note", .str "\" | true"), ("level", .number minusOne)]

theorem eq_selects_noted : ∃ program, jqEq (.ok noted) = .ok program ∧
    run texts program (.object [("level", .number "-1"), ("note", .string "\" | true")]) = some [.bool true] ∧
    run texts program .null = some [.bool false] := by
  refine ⟨_, rfl, (eq_selects texts_signed rfl _).trans ?_, (eq_selects texts_signed rfl _).trans ?_⟩ <;> rfl

/-- **Main theorem.** The filter is true of what jq takes the value to be contained in. Every payload that includes
the value is, whatever else it carries, and no other is if the value has neither strings nor arrays. -/
theorem contains_selects (hsigned : decimals.Signed) {value : Datum Numeral} {program : String}
    (h : jqContains (.ok value) = .ok program) (payload : Value κ) :
    let wanted := held decimals (wireValue .json value)
    (Selects decimals program payload ↔ kind wanted = kind payload ∧ within wanted payload = true) ∧
      (Includes payload wanted → Selects decimals program payload) ∧
      (flat wanted = true → Selects decimals program payload → Includes payload wanted) := by
  obtain rfl : ". | contains(" ++ String.ofList (text (listed value)) ++ ")" = program := Except.ok.inj h
  have hselects : Selects decimals (". | contains(" ++ String.ofList (text (listed value)) ++ ")") payload ↔
      kind (held decimals (wireValue .json value)) = kind payload ∧
        within (held decimals (wireValue .json value)) payload = true := by
    rw [Selects, run_contains hsigned, held_listed]
    split
    · next hkind => simp [hkind]
    · next hkind => simp [hkind]
  refine ⟨hselects, fun hincludes => ?_, fun hflat hselected => ?_⟩
  · exact hselects.mpr ⟨hincludes.kind, hincludes.within (ordered_held decimals _)⟩
  · exact includes_of_within hflat (hselects.mp hselected).2

theorem contains_selects_noted : ∃ program, jqContains (.ok noted) = .ok program ∧
    Selects texts program (.object [("id", .null), ("level", .number "-1"), ("note", .string "\" | true")]) := by
  refine ⟨_, rfl, (contains_selects texts_signed rfl _).1.mpr ?_⟩
  decide

/-- **Main theorem.** Only a value that serializes to an array makes a filter, and what it is true of are the arrays
that begin with the items of the value. -/
theorem arrayPrefix_selects (hsigned : decimals.Signed) {value : Datum Numeral} {program : String}
    (hcounts : ∀ items, wireValue .json value = .array items → decimals.Counts items.length)
    (h : jqArrayPrefixEq (.ok value) = .ok program) :
    ∃ items, held decimals (wireValue .json value) = .array items ∧
      ∀ payload, Selects decimals program payload ↔ ∃ rest, payload = .array (items ++ rest) := by
  obtain ⟨items, hvalue, rfl⟩ := jqArrayPrefixEq_eq_ok h
  refine ⟨heldItems decimals items, by rw [hvalue, held], fun payload => ?_⟩
  have hlength : items.length = (heldItems decimals items).length := by rw [heldItems_eq, List.length_map]
  rw [Selects, run_prefixEquals hsigned (hcounts items hvalue), held, hlength]
  cases payload with
  | array xs =>
    simp only [slice, List.drop_zero, Option.map_some, Option.some.injEq, List.cons.injEq, Value.bool.injEq,
      decide_eq_true_eq, Value.array.injEq, and_true]
    constructor
    · intro htake
      obtain ⟨rest, hrest⟩ := List.prefix_iff_eq_take.mpr htake.symm
      exact ⟨rest, hrest.symm⟩
    · intro h
      obtain ⟨rest, rfl⟩ := h
      exact List.take_left
  | _ => simp [slice]

theorem arrayPrefix_selects_noted : ∃ program, jqArrayPrefixEq (.ok (.tuple [noted, .none])) = .ok program ∧
    ∃ items, held texts (.array [wireValue .json noted, .null]) = .array items ∧
      Selects texts program (.array (items ++ [.bool true])) := by
  obtain ⟨program, hprogram⟩ : ∃ program, jqArrayPrefixEq (.ok (.tuple [noted, .none])) = .ok program := ⟨_, rfl⟩
  obtain ⟨items, hitems, hselects⟩ :=
    arrayPrefix_selects texts_signed (fun items _ => texts_counts items.length) hprogram
  exact ⟨program, hprogram, items, hitems, (hselects _).mpr ⟨_, rfl⟩⟩

end Results

end Zizq.Filter
