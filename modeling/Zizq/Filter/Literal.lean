import Zizq.Client.Serde
import Zizq.Filter.Program

/-! JSON texts in a filter.

What `serde_json` writes for a value is a text that jq reads as a literal of that value,
wherever in a program it stands: the lexer finds in it the tokens of the value
(`reads_text`), the parser the literal (`read_tokens`), and the literal has the value as
its one output (`outputs_literal`). -/
namespace Zizq.Filter
open Client Data Jq

/-! ### Numbers -/

structure Exponent where
  mark : Char
  sign : Option Char
  digits : Digits
  isMark : mark = 'e' ∨ mark = 'E'
  isSign : ∀ c ∈ sign, c = '+' ∨ c = '-'

/-- A number as it is written in JSON. -/
structure Numeral where
  negative : Bool
  whole : Digits
  fraction : Option Digits
  exponent : Option Exponent

def Exponent.chars (e : Exponent) : List Char := e.mark :: (e.sign.toList ++ e.digits.chars)

namespace Numeral

def fractionChars (n : Numeral) : List Char := (n.fraction.map fun d => '.' :: d.chars).getD []

def exponentChars (n : Numeral) : List Char := (n.exponent.map Exponent.chars).getD []

/-- The numeral without its sign. -/
def unsigned (n : Numeral) : List Char := n.whole.chars ++ n.fractionChars ++ n.exponentChars

def chars (n : Numeral) : List Char := if n.negative then '-' :: n.unsigned else n.unsigned

def text (n : Numeral) : String := String.ofList n.chars

def tokens (n : Numeral) : List Token :=
  if n.negative then [.minus, .number (String.ofList n.unsigned)] else [.number (String.ofList n.unsigned)]

def literal (n : Numeral) : Expr :=
  if n.negative then .neg (.number (String.ofList n.unsigned)) else .number (String.ofList n.unsigned)

end Numeral

/-! ### Strings -/

def lowerHex (n : Nat) : Char := if n < 10 then Char.ofNat (48 + n) else Char.ofNat (87 + n)

theorem codeUnit_lowerHex : ∀ n : Fin 32,
    codeUnit '0' '0' (lowerHex (n.val / 16)) (lowerHex (n.val % 16)) = some n.val ∧ n.val.isValidChar := by decide

/-- The characters that `serde_json` has an escape of two characters for. -/
def escapeOf : Char → Option Char
  | '"' => some '"'
  | '\\' => some '\\'
  | '\x08' => some 'b'
  | '\t' => some 't'
  | '\n' => some 'n'
  | '\x0c' => some 'f'
  | '\r' => some 'r'
  | _ => none

theorem escaped_escapeOf {c e : Char} (h : escapeOf c = some e) : escaped e = some c := by
  unfold escapeOf at h
  split at h
  all_goals
    cases h
    try rfl

theorem plain_escapeOf {c : Char} (h : escapeOf c = none) : c ≠ '"' ∧ c ≠ '\\' := by
  constructor
  · intro hc
    rw [hc] at h
    cases h
  · intro hc
    rw [hc] at h
    cases h

/-- How `serde_json` writes a character of a string. -/
def piece (c : Char) : Piece :=
  match h : escapeOf c with
  | some e => .escape e c (escaped_escapeOf h)
  | none =>
    if hcontrol : c.toNat < 32 then
      .code '0' '0' (lowerHex (c.toNat / 16)) (lowerHex (c.toNat % 16)) c.toNat
        (codeUnit_lowerHex ⟨c.toNat, hcontrol⟩)
    else .plain c (plain_escapeOf h)

theorem meaning_piece (c : Char) : (piece c).meaning = c := by
  unfold piece
  split
  · rfl
  · split
    · exact Char.ofNat_toNat c
    · rfl

def quote (s : String) : List Char := '"' :: ((s.toList.map piece).flatMap Piece.chars ++ ['"'])

/-! ### Values -/

mutual
/-- `serde_json::to_string`, with the members as they come. -/
def text : Value Numeral → List Char
  | .null => "null".toList
  | .bool true => "true".toList
  | .bool false => "false".toList
  | .number n => n.chars
  | .string s => quote s
  | .array items => '[' :: (Delimited.separated ',' (itemTexts items) ++ [']'])
  | .object members => '{' :: (Delimited.separated ',' (memberTexts members) ++ ['}'])

def itemTexts : List (Value Numeral) → List (List Char)
  | [] => []
  | item :: items => text item :: itemTexts items

def memberTexts : List (String × Value Numeral) → List (List Char)
  | [] => []
  | (key, value) :: members => (quote key ++ ':' :: text value) :: memberTexts members
end

mutual
def tokens : Value Numeral → List Token
  | .null => [.ident "null"]
  | .bool true => [.ident "true"]
  | .bool false => [.ident "false"]
  | .number n => n.tokens
  | .string s => [.string s]
  | .array items => .lbracket :: (Delimited.separated .comma (itemTokens items) ++ [.rbracket])
  | .object members => .lbrace :: (Delimited.separated .comma (memberTokens members) ++ [.rbrace])

def itemTokens : List (Value Numeral) → List (List Token)
  | [] => []
  | item :: items => tokens item :: itemTokens items

def memberTokens : List (String × Value Numeral) → List (List Token)
  | [] => []
  | (key, value) :: members => (.string key :: .colon :: tokens value) :: memberTokens members
end

mutual
def literal : Value Numeral → Expr
  | .null => .call "null"
  | .bool true => .call "true"
  | .bool false => .call "false"
  | .number n => n.literal
  | .string s => .string s
  | .array [] => .emptyArray
  | .array (item :: items) => .array (itemsAfter (literal item) items)
  | .object members => membersAfter .emptyObject members

/-- The items of an array behind `e`. -/
def itemsAfter (e : Expr) : List (Value Numeral) → Expr
  | [] => e
  | item :: items => itemsAfter (.binary .comma e (literal item)) items

/-- The members of an object behind those of `e`. -/
def membersAfter (e : Expr) : List (String × Value Numeral) → Expr
  | [] => e
  | (key, value) :: members => membersAfter (.member e key (literal value)) members
end

section Held
variable {κ : Type} (decimals : Decimals κ)

mutual
/-- What whoever reads the JSON text holds; of two members of one name, the later. -/
def held : Value Numeral → Value κ
  | .null => .null
  | .bool b => .bool b
  | .number n => .number (decimals.ofText n.text)
  | .string s => .string s
  | .array items => .array (heldItems items)
  | .object members => .object (ofMembers (heldMembers members))

def heldItems : List (Value Numeral) → List (Value κ)
  | [] => []
  | item :: items => held item :: heldItems items

def heldMembers : List (String × Value Numeral) → List (String × Value κ)
  | [] => []
  | (key, value) :: members => (key, held value) :: heldMembers members
end

end Held

theorem itemTexts_eq (items : List (Value Numeral)) : itemTexts items = items.map text := by
  induction items with
  | nil => rfl
  | cons item items ih => rw [itemTexts, ih, List.map_cons]

theorem memberTexts_eq (members : List (String × Value Numeral)) :
    memberTexts members = members.map fun e => quote e.1 ++ ':' :: text e.2 := by
  induction members with
  | nil => rfl
  | cons e members ih => rw [memberTexts, ih, List.map_cons]

theorem itemTokens_eq (items : List (Value Numeral)) : itemTokens items = items.map tokens := by
  induction items with
  | nil => rfl
  | cons item items ih => rw [itemTokens, ih, List.map_cons]

theorem memberTokens_eq (members : List (String × Value Numeral)) :
    memberTokens members = members.map fun e => .string e.1 :: .colon :: tokens e.2 := by
  induction members with
  | nil => rfl
  | cons e members ih => rw [memberTokens, ih, List.map_cons]

/-! ### Lexing -/

/-- What follows a value in a program, if anything does. -/
def Closes (c : Char) : Prop := c = ',' ∨ c = ']' ∨ c = '}' ∨ c = ')'

instance : DecidablePred Closes := fun c => inferInstanceAs (Decidable (c = ',' ∨ c = ']' ∨ c = '}' ∨ c = ')'))

theorem isDigit_of_closes (c : Char) (h : Closes c) : c.isDigit = false := by
  rcases h with rfl | rfl | rfl | rfl <;> rfl

theorem closes_name (c : Char) (h : Closes c) : isNameChar c = false ∧ c ≠ ':' := by
  rcases h with rfl | rfl | rfl | rfl <;> decide

theorem reads_symbol {c : Char} {tok : Token} (h : ∀ cs, lexNext c cs = some ([tok], cs)) :
    lexer.Reads (fun _ => True) [c] [tok] := Lexer.reads_next fun rest _ => h rest

theorem reads_blank : lexer.Reads (fun _ => True) [' '] [] := Lexer.reads_next fun _ _ => rfl

theorem Digits.mem (d : Digits) : ∀ c ∈ d.chars, c.isDigit = true := List.all_eq_true.mp d.isDigit

/-- Digits, with no digit behind them. -/
theorem Digits.span (d : Digits) {rest : List Char} (hrest : ∀ c ∈ rest.head?, c.isDigit = false) :
    (d.chars ++ rest).takeWhile Char.isDigit = d.chars ∧ (d.chars ++ rest).dropWhile Char.isDigit = rest :=
  span_append rest (Digits.mem d) hrest

theorem scanExponent_closes {rest : List Char} (hrest : Delimited.Stops Closes rest) :
    scanExponent rest = ([], rest) := by
  cases rest with
  | nil => rfl
  | cons c cs =>
    have hc : ¬(c = 'e' ∨ c = 'E') := by
      rcases hrest c rfl with rfl | rfl | rfl | rfl <;> decide
    rw [scanExponent, if_neg hc]

theorem scanSign_chars (e : Exponent) (rest : List Char) :
    scanSign (e.sign.toList ++ (e.digits.chars ++ rest)) = (e.sign.toList, e.digits.chars ++ rest) := by
  cases hsign : e.sign with
  | some c => exact if_pos (e.isSign c hsign)
  | none =>
    have hdigit := Digits.mem e.digits e.digits.first (List.mem_cons_self ..)
    have hfirst : ¬(e.digits.first = '+' ∨ e.digits.first = '-') := by
      intro hc
      rcases hc with hc | hc <;> rw [hc] at hdigit <;> cases hdigit
    exact if_neg hfirst

theorem scanExponent_chars (e : Exponent) {rest : List Char} (hrest : Delimited.Stops Closes rest) :
    scanExponent (e.chars ++ rest) = (e.chars, rest) := by
  obtain ⟨htake, hdrop⟩ := Digits.span e.digits fun c hc => isDigit_of_closes c (hrest c hc)
  rw [Exponent.chars, List.cons_append, List.append_assoc, scanExponent, if_pos e.isMark]
  simp only [scanSign_chars, htake, hdrop]
  rfl

theorem scanExponent_numeral (n : Numeral) {rest : List Char} (hrest : Delimited.Stops Closes rest) :
    scanExponent (n.exponentChars ++ rest) = (n.exponentChars, rest) := by
  rw [Numeral.exponentChars]
  cases n.exponent with
  | none => exact scanExponent_closes hrest
  | some e => exact scanExponent_chars e hrest

/-- Behind the digits of a fraction or of a whole number there is no other digit, and no dot. -/
theorem head_exponent (n : Numeral) {rest : List Char} (hrest : Delimited.Stops Closes rest) :
    ∀ c ∈ (n.exponentChars ++ rest).head?, c.isDigit = false ∧ c ≠ '.' := by
  rw [Numeral.exponentChars]
  cases n.exponent with
  | none =>
    intro c hc
    rcases hrest c hc with rfl | rfl | rfl | rfl <;> decide
  | some e =>
    intro c hc
    obtain rfl := Option.some.inj hc
    rcases e.isMark with hmark | hmark <;> rw [hmark] <;> decide

theorem scanFraction_numeral (n : Numeral) {rest : List Char} (hrest : Delimited.Stops Closes rest) :
    scanFraction (n.fractionChars ++ (n.exponentChars ++ rest)) = (n.fractionChars, n.exponentChars ++ rest) := by
  have hhead := head_exponent n hrest
  rw [Numeral.fractionChars]
  cases n.fraction with
  | some d =>
    obtain ⟨htake, hdrop⟩ := Digits.span d fun c hc => (hhead c hc).1
    show scanFraction ('.' :: (d.chars ++ (n.exponentChars ++ rest))) = _
    rw [scanFraction, htake, hdrop]
    rfl
  | none =>
    show scanFraction (n.exponentChars ++ rest) = _
    unfold scanFraction
    split
    · next cs heq => exact absurd rfl (hhead '.' (by rw [heq]; rfl)).2
    · rfl

theorem head_fraction (n : Numeral) {rest : List Char} (hrest : Delimited.Stops Closes rest) :
    ∀ c ∈ (n.fractionChars ++ (n.exponentChars ++ rest)).head?, c.isDigit = false := by
  rw [Numeral.fractionChars]
  cases n.fraction with
  | some d =>
    intro c hc
    obtain rfl := Option.some.inj hc
    rfl
  | none => exact fun c hc => (head_exponent n hrest c hc).1

theorem lexNext_digit {c : Char} (h : c.isDigit = true) (cs : List Char) :
    lexNext c cs = some ([(lexNumber c cs).1], (lexNumber c cs).2) := by
  have hone : lexOne c cs = some (lexNumber c cs) := by
    unfold lexOne
    split
    case h_16 => rw [if_pos h]
    all_goals exact absurd h (by decide)
  rw [lexNext, isSpace_of_digit h, hone]
  rfl

theorem reads_unsigned (n : Numeral) : lexer.Reads Closes n.unsigned [.number (String.ofList n.unsigned)] := by
  obtain ⟨hfirst, hothers⟩ := List.forall_mem_cons.mp (Digits.mem n.whole)
  have hunsigned : n.unsigned = n.whole.first :: (n.whole.others ++ n.fractionChars ++ n.exponentChars) := rfl
  rw [hunsigned]
  refine Lexer.reads_next fun rest hrest => ?_
  show lexNext _ _ = _
  obtain ⟨htake, hdrop⟩ := span_append _ hothers (head_fraction n hrest)
  rw [lexNext_digit hfirst, lexNumber, List.append_assoc, List.append_assoc, hdrop, htake]
  simp only [scanFraction_numeral n hrest, scanExponent_numeral n hrest]

theorem reads_numeral (n : Numeral) : lexer.Reads Closes n.chars n.tokens := by
  rw [Numeral.chars, Numeral.tokens]
  split
  · have hminus : lexer.Reads (fun c => c ≠ '=') ['-'] [.minus] := by
      refine Lexer.reads_next fun rest hrest => ?_
      cases rest with
      | nil => rfl
      | cons c cs =>
        have hc := hrest c rfl
        show lexNext '-' (c :: cs) = _
        simp [lexNext, isSpace, lexOne, hc]
    intro rest hrest
    have hstops : Delimited.Stops (fun c => c ≠ '=') (n.unsigned ++ rest) := by
      intro c hc
      obtain rfl := Option.some.inj hc
      intro heq
      have hdigit := Digits.mem n.whole n.whole.first (List.mem_cons_self ..)
      rw [heq] at hdigit
      cases hdigit
    show lexer.run (['-'] ++ (n.unsigned ++ rest)) = _
    rw [hminus _ hstops, reads_unsigned n rest hrest, Option.map_map]
    rfl
  · exact reads_unsigned n

theorem reads_quote (s : String) : lexer.Reads (fun _ => True) (quote s) [.string s] := by
  refine Lexer.reads_next fun rest _ => ?_
  show lexNext '"' _ = _
  have hmeaning : (s.toList.map piece).map Piece.meaning = s.toList := by
    rw [List.map_map]
    exact List.map_id'' meaning_piece _
  have hstring : lexString ((s.toList.map piece).flatMap Piece.chars ++ '"' :: rest) = some (.string s, rest) := by
    rw [lexString, scanString_pieces]
    show (joinUnits _).bind _ = _
    rw [joinUnits_pieces, hmeaning, Option.bind_some, String.ofList_toList]
    rfl
  rw [List.append_assoc, List.singleton_append]
  show (lexString _).map _ = _
  rw [hstring]
  rfl

/-- A name, before what cannot be a part of it. -/
theorem reads_word {stop : Char → Prop} (hstop : ∀ c, stop c → isNameChar c = false ∧ c ≠ ':')
    {c : Char} {cs : List Char}
    (hone : ∀ rest, lexOne c (cs ++ rest) = lexIdent c (cs ++ rest)) (hc : isSpace c = false)
    (hcs : cs.all isNameChar = true) : lexer.Reads stop (c :: cs) [.ident (String.ofList (c :: cs))] := by
  refine Lexer.reads_next fun rest hrest => ?_
  obtain ⟨htake, hdrop⟩ := span_append rest (List.all_eq_true.mp hcs) fun c hc => (hstop c (hrest c hc)).1
  have hident : lexIdent c (cs ++ rest) = some (.ident (String.ofList (c :: cs)), rest) := by
    rw [lexIdent, htake, hdrop]
    split
    · next tail => exact absurd rfl (hstop ':' (hrest ':' rfl)).2
    · rfl
  show lexNext _ _ = _
  rw [lexNext, hc, hone, hident]
  rfl

theorem closes_of_bracket {d : Char} (hd : Closes d) : ∀ c ∈ [d].head?, Closes c := by
  intro c hc
  obtain rfl := Option.some.inj hc
  exact hd

theorem reads_comma : lexer.Reads (fun _ => True) [','] [.comma] := reads_symbol fun _ => rfl

theorem reads_text (v : Value Numeral) : lexer.Reads Closes (text v) (tokens v) := by
  induction v with
  | null => exact reads_word closes_name (fun _ => rfl) rfl rfl
  | bool b => cases b <;> exact reads_word closes_name (fun _ => rfl) rfl rfl
  | number n => exact reads_numeral n
  | string s => exact (reads_quote s).before
  | array items ih =>
    have hopen : lexer.Reads (fun _ => True) ['['] [.lbracket] := reads_symbol fun _ => rfl
    have hclose : lexer.Reads (fun _ => True) [']'] [.rbracket] := reads_symbol fun _ => rfl
    rw [text, tokens, itemTexts_eq, itemTokens_eq]
    exact hopen.then ((Lexer.reads_separated reads_comma (.inl rfl) ih).append hclose.before nofun
      (closes_of_bracket (.inr (.inl rfl))))
  | object members ih =>
    have hopen : lexer.Reads (fun _ => True) ['{'] [.lbrace] := reads_symbol fun _ => rfl
    have hclose : lexer.Reads (fun _ => True) ['}'] [.rbrace] := reads_symbol fun _ => rfl
    have hcolon : lexer.Reads (fun _ => True) [':'] [.colon] := reads_symbol fun _ => rfl
    have hmember (e : String × Value Numeral) (he : e ∈ members) :
        lexer.Reads Closes (quote e.1 ++ ':' :: text e.2) (.string e.1 :: .colon :: tokens e.2) :=
      (reads_quote e.1).then (hcolon.then (ih e he))
    rw [text, tokens, memberTexts_eq, memberTokens_eq]
    exact hopen.then ((Lexer.reads_separated reads_comma (.inl rfl) hmember).append hclose.before nofun
      (closes_of_bracket (.inr (.inr (.inl rfl)))))

/-! ### Parsing -/

/-- A term may start here. -/
def Awaits : List Frame → Prop
  | .object _ _ :: _ | .key _ _ :: _ => False
  | _ => True

theorem term_of_awaits {frames : List Frame} (h : Awaits frames) (e : Expr) :
    Reading.term ⟨frames, none⟩ e = some ⟨frames, some e⟩ := by
  cases frames with
  | nil => rfl
  | cons frame frames => cases frame <;> first | rfl | exact h.elim

theorem opens_of_awaits {frames : List Frame} (h : Awaits frames) (frame : Frame) :
    Reading.opens ⟨frames, none⟩ frame = some ⟨frame :: frames, none⟩ := by
  rw [Reading.opens, term_of_awaits h]
  rfl

theorem readWord_of_awaits {frames : List Frame} (h : Awaits frames) (key : String) (e : Expr) :
    readWord ⟨frames, none⟩ key e = some ⟨frames, some e⟩ := by
  cases frames with
  | nil => rfl
  | cons frame frames => cases frame <;> first | rfl | exact h.elim

theorem read_ident {frames : List Frame} (h : Awaits frames) (name : String) :
    read ⟨frames, none⟩ (.ident name) = some ⟨frames, some (.call name)⟩ := readWord_of_awaits h ..

theorem read_string {frames : List Frame} (h : Awaits frames) (text : String) :
    read ⟨frames, none⟩ (.string text) = some ⟨frames, some (.string text)⟩ := readWord_of_awaits h ..

theorem read_number {frames : List Frame} (h : Awaits frames) (text : String) :
    read ⟨frames, none⟩ (.number text) = some ⟨frames, some (.number text)⟩ := term_of_awaits h _

theorem read_minus {frames : List Frame} (h : Awaits frames) :
    read ⟨frames, none⟩ .minus = some ⟨.neg :: frames, none⟩ := opens_of_awaits h .neg

/-- What has been read is `e`, but for a sign that any operator or bracket will apply. -/
inductive Completed (frames : List Frame) : Expr → Reading → Prop
  | whole (e : Expr) : Completed frames e ⟨frames, some e⟩
  | signed (e : Expr) : Completed frames (.neg e) ⟨.neg :: frames, some e⟩

/-- Any number of tokens. -/
def readAll (r : Reading) (toks : List Token) : Option Reading := toks.foldlM read r

theorem readAll_cons {r r' : Reading} {tok : Token} (h : read r tok = some r') (toks : List Token) :
    readAll r (tok :: toks) = readAll r' toks := by
  rw [readAll, List.foldlM_cons, h]
  rfl

theorem readAll_append {r r' : Reading} {toks : List Token} (h : readAll r toks = some r') (toks' : List Token) :
    readAll r (toks ++ toks') = readAll r' toks' := by
  rw [readAll] at h
  rw [readAll, List.foldlM_append, h]
  rfl

/-- An array whose items so far are `e`: another may follow, or the bracket. -/
structure Gathers (frames : List Frame) (e : Expr) (r : Reading) : Prop where
  comma : read r .comma = some ⟨.operand e .comma :: .array :: frames, none⟩
  close : read r .rbracket = some ⟨frames, some (.array e)⟩

theorem gathers_first {frames : List Frame} {e : Expr} {r : Reading} (h : Completed (.array :: frames) e r) :
    Gathers frames e r := by
  cases h <;> exact ⟨rfl, rfl⟩

theorem gathers_next {frames : List Frame} {e e' : Expr} {r : Reading}
    (h : Completed (.operand e .comma :: .array :: frames) e' r) : Gathers frames (.binary .comma e e') r := by
  cases h <;> exact ⟨rfl, rfl⟩

/-- An object that is `e` so far. -/
structure Collects (frames : List Frame) (e : Expr) (r : Reading) : Prop where
  comma : read r .comma = some ⟨.object e false :: frames, none⟩
  close : read r .rbrace = some ⟨frames, some e⟩

theorem collects_member {frames : List Frame} {e e' : Expr} {key : String} {r : Reading}
    (h : Completed (.member e key :: frames) e' r) : Collects frames (.member e key e') r := by
  cases h <;> exact ⟨rfl, rfl⟩

/-- The tokens of the value, where a term may start, are its literal. -/
def ReadsAs (v : Value Numeral) : Prop :=
  ∀ frames, Awaits frames → ∃ r, readAll ⟨frames, none⟩ (tokens v) = some r ∧ Completed frames (literal v) r

theorem read_items {items : List (Value Numeral)} (h : ∀ item ∈ items, ReadsAs item) {frames : List Frame} {e : Expr}
    {r : Reading} (hr : Gathers frames e r) :
    ∃ r', readAll r (items.flatMap fun item => .comma :: tokens item) = some r' ∧
      Gathers frames (itemsAfter e items) r' := by
  induction items generalizing e r with
  | nil => exact ⟨r, rfl, hr⟩
  | cons item items ih =>
    obtain ⟨hitem, hitems⟩ := List.forall_mem_cons.mp h
    obtain ⟨r₁, hread, hcompleted⟩ := hitem (.operand e .comma :: .array :: frames) trivial
    obtain ⟨r', hrest, hgathers⟩ := ih hitems (gathers_next hcompleted)
    refine ⟨r', ?_, hgathers⟩
    rw [List.flatMap_cons, List.cons_append, readAll_cons hr.comma, readAll_append hread]
    exact hrest

/-- A member behind an open brace, or behind a comma. -/
theorem read_member {e : String × Value Numeral} (h : ReadsAs e.2) (frames : List Frame) (object : Expr)
    (closable : Bool) : ∃ r, readAll ⟨.object object closable :: frames, none⟩ (.string e.1 :: .colon :: tokens e.2) =
      some r ∧ Collects frames (.member object e.1 (literal e.2)) r := by
  obtain ⟨r, hread, hcompleted⟩ := h (.member object e.1 :: frames) trivial
  refine ⟨r, ?_, collects_member hcompleted⟩
  have hkey : read ⟨.object object closable :: frames, none⟩ (.string e.1) =
      some ⟨.key object e.1 :: frames, none⟩ := rfl
  have hcolon : read ⟨.key object e.1 :: frames, none⟩ .colon = some ⟨.member object e.1 :: frames, none⟩ := rfl
  rw [readAll_cons hkey, readAll_cons hcolon]
  exact hread

theorem read_members {members : List (String × Value Numeral)} (h : ∀ e ∈ members, ReadsAs e.2) {frames : List Frame}
    {object : Expr} {r : Reading} (hr : Collects frames object r) :
    ∃ r', readAll r (members.flatMap fun e => .comma :: .string e.1 :: .colon :: tokens e.2) = some r' ∧
      Collects frames (membersAfter object members) r' := by
  induction members generalizing object r with
  | nil => exact ⟨r, rfl, hr⟩
  | cons e members ih =>
    obtain ⟨hmember, hmembers⟩ := List.forall_mem_cons.mp h
    obtain ⟨r₁, hread, hcollects⟩ := read_member hmember frames object false
    obtain ⟨r', hrest, hcollects'⟩ := ih hmembers hcollects
    refine ⟨r', ?_, hcollects'⟩
    rw [List.flatMap_cons, List.cons_append, readAll_cons hr.comma, readAll_append hread]
    exact hrest

theorem read_tokens (v : Value Numeral) : ReadsAs v := by
  induction v with
  | null => exact fun frames h => ⟨_, readAll_cons (read_ident h "null") [], .whole _⟩
  | bool b =>
    cases b with
    | false => exact fun frames h => ⟨_, readAll_cons (read_ident h "false") [], .whole _⟩
    | true => exact fun frames h => ⟨_, readAll_cons (read_ident h "true") [], .whole _⟩
  | number n =>
    intro frames h
    rw [tokens, literal, Numeral.tokens, Numeral.literal]
    split
    · refine ⟨⟨.neg :: frames, some _⟩, ?_, .signed _⟩
      rw [readAll_cons (read_minus h)]
      rfl
    · exact ⟨_, readAll_cons (read_number h _) [], .whole _⟩
  | string s => exact fun frames h => ⟨_, readAll_cons (read_string h s) [], .whole _⟩
  | array items ih =>
    intro frames h
    have hopen : read ⟨frames, none⟩ .lbracket = some ⟨.array :: frames, none⟩ := opens_of_awaits h .array
    rw [tokens, itemTokens_eq, readAll_cons hopen]
    cases items with
    | nil => exact ⟨_, rfl, .whole _⟩
    | cons item items =>
      obtain ⟨hitem, hitems⟩ := List.forall_mem_cons.mp ih
      obtain ⟨r₁, hread, hcompleted⟩ := hitem (.array :: frames) trivial
      obtain ⟨r₂, hrest, hgathers⟩ := read_items hitems (gathers_first hcompleted)
      refine ⟨_, ?_, .whole _⟩
      rw [List.map_cons, Delimited.separated, List.flatMap_map, List.append_assoc, readAll_append hread,
        readAll_append hrest, readAll_cons hgathers.close, literal]
      rfl
  | object members ih =>
    intro frames h
    have hopen : read ⟨frames, none⟩ .lbrace = some ⟨.object .emptyObject true :: frames, none⟩ :=
      opens_of_awaits h (.object .emptyObject true)
    rw [tokens, memberTokens_eq, readAll_cons hopen]
    cases members with
    | nil => exact ⟨_, rfl, .whole _⟩
    | cons e members =>
      obtain ⟨hmember, hmembers⟩ := List.forall_mem_cons.mp ih
      obtain ⟨r₁, hread, hcollects⟩ := read_member hmember frames .emptyObject true
      obtain ⟨r₂, hrest, hcollects'⟩ := read_members hmembers hcollects
      refine ⟨_, ?_, .whole _⟩
      rw [List.map_cons, Delimited.separated, List.flatMap_map, List.append_assoc, readAll_append hread,
        readAll_append hrest, readAll_cons hcollects'.close, literal]
      rfl

/-! ### Meaning -/

section Meaning
variable {κ : Type} [DecidableEq κ] {decimals : Decimals κ} (hsigned : decimals.Signed)
include hsigned

/-- The literal of the value outputs the value, on any input. -/
def Denotes (decimals : Decimals κ) (v : Value Numeral) : Prop :=
  ∀ input, outputs decimals (literal v) input = some [held decimals v]

omit hsigned in
theorem outputs_items {items : List (Value Numeral)} (h : ∀ item ∈ items, Denotes decimals item) {e : Expr}
    {input : Value κ} {vs : List (Value κ)} (he : outputs decimals e input = some vs) :
    outputs decimals (itemsAfter e items) input = some (vs ++ heldItems decimals items) := by
  induction items generalizing e vs with
  | nil => rw [itemsAfter, he, heldItems, List.append_nil]
  | cons item items ih =>
    obtain ⟨hitem, hitems⟩ := List.forall_mem_cons.mp h
    have hboth : outputs decimals (.binary .comma e (literal item)) input = some (vs ++ [held decimals item]) := by
      rw [outputs, he, hitem]
      rfl
    rw [itemsAfter, ih hitems hboth, heldItems, List.append_assoc]
    rfl

omit hsigned in
theorem outputs_members {members : List (String × Value Numeral)} (h : ∀ e ∈ members, Denotes decimals e.2) {e : Expr}
    {input : Value κ} {m : List (String × Value κ)} (he : outputs decimals e input = some [.object m]) :
    outputs decimals (membersAfter e members) input =
      some [.object ((heldMembers decimals members).foldl (fun map e => Assoc.insert e.1 e.2 map) m)] := by
  induction members generalizing e m with
  | nil => exact he
  | cons member members ih =>
    obtain ⟨hmember, hmembers⟩ := List.forall_mem_cons.mp h
    have hnext : outputs decimals (.member e member.1 (literal member.2)) input =
        some [.object (Assoc.insert member.1 (held decimals member.2) m)] := by
      rw [outputs, he, hmember]
      rfl
    rw [membersAfter, ih hmembers hnext]
    rfl

theorem outputs_literal (v : Value Numeral) : Denotes decimals v := by
  induction v with
  | null | string => exact fun _ => rfl
  | bool b => cases b <;> exact fun _ => rfl
  | number n =>
    intro input
    rw [literal, held, Numeral.literal, Numeral.text, Numeral.chars]
    split
    · have htext : String.ofList ('-' :: n.unsigned) = "-" ++ String.ofList n.unsigned := String.ofList_cons ..
      rw [htext, hsigned]
      rfl
    · rfl
  | array items ih =>
    intro input
    cases items with
    | nil => rfl
    | cons item items =>
      obtain ⟨hitem, hitems⟩ := List.forall_mem_cons.mp ih
      rw [literal, outputs, outputs_items hitems (hitem input)]
      rfl
  | object members ih =>
    intro input
    exact outputs_members ih rfl

end Meaning

end Zizq.Filter
