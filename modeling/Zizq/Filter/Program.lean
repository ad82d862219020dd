import Mathlib.Data.List.Infix
import Zizq.Data.Lexing
import Zizq.Jq.Spelling

/-! The jq of payload filters.

The fragment of jq that filters are written in: JSON literals, `==`, pipes, slices and
`contains`. The lexer takes the longest token, the parser goes by jq's precedences, with
the members of an object in a grammar of their own, and `outputs` gives what a program
outputs. On anything outside the fragment each of them fails, as they do where jq raises
an error. -/
namespace Zizq.Filter
open Data Jq
variable {κ : Type}

/-! ### Tokens -/

inductive Token where
  | dot
  | ident (name : String)
  | number (text : String)
  | string (text : String)
  | pipe | comma | eq | minus | colon
  | lparen | rparen | lbracket | rbracket | lbrace | rbrace
deriving DecidableEq

def scanFraction : List Char → List Char × List Char
  | '.' :: cs => ('.' :: cs.takeWhile Char.isDigit, cs.dropWhile Char.isDigit)
  | cs => ([], cs)

def scanSign : List Char → List Char × List Char
  | c :: cs => if c = '+' ∨ c = '-' then ([c], cs) else ([], c :: cs)
  | [] => ([], [])

/-- An exponent has digits; without any it is the start of the next token. -/
def scanExponent : List Char → List Char × List Char
  | c :: cs =>
    if c = 'e' ∨ c = 'E' then
      let (sign, rest) := scanSign cs
      if (rest.takeWhile Char.isDigit).isEmpty then ([], c :: cs)
      else (c :: (sign ++ rest.takeWhile Char.isDigit), rest.dropWhile Char.isDigit)
    else ([], c :: cs)
  | [] => ([], [])

def lexNumber (c : Char) (cs : List Char) : Token × List Char :=
  let (fraction, rest) := scanFraction (cs.dropWhile Char.isDigit)
  let (exponent, rest) := scanExponent rest
  (.number (String.ofList (c :: (cs.takeWhile Char.isDigit ++ fraction ++ exponent))), rest)

/-- A dot of its own: `.name`, `..` and `.5` are tokens outside the fragment. -/
def lexDot : List Char → Option (Token × List Char)
  | c :: cs => if isNameStart c || c == '.' || c.isDigit then none else some (.dot, c :: cs)
  | [] => some (.dot, [])

def lexString (cs : List Char) : Option (Token × List Char) := do
  let (units, rest) ← scanString cs
  let text ← joinUnits units
  return (.string (String.ofList text), rest)

/-- A name; with a `::` behind it, it is one of a module. -/
def lexIdent (c : Char) (cs : List Char) : Option (Token × List Char) :=
  match cs.dropWhile isNameChar with
  | ':' :: ':' :: _ => none
  | rest => some (.ident (String.ofList (c :: cs.takeWhile isNameChar)), rest)

/-- The longest token at the start of a text that is not blank. -/
def lexOne : Char → List Char → Option (Token × List Char)
  | '.', cs => lexDot cs
  | '"', cs => lexString cs
  | '(', cs => some (.lparen, cs)
  | ')', cs => some (.rparen, cs)
  | '[', cs => some (.lbracket, cs)
  | ']', cs => some (.rbracket, cs)
  | '{', cs => some (.lbrace, cs)
  | '}', cs => some (.rbrace, cs)
  | ',', cs => some (.comma, cs)
  | ':', cs => some (.colon, cs)
  | '|', '=' :: _ => none
  | '|', cs => some (.pipe, cs)
  | '-', '=' :: _ => none
  | '-', cs => some (.minus, cs)
  | '=', '=' :: cs => some (.eq, cs)
  | c, cs => if c.isDigit then some (lexNumber c cs) else if isNameStart c then lexIdent c cs else none

def lexNext (c : Char) (cs : List Char) : Option (List Token × List Char) :=
  if isSpace c then some ([], cs) else (lexOne c cs).map fun r => ([r.1], r.2)

/-! A token takes at least one character. -/

theorem scanFraction_length (cs : List Char) : (scanFraction cs).2.length ≤ cs.length := by
  unfold scanFraction
  split
  · exact Nat.le_succ_of_le (dropWhile_length ..)
  · exact Nat.le_refl _

theorem scanSign_length (cs : List Char) : (scanSign cs).2.length ≤ cs.length := by
  cases cs with
  | nil => exact Nat.le_refl _
  | cons c cs =>
    rw [scanSign]
    split <;> simp

theorem scanExponent_length (cs : List Char) : (scanExponent cs).2.length ≤ cs.length := by
  cases cs with
  | nil => exact Nat.le_refl _
  | cons c cs =>
    simp only [scanExponent]
    split
    · split
      · exact Nat.le_refl _
      · exact Nat.le_succ_of_le ((dropWhile_length ..).trans (scanSign_length cs))
    · exact Nat.le_refl _

theorem lexNumber_length (c : Char) (cs : List Char) : (lexNumber c cs).2.length ≤ cs.length :=
  (scanExponent_length _).trans ((scanFraction_length _).trans (dropWhile_length ..))

theorem lexDot_length {cs rest : List Char} {tok : Token} (h : lexDot cs = some (tok, rest)) :
    rest.length ≤ cs.length := by
  cases cs with
  | nil => cases h; exact Nat.le_refl _
  | cons c cs =>
    rw [lexDot] at h
    split at h <;> cases h
    exact Nat.le_refl _

theorem lexString_length {cs rest : List Char} {tok : Token} (h : lexString cs = some (tok, rest)) :
    rest.length ≤ cs.length := by
  obtain ⟨⟨units, rest'⟩, hscan, h⟩ := Option.bind_eq_some_iff.mp h
  obtain ⟨_, _, h⟩ := Option.bind_eq_some_iff.mp h
  cases h
  exact scanString_length hscan

theorem lexIdent_length {c : Char} {cs rest : List Char} {tok : Token} (h : lexIdent c cs = some (tok, rest)) :
    rest.length ≤ cs.length := by
  unfold lexIdent at h
  split at h <;> cases h
  exact dropWhile_length ..

theorem lexOne_length {c : Char} {cs rest : List Char} {tok : Token} (h : lexOne c cs = some (tok, rest)) :
    rest.length ≤ cs.length := by
  unfold lexOne at h
  split at h
  case h_1 => exact lexDot_length h
  case h_2 => exact lexString_length h
  case h_16 =>
    split at h
    · have hrest : (lexNumber c cs).2 = rest := congrArg Prod.snd (Option.some.inj h)
      exact hrest ▸ lexNumber_length c cs
    · split at h
      · exact lexIdent_length h
      · cases h
  all_goals cases h <;> simp

theorem lexNext_length {c : Char} {cs rest : List Char} {toks : List Token}
    (h : lexNext c cs = some (toks, rest)) : rest.length ≤ cs.length := by
  unfold lexNext at h
  split at h
  · cases h
    exact Nat.le_refl _
  · obtain ⟨⟨tok, rest'⟩, hone, h⟩ := Option.map_eq_some_iff.mp h
    cases h
    exact lexOne_length hone

def lexer : Lexer Char Token := ⟨lexNext, lexNext_length⟩

/-! ### Grammar -/

inductive Op where
  | pipe | comma | eq
deriving DecidableEq

inductive Expr where
  | identity
  | number (text : String)
  | string (text : String)
  | neg (e : Expr)
  | emptyArray
  | array (e : Expr)
  | emptyObject
  /-- The object `e` with one more member. -/
  | member (e : Expr) (key : String) (value : Expr)
  | slice (e first last : Expr)
  | call (name : String)
  | apply (name : String) (arg : Expr)
  | binary (o : Op) (l r : Expr)

namespace Op

def level : Op → Nat
  | pipe => 0
  | comma => 1
  | eq => 2

def assoc : Op → Jq.Assoc
  | pipe => .right
  | comma => .left
  | eq => .none

end Op

/-- An expression that has begun. -/
inductive Frame where
  | operand (l : Expr) (o : Op)
  | neg
  | call (name : String)
  | array
  | bracket (e : Expr)
  | upTo (e first : Expr)
  /-- An object that waits for a key; `closable` if it may end here. -/
  | object (e : Expr) (closable : Bool)
  | key (e : Expr) (key : String)
  | member (e : Expr) (key : String)

/-- The parser between two tokens; `expr` is the term that was just read. -/
structure Reading where
  frames : List Frame
  expr : Option Expr

/-- Completes what binds tighter than `o`; equal levels go by associativity. -/
def reduce (o : Op) : List Frame → Expr → Option (List Frame × Expr)
  | .operand l top :: frames, e =>
    if o.level < top.level then reduce o frames (.binary top l e)
    else if top.level < o.level then some (.operand l top :: frames, e)
    else match top.assoc with
      | .left => reduce o frames (.binary top l e)
      | .right => some (.operand l top :: frames, e)
      | .none => none
  | .neg :: frames, e => reduce o frames (.neg e)
  | frames, e => some (frames, e)

/-- Completes everything inside the innermost open bracket. -/
def reduceAll : List Frame → Expr → List Frame × Expr
  | .operand l top :: frames, e => reduceAll frames (.binary top l e)
  | .neg :: frames, e => reduceAll frames (.neg e)
  | frames, e => (frames, e)

namespace Reading

/-- A term, where one may start. -/
def term (r : Reading) (e : Expr) : Option Reading :=
  match r.frames, r.expr with
  | .object _ _ :: _, _ | .key _ _ :: _, _ | _, some _ => none
  | frames, none => some ⟨frames, some e⟩

/-- Something that a term starts with. -/
def opens (r : Reading) (frame : Frame) : Option Reading := (r.term .identity).map fun _ => ⟨frame :: r.frames, none⟩

def operator (r : Reading) (o : Op) : Option Reading := do
  let (frames, e) ← reduce o r.frames (← r.expr)
  return ⟨.operand e o :: frames, none⟩

/-- What a member of an object is up to its comma or brace. -/
def memberValue (r : Reading) : Option (List Frame × Expr) := do
  match reduceAll r.frames (← r.expr) with
  | (.member e key :: frames, value) => some (frames, .member e key value)
  | _ => none

end Reading

/-- A name or a string, as a key where one is due. -/
def readWord (r : Reading) (key : String) (e : Expr) : Option Reading :=
  match r.frames, r.expr with
  | .object object _ :: frames, none => some ⟨.key object key :: frames, none⟩
  | _, _ => r.term e

def readColon (r : Reading) : Option Reading :=
  match r.frames, r.expr with
  | .key e key :: frames, none => some ⟨.member e key :: frames, none⟩
  | frames, some e =>
    match reduceAll frames e with
    | (.bracket t :: frames, e) => some ⟨.upTo t e :: frames, none⟩
    | _ => none
  | _, _ => none

def readRbracket (r : Reading) : Option Reading :=
  match r.frames, r.expr with
  | .array :: frames, none => some ⟨frames, some .emptyArray⟩
  | frames, some e =>
    match reduceAll frames e with
    | (.array :: frames, e) => some ⟨frames, some (.array e)⟩
    | (.upTo t first :: frames, e) => some ⟨frames, some (.slice t first e)⟩
    | _ => none
  | _, _ => none

def readRbrace (r : Reading) : Option Reading :=
  match r.frames, r.expr with
  | .object e true :: frames, none => some ⟨frames, some e⟩
  | _, _ => r.memberValue.map fun (frames, e) => ⟨frames, some e⟩

def read (r : Reading) : Token → Option Reading
  | .dot => r.term .identity
  | .ident name => readWord r name (.call name)
  | .number text => r.term (.number text)
  | .string text => readWord r text (.string text)
  | .minus => r.opens .neg
  | .pipe => r.operator .pipe
  -- a comma ends a member of an object, and is an operator elsewhere
  | .comma =>
    match r.memberValue with
    | some (frames, e) => some ⟨.object e false :: frames, none⟩
    | none => r.operator .comma
  -- the value of a member is a term, or a pipe of terms
  | .eq => if r.memberValue.isSome then none else r.operator .eq
  | .colon => readColon r
  -- a term that is a name is the last token
  | .lparen =>
    match r.expr with
    | some (.call name) => some ⟨.call name :: r.frames, none⟩
    | _ => none
  | .rparen => do
    match reduceAll r.frames (← r.expr) with
    | (.call name :: frames, e) => some ⟨frames, some (.apply name e)⟩
    | _ => none
  | .lbracket =>
    match r.expr with
    | some e => some ⟨.bracket e :: r.frames, none⟩
    | none => r.opens .array
  | .rbracket => readRbracket r
  | .lbrace => r.opens (.object .emptyObject true)
  | .rbrace => readRbrace r

def finish (r : Reading) : Option Expr := do
  match reduceAll r.frames (← r.expr) with
  | ([], e) => some e
  | _ => none

def parse (toks : List Token) : Option Expr := (toks.foldlM read ⟨[], none⟩).bind finish

/-! ### Meaning -/

/-- What jq needs of its numbers: what a numeral is read as, and which of them are naturals. -/
structure Decimals (κ : Type) where
  ofText : String → κ
  negate : κ → κ
  toIndex : κ → Option Nat

/-- A sign in front of a numeral negates it. -/
def Decimals.Signed (decimals : Decimals κ) : Prop :=
  ∀ text : String, decimals.ofText ("-" ++ text) = decimals.negate (decimals.ofText text)

/-- The numerals of the naturals up to the bound are read as these. -/
def Decimals.Counts (decimals : Decimals κ) (bound : Nat) : Prop :=
  ∀ n : Nat, n ≤ bound → decimals.toIndex (decimals.ofText n.repr) = some n

/-- The types of jq; it tells `true` and `false` apart. -/
inductive Kind where
  | null | true | false | number | string | array | object
deriving DecidableEq

def kind : Value κ → Kind
  | .null => .null
  | .bool true => .true
  | .bool false => .false
  | .number _ => .number
  | .string _ => .string
  | .array _ => .array
  | .object _ => .object

section Eval
variable [DecidableEq κ]

mutual
/-- `contains`, of what is looked for: a text in a text, each of some items in one of the items, and members. -/
def within : Value κ → Value κ → Bool
  | .string t, .string s => decide (t.toList <:+: s.toList)
  | .array ys, .array xs => itemsWithin ys xs
  | .object m', .object m => membersWithin m' m
  | w, v => decide (w = v)

def itemsWithin : List (Value κ) → List (Value κ) → Bool
  | [], _ => true
  | y :: ys, xs => xs.any (within y) && itemsWithin ys xs

def membersWithin : List (String × Value κ) → List (String × Value κ) → Bool
  | [], _ => true
  | (key, w) :: m', m => (Assoc.get key m).any (within w) && membersWithin m' m
end

/-- From the first index up to the last, of an array or of the characters of a string. -/
def slice (first last : Nat) : Value κ → Option (Value κ)
  | .array xs => some (.array ((xs.take last).drop first))
  | .string s => some (.string (String.ofList ((s.toList.take last).drop first)))
  | .null => some .null
  | _ => none

def single {α : Type} : List α → Option α
  | [a] => some a
  | _ => none

variable (decimals : Decimals κ)

def index : Value κ → Option Nat
  | .number n => decimals.toIndex n
  | _ => none

/-- All outputs. An operand of `==` or of a slice, an argument and a member have one each in the fragment. -/
def outputs : Expr → Value κ → Option (List (Value κ))
  | .identity, v => some [v]
  | .number text, _ => some [.number (decimals.ofText text)]
  | .string text, _ => some [.string text]
  | .neg e, v => do
    match ← single (← outputs e v) with
    | .number n => some [.number (decimals.negate n)]
    | _ => none
  | .emptyArray, _ => some [.array []]
  | .array e, v => do return [.array (← outputs e v)]
  | .emptyObject, _ => some [.object []]
  | .member e key value, v => do
    match ← single (← outputs e v) with
    | .object m => return [.object (Assoc.insert key (← single (← outputs value v)) m)]
    | _ => none
  | .slice e first last, v => do
    let first ← index decimals (← single (← outputs first v))
    let last ← index decimals (← single (← outputs last v))
    return [← slice first last (← single (← outputs e v))]
  | .call "null", _ => some [.null]
  | .call "true", _ => some [.bool true]
  | .call "false", _ => some [.bool false]
  | .call _, _ => none
  | .apply "contains" arg, v => do
    let w ← single (← outputs arg v)
    if kind w = kind v then some [.bool (within w v)] else none
  | .apply _ _, _ => none
  | .binary .pipe l r, v => do return (← (← outputs l v).mapM (outputs r)).flatten
  | .binary .comma l r, v => do return (← outputs l v) ++ (← outputs r v)
  | .binary .eq l r, v => do
    return [.bool (decide ((← single (← outputs l v)) = (← single (← outputs r v))))]

/-- A program, from its text, on an input. -/
def run (program : String) (input : Value κ) : Option (List (Value κ)) := do
  let toks ← lexer.run program.toList
  outputs decimals (← parse toks) input

/-- The filter is true of the payload. -/
def Selects (program : String) (payload : Value κ) : Prop := run decimals program payload = some [.bool true]

end Eval

end Zizq.Filter
