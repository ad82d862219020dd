import Zizq.Jq.Lexer

/-! The grammar of jq.

Terms are read with their suffixes, operators by precedence: a pipe binds loosest,
then an assignment, then a comparison, then `+`. The parser keeps the unfinished
expressions on a stack, and an operator that follows an operand first completes all
expressions that bind tighter than it does. -/
namespace Zizq.Jq

inductive Expr where
  | identity
  | field (e : Expr) (name : String)
  | index (e key : Expr)
  | var (name : String)
  | number (n : Nat)
  | string (text : String)
  | call (name : String)
  | binary (o : Op) (l r : Expr)

inductive Assoc where
  | left | right | none

namespace Op

def level : Op → Nat
  | pipe => 0
  | assign | plusAssign => 1
  | le => 2
  | add => 3

def assoc : Op → Assoc
  | pipe => .right
  | assign | plusAssign | le => .none
  | add => .left

end Op

/-- An expression that has begun: an operand with its operator, or an open bracket. -/
inductive Frame where
  | operand (l : Expr) (o : Op)
  | paren
  | bracket (e : Expr)

/-- The parser between two tokens; `expr` is the operand that was just read. -/
structure Reading where
  frames : List Frame
  expr : Option Expr

/-- Completes what binds tighter than `o`; equal levels go by associativity. -/
def reduce (o : Op) : List Frame → Expr → Option (List Frame × Expr)
  | .operand l top :: frames, e =>
    if o.level < top.level then reduce o frames (.binary top l e)
    else if top.level < o.level then some (.operand l top :: frames, e)
    else match top.assoc with
      | .left => reduce o frames (.binary top l e)
      | .right => some (.operand l top :: frames, e)
      | .none => none
  | frames, e => some (frames, e)

/-- Completes everything inside the innermost open bracket. -/
def reduceAll : List Frame → Expr → List Frame × Expr
  | .operand l top :: frames, e => reduceAll frames (.binary top l e)
  | frames, e => (frames, e)

def read (r : Reading) : Token → Option Reading
  | .dot => if r.expr.isNone then some { r with expr := some .identity } else none
  | .field name => some { r with expr := some (.field (r.expr.getD .identity) name) }
  | .var name => if r.expr.isNone then some { r with expr := some (.var name) } else none
  | .ident name => if r.expr.isNone then some { r with expr := some (.call name) } else none
  | .number n => if r.expr.isNone then some { r with expr := some (.number n) } else none
  | .string text => if r.expr.isNone then some { r with expr := some (.string text) } else none
  | .op o => do
    let e ← r.expr
    let (frames, e) ← reduce o r.frames e
    return ⟨.operand e o :: frames, none⟩
  | .lparen => if r.expr.isNone then some ⟨.paren :: r.frames, none⟩ else none
  | .rparen => do
    let e ← r.expr
    match reduceAll r.frames e with
    | (.paren :: frames, e) => some ⟨frames, some e⟩
    | _ => none
  | .lbracket => do
    let e ← r.expr
    return ⟨.bracket e :: r.frames, none⟩
  | .rbracket => do
    let key ← r.expr
    match reduceAll r.frames key with
    | (.bracket e :: frames, key) => some ⟨frames, some (.index e key)⟩
    | _ => none

def finish (r : Reading) : Option Expr := do
  let e ← r.expr
  match reduceAll r.frames e with
  | ([], e) => some e
  | _ => none

def parse (toks : List Token) : Option Expr := (toks.foldlM read ⟨[], none⟩).bind finish

end Zizq.Jq
