import BaSic.Machine

namespace BaSic.Kernel

/-- The statics of the evaluator: the characters from `pos` on, without the final NUL, and
the error flag. -/
structure Calc where
  pos : List UInt8
  error : Bool

/-- Space or tab. -/
def isBlank (c : UInt8) : Bool := c = 32 ∨ c = 9

def isDigit (c : UInt8) : Bool := 48 ≤ c ∧ c ≤ 57

inductive MulOp where
  | mul
  | div
  | mod
  deriving DecidableEq, Repr

inductive AddOp where
  | add
  | sub
  deriving DecidableEq, Repr

def mulOp (c : UInt8) : Option MulOp :=
  if c = 42 then some .mul else if c = 47 then some .div else if c = 37 then some .mod else none

def addOp (c : UInt8) : Option AddOp :=
  if c = 43 then some .add else if c = 45 then some .sub else none

/-- What `val` becomes, and whether the term goes on: after a zero divisor it ends with 0.
Multiplication wraps around; `idiv`, which `%` uses too, traps when the quotient is no `i32`. -/
def applyMul : MulOp → Int32 → Int32 → Except Fault (Int32 × Bool)
  | .mul, val, rhs => .ok (val * rhs, true)
  | .div, val, rhs =>
    if rhs = 0 then .ok (0, false)
    else if val = Int32.minValue ∧ rhs = -1 then .error .overflow
    else .ok (val / rhs, true)
  | .mod, val, rhs =>
    if rhs = 0 then .ok (0, false)
    else if val = Int32.minValue ∧ rhs = -1 then .error .overflow
    else .ok (val % rhs, true)

def applyAdd : AddOp → Int32 → Int32 → Except Fault (Int32 × Bool)
  | .add, val, rhs => .ok (val + rhs, true)
  | .sub, val, rhs => .ok (val - rhs, true)

/-- The arithmetic of the parser, on a number while its digits are read and on values. -/
structure Arith (N V : Type) where
  start : N
  digit : N → UInt8 → Except Fault N
  number : Bool → N → Except Fault V
  zero : V
  mul : MulOp → V → V → Except Fault (V × Bool)
  add : AddOp → V → V → Except Fault (V × Bool)

def i32Arith : Arith Int32 Int32 where
  start := 0
  digit val c := .ok (val * 10 + Int32.ofNat (c.toNat - 48))
  number neg val := .ok (if neg then -val else val)
  zero := 0
  mul := applyMul
  add := applyAdd

def skipWs (s : Calc) : Calc := { s with pos := s.pos.dropWhile isBlank }

section Chain
variable {Op V : Type} (opOf : UInt8 → Option Op) (apply : Op → V → V → Except Fault (V × Bool))
  (operand : Calc → Except Fault (V × Calc))

/-- The loop of `parse_term` and `parse_expr`; each round takes an operator, so the length of
what is left is fuel enough. -/
def opLoop : Nat → V → Calc → Except Fault (V × Calc)
  | 0, _, _ => .error .timeout
  | fuel + 1, val, s =>
    let s := skipWs s
    match s.pos.head?.bind opOf with
    | none => .ok (val, s)
    | some op => do
      let (rhs, s) ← operand { s with pos := s.pos.tail }
      let (val, more) ← apply op val rhs
      if more then opLoop fuel val s else .ok (val, { s with error := true })

/-- `parse_term` and `parse_expr`; what a parsing function returns comes with the statics it leaves. -/
def parseChain (s : Calc) : Except Fault (V × Calc) := do
  let (val, s) ← operand s
  opLoop opOf apply operand (s.pos.length + 1) val s

end Chain

section Parser
variable {N V : Type} (A : Arith N V)

/-- The digit loop of `parse_factor`. -/
def readDigits (val : N) : List UInt8 → Except Fault (N × List UInt8)
  | [] => .ok (val, [])
  | c :: pos =>
    if isDigit c then do
      let val ← A.digit val c
      readDigits val pos
    else .ok (val, c :: pos)

/-- The second half of `parse_factor`, after the sign. -/
def parseNumber (neg : Bool) (s : Calc) : Except Fault (V × Calc) :=
  if !s.pos.head?.any isDigit then .ok (A.zero, { s with error := true })
  else do
    let (val, pos) ← readDigits A A.start s.pos
    let val ← A.number neg val
    .ok (val, { s with pos := pos })

/-- `inner` is `parse_expr` as it is called after a parenthesis. -/
def parseFactor (inner : Calc → Except Fault (V × Calc)) (s : Calc) : Except Fault (V × Calc) :=
  let s := skipWs s
  if s.pos.head? = some 40 then do
    let (val, s) ← inner { s with pos := s.pos.tail }
    let s := skipWs s
    if s.pos.head? = some 41 then .ok (val, { s with pos := s.pos.tail })
    else .ok (val, { s with error := true })
  else if s.pos.head? = some 45 then parseNumber A true (skipWs { s with pos := s.pos.tail })
  else parseNumber A false s

def parseTerm (inner : Calc → Except Fault (V × Calc)) : Calc → Except Fault (V × Calc) :=
  parseChain mulOp A.mul (parseFactor A inner)

/-- The calls of `parse_expr` within each other are counted: each but the first comes after
a parenthesis. -/
def parseExpr : Nat → Calc → Except Fault (V × Calc)
  | 0 => fun _ => .error .timeout
  | depth + 1 => parseChain addOp A.add (parseTerm A (parseExpr depth))

/-- The body of `calc_eval`, for any arithmetic. -/
def evalWith (expr : List UInt8) : Except Fault (Option V) := do
  let (result, s) ← parseExpr A (expr.length + 1) ⟨expr, false⟩
  let s := skipWs s
  if s.error ∨ s.pos ≠ [] then .ok none else .ok (some result)

end Parser

/-- What is stored through `out`, when 1 is returned. -/
def calcEval : List UInt8 → Except Fault (Option Int32) := evalWith i32Arith

end BaSic.Kernel
