import ElementTensor.Binary64
import ElementTensor.TableSource

/-!
Parameters written as a JSON object or as a JSON array. The members of an object are optional, none
may occur twice, and there are no others. In an array the values stand in a fixed order, and what is
left out at its end has its default. A number is read as the nearest one in double precision.
-/
namespace ElementTensor

def Parameters.default : Parameters Binary64 := ⟨true, ⟨1e-10⟩⟩

namespace Json

def isBlank (c : Char) : Bool := c == ' ' || c == '\t' || c == '\n' || c == '\r'

def skipBlanks (cs : List Char) : List Char := cs.dropWhile isBlank

def digit? (c : Char) : Option Nat := if c.isDigit then some (c.toNat - 48) else none

def hexValue? (c : Char) : Option Nat :=
  if c.isDigit then some (c.toNat - 48)
  else if 'a' ≤ c ∧ c ≤ 'f' then some (c.toNat - 87)
  else if 'A' ≤ c ∧ c ≤ 'F' then some (c.toNat - 55)
  else none

def escaped? : Char → Option Char
  | '"' => some '"'
  | '\\' => some '\\'
  | '/' => some '/'
  | 'b' => some '\x08'
  | 'f' => some '\x0c'
  | 'n' => some '\n'
  | 'r' => some '\r'
  | 't' => some '\t'
  | _ => none

/-- The rest of a string behind its opening quote, and what follows it. -/
def string? : List Char → Option (List Char × List Char)
  | [] => none
  | '"' :: rest => some ([], rest)
  | '\\' :: 'u' :: a :: b :: c :: d :: rest => do
    let code := ((((← hexValue? a) * 16 + (← hexValue? b)) * 16 + (← hexValue? c)) * 16) + (← hexValue? d)
    let (s, rest) ← string? rest
    return (Char.ofNat code :: s, rest)
  | '\\' :: c :: rest => do
    let c ← escaped? c
    let (s, rest) ← string? rest
    return (c :: s, rest)
  | c :: rest => do
    if c.toNat < 32 then none
    let (s, rest) ← string? rest
    return (c :: s, rest)

/-- Reads digits behind those of `n`. -/
def natural (n : Nat) : List Char → Nat × List Char
  | [] => (n, [])
  | c :: cs =>
    match digit? c with
    | none => (n, c :: cs)
    | some d => natural (n * 10 + d) cs

def startsWithDigit : List Char → Bool
  | c :: _ => c.isDigit
  | [] => false

/-- The digits of an unsigned number in front of its exponent, without the zeros at the end of the
fraction. Of several digits before the point the first is not zero, and behind the point there is at
least one. -/
def mantissa? (cs : List Char) : Option (Decimal × List Char) := do
  let (n, cs) ← match cs with
    | '0' :: rest => if startsWithDigit rest then none else some (0, rest)
    | cs => if startsWithDigit cs then some (natural 0 cs) else none
  match cs with
  | '.' :: rest =>
    if startsWithDigit rest then
      let (m, cs) := natural n rest
      let places := rest.length - cs.length
      some (Decimal.dropZeros places ⟨m, -places⟩, cs)
    else none
  | cs => some (⟨n, 0⟩, cs)

/-- The exponent behind the mark, with an optional sign. -/
def exponent? (cs : List Char) : Option (Int × List Char) :=
  let (negative, cs) := match cs with
    | '+' :: rest => (false, rest)
    | '-' :: rest => (true, rest)
    | cs => (false, cs)
  if startsWithDigit cs then
    let (n, cs) := natural 0 cs
    some (if negative then -(n : Int) else n, cs)
  else none

/-- How many digits of a number are looked at; of those that follow it only counts that there are
some. A number half way between two neighbours has fewer, so that it is met exactly. -/
def digitLimit : Nat := 768

/-- The nearest number; none if the text is no number or stands for one that is too large. -/
def number? (cs : List Char) : Option (Binary64 × List Char) := do
  let (negative, cs) := match cs with
    | '-' :: rest => (true, rest)
    | cs => (false, cs)
  let (d, cs) ← mantissa? cs
  let (e, cs) ← match cs with
    | 'e' :: rest | 'E' :: rest => exponent? rest
    | cs => some (0, cs)
  let x ← Binary64.ofDecimal? (Decimal.abridge digitLimit ⟨d.digits, d.exponent + e⟩)
  return (if negative then -x else x, cs)

def boolean? : List Char → Option (Bool × List Char)
  | 't' :: 'r' :: 'u' :: 'e' :: rest => some (true, rest)
  | 'f' :: 'a' :: 'l' :: 's' :: 'e' :: rest => some (false, rest)
  | _ => none

end Json

namespace Parameters

/-- The values read so far. -/
structure Members where
  enablePreintegration : Option Bool := none
  tableTolerance : Option Binary64 := none

/-- Fills in the defaults. -/
def Members.parameters (m : Members) : Parameters Binary64 where
  enablePreintegration := m.enablePreintegration.getD default.enablePreintegration
  tableTolerance := m.tableTolerance.getD default.tableTolerance

/-- Reads the value of the member with the given name; it must be new. -/
def member? (m : Members) (name : String) (cs : List Char) : Option (Members × List Char) :=
  if name = "enable-preintegration" ∧ m.enablePreintegration.isNone then
    (Json.boolean? cs).map fun p => ({ m with enablePreintegration := some p.1 }, p.2)
  else if name = "table-tolerance" ∧ m.tableTolerance.isNone then
    (Json.number? cs).map fun p => ({ m with tableTolerance := some p.1 }, p.2)
  else none

/-- Reads members up to the closing brace. As none is repeated there are at most two. -/
def members? : (fuel : Nat) → Members → List Char → Option (Members × List Char)
  | 0, _, _ => none
  | fuel + 1, m, cs => do
    let '"' :: cs := Json.skipBlanks cs | none
    let (name, cs) ← Json.string? cs
    let ':' :: cs := Json.skipBlanks cs | none
    let (m, cs) ← member? m (String.ofList name) (Json.skipBlanks cs)
    match Json.skipBlanks cs with
    | ',' :: cs => members? fuel m cs
    | c :: cs => if c.toNat = 125 then some (m, cs) else none
    | [] => none

/-- Reads an object behind its opening brace. -/
def object? (cs : List Char) : Option (Members × List Char) :=
  match Json.skipBlanks cs with
  | c :: rest => if c.toNat = 125 then some ({}, rest) else members? 2 {} (c :: rest)
  | [] => none

/-- Reads an array behind its opening bracket: first whether to integrate beforehand, then the
tolerance. -/
def array? (cs : List Char) : Option (Members × List Char) :=
  match Json.skipBlanks cs with
  | ']' :: rest => some ({}, rest)
  | cs => do
    let (enable, cs) ← Json.boolean? cs
    match Json.skipBlanks cs with
    | ']' :: rest => some (⟨some enable, none⟩, rest)
    | ',' :: cs =>
      let (tolerance, cs) ← Json.number? (Json.skipBlanks cs)
      let ']' :: rest := Json.skipBlanks cs | none
      some (⟨some enable, some tolerance⟩, rest)
    | _ => none

/-- Reads parameters; none if the text is neither such an object nor such an array. -/
def ofJson? (text : String) : Option (Parameters Binary64) := do
  let c :: cs := Json.skipBlanks text.toList | none
  let (m, cs) ← if c.toNat = 123 then object? cs else if c = '[' then array? cs else none
  if (Json.skipBlanks cs).isEmpty then some m.parameters else none

end Parameters
end ElementTensor
