import Mathlib.Algebra.Group.Nat.Defs
import Mathlib.Data.Int.Notation
import Mathlib.Data.List.Basic

/-!
# Bytes, text and JSON

What a program does with the bytes of a message before it looks at them: `decode` is the UTF-8
decoder of the Encoding standard, which puts U+FFFD for every maximal piece that is not UTF-8 and so
never fails, and `parse` reads a JSON text (ECMA-404), which fails on every other text.

The parser is a pushdown machine. It reads the text character by character, with the containers that
are not closed yet on a stack, so that the recursion is on the text. `Mode` says what may come next.

A string is the list of its UTF-16 code units, since an escape may give half of a surrogate pair,
and a number is kept as the characters it was written with.
-/

namespace Orbit.Json

/-! ## Text of bytes -/

/-- The bytes still owed of a character: how many, the bits read so far, and
the range of the next. -/
structure Pending where
  needed : ℕ
  bits : ℕ
  lower : ℕ
  upper : ℕ
  deriving DecidableEq, Repr

/-- U+FFFD. -/
def replacement : Char := Char.ofNat 0xFFFD

/-- The first byte of a character. -/
def firstByte (b : ℕ) : List Char × Option Pending :=
  if b ≤ 0x7F then ([Char.ofNat b], none)
  else if 0xC2 ≤ b ∧ b ≤ 0xDF then ([], some ⟨1, b % 32, 0x80, 0xBF⟩)
  else if b = 0xE0 then ([], some ⟨2, b % 16, 0xA0, 0xBF⟩)
  else if b = 0xED then ([], some ⟨2, b % 16, 0x80, 0x9F⟩)
  else if 0xE1 ≤ b ∧ b ≤ 0xEF then ([], some ⟨2, b % 16, 0x80, 0xBF⟩)
  else if b = 0xF0 then ([], some ⟨3, b % 8, 0x90, 0xBF⟩)
  else if b = 0xF4 then ([], some ⟨3, b % 8, 0x80, 0x8F⟩)
  else if 0xF1 ≤ b ∧ b ≤ 0xF3 then ([], some ⟨3, b % 8, 0x80, 0xBF⟩)
  else ([replacement], none)

/-- One byte: the characters it completes, and what is owed after it. A byte that does not continue
a character ends it and is read as a first byte. -/
def nextByte (b : ℕ) : Option Pending → List Char × Option Pending
  | none => firstByte b
  | some p =>
    if p.lower ≤ b ∧ b ≤ p.upper then
      if p.needed ≤ 1 then ([Char.ofNat (p.bits * 64 + b % 64)], none)
      else ([], some ⟨p.needed - 1, p.bits * 64 + b % 64, 0x80, 0xBF⟩)
    else (replacement :: (firstByte b).1, (firstByte b).2)

def decodeFrom : Option Pending → List UInt8 → List Char
  | none, [] => []
  | some _, [] => [replacement]
  | p, b :: bs => (nextByte b.toNat p).1 ++ decodeFrom (nextByte b.toNat p).2 bs

/-- `Buffer.toString`. -/
def decode (bytes : List UInt8) : List Char := decodeFrom none bytes

/-- The UTF-16 code units of a character. -/
def units (c : Char) : List ℕ :=
  if c.toNat < 0x10000 then [c.toNat]
  else [0xD800 + (c.toNat - 0x10000) / 1024, 0xDC00 + (c.toNat - 0x10000) % 1024]

/-- The code units of a text. -/
def text (s : String) : List ℕ := s.toList.flatMap units

/-! ## Values -/

inductive Value
  | null
  | bool (b : Bool)
  | number (literal : List Char)
  | string (s : List ℕ)
  | array (elements : List Value)
  | object (fields : List (List ℕ × Value))
  deriving Repr

/-- A property of a value that is not `null`: of two with one name, the last. -/
def Value.property (name : String) : Value → Option Value
  | .object fields => (fields.reverse.find? fun f => f.1 = text name).map Prod.snd
  | _ => none

/-- The double of a literal is zero: the digits are, or the number is at most half of the least
positive one, `2 ^ -1074`. -/
def isZero (literal : List Char) : Bool :=
  let marks (c : Char) : Bool := c = 'e' ∨ c = 'E'
  let mantissa := literal.takeWhile fun c => !marks c
  let exponent : ℤ :=
    match (literal.dropWhile fun c => !marks c).tail with
    | '-' :: ds => -(Nat.ofDigitChars 10 ds 0 : ℤ)
    | ds => Nat.ofDigitChars 10 (ds.filter Char.isDigit) 0
  let fraction := (mantissa.dropWhile (· ≠ '.')).tail
  let digits := Nat.ofDigitChars 10 (mantissa.filter Char.isDigit) 0
  let scale := exponent - fraction.length
  digits = 0 ∨ scale < 0 ∧ digits * 2 ^ 1075 ≤ 10 ^ scale.natAbs

/-- Whether a property, `none` if it is undefined, counts as true. -/
def truthy : Option Value → Bool
  | none => false
  | some .null => false
  | some (.bool b) => b
  | some (.number literal) => !isZero literal
  | some (.string s) => s ≠ []
  | some (.array _) => true
  | some (.object _) => true

/-! ## The machine -/

/-- A container that is not closed yet, with what it holds so far, last first. -/
inductive Frame
  | array (elements : List Value)
  /-- With the name whose value is being read. -/
  | object (fields : List (List ℕ × Value)) (name : List ℕ)

/-- Where in a number the machine stands. -/
inductive NumberPart
  | minus
  | zero
  | digits
  | point
  | fraction
  | exponent
  | exponentSign
  | exponentDigits
  deriving DecidableEq, Repr

/-- Where in a string. -/
inductive StringPart
  | plain
  | escape
  /-- So many hexadecimal digits are owed of an escape. -/
  | hex (owed value : ℕ)
  deriving DecidableEq, Repr

/-- What may come next. -/
inductive Mode
  | value
  /-- After `[`: a value or `]`. -/
  | firstElement
  /-- After `{`: a name or `}`. -/
  | firstName
  | name
  | colon
  /-- After a value: a comma, the end of the container, or the end of the text. -/
  | afterValue (v : Value)
  | number (part : NumberPart) (read : List Char)
  | string (part : StringPart) (read : List ℕ) (isName : Bool)
  /-- The rest of `true`, `false` or `null`. -/
  | literal (rest : List Char) (v : Value)

structure State where
  stack : List Frame
  mode : Mode

def isSpace (c : Char) : Bool := c = ' ' ∨ c = '\n' ∨ c = '\r' ∨ c = '\t'

def hexDigit (c : Char) : Option ℕ :=
  if c.isDigit then some (c.toNat - 48)
  else if 'a' ≤ c ∧ c ≤ 'f' then some (c.toNat - 87)
  else if 'A' ≤ c ∧ c ≤ 'F' then some (c.toNat - 55)
  else none

/-- The code unit of a one-letter escape. -/
def escapeUnit (c : Char) : Option ℕ :=
  if c = '"' ∨ c = '\\' ∨ c = '/' then some c.toNat
  else if c = 'b' then some 8
  else if c = 'f' then some 12
  else if c = 'n' then some 10
  else if c = 'r' then some 13
  else if c = 't' then some 9
  else none

/-- The first character of a value. -/
def startValue (stack : List Frame) (c : Char) : Option State :=
  if c = '"' then some ⟨stack, .string .plain [] false⟩
  else if c = '[' then some ⟨.array [] :: stack, .firstElement⟩
  else if c = '\x7b' then some ⟨.object [] [] :: stack, .firstName⟩
  else if c = '-' then some ⟨stack, .number .minus [c]⟩
  else if c = '0' then some ⟨stack, .number .zero [c]⟩
  else if c.isDigit then some ⟨stack, .number .digits [c]⟩
  else if c = 't' then some ⟨stack, .literal "rue".toList (.bool true)⟩
  else if c = 'f' then some ⟨stack, .literal "alse".toList (.bool false)⟩
  else if c = 'n' then some ⟨stack, .literal "ull".toList .null⟩
  else none

/-- A character after a value, which goes into its container. -/
def endValue (stack : List Frame) (v : Value) (c : Char) : Option State :=
  match stack with
  | .array elements :: stack =>
    if c = ',' then some ⟨.array (v :: elements) :: stack, .value⟩
    else if c = ']' then some ⟨stack, .afterValue (.array (v :: elements).reverse)⟩
    else none
  | .object fields name :: stack =>
    if c = ',' then some ⟨.object ((name, v) :: fields) [] :: stack, .name⟩
    else if c = '\x7d' then some ⟨stack, .afterValue (.object ((name, v) :: fields).reverse)⟩
    else none
  | [] => none

/-- A character in a number, unless the number ends before it. -/
def numberStep (part : NumberPart) (c : Char) : Option NumberPart :=
  match part with
  | .minus => if c = '0' then some .zero else if c.isDigit then some .digits else none
  | .zero =>
    if c = '.' then some .point else if c = 'e' ∨ c = 'E' then some .exponent else none
  | .digits =>
    if c.isDigit then some .digits
    else if c = '.' then some .point
    else if c = 'e' ∨ c = 'E' then some .exponent
    else none
  | .point => if c.isDigit then some .fraction else none
  | .fraction =>
    if c.isDigit then some .fraction else if c = 'e' ∨ c = 'E' then some .exponent else none
  | .exponent =>
    if c = '+' ∨ c = '-' then some .exponentSign
    else if c.isDigit then some .exponentDigits
    else none
  | .exponentSign => if c.isDigit then some .exponentDigits else none
  | .exponentDigits => if c.isDigit then some .exponentDigits else none

/-- The number may end here. -/
def NumberPart.complete : NumberPart → Bool
  | .zero => true
  | .digits => true
  | .fraction => true
  | .exponentDigits => true
  | _ => false

/-- A character in a string. -/
def stringStep (stack : List Frame) (part : StringPart) (read : List ℕ) (isName : Bool) (c : Char) :
    Option State :=
  match part with
  | .plain =>
    if c = '\\' then some ⟨stack, .string .escape read isName⟩
    else if c = '"' then
      if isName then
        match stack with
        | .object fields _ :: stack => some ⟨.object fields read.reverse :: stack, .colon⟩
        | _ => none
      else some ⟨stack, .afterValue (.string read.reverse)⟩
    else if c.toNat < 32 then none
    else some ⟨stack, .string .plain ((units c).reverse ++ read) isName⟩
  | .escape =>
    if c = 'u' then some ⟨stack, .string (.hex 4 0) read isName⟩
    else (escapeUnit c).map fun unit => ⟨stack, .string .plain (unit :: read) isName⟩
  | .hex owed value =>
    (hexDigit c).map fun d =>
      if owed ≤ 1 then ⟨stack, .string .plain ((value * 16 + d) :: read) isName⟩
      else ⟨stack, .string (.hex (owed - 1) (value * 16 + d)) read isName⟩

/-- One character. -/
def step (s : State) (c : Char) : Option State :=
  match s.mode with
  | .value => if isSpace c then some s else startValue s.stack c
  | .firstElement =>
    if isSpace c then some s
    else if c = ']' then some ⟨s.stack.tail, .afterValue (.array [])⟩
    else startValue s.stack c
  | .firstName =>
    if isSpace c then some s
    else if c = '\x7d' then some ⟨s.stack.tail, .afterValue (.object [])⟩
    else if c = '"' then some ⟨s.stack, .string .plain [] true⟩
    else none
  | .name =>
    if isSpace c then some s
    else if c = '"' then some ⟨s.stack, .string .plain [] true⟩
    else none
  | .colon =>
    if isSpace c then some s else if c = ':' then some ⟨s.stack, .value⟩ else none
  | .afterValue v => if isSpace c then some s else endValue s.stack v c
  | .number part read =>
    match numberStep part c with
    | some part' => some ⟨s.stack, .number part' (c :: read)⟩
    | none =>
      -- the number ends before this character
      if part.complete then
        if isSpace c then some ⟨s.stack, .afterValue (.number read.reverse)⟩
        else endValue s.stack (.number read.reverse) c
      else none
  | .string part read isName => stringStep s.stack part read isName c
  | .literal rest v =>
    match rest with
    | [] => none
    | d :: rest =>
      if c ≠ d then none
      else if rest = [] then some ⟨s.stack, .afterValue v⟩
      else some ⟨s.stack, .literal rest v⟩

/-- The end of the text. -/
def finish (s : State) : Option Value :=
  match s.stack, s.mode with
  | [], .afterValue v => some v
  | [], .number part read => if part.complete then some (.number read.reverse) else none
  | _, _ => none

def parseFrom (s : State) : List Char → Option Value
  | [] => finish s
  | c :: cs =>
    match step s c with
    | none => none
    | some s' => parseFrom s' cs

/-- `JSON.parse`: `none` is a `SyntaxError`. -/
def parse (cs : List Char) : Option Value := parseFrom ⟨[], .value⟩ cs

end Orbit.Json
