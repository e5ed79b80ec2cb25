import Mathlib.Algebra.Order.Floor.Ring
import Mathlib.Data.Int.Log
import Mathlib.Data.Rat.Floor
import Orbit.Foundations.Json

/-!
# JSON values as texts and integers

What ECMAScript makes of a parsed JSON value where a text or an integer is asked for: `toText` is
`String(v)`, as a template literal has it, and `toBigInt` is `BigInt(v)`. Both fail on an object
that has a property `toString` of its own, since a parsed value is never a function, and on an array
that holds such an object. So `BigInt` succeeds only on what has a text:
`isSome_toText_of_toBigInt`.

A number is the double that is nearest to its literal, and its text is the shortest one that
is read as the same double. A text of well-formed code units is that of one list of
characters: `chars_text`.
-/

namespace Orbit.Json

/-! ## Characters of code units -/

/-- The characters of the code units after the first half `high` of a surrogate
pair, if there is one. -/
def charsFrom : Option ℕ → List ℕ → Option (List Char)
  | none, [] => some []
  | some _, [] => none
  | none, u :: us =>
    if 0xD800 ≤ u ∧ u < 0xDC00 then charsFrom (some u) us
    else if 0xDC00 ≤ u ∧ u < 0xE000 then none
    else (charsFrom none us).map (Char.ofNat u :: ·)
  | some high, u :: us =>
    if 0xDC00 ≤ u ∧ u < 0xE000 then
      (charsFrom none us).map (Char.ofNat (0x10000 + (high - 0xD800) * 1024 + (u - 0xDC00)) :: ·)
    else none

/-- The characters of a text, unless half of a surrogate pair stands alone in it. -/
def chars (us : List ℕ) : Option (List Char) := charsFrom none us

theorem chars_units (c : Char) (us : List ℕ) : chars (units c ++ us) = (chars us).map (c :: ·) := by
  have hvalid : c.toNat < 0xD800 ∨ 0xDFFF < c.toNat ∧ c.toNat < 0x110000 := c.valid
  unfold units
  split
  · rw [List.singleton_append, chars, charsFrom, if_neg (by omega),
      if_neg (by omega), Char.ofNat_toNat,
      chars]
  · have hhigh : 0xD800 ≤ 0xD800 + (c.toNat - 0x10000) / 1024 ∧
        0xD800 + (c.toNat - 0x10000) / 1024 < 0xDC00 := by omega
    have hlow : 0xDC00 ≤ 0xDC00 + (c.toNat - 0x10000) % 1024 ∧
        0xDC00 + (c.toNat - 0x10000) % 1024 < 0xE000 := by omega
    have hjoin : 0x10000 + (0xD800 + (c.toNat - 0x10000) / 1024 - 0xD800) * 1024 +
        (0xDC00 + (c.toNat - 0x10000) % 1024 - 0xDC00) = c.toNat := by omega
    rw [List.cons_append, List.singleton_append, chars, charsFrom,
      if_pos hhigh, charsFrom, if_pos hlow,
      hjoin, Char.ofNat_toNat, chars]

theorem chars_text (s : String) : chars (text s) = some s.toList := by
  unfold text
  induction s.toList with
  | nil => rfl
  | cons c cs ih => rw [List.flatMap_cons, chars_units, ih, Option.map_some]

/-! ## Numbers -/

/-- The number that a literal denotes. -/
def literalValue (literal : List Char) : ℚ :=
  let marks (c : Char) : Bool := c = 'e' ∨ c = 'E'
  let mantissa := literal.takeWhile fun c => !marks c
  let exponent : ℤ :=
    match (literal.dropWhile fun c => !marks c).tail with
    | '-' :: ds => -(Nat.ofDigitChars 10 ds 0 : ℤ)
    | ds => Nat.ofDigitChars 10 (ds.filter Char.isDigit) 0
  let fraction := (mantissa.dropWhile (· ≠ '.')).tail
  let digits := Nat.ofDigitChars 10 (mantissa.filter Char.isDigit) 0
  (if literal.head? = some '-' then -1 else 1) * digits * 10 ^ (exponent - fraction.length)

/-- The nearest integer, and of two the even one. -/
def roundEven (x : ℚ) : ℤ :=
  let rest := x - ⌊x⌋
  if rest < 1 / 2 ∨ rest = 1 / 2 ∧ ⌊x⌋ % 2 = 0 then ⌊x⌋ else ⌊x⌋ + 1

/-- The nearest double, `none` if it is infinite. -/
def toDouble (x : ℚ) : Option ℚ :=
  let ulp : ℚ := 2 ^ max (Int.log 2 |x| - 52) (-1074)
  let d := roundEven (x / ulp) * ulp
  if |d| < 2 ^ 1024 then some d else none

/-- The double of a literal. -/
def double (literal : List Char) : Option ℚ := toDouble (literalValue literal)

/-- `k` digits and an exponent that stand for a positive double, the closest to it. -/
def digitsOf (x : ℚ) (k : ℕ) : Option (ℕ × ℤ) :=
  let n := Int.log 10 x + 1
  let scaled := x * 10 ^ (k - n)
  let below := ⌊scaled⌋.toNat
  let stands (s : ℕ) : Bool := toDouble (s * 10 ^ (n - k)) = some x
  let s := if stands below ∧ (¬stands (below + 1) ∨ scaled - below < 1 / 2 ∨
    scaled - below = 1 / 2 ∧ below % 2 = 0) then below else below + 1
  if stands s then
    if s = 10 ^ k then some (10 ^ (k - 1), n + 1) else some (s, n)
  else none

/-- The notation of the digits `ds` after the point, times `10 ^ n`. -/
def positional (ds : List Char) (n : ℤ) : List Char :=
  if ds.length ≤ n ∧ n ≤ 21 then ds ++ List.replicate (n - ds.length).toNat '0'
  else if 0 < n ∧ n ≤ 21 then ds.take n.toNat ++ '.' :: ds.drop n.toNat
  else if -6 < n ∧ n ≤ 0 then "0.".toList ++ List.replicate (-n).toNat '0' ++ ds
  else
    (match ds with
      | [] => []
      | [d] => [d]
      | d :: ds => d :: '.' :: ds) ++
    'e' :: (if 0 < n then '+' else '-') :: Nat.toDigits 10 (n - 1).natAbs

/-- `String(x)` of a number. -/
def numberText (literal : List Char) : List Char :=
  match double literal with
  | none => if literal.head? = some '-' then "-Infinity".toList else "Infinity".toList
  | some x =>
    if x = 0 then ['0']
    else
      match (List.range 17).findSome? fun i => digitsOf |x| (i + 1) with
      | none => []
      | some (s, n) => (if x < 0 then ['-'] else []) ++ positional (Nat.toDigits 10 s) n

/-! ## Texts -/

mutual

/-- `String(v)`: an object is asked for its `toString`, and one of its own cannot be called. -/
def toText : Value → Option (List ℕ)
  | .null => some (text "null")
  | .bool b => some (text (if b then "true" else "false"))
  | .number literal => some (text (String.ofList (numberText literal)))
  | .string s => some s
  | .array elements => joinTexts elements
  | .object fields =>
    if fields.any fun f => f.1 = text "toString" then none else some (text "[object Object]")

/-- `elements.join(',')`. -/
def joinTexts : List Value → Option (List ℕ)
  | [] => some []
  | [v] => elementText v
  | v :: vs => (elementText v).bind fun t => (joinTexts vs).map fun rest => t ++ text "," ++ rest

/-- The text of an element, which is empty for `null`. -/
def elementText : Value → Option (List ℕ)
  | .null => some []
  | v => toText v

end

/-! ## Integers -/

/-- White space and line ends. -/
def isWhite (u : ℕ) : Bool :=
  u ∈ [9, 10, 11, 12, 13, 0x20, 0xA0, 0x1680, 0x2028, 0x2029, 0x202F, 0x205F, 0x3000, 0xFEFF] ∨
    0x2000 ≤ u ∧ u ≤ 0x200A

def trim (us : List ℕ) : List ℕ :=
  ((us.dropWhile fun u => isWhite u).reverse.dropWhile fun u => isWhite u).reverse

def digitValue (u : ℕ) : Option ℕ :=
  if 48 ≤ u ∧ u ≤ 57 then some (u - 48)
  else if 97 ≤ u ∧ u ≤ 122 then some (u - 87)
  else if 65 ≤ u ∧ u ≤ 90 then some (u - 55)
  else none

/-- The number that a row of digits of a base denotes. -/
def digitsValue (base : ℕ) (us : List ℕ) : Option ℕ :=
  if us = [] then none
  else us.foldlM (fun n u => (digitValue u).bind fun d =>
    if d < base then some (n * base + d) else none) 0

/-- The integer that a text denotes, in decimal notation or in that of a base. -/
def textToBigInt (us : List ℕ) : Option ℤ :=
  match trim us with
  | [] => some 0
  | 48 :: mark :: ds =>
    if mark = 0x78 ∨ mark = 0x58 then (digitsValue 16 ds).map Int.ofNat
    else if mark = 0x6F ∨ mark = 0x4F then (digitsValue 8 ds).map Int.ofNat
    else if mark = 0x62 ∨ mark = 0x42 then (digitsValue 2 ds).map Int.ofNat
    else (digitsValue 10 (48 :: mark :: ds)).map Int.ofNat
  | 0x2B :: ds => (digitsValue 10 ds).map Int.ofNat
  | 0x2D :: ds => (digitsValue 10 ds).map fun n => -(n : ℤ)
  | ds => (digitsValue 10 ds).map Int.ofNat

/-- `BigInt(v)`, of a value or of `undefined`: `none` is a `TypeError`,
`RangeError` or `SyntaxError`. -/
def toBigInt : Option Value → Option ℤ
  | none => none
  | some .null => none
  | some (.bool b) => some (if b then 1 else 0)
  | some (.number literal) => (double literal).bind fun x => if x.den = 1 then some x.num else none
  | some (.string s) => textToBigInt s
  | some v => (toText v).bind textToBigInt

theorem isSome_toText_of_toBigInt {v : Value} (h : (toBigInt (some v)).isSome) :
    (toText v).isSome := by
  cases v with
  | null | bool | number | string => simp [toText]
  | array elements =>
    by_contra hn
    rw [Option.not_isSome_iff_eq_none] at hn
    simp [toBigInt, hn] at h
  | object fields =>
    by_contra hn
    rw [Option.not_isSome_iff_eq_none] at hn
    simp [toBigInt, hn] at h

end Orbit.Json
