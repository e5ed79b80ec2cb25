import Mathlib.Data.String.Basic
import Mathlib.Tactic.IntervalCases
import Orbit.Api.IdempotencyScope

/-!
# What the hash of a body tells

`hashBody` of `apps/api/src/idempotency/idempotency.interceptor.ts`. The replacer it gives to
`JSON.stringify` is the list of the names of the top-level properties, and holds for every
object of the body; a number out of range is written as `null`. What is left of a body is
`written`, and a text tells exactly that: it can be read back (`print_inj`), and does not depend
on the order of the properties.

* `hashBody_canonical_iff`: the hashes of two bodies are equal exactly when the bodies are the same
  up to the order of properties, unless they differ only in what is not written.
-/

namespace Orbit.Idempotency

namespace Json

/-! ## Strings -/

/-- Reads an escaped character off the front of a text. -/
def unescape : List Char → Option (Char × List Char)
  | '\\' :: 'n' :: u => some ('\n', u)
  | '\\' :: 'r' :: u => some ('\r', u)
  | '\\' :: 't' :: u => some ('\t', u)
  | '\\' :: 'b' :: u => some (Char.ofNat 8, u)
  | '\\' :: 'f' :: u => some (Char.ofNat 12, u)
  | '\\' :: 'u' :: _ :: _ :: a :: b :: u =>
    some (Char.ofNat (16 * (if a = '1' then 1 else 0) +
      if b.isDigit then b.toNat - '0'.toNat else b.toNat - 'a'.toNat + 10), u)
  | '\\' :: c :: u => some (c, u)
  | c :: u => some (c, u)
  | [] => none

theorem unescape_escape (c : Char) (u : List Char) :
    unescape ((escape c).toList ++ u) = some (c, u) := by
  by_cases hsmall : c.toNat < 32
  · obtain ⟨n, hn⟩ : ∃ n, c.toNat = n := ⟨_, rfl⟩
    have hc : c = Char.ofNat n := by rw [← hn, Char.ofNat_toNat]
    rw [hn] at hsmall
    subst hc
    interval_cases n <;> rfl
  · unfold escape
    split_ifs with h₁ h₂ h₃ h₄ h₅ h₆ h₇
    · rw [h₁]
      rfl
    · rw [h₂]
      rfl
    · rw [h₃]
      rfl
    · rw [h₄]
      rfl
    · rw [h₅]
      rfl
    · omega
    · omega
    · rw [String.toList_singleton, List.singleton_append]
      unfold unescape
      split <;> simp_all

theorem escape_inj {c c' : Char} {u u' : List Char}
    (h : (escape c).toList ++ u = (escape c').toList ++ u') : c = c' ∧ u = u' := by
  have hread := (unescape_escape c u).symm.trans
    ((congrArg unescape h).trans (unescape_escape c' u'))
  exact Prod.mk.inj (Option.some.inj hread)

/-- No escaped character begins with a quotation mark. -/
theorem escape_ne_quote (c : Char) (u v : List Char) : (escape c).toList ++ u ≠ '"' :: v := by
  intro h
  unfold escape at h
  split_ifs at h <;> simp_all

/-- A quoted string ends at its quotation mark. -/
theorem escaped_inj {s s' : List Char} {r r' : List Char}
    (h : s.flatMap (fun c => (escape c).toList) ++ '"' :: r =
      s'.flatMap (fun c => (escape c).toList) ++ '"' :: r') : s = s' ∧ r = r' := by
  induction s generalizing s' with
  | nil =>
    cases s' with
    | nil => exact ⟨rfl, (List.cons.inj h).2⟩
    | cons c s' =>
      rw [List.flatMap_cons, List.append_assoc] at h
      exact absurd h.symm (escape_ne_quote c _ _)
  | cons c s ih =>
    cases s' with
    | nil =>
      rw [List.flatMap_cons, List.append_assoc] at h
      exact absurd h (escape_ne_quote c _ _)
    | cons c' s' =>
      rw [List.flatMap_cons, List.flatMap_cons, List.append_assoc, List.append_assoc] at h
      obtain ⟨rfl, htail⟩ := escape_inj h
      obtain ⟨rfl, rfl⟩ := ih htail
      exact ⟨rfl, rfl⟩

theorem toList_quote (s : String) :
    (quote s).toList = '"' :: (s.toList.flatMap (fun c => (escape c).toList) ++ ['"']) := by
  simp [quote, String.toList_join, List.flatMap_map]

theorem quote_inj {s s' : String} {r r' : List Char}
    (h : (quote s).toList ++ r = (quote s').toList ++ r') : s = s' ∧ r = r' := by
  rw [toList_quote, toList_quote] at h
  simp only [List.cons_append, List.append_assoc, List.nil_append] at h
  obtain ⟨hs, hr⟩ := escaped_inj (List.cons.inj h).2
  exact ⟨String.toList_injective hs, hr⟩

/-! ## Numbers -/

def inNumeral (c : Char) : Bool := c.isDigit || c ∈ ['.', 'e', '+', '-']

/-- The text of a number that is in range. -/
def isNumeral (text : String) : Bool :=
  match text.toList with
  | [] => false
  | c :: cs => (c.isDigit || c = '-') && cs.all inNumeral

/-- What follows a value in a text does not go on with a number. -/
def Stops (r : List Char) : Prop := ∀ c ∈ r.head?, inNumeral c = false

theorem isNumeral_all {text : String} (h : isNumeral text = true) : ∀ c ∈ text.toList,
    inNumeral c = true := by
  unfold isNumeral at h
  split at h
  · cases h
  · rename_i c cs hcs
    rw [Bool.and_eq_true, List.all_eq_true] at h
    rw [hcs]
    intro d hd
    rcases List.mem_cons.mp hd with rfl | hd
    · rcases Bool.or_eq_true_iff.mp h.1 with hdigit | hminus
      · simp [inNumeral, hdigit]
      · simp [inNumeral, of_decide_eq_true hminus]
    · exact h.2 d hd

theorem numeral_inj {text text' : String} (h : isNumeral text = true) (h' : isNumeral text' = true)
    {r r' : List Char} (hr : Stops r) (hr' : Stops r')
    (heq : text.toList ++ r = text'.toList ++ r') :
    text = text' ∧ r = r' := by
  have hread : ∀ (t : String) (u : List Char), isNumeral t = true → Stops u →
      (t.toList ++ u).takeWhile inNumeral = t.toList := fun t u ht hu => by
    rw [List.takeWhile_append_of_pos (isNumeral_all ht)]
    cases u with
    | nil => simp
    | cons c u => rw [List.takeWhile_cons_of_neg (by simp [hu c rfl]), List.append_nil]
  have htext : text.toList = text'.toList := (hread _ _ h hr).symm.trans (heq ▸ hread _ _ h' hr')
  rw [htext] at heq
  exact ⟨String.toList_injective htext, List.append_cancel_left heq⟩

/-! ## Texts -/

mutual

/-- The text of a value, with all properties in their order. -/
def print : Json → List Char
  | null => "null".toList
  | bool b => if b then "true".toList else "false".toList
  | num text => text.toList
  | str s => (quote s).toList
  | arr xs => '[' :: (printList xs ++ [']'])
  | obj fields => '\x7b' :: (printFields fields ++ ['\x7d'])

def printList : List Json → List Char
  | [] => []
  | x :: xs => print x ++ printRest xs

def printRest : List Json → List Char
  | [] => []
  | x :: xs => ',' :: (print x ++ printRest xs)

def printFields : List (String × Json) → List Char
  | [] => []
  | (k, v) :: fs => (quote k).toList ++ ':' :: (print v ++ printFieldsRest fs)

def printFieldsRest : List (String × Json) → List Char
  | [] => []
  | (k, v) :: fs => ',' :: ((quote k).toList ++ ':' :: (print v ++ printFieldsRest fs))

end

mutual

/-- All numbers are in range. -/
def InRange : Json → Prop
  | null => True
  | bool _ => True
  | num text => isNumeral text = true
  | str _ => True
  | arr xs => InRangeList xs
  | obj fields => InRangeFields fields

def InRangeList : List Json → Prop
  | [] => True
  | x :: xs => InRange x ∧ InRangeList xs

def InRangeFields : List (String × Json) → Prop
  | [] => True
  | (_, v) :: fs => InRange v ∧ InRangeFields fs

end

/-- What a value is. -/
inductive Kind
  | null
  | bool
  | num
  | str
  | arr
  | obj
  deriving DecidableEq

def kind : Json → Kind
  | null => .null
  | bool _ => .bool
  | num _ => .num
  | str _ => .str
  | arr _ => .arr
  | obj _ => .obj

/-- What the value is that begins with a character. -/
def kindOf (c : Char) : Kind :=
  if c = 'n' then .null else if c = 't' ∨ c = 'f' then .bool else if c = '"' then .str
  else if c = '[' then .arr else if c = '\x7b' then .obj else .num

/-- The first character of a text tells what the value is. -/
theorem print_eq_cons {x : Json} (hx : x.InRange) :
    ∃ c cs, print x = c :: cs ∧ kindOf c = x.kind ∧ c ≠ ']' ∧ c ≠ ',' := by
  cases x with
  | null => exact ⟨'n', "ull".toList, rfl, rfl, by decide, by decide⟩
  | bool b =>
    cases b with
    | true => exact ⟨'t', "rue".toList, rfl, rfl, by decide, by decide⟩
    | false => exact ⟨'f', "alse".toList, rfl, rfl, by decide, by decide⟩
  | num text =>
    have hnum : isNumeral text = true := hx
    unfold isNumeral at hnum
    split at hnum
    · cases hnum
    · rename_i c cs hcs
      refine ⟨c, cs, hcs, ?_⟩
      rcases Bool.or_eq_true_iff.mp (Bool.and_eq_true_iff.mp hnum).1 with hdigit | hminus
      · have hne : ∀ d : Char, d.isDigit = false → c ≠ d := fun d hd heq => by
          rw [heq, hd] at hdigit
          cases hdigit
        simp [kindOf, kind, hne 'n' rfl, hne 't' rfl, hne 'f' rfl, hne '"' rfl, hne '[' rfl,
          hne '\x7b' rfl, hne ']' rfl, hne ',' rfl]
      · rw [of_decide_eq_true hminus]
        exact ⟨rfl, by decide, by decide⟩
  | str s => exact ⟨'"', _, toList_quote s, rfl, by decide, by decide⟩
  | arr xs => exact ⟨'[', _, rfl, rfl, by decide, by decide⟩
  | obj fields => exact ⟨'\x7b', _, rfl, rfl, by decide, by decide⟩

theorem kind_eq {x y : Json} (hx : x.InRange) (hy : y.InRange) {r r' : List Char}
    (h : print x ++ r = print y ++ r') : x.kind = y.kind := by
  obtain ⟨c, cs, hcs, hkind, -⟩ := print_eq_cons hx
  obtain ⟨c', cs', hcs', hkind', -⟩ := print_eq_cons hy
  rw [hcs, hcs'] at h
  rw [← hkind, ← hkind', (List.cons.inj h).1]

theorem stops_nil : Stops [] := fun c hc => by cases hc

theorem stops_cons {c : Char} (hc : inNumeral c = false) (r : List Char) : Stops (c :: r) := by
  intro d hd
  obtain rfl : c = d := by simpa using hd
  exact hc

/-- What is printed behind an element stops it. -/
theorem stops_rest (xs : List Json) (r : List Char) : Stops (printRest xs ++ ']' :: r) := by
  cases xs with
  | nil => exact stops_cons (by decide) r
  | cons x xs => exact stops_cons (by decide) _

theorem stops_fieldsRest (fs : List (String × Json)) (r : List Char) :
    Stops (printFieldsRest fs ++ '\x7d' :: r) := by
  cases fs with
  | nil => exact stops_cons (by decide) r
  | cons f fs => exact stops_cons (by decide) _

mutual

/-- **A text can be read back.** -/
theorem print_inj : ∀ {x y : Json}, x.InRange → y.InRange →
    ∀ {r r' : List Char}, Stops r → Stops r' →
    print x ++ r = print y ++ r' → x = y ∧ r = r'
  | null, y => fun hx hy r r' _ _ h => by
    have hkind := kind_eq hx hy h
    cases y with
    | null => exact ⟨rfl, List.append_cancel_left h⟩
    | _ => cases hkind
  | bool b, y => fun hx hy r r' _ _ h => by
    have hkind := kind_eq hx hy h
    cases y with
    | bool b' =>
      cases b <;> cases b' <;> simp_all [print]
    | _ => cases hkind
  | num text, y => fun hx hy r r' hr hr' h => by
    have hkind := kind_eq hx hy h
    cases y with
    | num text' =>
      obtain ⟨rfl, rfl⟩ := numeral_inj hx hy hr hr' h
      exact ⟨rfl, rfl⟩
    | _ => cases hkind
  | str s, y => fun hx hy r r' _ _ h => by
    have hkind := kind_eq hx hy h
    cases y with
    | str s' =>
      obtain ⟨rfl, rfl⟩ := quote_inj h
      exact ⟨rfl, rfl⟩
    | _ => cases hkind
  | arr xs, y => fun hx hy r r' _ _ h => by
    have hkind := kind_eq hx hy h
    cases y with
    | arr ys =>
      simp only [print, List.cons_append, List.append_assoc, List.nil_append,
        List.cons.injEq, true_and] at h
      obtain ⟨rfl, rfl⟩ := printList_inj hx hy h
      exact ⟨rfl, rfl⟩
    | _ => cases hkind
  | obj fields, y => fun hx hy r r' _ _ h => by
    have hkind := kind_eq hx hy h
    cases y with
    | obj fields' =>
      simp only [print, List.cons_append, List.append_assoc, List.nil_append,
        List.cons.injEq, true_and] at h
      obtain ⟨rfl, rfl⟩ := printFields_inj hx hy h
      exact ⟨rfl, rfl⟩
    | _ => cases hkind

theorem printList_inj : ∀ {xs ys : List Json}, InRangeList xs →
    InRangeList ys → ∀ {r r' : List Char},
    printList xs ++ ']' :: r = printList ys ++ ']' :: r' → xs = ys ∧ r = r'
  | [], [] => fun _ _ r r' h => ⟨rfl, (List.cons.inj h).2⟩
  | [], y :: ys => fun _ hy r r' h => by
    obtain ⟨c, cs, hcs, -, hc, -⟩ := print_eq_cons hy.1
    simp only [printList, hcs, List.nil_append, List.cons_append] at h
    exact absurd (List.cons.inj h).1.symm hc
  | x :: xs, [] => fun hx _ r r' h => by
    obtain ⟨c, cs, hcs, -, hc, -⟩ := print_eq_cons hx.1
    simp only [printList, hcs, List.nil_append, List.cons_append] at h
    exact absurd (List.cons.inj h).1 hc
  | x :: xs, y :: ys => fun hx hy r r' h => by
    simp only [printList, List.append_assoc] at h
    obtain ⟨rfl, hrest⟩ := print_inj hx.1 hy.1 (stops_rest xs r) (stops_rest ys r') h
    obtain ⟨rfl, rfl⟩ := printRest_inj hx.2 hy.2 hrest
    exact ⟨rfl, rfl⟩

theorem printRest_inj : ∀ {xs ys : List Json}, InRangeList xs →
    InRangeList ys → ∀ {r r' : List Char},
    printRest xs ++ ']' :: r = printRest ys ++ ']' :: r' → xs = ys ∧ r = r'
  | [], [] => fun _ _ r r' h => ⟨rfl, (List.cons.inj h).2⟩
  | [], y :: ys => fun _ _ r r' h => absurd (List.cons.inj h).1 (by decide)
  | x :: xs, [] => fun _ _ r r' h => absurd (List.cons.inj h).1 (by decide)
  | x :: xs, y :: ys => fun hx hy r r' h => by
    simp only [printRest, List.cons_append, List.append_assoc, List.cons.injEq, true_and] at h
    obtain ⟨rfl, hrest⟩ := print_inj hx.1 hy.1 (stops_rest xs r) (stops_rest ys r') h
    obtain ⟨rfl, rfl⟩ := printRest_inj hx.2 hy.2 hrest
    exact ⟨rfl, rfl⟩

theorem printFields_inj : ∀ {fs gs : List (String × Json)}, InRangeFields fs → InRangeFields gs →
    ∀ {r r' : List Char}, printFields fs ++ '\x7d' :: r = printFields gs ++
    '\x7d' :: r' → fs = gs ∧ r = r'
  | [], [] => fun _ _ r r' h => ⟨rfl, (List.cons.inj h).2⟩
  | [], (k, v) :: gs => fun _ _ r r' h => by
    simp only [printFields, toList_quote, List.nil_append, List.cons_append] at h
    exact absurd (List.cons.inj h).1 (by decide)
  | (k, v) :: fs, [] => fun _ _ r r' h => by
    simp only [printFields, toList_quote, List.nil_append, List.cons_append] at h
    exact absurd (List.cons.inj h).1 (by decide)
  | (k, v) :: fs, (k', v') :: gs => fun hf hg r r' h => by
    simp only [printFields, List.append_assoc, List.cons_append] at h
    obtain ⟨rfl, hvalue⟩ := quote_inj h
    obtain ⟨rfl, hrest⟩ :=
      print_inj hf.1 hg.1 (stops_fieldsRest fs r) (stops_fieldsRest gs r') (List.cons.inj hvalue).2
    obtain ⟨rfl, rfl⟩ := printFieldsRest_inj hf.2 hg.2 hrest
    exact ⟨rfl, rfl⟩

theorem printFieldsRest_inj : ∀ {fs gs : List (String × Json)},
    InRangeFields fs → InRangeFields gs →
    ∀ {r r' : List Char}, printFieldsRest fs ++ '\x7d' :: r = printFieldsRest gs ++ '\x7d' :: r' →
      fs = gs ∧ r = r'
  | [], [] => fun _ _ r r' h => ⟨rfl, (List.cons.inj h).2⟩
  | [], (k, v) :: gs => fun _ _ r r' h => absurd (List.cons.inj h).1 (by decide)
  | (k, v) :: fs, [] => fun _ _ r r' h => absurd (List.cons.inj h).1 (by decide)
  | (k, v) :: fs, (k', v') :: gs => fun hf hg r r' h => by
    simp only [printFieldsRest, List.append_assoc, List.cons_append, List.cons.injEq, true_and] at h
    obtain ⟨rfl, hvalue⟩ := quote_inj h
    obtain ⟨rfl, hrest⟩ :=
      print_inj hf.1 hg.1 (stops_fieldsRest fs r) (stops_fieldsRest gs r') (List.cons.inj hvalue).2
    obtain ⟨rfl, rfl⟩ := printFieldsRest_inj hf.2 hg.2 hrest
    exact ⟨rfl, rfl⟩

end

/-! ## What is written of a body -/

/-- The inherited property, as a value. -/
def inheritedValue (name : String) : Option Json :=
  if name = "__proto__" then some (obj [("__proto__", null)]) else none

mutual

/-- What `JSON.stringify` writes of a value: of every object the properties of the
list, in its order. -/
def written (keep : List String) : Json → Json
  | null => null
  | bool b => bool b
  | num text => if isInfinite text then null else num text
  | str s => str s
  | arr xs => arr (writtenList keep xs)
  | obj fields =>
    let values := writtenFields keep fields
    obj (keep.filterMap fun k => ((values.lookup k).or (inheritedValue k)).map fun v => (k, v))

def writtenList (keep : List String) : List Json → List Json
  | [] => []
  | x :: xs => written keep x :: writtenList keep xs

def writtenFields (keep : List String) : List (String × Json) → List (String × Json)
  | [] => []
  | (k, v) :: fs => (k, written keep v) :: writtenFields keep fs

end

mutual

/-- What `JSON.parse` returns: an object has one property of a name. -/
def Parsed : Json → Prop
  | null => True
  | bool _ => True
  | num text => isNumeral text = true ∨ isInfinite text = true
  | str _ => True
  | arr xs => ParsedList xs
  | obj fields => (fields.map Prod.fst).Nodup ∧ ParsedFields fields

def ParsedList : List Json → Prop
  | [] => True
  | x :: xs => Parsed x ∧ ParsedList xs

def ParsedFields : List (String × Json) → Prop
  | [] => True
  | (_, v) :: fs => Parsed v ∧ ParsedFields fs

end

theorem printList_eq (xs : List Json) : printList xs = [','].intercalate (xs.map print) := by
  have hrest : ∀ (x : Json) (xs : List Json),
      [','].intercalate (print x :: xs.map print) = print x ++ printRest xs := by
    intro x xs
    induction xs generalizing x with
    | nil => simp [printRest]
    | cons y xs ih =>
      rw [List.map_cons, List.intercalate_cons_cons, ih y,
        printRest, List.append_assoc,
      List.singleton_append]
  cases xs with
  | nil => rfl
  | cons x xs => exact (hrest x xs).symm

/-- The text of a property. -/
def printField (f : String × Json) : List Char := (quote f.1).toList ++ ':' :: print f.2

theorem printFields_eq (fs : List (String × Json)) :
    printFields fs = [','].intercalate (fs.map printField) := by
  have hrest : ∀ (f : String × Json) (fs : List (String × Json)),
      [','].intercalate (printField f :: fs.map printField) = printField f ++
      printFieldsRest fs := by
    intro f fs
    induction fs generalizing f with
    | nil => simp [printFieldsRest]
    | cons g fs ih =>
      rw [List.map_cons, List.intercalate_cons_cons, ih g, printFieldsRest, List.append_assoc,
        List.singleton_append]
      simp [printField]
  cases fs with
  | nil => rfl
  | cons f fs =>
    rw [List.map_cons, hrest]
    simp [printFields, printField]

theorem toList_inherited (k : String) : (inherited k).map String.toList =
    (inheritedValue k).map print := by
  unfold inherited inheritedValue
  split <;> rfl

section Written

variable (keep : List String)

mutual

/-- **The text is that of what is written.** -/
theorem toList_stringify : ∀ x : Json, (stringify keep x).toList = print (written keep x)
  | null => rfl
  | bool b => by cases b <;> rfl
  | num text => by
    simp only [stringify, written]
    split <;> rfl
  | str _ => rfl
  | arr xs => by
    simp [stringify, written, print, String.toList_intercalate, printList_eq,
    toList_stringifyList xs]
  | obj fields => by
    have hfields : ((keep.filterMap fun k =>
          (((stringifyFields keep fields).lookup k).or (inherited k)).map
            fun v => quote k ++ ":" ++ v).map String.toList) =
        (keep.filterMap fun k => (((writtenFields keep fields).lookup k).or (inheritedValue k)).map
          fun v => (k, v)).map printField := by
      rw [List.map_filterMap, List.map_filterMap]
      refine List.filterMap_congr fun k _ => ?_
      have hvalue : (((stringifyFields keep fields).lookup k).or (inherited k)).map String.toList =
          (((writtenFields keep fields).lookup k).or (inheritedValue k)).map print := by
        rw [Option.map_or, Option.map_or, toList_inherited, lookup_stringifyFields fields k]
      rw [Option.map_map, Option.map_map]
      have hsplit : (String.toList ∘ fun v => quote k ++ ":" ++ v) =
          (fun cs => (quote k).toList ++ ':' :: cs) ∘ String.toList := by
        funext v
        simp
      rw [hsplit, ← Option.map_map, hvalue, Option.map_map]
      rfl
    simp [stringify, written, print, String.toList_intercalate, printFields_eq, ← hfields]

theorem toList_stringifyList : ∀ xs : List Json,
    (stringifyList keep xs).map String.toList = (writtenList keep xs).map print
  | [] => rfl
  | x :: xs => by
    simp only [stringifyList, writtenList, List.map_cons, toList_stringify x,
    toList_stringifyList xs]

theorem lookup_stringifyFields : ∀ (fs : List (String × Json)) (k : String),
    ((stringifyFields keep fs).lookup k).map String.toList =
    ((writtenFields keep fs).lookup k).map print
  | [], _ => rfl
  | (k', v) :: fs, k => by
    simp only [stringifyFields, writtenFields, List.lookup_cons]
    cases k == k' with
    | true => simp [toList_stringify v]
    | false => exact lookup_stringifyFields fs k

end

/-! ## Numbers and names of what is written -/

theorem inRangeFields_iff {fs : List (String × Json)} : InRangeFields fs ↔
    ∀ f ∈ fs, f.2.InRange := by
  induction fs with
  | nil => simp [InRangeFields]
  | cons f fs ih => simp [InRangeFields, ih]

mutual

theorem written_inRange : ∀ x : Json, x.Parsed → (written keep x).InRange
  | null, _ => trivial
  | bool _, _ => trivial
  | num text, hx => by
    simp only [written]
    split
    · trivial
    · rename_i hinf
      exact hx.resolve_right hinf
  | str _, _ => trivial
  | arr xs, hx => writtenList_inRange xs hx
  | obj fields, hx => by
    refine inRangeFields_iff.mpr fun f hf => ?_
    obtain ⟨k, -, hk⟩ := List.mem_filterMap.mp hf
    obtain ⟨v, hv, rfl⟩ := Option.map_eq_some_iff.mp hk
    rcases Option.or_eq_some_iff.mp hv with hown | ⟨-, hinherited⟩
    · exact lookup_writtenFields_inRange fields hx.2 k v hown
    · unfold inheritedValue at hinherited
      split at hinherited
      · cases hinherited
        exact ⟨trivial, trivial⟩
      · cases hinherited

theorem writtenList_inRange : ∀ xs : List Json, ParsedList xs → InRangeList (writtenList keep xs)
  | [], _ => trivial
  | x :: xs, hx => ⟨written_inRange x hx.1, writtenList_inRange xs hx.2⟩

theorem lookup_writtenFields_inRange : ∀ fs : List (String × Json), ParsedFields fs → ∀ k v,
    (writtenFields keep fs).lookup k = some v → v.InRange
  | [], _, _, _, h => by cases h
  | (k', v') :: fs, hfs, k, v, h => by
    simp only [writtenFields, List.lookup_cons] at h
    split at h
    · cases h
      exact written_inRange v' hfs.1
    · exact lookup_writtenFields_inRange fs hfs.2 k v h

end

/-! ## The order of the properties -/

theorem lookup_writtenFields (fs : List (String × Json)) (k : String) :
    (writtenFields keep fs).lookup k = (fs.lookup k).map (written keep) := by
  induction fs with
  | nil => rfl
  | cons f fs ih =>
    obtain ⟨k', v⟩ := f
    simp only [writtenFields, List.lookup_cons]
    cases k == k' with
    | true => rfl
    | false => exact ih

theorem sortedFields_eq (fs : List (String × Json)) : sortedFields fs = fs.map
    fun f => (f.1, f.2.sorted) := by
  induction fs with
  | nil => rfl
  | cons f fs ih => rw [sortedFields, ih, List.map_cons]

theorem sortedList_eq (xs : List Json) : sortedList xs = xs.map sorted := by
  induction xs with
  | nil => rfl
  | cons x xs ih => rw [sortedList, ih, List.map_cons]

/-- A lookup finds what is there, under a name that is there once. -/
theorem lookup_eq_some_iff {α : Type*} {fs : List (String × α)}
    (hfs : (fs.map Prod.fst).Nodup) {k : String}
    {v : α} : fs.lookup k = some v ↔ (k, v) ∈ fs := by
  induction fs with
  | nil => simp
  | cons f fs ih =>
    obtain ⟨hf, hfs⟩ := List.nodup_cons.mp hfs
    rw [List.lookup_cons, List.mem_cons, Prod.ext_iff]
    by_cases hk : k = f.1
    · subst hk
      have hnot : (f.1, v) ∉ fs := fun hmem => hf (List.mem_map.mpr ⟨_, hmem, rfl⟩)
      simp [hnot, eq_comm]
    · simp [hk, beq_eq_false_iff_ne.mpr hk, ih hfs]

theorem lookup_perm {α : Type*} {fs gs : List (String × α)} (h : fs.Perm gs)
    (hfs : (fs.map Prod.fst).Nodup)
    (k : String) : fs.lookup k = gs.lookup k := by
  refine Option.ext fun v => ?_
  rw [lookup_eq_some_iff hfs, lookup_eq_some_iff ((h.map _).nodup_iff.mp hfs)]
  exact h.mem_iff

mutual

/-- **The order of the properties is not written.** -/
theorem written_sorted : ∀ x : Json, x.Parsed → written keep x.sorted = written keep x
  | null, _ => rfl
  | bool _, _ => rfl
  | num _, _ => rfl
  | str _, _ => rfl
  | arr xs, hx => congrArg arr (writtenList_sorted xs hx)
  | obj fields, hx => by
    have hnames : ((sortedFields fields).map Prod.fst).Nodup := by
      rw [sortedFields_eq, List.map_map]
      exact hx.1
    have hlookup : ∀ k,
        (writtenFields keep ((sortedFields fields).insertionSort fun a b => a.1 ≤ b.1)).lookup k =
          (writtenFields keep fields).lookup k := fun k => by
      rw [lookup_writtenFields, ← lookup_perm (List.perm_insertionSort _ _).symm hnames,
        ← lookup_writtenFields, writtenFields_sorted fields hx.2]
    simp only [sorted, written, hlookup]

theorem writtenList_sorted : ∀ xs : List Json, ParsedList xs →
    writtenList keep (sortedList xs) = writtenList keep xs
  | [], _ => rfl
  | x :: xs, hx => by
    simp only [sortedList, writtenList, written_sorted x hx.1, writtenList_sorted xs hx.2]

theorem writtenFields_sorted : ∀ fs : List (String × Json), ParsedFields fs →
    writtenFields keep (sortedFields fs) = writtenFields keep fs
  | [], _ => rfl
  | (k, v) :: fs, hfs => by
    simp only [sortedFields, writtenFields, written_sorted v hfs.1, writtenFields_sorted fs hfs.2]

end

end Written

/-- The replacer that `hashBody` gives. -/
def keep (body : Json) : List String := body.keys.insertionSort (· ≤ ·)

/-- It does not depend on the order of the properties. -/
theorem keep_sorted (body : Json) : keep body.sorted = keep body := by
  have hsort : ∀ {ks ks' : List String}, ks.Perm ks' → ks.insertionSort (· ≤ ·) =
      ks'.insertionSort (· ≤ ·) := by
    intro ks ks' h
    refine List.Perm.eq_of_pairwise (fun a b _ _ hab hba => le_antisymm hab hba)
      (List.pairwise_insertionSort _ _) (List.pairwise_insertionSort _ _) ?_
    exact (List.perm_insertionSort _ ks).trans (h.trans (List.perm_insertionSort _ ks').symm)
  cases body with
  | null => rfl
  | bool _ => rfl
  | num _ => rfl
  | str _ => rfl
  | arr xs =>
    simp only [keep, sorted, keys, sortedList_eq, List.length_map]
  | obj fields =>
    refine hsort ?_
    have hperm := (List.perm_insertionSort (fun a b : String × Json => a.1 ≤ b.1)
      (sortedFields fields)).map Prod.fst
    have hnames : (sortedFields fields).map Prod.fst = fields.map Prod.fst := by
      rw [sortedFields_eq, List.map_map]
      rfl
    rwa [hnames] at hperm

end Json

open Idempotency.Json

/-- What `hashBody` takes of a body: of the objects inside of it only the properties with the name
of a top-level one, and no number out of range. -/
def Json.hashed (body : Json) : Json := written (keep body) body

/-- The text that is hashed. -/
def canonical (body : Json) : String := body.stringify (keep body)

/-- Equal texts are those of the same content. -/
theorem canonical_eq_iff {body body' : Json} (h : body.Parsed) (h' : body'.Parsed) :
    canonical body = canonical body' ↔ body.hashed = body'.hashed := by
  constructor
  · intro heq
    have hprint : print body.hashed ++ [] = print body'.hashed ++ [] := by
      rw [hashed, hashed, ← toList_stringify, ← toList_stringify]
      exact congrArg (·.toList ++ []) heq
    exact (print_inj (written_inRange _ _ h) (written_inRange _ _ h') stops_nil stops_nil hprint).1
  · intro heq
    refine String.toList_injective ?_
    rw [canonical, canonical, toList_stringify, toList_stringify]
    exact congrArg print heq

/-- Bodies that differ in the order of properties only have the same content. -/
theorem hashed_eq_of_sorted_eq {body body' : Json} (h : body.Parsed) (h' : body'.Parsed)
    (heq : body.sorted = body'.sorted) : body.hashed = body'.hashed := by
  rw [hashed, hashed, ← written_sorted _ _ h, ← written_sorted _ _ h', ← keep_sorted body,
    ← keep_sorted body', heq]

/-- **The hash is canonical** for two bodies exactly when they are the same, or differ in
something that is hashed. -/
theorem hashBody_canonical_iff (sha256 : String → String) (body body' : Json) (h : body.Parsed)
    (h' : body'.Parsed)
    (hsha : sha256 (canonical body) = sha256 (canonical body') → canonical body = canonical body') :
    ((hashBody sha256 body = hashBody sha256 body' ↔ body.sorted = body'.sorted) ↔
      (body.hashed = body'.hashed → body.sorted = body'.sorted)) := by
  have hhash : hashBody sha256 body = hashBody sha256 body' ↔ body.hashed = body'.hashed := by
    rw [← canonical_eq_iff h h']
    exact ⟨hsha, congrArg sha256⟩
  rw [hhash]
  exact ⟨fun hiff => hiff.mp, fun himp => ⟨himp, hashed_eq_of_sorted_eq h h'⟩⟩

namespace BodySample

/-- A body with the price inside of another property. -/
def nested (price : String) : Json := .obj [("order", .obj [("price", .str price)])]

/-- A flat body. -/
def flat (quantity : String) : Json := .obj [("price", .str "100"), ("quantity", .str quantity)]

theorem nested_parsed (price : String) : (nested price).Parsed :=
  ⟨List.nodup_singleton _, ⟨List.nodup_singleton _, trivial, trivial⟩, trivial⟩

theorem flat_parsed (quantity : String) : (flat quantity).Parsed :=
  ⟨by simp, trivial, trivial, trivial⟩

end BodySample

/-- Flat bodies that differ have other hashes. -/
theorem hashBody_canonical_flat :
    ((BodySample.flat "1").Parsed ∧ (BodySample.flat "2").Parsed ∧
      (id (canonical (BodySample.flat "1")) = id (canonical (BodySample.flat "2")) →
        canonical (BodySample.flat "1") = canonical (BodySample.flat "2"))) ∧
    (hashBody id (BodySample.flat "1") = hashBody id (BodySample.flat "2") ↔
      (BodySample.flat "1").sorted = (BodySample.flat "2").sorted) := by
  refine ⟨⟨BodySample.flat_parsed "1", BodySample.flat_parsed "2", id⟩, ?_⟩
  refine (hashBody_canonical_iff id _ _ (BodySample.flat_parsed "1")
    (BodySample.flat_parsed "2") id).mpr fun h => ?_
  have heq := (canonical_eq_iff (BodySample.flat_parsed "1") (BodySample.flat_parsed "2")).mpr h
  exact absurd heq (by decide +kernel)

/-- The price inside is not hashed. -/
theorem hashBody_nested : (BodySample.nested "1").Parsed ∧ (BodySample.nested "2").Parsed ∧
    hashBody id (BodySample.nested "1") = hashBody id (BodySample.nested "2") ∧
    (BodySample.nested "1").sorted ≠ (BodySample.nested "2").sorted := by
  refine ⟨BodySample.nested_parsed "1", BodySample.nested_parsed "2", by decide +kernel,
    fun h => ?_⟩
  simp [BodySample.nested, sorted, sortedFields] at h

end Orbit.Idempotency
