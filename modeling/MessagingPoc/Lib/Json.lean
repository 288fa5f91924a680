import Mathlib.Data.List.TakeWhile

/-!
# JSON text

Values, the text they are written as without white space, and a parser of JSON text. A text is a
sequence of code points, a string one of UTF-16 code units: half a surrogate pair is written as an
escape, and an escape of one is read. Of several members with one key the last counts. A number is
kept as it is written and a member where it was first written, as JavaScript does with the values
that are `Kept`.

* `parse_print` — what was written is read back, if no object has two members with one key.
* `distinct_of_parse` — in what is read, none has.
* `plain_print` — what is written has no control characters: no line ends, above all.
-/

namespace Json

/-! ## Values -/

def isDigit (c : Char) : Bool := '0' ≤ c && c ≤ '9'

/-- The characters numbers are written with. -/
def inNumeral (c : Char) : Bool := isDigit c || c ∈ ['-', '+', '.', 'e', 'E']

/-- An exponent, or nothing. -/
def isExponent : List Char → Bool
  | [] => true
  | e :: s =>
    let digits := match s with
      | sign :: rest => if sign = '+' ∨ sign = '-' then rest else s
      | [] => []
    (e = 'e' || e = 'E') && digits ≠ [] && digits.all isDigit

/-- A fraction, or none, and then an exponent. -/
def isFraction : List Char → Bool
  | '.' :: s => s.takeWhile isDigit ≠ [] && isExponent (s.dropWhile isDigit)
  | s => isExponent s

def isNatural (s : List Char) : Bool :=
  match s with
  | '0' :: rest => isFraction rest
  | s => s.takeWhile isDigit ≠ [] && isFraction (s.dropWhile isDigit)

/-- A number, as the grammar has it. -/
def isNumeral : List Char → Bool
  | '-' :: s => isNatural s
  | s => isNatural s

/-- A number as it is written. -/
structure Numeral where
  text : List Char
  written : ∀ c ∈ text, inNumeral c = true
  valid : isNumeral text = true

mutual

inductive Value
  | null
  | bool (b : Bool)
  | number (n : Numeral)
  | string (s : List UInt16)
  | array (es : Elements)
  | object (ms : Members)

inductive Elements
  | nil
  | cons (v : Value) (es : Elements)

inductive Members
  | nil
  | cons (k : List UInt16) (v : Value) (ms : Members)

end

namespace Members

def keys : Members → List (List UInt16)
  | nil => []
  | cons k _ ms => k :: ms.keys

/-- Write a member: in the place of the one with its key, or at the end. -/
def set (k : List UInt16) (v : Value) : Members → Members
  | nil => cons k v nil
  | cons k' v' ms => if k' = k then cons k v ms else cons k' v' (ms.set k v)

/-- Write members one after another. -/
def setAll : Members → Members → Members
  | ms, nil => ms
  | ms, cons k v more => setAll (ms.set k v) more

def append : Members → Members → Members
  | nil, more => more
  | cons k v ms, more => cons k v (ms.append more)

theorem keys_append (ms more : Members) : (ms.append more).keys = ms.keys ++ more.keys := by
  induction ms using keys.induct with
  | case1 => rfl
  | case2 k v ms ih => simp [append, keys, ih]

theorem append_nil (ms : Members) : ms.append nil = ms := by
  induction ms using keys.induct with
  | case1 => rfl
  | case2 k v ms ih => simp [append, ih]

theorem append_assoc (ms more last : Members) :
    (ms.append more).append last = ms.append (more.append last) := by
  induction ms using keys.induct with
  | case1 => rfl
  | case2 k v ms ih => simp [append, ih]

theorem set_of_fresh {k : List UInt16} (v : Value) {ms : Members} (h : k ∉ ms.keys) :
    ms.set k v = ms.append (cons k v nil) := by
  induction ms using keys.induct with
  | case1 => rfl
  | case2 k' v' ms ih =>
    rw [keys, List.mem_cons, not_or] at h
    obtain ⟨hne, hrest⟩ := h
    rw [set, if_neg (Ne.symm hne), ih hrest, append]

/-- Members with keys of their own stay as they are. -/
theorem setAll_of_nodup {ms more : Members} (h : (ms.append more).keys.Nodup) :
    ms.setAll more = ms.append more := by
  induction more using keys.induct generalizing ms with
  | case1 => rw [setAll, append_nil]
  | case2 k v more ih =>
    have hfresh : k ∉ ms.keys := fun hmem => by
      rw [keys_append, keys, List.nodup_append] at h
      exact h.2.2 k hmem k List.mem_cons_self rfl
    have happend : (ms.append (cons k v nil)).append more = ms.append (cons k v more) := by
      rw [append_assoc]
      rfl
    rw [setAll, set_of_fresh v hfresh, ih (happend ▸ h), happend]

end Members

/-! ## Strings -/

def quote : Char := '\x22'

def backslash : Char := '\x5c'

def hexDigit (n : Nat) : Char := if n < 10 then Char.ofNat (48 + n) else Char.ofNat (87 + n)

def hexValue (c : Char) : Option Nat :=
  if isDigit c then some (c.toNat - 48)
  else if 'a' ≤ c && c ≤ 'f' then some (c.toNat - 87)
  else if 'A' ≤ c && c ≤ 'F' then some (c.toNat - 55)
  else none

/-- The code unit of four hexadecimal digits. -/
def unit (a b c d : Char) : Option UInt16 := do
  let n := (((← hexValue a) * 16 + (← hexValue b)) * 16 + (← hexValue c)) * 16 + (← hexValue d)
  return UInt16.ofNat n

/-- The escapes of one letter. -/
def unescape (c : Char) : Option Char :=
  if c = quote ∨ c = backslash ∨ c = '/' then some c
  else if c = 'b' then some '\x08'
  else if c = 't' then some '\t'
  else if c = 'n' then some '\n'
  else if c = 'f' then some '\x0c'
  else if c = 'r' then some '\r'
  else none

/-- Half of a surrogate pair: the first, or the second. -/
def isHigh (u : UInt16) : Bool := 0xD800 ≤ u.toNat && u.toNat < 0xDC00

def isLow (u : UInt16) : Bool := 0xDC00 ≤ u.toNat && u.toNat < 0xE000

/-- The code units of a character. -/
def utf16 (c : Char) : List UInt16 :=
  if c.toNat < 0x10000 then [UInt16.ofNat c.toNat]
  else [UInt16.ofNat (0xD800 + (c.toNat - 0x10000) / 0x400),
    UInt16.ofNat (0xDC00 + (c.toNat - 0x10000) % 0x400)]

/-- The character of a surrogate pair. -/
def joined (u v : UInt16) : Char :=
  Char.ofNat (0x10000 + (u.toNat - 0xD800) * 0x400 + (v.toNat - 0xDC00))

/-- The escape of four hexadecimal digits. -/
def hexEscape (n : Nat) : List Char :=
  [backslash, 'u', hexDigit (n / 0x1000), hexDigit (n / 0x100 % 16), hexDigit (n / 16 % 16),
    hexDigit (n % 16)]

def escapeChar (c : Char) : List Char :=
  if c = quote ∨ c = backslash then [backslash, c]
  else if c = '\x08' then [backslash, 'b']
  else if c = '\t' then [backslash, 't']
  else if c = '\n' then [backslash, 'n']
  else if c = '\x0c' then [backslash, 'f']
  else if c = '\r' then [backslash, 'r']
  else if c.toNat < 32 then hexEscape c.toNat
  else [c]

/-- A code unit that is no part of a pair. -/
def escape (u : UInt16) : List Char :=
  if isHigh u || isLow u then hexEscape u.toNat else escapeChar (Char.ofNat u.toNat)

def printUnits : List UInt16 → List Char
  | [] => []
  | [u] => escape u
  | u :: v :: us =>
    if isHigh u && isLow v then joined u v :: printUnits us else escape u ++ printUnits (v :: us)

def printString (s : List UInt16) : List Char := quote :: printUnits s ++ [quote]

/-- The rest of a string, after its opening quotation mark. -/
def string : List Char → Option (List UInt16 × List Char)
  | [] => none
  | c :: s =>
    if c = quote then some ([], s)
    else if c = backslash then
      match s with
      | 'u' :: a :: b :: c :: d :: s =>
        (unit a b c d).bind fun u => (string s).map fun p => (u :: p.1, p.2)
      | e :: s => (unescape e).bind fun x => (string s).map fun p => (utf16 x ++ p.1, p.2)
      | [] => none
    else if c.toNat < 32 then none
    else (string s).map fun p => (utf16 c ++ p.1, p.2)

theorem hexValue_hexDigit : ∀ n < 16, hexValue (hexDigit n) = some n := by decide

theorem toNat_ofNat {n : Nat} (h : n.isValidChar) : (Char.ofNat n).toNat = n := by
  unfold Char.ofNat
  rw [dif_pos h]
  rfl

theorem toNat_ofNat_unit {u : UInt16} (hhigh : isHigh u = false) (hlow : isLow u = false) :
    (Char.ofNat u.toNat).toNat = u.toNat := by
  have hlt := u.toNat_lt
  have hvalid : u.toNat.isValidChar := by
    simp only [isHigh, isLow, Bool.and_eq_false_iff, decide_eq_false_iff_not] at hhigh hlow
    unfold Nat.isValidChar
    omega
  exact toNat_ofNat hvalid

theorem utf16_ofNat {u : UInt16} (hhigh : isHigh u = false) (hlow : isLow u = false) :
    utf16 (Char.ofNat u.toNat) = [u] := by
  have hlt := u.toNat_lt
  rw [utf16, toNat_ofNat_unit hhigh hlow, if_pos (by omega), UInt16.ofNat_toNat]

theorem toNat_joined {u v : UInt16} (hu : isHigh u = true) (hv : isLow v = true) :
    (joined u v).toNat = 0x10000 + (u.toNat - 0xD800) * 0x400 + (v.toNat - 0xDC00) := by
  simp only [isHigh, isLow, Bool.and_eq_true, decide_eq_true_eq] at hu hv
  have hvalid : (0x10000 + (u.toNat - 0xD800) * 0x400 + (v.toNat - 0xDC00)).isValidChar := by
    unfold Nat.isValidChar
    omega
  exact toNat_ofNat hvalid

/-- **A pair is the two code units of its character.** -/
theorem utf16_joined {u v : UInt16} (hu : isHigh u = true) (hv : isLow v = true) :
    utf16 (joined u v) = [u, v] := by
  have hnat := toNat_joined hu hv
  simp only [isHigh, isLow, Bool.and_eq_true, decide_eq_true_eq] at hu hv
  have hfirst : 0xD800 + ((joined u v).toNat - 0x10000) / 0x400 = u.toNat := by omega
  have hsecond : 0xDC00 + ((joined u v).toNat - 0x10000) % 0x400 = v.toNat := by omega
  rw [utf16, if_neg (by omega), hfirst, hsecond, UInt16.ofNat_toNat, UInt16.ofNat_toNat]

/-- The characters that are written as they are. -/
theorem string_cons {c : Char} {s : List Char} (hquote : c ≠ quote) (hbackslash : c ≠ backslash)
    (hcontrol : ¬ c.toNat < 32) :
    string (c :: s) = (string s).map fun p => (utf16 c ++ p.1, p.2) := by
  rw [string.eq_def]
  simp only [if_neg hquote, if_neg hbackslash, if_neg hcontrol]

theorem string_unescape {e x : Char} {s : List Char} (he : e ≠ 'u') (hx : unescape e = some x) :
    string (backslash :: e :: s) = (string s).map fun p => (utf16 x ++ p.1, p.2) := by
  rw [string, if_neg (by decide), if_pos rfl, hx, Option.bind_some]
  exact fun _ _ _ _ _ hu _ => he hu

theorem string_hexEscape {n : Nat} (h : n < 0x10000) (s : List Char) :
    string (hexEscape n ++ s) = (string s).map fun p => (UInt16.ofNat n :: p.1, p.2) := by
  have hnat : ((n / 0x1000 * 16 + n / 0x100 % 16) * 16 + n / 16 % 16) * 16 + n % 16 = n := by omega
  have hunit : unit (hexDigit (n / 0x1000)) (hexDigit (n / 0x100 % 16)) (hexDigit (n / 16 % 16))
      (hexDigit (n % 16)) = some (UInt16.ofNat n) := by
    unfold unit
    rw [hexValue_hexDigit _ (by omega), hexValue_hexDigit _ (by omega),
      hexValue_hexDigit _ (by omega), hexValue_hexDigit _ (by omega)]
    exact congrArg (fun n => some (UInt16.ofNat n)) hnat
  simp only [hexEscape, List.cons_append, List.nil_append]
  rw [string, if_neg (by decide), if_pos rfl]
  simp only [hunit, Option.bind_some]

/-- **A character is read as it was written.** -/
theorem string_escapeChar (c : Char) (s : List Char) :
    string (escapeChar c ++ s) = (string s).map fun p => (utf16 c ++ p.1, p.2) := by
  unfold escapeChar
  split_ifs with hself hb ht hn hf hr hcontrol
  · have hu : c ≠ 'u' := by
      rintro rfl
      revert hself
      decide
    refine string_unescape hu (if_pos ?_)
    exact hself.elim .inl fun h => .inr (.inl h)
  · exact hb ▸ string_unescape (by decide) rfl
  · exact ht ▸ string_unescape (by decide) rfl
  · exact hn ▸ string_unescape (by decide) rfl
  · exact hf ▸ string_unescape (by decide) rfl
  · exact hr ▸ string_unescape (by decide) rfl
  · have hsmall : c.toNat < 0x10000 := by omega
    rw [string_hexEscape hsmall, utf16, if_pos hsmall]
    rfl
  · rw [not_or] at hself
    exact string_cons hself.1 hself.2 hcontrol

/-- **A code unit is read as it was written.** -/
theorem string_escape (u : UInt16) (s : List Char) :
    string (escape u ++ s) = (string s).map fun p => (u :: p.1, p.2) := by
  unfold escape
  split_ifs with hhalf
  · rw [string_hexEscape u.toNat_lt, UInt16.ofNat_toNat]
  · rw [Bool.not_eq_true, Bool.or_eq_false_iff] at hhalf
    rw [string_escapeChar, utf16_ofNat hhalf.1 hhalf.2]
    rfl

theorem string_joined {u v : UInt16} (hu : isHigh u = true) (hv : isLow v = true)
    (s : List Char) :
    string (joined u v :: s) = (string s).map fun p => (u :: v :: p.1, p.2) := by
  have hlarge : 0x10000 ≤ (joined u v).toNat := by
    rw [toNat_joined hu hv]
    omega
  have hne : ∀ c : Char, c.toNat < 0x10000 → joined u v ≠ c := by
    rintro c hc rfl
    omega
  rw [string_cons (hne _ (by decide)) (hne _ (by decide)) (by omega), utf16_joined hu hv]
  rfl

theorem string_print (t : List UInt16) (s : List Char) :
    string (printUnits t ++ quote :: s) = some (t, s) := by
  have hend : string (quote :: s) = some ([], s) := by
    rw [string.eq_def]
    simp only [if_true]
  induction t using printUnits.induct with
  | case1 => exact hend
  | case2 u => rw [printUnits, string_escape, hend, Option.map_some]
  | case3 u v us hpair ih =>
    obtain ⟨hu, hv⟩ := Bool.and_eq_true_iff.mp hpair
    rw [printUnits, if_pos hpair, List.cons_append, string_joined hu hv, ih, Option.map_some]
  | case4 u v us hpair ih =>
    rw [printUnits, if_neg hpair, List.append_assoc, string_escape, ih, Option.map_some]

/-! ## Writing -/

mutual

/-- `JSON.stringify`. -/
def Value.print : Value → List Char
  | .null => "null".toList
  | .bool true => "true".toList
  | .bool false => "false".toList
  | .number n => n.text
  | .string s => printString s
  | .array .nil => "[]".toList
  | .array (.cons v es) => '[' :: v.print ++ es.print
  | .object .nil => "\x7b\x7d".toList
  | .object (.cons k v ms) => '\x7b' :: printString k ++ ':' :: v.print ++ ms.print

/-- The elements after the first. -/
def Elements.print : Elements → List Char
  | .nil => [']']
  | .cons v es => ',' :: v.print ++ es.print

/-- The members after the first. -/
def Members.print : Members → List Char
  | .nil => ['\x7d']
  | .cons k v ms => ',' :: printString k ++ ':' :: v.print ++ ms.print

end

/-! ## Reading -/

def isSpace (c : Char) : Bool := c ∈ [' ', '\t', '\n', '\r']

def skip (s : List Char) : List Char := s.dropWhile isSpace

/-- What comes after a word. -/
def expect : List Char → List Char → Option (List Char)
  | [], s => some s
  | _ :: _, [] => none
  | c :: word, d :: s => if c = d then expect word s else none

def number (s : List Char) : Option (Value × List Char) :=
  if h : isNumeral (s.takeWhile inNumeral) = true then
    some (.number ⟨s.takeWhile inNumeral, fun _ hc => List.mem_takeWhile_imp hc, h⟩,
      s.dropWhile inNumeral)
  else none

mutual

/-- A value, of which so many nested steps may be taken. -/
def value : Nat → List Char → Option (Value × List Char)
  | 0, _ => none
  | _ + 1, [] => none
  | fuel + 1, c :: s =>
    if c = quote then (string s).map fun p => (.string p.1, p.2)
    else if c = '[' then
      match skip s with
      | ']' :: s => some (.array .nil, s)
      | s => (elements fuel s).map fun p => (.array p.1, p.2)
    else if c = '\x7b' then
      match skip s with
      | '\x7d' :: s => some (.object .nil, s)
      | s => (members fuel s).map fun p => (.object (.setAll .nil p.1), p.2)
    else if c = 'n' then (expect "ull".toList s).map fun s => (.null, s)
    else if c = 't' then (expect "rue".toList s).map fun s => (.bool true, s)
    else if c = 'f' then (expect "alse".toList s).map fun s => (.bool false, s)
    else number (c :: s)

/-- One element or more, and the closing bracket. -/
def elements : Nat → List Char → Option (Elements × List Char)
  | 0, _ => none
  | fuel + 1, s =>
    (value fuel s).bind fun p =>
      match skip p.2 with
      | ']' :: s => some (.cons p.1 .nil, s)
      | ',' :: s => (elements fuel (skip s)).map fun q => (.cons p.1 q.1, q.2)
      | _ => none

/-- One member or more, and the closing brace. -/
def members : Nat → List Char → Option (Members × List Char)
  | fuel + 1, '\x22' :: s =>
    (string s).bind fun k =>
      match skip k.2 with
      | ':' :: s =>
        (value fuel (skip s)).bind fun p =>
          match skip p.2 with
          | '\x7d' :: s => some (.cons k.1 p.1 .nil, s)
          | ',' :: s => (members fuel (skip s)).map fun q => (.cons k.1 p.1 q.1, q.2)
          | _ => none
      | _ => none
  | _, _ => none

end

/-- `JSON.parse`; `none` where it throws. -/
def parse (s : List Char) : Option Value :=
  match value (2 * s.length + 1) (skip s) with
  | some (v, rest) => if skip rest = [] then some v else none
  | none => none

/-! ## What was written is read back -/

mutual

/-- No object has two members with one key. -/
def Value.Distinct : Value → Prop
  | .array es => es.Distinct
  | .object ms => ms.keys.Nodup ∧ ms.Distinct
  | .null | .bool _ | .number _ | .string _ => True

def Elements.Distinct : Elements → Prop
  | .nil => True
  | .cons v es => v.Distinct ∧ es.Distinct

def Members.Distinct : Members → Prop
  | .nil => True
  | .cons _ v ms => v.Distinct ∧ ms.Distinct

end

mutual

/-- How many nested steps a value takes to read. -/
def Value.depth : Value → Nat
  | .array es => es.depth + 1
  | .object ms => ms.depth + 1
  | .null | .bool _ | .number _ | .string _ => 1

def Elements.depth : Elements → Nat
  | .nil => 0
  | .cons v es => v.depth + es.depth + 1

def Members.depth : Members → Nat
  | .nil => 0
  | .cons _ v ms => v.depth + ms.depth + 1

end

/-- What follows does not go on with a number. -/
def Ends (rest : List Char) : Prop := ∀ c ∈ rest.head?, inNumeral c = false

theorem expect_append (word s : List Char) : expect word (word ++ s) = some s := by
  induction word with
  | nil => rfl
  | cons c word ih => rw [List.cons_append, expect, if_pos rfl, ih]

theorem Numeral.text_ne_nil (n : Numeral) : n.text ≠ [] := by
  intro h
  have hvalid := n.valid
  rw [h] at hvalid
  exact absurd hvalid (by decide)

theorem number_print (n : Numeral) {rest : List Char} (h : Ends rest) :
    number (n.text ++ rest) = some (.number n, rest) := by
  have hall : ∀ c ∈ n.text, inNumeral c = true := n.written
  have hrest : rest.takeWhile inNumeral = [] ∧ rest.dropWhile inNumeral = rest := by
    cases rest with
    | nil => exact ⟨rfl, rfl⟩
    | cons c rest =>
      have hc : inNumeral c = false := h c rfl
      simp [hc]
  have htake : (n.text ++ rest).takeWhile inNumeral = n.text := by
    rw [List.takeWhile_append_of_pos hall, hrest.1, List.append_nil]
  have hdrop : (n.text ++ rest).dropWhile inNumeral = rest := by
    rw [List.dropWhile_append_of_pos hall, hrest.2]
  unfold number
  simp only [htake, hdrop, n.valid, dif_pos]

/-- The first character of a value tells that one begins. -/
theorem Value.print_head (v : Value) : ∃ c s, v.print = c :: s ∧ isSpace c = false ∧ c ≠ ']' ∧
    c ≠ '\x7d' := by
  cases v with
  | null => exact ⟨_, _, rfl, by decide⟩
  | bool b => cases b <;> exact ⟨_, _, rfl, by decide⟩
  | string s => exact ⟨_, _, rfl, by decide⟩
  | array es => cases es <;> exact ⟨_, _, rfl, by decide⟩
  | object ms => cases ms <;> exact ⟨_, _, rfl, by decide⟩
  | number n =>
    obtain ⟨c, s, htext⟩ := List.exists_cons_of_ne_nil n.text_ne_nil
    have hc : inNumeral c = true := n.written c (htext ▸ List.mem_cons_self)
    refine ⟨c, s, htext, ?_, ?_, ?_⟩
    · by_contra hspace
      rw [Bool.not_eq_false] at hspace
      simp only [isSpace, List.mem_cons, List.not_mem_nil, or_false, decide_eq_true_eq] at hspace
      rcases hspace with rfl | rfl | rfl | rfl <;> exact absurd hc (by decide)
    · rintro rfl
      exact absurd hc (by decide)
    · rintro rfl
      exact absurd hc (by decide)

theorem skip_print (v : Value) (rest : List Char) :
    skip (v.print ++ rest) = v.print ++ rest := by
  obtain ⟨c, s, hprint, hspace, -⟩ := v.print_head
  rw [hprint, List.cons_append, skip, List.dropWhile_cons_of_neg (by simp [hspace])]

theorem skip_of_head {c : Char} (s : List Char) (h : isSpace c = false) :
    skip (c :: s) = c :: s := by
  rw [skip, List.dropWhile_cons_of_neg (by simp [h])]

/-- Elements as they stand between the brackets. -/
def Elements.body : Elements → List Char
  | .nil => []
  | .cons v es => v.print ++ es.print

def Members.body : Members → List Char
  | .nil => []
  | .cons k v ms => printString k ++ ':' :: v.print ++ ms.print

theorem Elements.ends (es : Elements) (rest : List Char) : Ends (es.print ++ rest) := by
  cases es <;> simp [Elements.print, Ends] <;> decide

theorem Members.ends (ms : Members) (rest : List Char) : Ends (ms.print ++ rest) := by
  cases ms <;> simp [Members.print, Ends] <;> decide

theorem string_printString (k : List UInt16) (s : List Char) :
    ∃ rest, printString k ++ s = quote :: rest ∧ string rest = some (k, s) := by
  refine ⟨printUnits k ++ quote :: s, ?_, string_print k s⟩
  simp [printString]

/-! ### By its first character -/

section

variable (fuel : Nat) (s : List Char)

theorem value_null : value (fuel + 1) ("null".toList ++ s) = some (.null, s) := by
  show (expect "ull".toList ("ull".toList ++ s)).map (fun s => (Value.null, s)) = _
  rw [expect_append, Option.map_some]

theorem value_true : value (fuel + 1) ("true".toList ++ s) = some (.bool true, s) := by
  show (expect "rue".toList ("rue".toList ++ s)).map (fun s => (Value.bool true, s)) = _
  rw [expect_append, Option.map_some]

theorem value_false : value (fuel + 1) ("false".toList ++ s) = some (.bool false, s) := by
  show (expect "alse".toList ("alse".toList ++ s)).map (fun s => (Value.bool false, s)) = _
  rw [expect_append, Option.map_some]

theorem value_number {c : Char} (hc : inNumeral c = true) :
    value (fuel + 1) (c :: s) = number (c :: s) := by
  have hne : ∀ d : Char, inNumeral d = false → c ≠ d := by
    rintro d hd rfl
    rw [hc] at hd
    cases hd
  rw [value, if_neg (hne quote (by decide)), if_neg (hne '[' (by decide)),
    if_neg (hne '\x7b' (by decide)), if_neg (hne 'n' (by decide)), if_neg (hne 't' (by decide)),
    if_neg (hne 'f' (by decide))]

/-- An array that is not empty. -/
theorem value_array {c : Char} (hspace : isSpace c = false) (hc : c ≠ ']') :
    value (fuel + 1) ('[' :: c :: s) =
      (elements fuel (c :: s)).map fun p => (.array p.1, p.2) := by
  show (match skip (c :: s) with
    | ']' :: s => some (Value.array .nil, s)
    | s => (elements fuel s).map fun p : Elements × List Char => (.array p.1, p.2)) = _
  rw [skip_of_head s hspace]
  split
  · rename_i heq
    exact absurd (List.cons.inj heq).1 hc
  · rfl

theorem value_object :
    value (fuel + 1) ('\x7b' :: quote :: s) =
      (members fuel (quote :: s)).map fun p => (.object (.setAll .nil p.1), p.2) := rfl

end

mutual

theorem Value.read : ∀ (v : Value) {fuel : Nat} {rest : List Char}, v.Distinct →
    v.depth ≤ fuel → Ends rest → value fuel (v.print ++ rest) = some (v, rest)
  | v, 0, rest, _, hfuel, _ => by
    cases v <;> simp [Value.depth] at hfuel
  | .null, fuel + 1, rest, _, _, _ => value_null fuel rest
  | .bool true, fuel + 1, rest, _, _, _ => value_true fuel rest
  | .bool false, fuel + 1, rest, _, _, _ => value_false fuel rest
  | .number n, fuel + 1, rest, _, _, hends => by
    obtain ⟨c, s, htext⟩ := List.exists_cons_of_ne_nil n.text_ne_nil
    rw [Value.print, ← number_print n hends, htext, List.cons_append]
    exact value_number fuel _ (n.written c (htext ▸ List.mem_cons_self))
  | .string s, fuel + 1, rest, _, _, _ => by
    obtain ⟨text, hprint, hread⟩ := string_printString s rest
    rw [Value.print, hprint, value, if_pos rfl, hread, Option.map_some]
  | .array .nil, fuel + 1, rest, _, _, _ => rfl
  | .array (.cons v es), fuel + 1, rest, hdistinct, hfuel, _ => by
    obtain ⟨c, s, hprint, hspace, hc, -⟩ := v.print_head
    have hread : elements fuel ((Elements.cons v es).body ++ rest) = some (.cons v es, rest) :=
      Elements.read _ nofun hdistinct (Nat.le_of_succ_le_succ hfuel)
    rw [Elements.body, hprint] at hread
    rw [Value.print, hprint]
    show value (fuel + 1) ('[' :: c :: (s ++ es.print ++ rest)) = _
    rw [value_array fuel _ hspace hc]
    exact congrArg (Option.map fun p => (Value.array p.1, p.2)) hread
  | .object .nil, fuel + 1, rest, _, _, _ => rfl
  | .object (.cons k v ms), fuel + 1, rest, hdistinct, hfuel, _ => by
    have hread : members fuel ((Members.cons k v ms).body ++ rest) = some (.cons k v ms, rest) :=
      Members.read _ nofun hdistinct.2 (Nat.le_of_succ_le_succ hfuel)
    obtain ⟨text, hprint, -⟩ := string_printString k (':' :: v.print ++ ms.print ++ rest)
    have hbody : (Members.cons k v ms).body ++ rest = quote :: text := by
      rw [← hprint, Members.body]
      simp
    have htext : (Value.object (.cons k v ms)).print ++ rest = '\x7b' :: quote :: text := by
      rw [← hbody, Value.print, Members.body]
      simp
    have hset : Members.setAll .nil (.cons k v ms) = .cons k v ms :=
      Members.setAll_of_nodup hdistinct.1
    rw [htext, value_object, ← hbody, hread, Option.map_some, hset]

theorem Elements.read : ∀ (es : Elements) {fuel : Nat} {rest : List Char}, es ≠ .nil →
    es.Distinct → es.depth ≤ fuel → elements fuel (es.body ++ rest) = some (es, rest)
  | .nil, fuel, rest, hne, _, _ => absurd rfl hne
  | .cons v es, 0, rest, _, _, hfuel => by simp [Elements.depth] at hfuel
  | .cons v es, fuel + 1, rest, _, hdistinct, hfuel => by
    have hdepth : v.depth + es.depth ≤ fuel := Nat.le_of_succ_le_succ hfuel
    have hread : value fuel (v.print ++ (es.print ++ rest)) = some (v, es.print ++ rest) :=
      Value.read v hdistinct.1 (by omega) (es.ends rest)
    rw [Elements.body, List.append_assoc, elements, hread, Option.bind_some]
    cases es with
    | nil => rfl
    | cons v' es =>
      have hmore : elements fuel ((Elements.cons v' es).body ++ rest) = some (.cons v' es, rest) :=
        Elements.read _ nofun hdistinct.2 (by omega)
      show (elements fuel (skip (v'.print ++ es.print ++ rest))).map _ = _
      rw [List.append_assoc, skip_print, ← List.append_assoc]
      exact congrArg (Option.map fun q => (Elements.cons v q.1, q.2)) hmore

theorem Members.read : ∀ (ms : Members) {fuel : Nat} {rest : List Char}, ms ≠ .nil →
    ms.Distinct → ms.depth ≤ fuel → members fuel (ms.body ++ rest) = some (ms, rest)
  | .nil, fuel, rest, hne, _, _ => absurd rfl hne
  | .cons k v ms, 0, rest, _, _, hfuel => by simp [Members.depth] at hfuel
  | .cons k v ms, fuel + 1, rest, _, hdistinct, hfuel => by
    have hdepth : v.depth + ms.depth ≤ fuel := Nat.le_of_succ_le_succ hfuel
    have hread : value fuel (v.print ++ (ms.print ++ rest)) = some (v, ms.print ++ rest) :=
      Value.read v hdistinct.1 (by omega) (ms.ends rest)
    obtain ⟨text, hprint, hkey⟩ := string_printString k (':' :: (v.print ++ (ms.print ++ rest)))
    have hbody : (Members.cons k v ms).body ++ rest = quote :: text := by
      rw [← hprint, Members.body]
      simp
    rw [hbody]
    show ((string text).bind _) = _
    rw [hkey, Option.bind_some]
    show ((value fuel (skip (v.print ++ (ms.print ++ rest)))).bind _) = _
    rw [skip_print, hread, Option.bind_some]
    cases ms with
    | nil => rfl
    | cons k' v' ms =>
      have hmore : members fuel ((Members.cons k' v' ms).body ++ rest) =
          some (.cons k' v' ms, rest) := Members.read _ nofun hdistinct.2 (by omega)
      obtain ⟨text', hprint', -⟩ := string_printString k' (':' :: v'.print ++ ms.print ++ rest)
      have hbody' : (Members.cons k' v' ms).body ++ rest = quote :: text' := by
        rw [← hprint', Members.body]
        simp
      show (members fuel (skip ((Members.cons k' v' ms).body ++ rest))).map _ = _
      rw [hbody', skip_of_head _ (by decide), ← hbody', hmore]
      rfl

end

mutual

theorem Value.depth_le : ∀ v : Value, v.depth ≤ v.print.length
  | .null => by decide
  | .bool true => by decide
  | .bool false => by decide
  | .number n => List.length_pos_iff.mpr n.text_ne_nil
  | .string s => by simp [Value.depth, Value.print, printString]
  | .array .nil => by decide
  | .array (.cons v es) => by
    have hv := Value.depth_le v
    have hes := Elements.depth_lt es
    simp only [Value.depth, Elements.depth, Value.print, List.cons_append, List.length_cons,
      List.length_append]
    omega
  | .object .nil => by decide
  | .object (.cons k v ms) => by
    have hv := Value.depth_le v
    have hms := Members.depth_lt ms
    simp only [Value.depth, Members.depth, Value.print, List.cons_append, List.length_cons,
      List.length_append]
    omega

theorem Elements.depth_lt : ∀ es : Elements, es.depth < es.print.length
  | .nil => by decide
  | .cons v es => by
    have hv := Value.depth_le v
    have hes := Elements.depth_lt es
    simp only [Elements.depth, Elements.print, List.cons_append, List.length_cons,
      List.length_append]
    omega

theorem Members.depth_lt : ∀ ms : Members, ms.depth < ms.print.length
  | .nil => by decide
  | .cons k v ms => by
    have hv := Value.depth_le v
    have hms := Members.depth_lt ms
    simp only [Members.depth, Members.print, List.cons_append, List.length_cons,
      List.length_append]
    omega

end

/-- **What was written is read back.** -/
theorem parse_print (v : Value) (h : v.Distinct) : parse v.print = some v := by
  have hskip : skip v.print = v.print := by simpa using skip_print v []
  have hdepth := v.depth_le
  have hread : value (2 * v.print.length + 1) v.print = some (v, []) := by
    have := Value.read v h (show v.depth ≤ 2 * v.print.length + 1 by omega)
      (show Ends [] from nofun)
    rwa [List.append_nil] at this
  rw [parse, hskip, hread]
  rfl

/-! ## What is read has keys of its own -/

theorem Members.nodup_set (k : List UInt16) (v : Value) {ms : Members} (h : ms.keys.Nodup) :
    (ms.set k v).keys.Nodup := by
  have hkeys : ∀ ms : Members,
      (ms.set k v).keys = if k ∈ ms.keys then ms.keys else ms.keys ++ [k] := by
    intro ms
    induction ms using keys.induct with
    | case1 => rfl
    | case2 k' v' ms ih =>
      rw [set, keys]
      by_cases hk : k' = k
      · rw [if_pos hk, keys, hk, if_pos List.mem_cons_self]
      · have hmem : k ∈ k' :: ms.keys ↔ k ∈ ms.keys := by simp [Ne.symm hk]
        rw [if_neg hk, keys, ih]
        simp only [hmem]
        split_ifs <;> rfl
  rw [hkeys]
  split_ifs with hk
  · exact h
  · refine List.nodup_append.mpr ⟨h, List.pairwise_singleton _ k, fun a ha b hb heq => hk ?_⟩
    rwa [← List.mem_singleton.mp hb, ← heq]

theorem Members.distinct_set {k : List UInt16} {v : Value} (hv : v.Distinct) {ms : Members}
    (h : ms.Distinct) : (ms.set k v).Distinct := by
  induction ms using keys.induct with
  | case1 => exact ⟨hv, h⟩
  | case2 k' v' ms ih =>
    rw [set]
    split_ifs
    · exact ⟨hv, h.2⟩
    · exact ⟨h.1, ih h.2⟩

theorem Members.distinct_setAll {ms more : Members} (hkeys : ms.keys.Nodup) (h : ms.Distinct)
    (hmore : more.Distinct) : (Value.object (ms.setAll more)).Distinct := by
  induction more using keys.induct generalizing ms with
  | case1 => exact ⟨hkeys, h⟩
  | case2 k v more ih => exact ih (nodup_set k v hkeys) (distinct_set hmore.1 h) hmore.2

/-- The values that can be read with this much fuel have distinct keys. -/
def Reads (fuel : Nat) : Prop :=
  (∀ s v rest, value fuel s = some (v, rest) → v.Distinct) ∧
    (∀ s es rest, elements fuel s = some (es, rest) → es.Distinct) ∧
    ∀ s ms rest, members fuel s = some (ms, rest) → ms.Distinct

theorem Reads.value {fuel : Nat} (h : Reads fuel) {s : List Char} {v : Value} {rest : List Char}
    (hread : Json.value (fuel + 1) s = some (v, rest)) : v.Distinct := by
  obtain ⟨-, helements, hmembers⟩ := h
  cases s with
  | nil => cases hread
  | cons c s =>
    rw [Json.value] at hread
    split_ifs at hread
    · obtain ⟨p, -, heq⟩ := Option.map_eq_some_iff.mp hread
      obtain ⟨rfl, -⟩ := Prod.mk.inj heq
      trivial
    · split at hread
      · obtain ⟨rfl, -⟩ := Prod.mk.inj (Option.some.inj hread)
        trivial
      · obtain ⟨p, hp, heq⟩ := Option.map_eq_some_iff.mp hread
        obtain ⟨rfl, -⟩ := Prod.mk.inj heq
        exact helements _ _ _ hp
    · split at hread
      · obtain ⟨rfl, -⟩ := Prod.mk.inj (Option.some.inj hread)
        exact ⟨List.nodup_nil, trivial⟩
      · obtain ⟨p, hp, heq⟩ := Option.map_eq_some_iff.mp hread
        obtain ⟨rfl, -⟩ := Prod.mk.inj heq
        exact Members.distinct_setAll List.nodup_nil trivial (hmembers _ _ _ hp)
    iterate 3
      obtain ⟨p, -, heq⟩ := Option.map_eq_some_iff.mp hread
      obtain ⟨rfl, -⟩ := Prod.mk.inj heq
      trivial
    · unfold number at hread
      split_ifs at hread
      obtain ⟨rfl, -⟩ := Prod.mk.inj (Option.some.inj hread)
      trivial

theorem Reads.elements {fuel : Nat} (h : Reads fuel) {s : List Char} {es : Elements}
    {rest : List Char} (hread : Json.elements (fuel + 1) s = some (es, rest)) : es.Distinct := by
  obtain ⟨hvalue, helements, -⟩ := h
  rw [Json.elements] at hread
  obtain ⟨p, hp, hread⟩ := Option.bind_eq_some_iff.mp hread
  have hv := hvalue _ _ _ hp
  split at hread
  · obtain ⟨rfl, -⟩ := Prod.mk.inj (Option.some.inj hread)
    exact ⟨hv, trivial⟩
  · obtain ⟨q, hq, heq⟩ := Option.map_eq_some_iff.mp hread
    obtain ⟨rfl, -⟩ := Prod.mk.inj heq
    exact ⟨hv, helements _ _ _ hq⟩
  · cases hread

theorem Reads.members {fuel : Nat} (h : Reads fuel) {s : List Char} {ms : Members}
    {rest : List Char} (hread : Json.members (fuel + 1) s = some (ms, rest)) : ms.Distinct := by
  obtain ⟨hvalue, -, hmembers⟩ := h
  unfold Json.members at hread
  split at hread
  · rename_i fuel' s' heq
    obtain rfl := Nat.succ.inj heq
    obtain ⟨k, -, hread⟩ := Option.bind_eq_some_iff.mp hread
    split at hread
    · obtain ⟨p, hp, hread⟩ := Option.bind_eq_some_iff.mp hread
      have hv := hvalue _ _ _ hp
      split at hread
      · obtain ⟨rfl, -⟩ := Prod.mk.inj (Option.some.inj hread)
        exact ⟨hv, trivial⟩
      · obtain ⟨q, hq, heq⟩ := Option.map_eq_some_iff.mp hread
        obtain ⟨rfl, -⟩ := Prod.mk.inj heq
        exact ⟨hv, hmembers _ _ _ hq⟩
      · cases hread
    · cases hread
  · cases hread

theorem reads (fuel : Nat) : Reads fuel := by
  induction fuel with
  | zero => exact ⟨nofun, nofun, fun s ms rest h => by simp [members] at h⟩
  | succ fuel ih => exact ⟨fun _ _ _ => ih.value, fun _ _ _ => ih.elements, fun _ _ _ => ih.members⟩

/-- **What is read has no object with two members of one key.** -/
theorem distinct_of_parse {s : List Char} {v : Value} (h : parse s = some v) : v.Distinct := by
  unfold parse at h
  split at h
  · rename_i v' rest hread
    split_ifs at h
    obtain rfl := Option.some.inj h
    exact (reads _).1 _ _ _ hread
  · cases h

/-! ## What JavaScript keeps -/

/-- An integer of few digits, which is a double and is written as one in the same way. Not so
`-0`. -/
def Numeral.Kept (n : Numeral) : Prop :=
  n.text.length ≤ 15 ∧ n.text ≠ ['-', '0'] ∧ ∀ c ∈ n.text, isDigit c = true ∨ c = '-'

mutual

/-- JavaScript has the value as it was written: all numbers are `Numeral.Kept`, and no key is of
digits alone, which would take its member to the front of the object. -/
def Value.Kept : Value → Prop
  | .number n => n.Kept
  | .array es => es.Kept
  | .object ms => ms.Kept
  | .null | .bool _ | .string _ => True

def Elements.Kept : Elements → Prop
  | .nil => True
  | .cons v es => v.Kept ∧ es.Kept

def Members.Kept : Members → Prop
  | .nil => True
  | .cons k v ms => (k = [] ∨ ∃ u ∈ k, u.toNat < 48 ∨ 57 < u.toNat) ∧ v.Kept ∧ ms.Kept

end

/-! ## What is written has no control characters -/

/-- No control characters. -/
def Plain (s : List Char) : Prop := ∀ c ∈ s, 32 ≤ c.toNat

instance (s : List Char) : Decidable (Plain s) :=
  List.decidableBAll (fun c : Char => 32 ≤ c.toNat) s

theorem plain_append {s t : List Char} : Plain (s ++ t) ↔ Plain s ∧ Plain t := by
  simp only [Plain, List.mem_append, or_imp, forall_and]

theorem plain_cons {c : Char} {s : List Char} : Plain (c :: s) ↔ 32 ≤ c.toNat ∧ Plain s := by
  simp [Plain]

theorem plain_hexDigit : ∀ n < 16, 32 ≤ (hexDigit n).toNat := by decide

theorem plain_hexEscape {n : Nat} (h : n < 0x10000) : Plain (hexEscape n) := by
  have hslash : 32 ≤ backslash.toNat := by decide
  have h₁ := plain_hexDigit (n / 0x1000) (by omega)
  have h₂ := plain_hexDigit (n / 0x100 % 16) (by omega)
  have h₃ := plain_hexDigit (n / 16 % 16) (by omega)
  have h₄ := plain_hexDigit (n % 16) (by omega)
  simp [Plain, hexEscape, hslash, h₁, h₂, h₃, h₄]

theorem plain_escapeChar (c : Char) : Plain (escapeChar c) := by
  have hslash : 32 ≤ backslash.toNat := by decide
  unfold escapeChar
  split_ifs with hself hb ht hn hf hr hcontrol
  · have hc : 32 ≤ c.toNat := by rcases hself with rfl | rfl <;> decide
    simp [Plain, hslash, hc]
  · simp [Plain, hslash]
  · simp [Plain, hslash]
  · simp [Plain, hslash]
  · simp [Plain, hslash]
  · simp [Plain, hslash]
  · exact plain_hexEscape (by omega)
  · simp only [Plain, List.mem_singleton, forall_eq]
    omega

theorem plain_escape (u : UInt16) : Plain (escape u) := by
  unfold escape
  split_ifs
  · exact plain_hexEscape u.toNat_lt
  · exact plain_escapeChar _

theorem plain_printUnits (us : List UInt16) : Plain (printUnits us) := by
  induction us using printUnits.induct with
  | case1 => exact nofun
  | case2 u => exact plain_escape u
  | case3 u v us hpair ih =>
    obtain ⟨hu, hv⟩ := Bool.and_eq_true_iff.mp hpair
    rw [printUnits, if_pos hpair, plain_cons, toNat_joined hu hv]
    exact ⟨by omega, ih⟩
  | case4 u v us hpair ih =>
    rw [printUnits, if_neg hpair]
    exact plain_append.mpr ⟨plain_escape u, ih⟩

theorem plain_printString (s : List UInt16) : Plain (printString s) := by
  have hquote : 32 ≤ quote.toNat := by decide
  unfold printString
  rw [List.cons_append, plain_cons, plain_append, plain_cons]
  exact ⟨hquote, plain_printUnits s, hquote, nofun⟩

theorem Numeral.plain (n : Numeral) : Plain n.text := by
  intro c hc
  by_contra hlt
  have hall : ∀ m < 32, inNumeral (Char.ofNat m) = false := by decide
  have := hall c.toNat (by omega)
  rw [Char.ofNat_toNat, n.written c hc] at this
  cases this

mutual

theorem Value.plain_print : ∀ v : Value, Plain v.print
  | .null => by decide
  | .bool true => by decide
  | .bool false => by decide
  | .number n => n.plain
  | .string s => plain_printString s
  | .array .nil => by decide
  | .array (.cons v es) => by
    rw [Value.print, List.cons_append, plain_cons, plain_append]
    exact ⟨by decide, Value.plain_print v, Elements.plain_print es⟩
  | .object .nil => by decide
  | .object (.cons k v ms) => by
    rw [Value.print, List.cons_append, List.cons_append, List.append_assoc, plain_cons,
      plain_append, List.cons_append, plain_cons, plain_append]
    exact ⟨by decide, plain_printString k, by decide, Value.plain_print v, Members.plain_print ms⟩

theorem Elements.plain_print : ∀ es : Elements, Plain es.print
  | .nil => by decide
  | .cons v es => by
    rw [Elements.print, List.cons_append, plain_cons, plain_append]
    exact ⟨by decide, Value.plain_print v, Elements.plain_print es⟩

theorem Members.plain_print : ∀ ms : Members, Plain ms.print
  | .nil => by decide
  | .cons k v ms => by
    rw [Members.print, List.cons_append, List.cons_append, List.append_assoc, plain_cons,
      plain_append, List.cons_append, plain_cons, plain_append]
    exact ⟨by decide, plain_printString k, by decide, Value.plain_print v, Members.plain_print ms⟩

end

end Json
