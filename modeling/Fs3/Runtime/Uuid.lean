import Mathlib.Data.BitVec
import Mathlib.Tactic.NormNum

/-! # The uuid package

The journal stores a uuid as sixteen bytes and reads and prints it through a third-party package.
The code relies on four facts about that package, kept as fields of `UuidPackage`;
`UuidPackage.google` follows the documented text forms and satisfies them. -/

namespace Fs3

/-- A `[16]byte`. -/
abbrev UUID := BitVec 128

/-- `uuid.Parse` and `UUID.String`, with what the code relies on: a printed
uuid parses back, and neither the empty id nor the two reserved names of the
journal is the text of a uuid. -/
structure UuidPackage where
  parse : String → Option UUID
  print : UUID → String
  parse_print : ∀ u, parse (print u) = some u
  parse_empty : parse "" = none
  parse_null : parse "null" = none
  parse_legacy : parse "legacy" = none

namespace UuidPackage

variable (uuid : UuidPackage)

theorem print_injective : Function.Injective uuid.print := by
  intro u v heq
  have hparse := uuid.parse_print u
  rw [heq, uuid.parse_print] at hparse
  exact (Option.some.inj hparse).symm

theorem print_ne_empty (u : UUID) : uuid.print u ≠ "" := by
  intro heq
  have hparse := uuid.parse_print u
  rw [heq, uuid.parse_empty] at hparse
  cases hparse

theorem print_ne_null (u : UUID) : uuid.print u ≠ "null" := by
  intro heq
  have hparse := uuid.parse_print u
  rw [heq, uuid.parse_null] at hparse
  cases hparse

end UuidPackage

/-! ## The documented text forms -/

namespace UuidText

/-- The `count` low hexadecimal digits of a number, most significant first. -/
def digits : Nat → Nat → List Nat
  | 0, _ => []
  | count + 1, value => digits count (value / 16) ++ [value % 16]

def ofDigits (ds : List Nat) : Nat := ds.foldl (fun acc digit => 16 * acc + digit) 0

theorem digits_length (count value : Nat) : (digits count value).length = count := by
  induction count generalizing value with
  | zero => rfl
  | succ count ih => simp [digits, ih]

theorem digits_lt (count value : Nat) : ∀ digit ∈ digits count value, digit < 16 := by
  induction count generalizing value with
  | zero => simp [digits]
  | succ count ih =>
    intro digit hdigit
    rcases List.mem_append.mp hdigit with hdigit | hdigit
    · exact ih _ digit hdigit
    · rw [List.mem_singleton.mp hdigit]
      exact Nat.mod_lt _ (by decide)

theorem ofDigits_digits (count value : Nat) :
    ofDigits (digits count value) = value % 16 ^ count := by
  induction count generalizing value with
  | zero => simp [digits, ofDigits, Nat.mod_one]
  | succ count ih =>
    have hprior : ofDigits (digits count (value / 16)) = value / 16 % 16 ^ count := ih _
    unfold ofDigits at hprior
    rw [digits, ofDigits, List.foldl_append, hprior, pow_succ']
    simp only [List.foldl_cons, List.foldl_nil]
    rw [Nat.mod_mul]
    omega

def toChar (digit : Nat) : Char := ("0123456789abcdef".toList)[digit]?.getD '0'

/-- `xtob` on one character: both cases are accepted. -/
def ofChar (c : Char) : Option Nat :=
  let code := c.toNat
  if 48 ≤ code ∧ code ≤ 57 then some (code - 48)
  else if 97 ≤ code ∧ code ≤ 102 then some (code - 87)
  else if 65 ≤ code ∧ code ≤ 70 then some (code - 55)
  else none

theorem ofChar_toChar {digit : Nat} (hdigit : digit < 16) : ofChar (toChar digit) = some digit := by
  have hall : ∀ digit < 16, ofChar (toChar digit) = some digit := by decide
  exact hall digit hdigit

def dash : List Nat → List Char → List Char
  | [], cs => cs
  | size :: sizes, cs => cs.take size ++ '-' :: dash sizes (cs.drop size)

def undash : List Nat → List Char → Option (List Char)
  | [], cs => some cs
  | size :: sizes, cs =>
    match cs.drop size with
    | '-' :: rest => (undash sizes rest).map (cs.take size ++ ·)
    | _ => none

theorem undash_dash (sizes : List Nat) (cs : List Char) (hlength : sizes.sum ≤ cs.length) :
    undash sizes (dash sizes cs) = some cs := by
  induction sizes generalizing cs with
  | nil => rfl
  | cons size sizes ih =>
    rw [List.sum_cons] at hlength
    have htake : (cs.take size).length = size := by
      rw [List.length_take]
      omega
    have hdrop : (dash (size :: sizes) cs).drop size = '-' :: dash sizes (cs.drop size) := by
      rw [dash, List.drop_append_of_le_length (by omega), List.drop_eq_nil_of_le (by omega),
        List.nil_append]
    have hfront : (dash (size :: sizes) cs).take size = cs.take size := by
      rw [dash, List.take_append_of_le_length (by omega), List.take_of_length_le (by omega)]
    have hrest := ih (cs.drop size) (by rw [List.length_drop]; omega)
    simp only [undash, hdrop, hfront, hrest, Option.map_some, List.take_append_drop]

theorem dash_length (sizes : List Nat) (cs : List Char) (hlength : sizes.sum ≤ cs.length) :
    (dash sizes cs).length = cs.length + sizes.length := by
  induction sizes generalizing cs with
  | nil => rfl
  | cons size sizes ih =>
    rw [List.sum_cons] at hlength
    have hrest := ih (cs.drop size) (by rw [List.length_drop]; omega)
    simp only [dash, List.length_append, List.length_cons, List.length_take, hrest,
      List.length_drop]
    omega

def groups : List Nat := [8, 4, 4, 4]

def ofHex (cs : List Char) : Option UUID :=
  if cs.length = 32 then (cs.mapM ofChar).map fun ds => BitVec.ofNat 128 (ofDigits ds) else none

/-- `UUID.String`: lower case, dashed. -/
def print (u : UUID) : String :=
  String.ofList (dash groups ((digits 32 u.toNat).map toChar))

/-- `uuid.Parse`: the standard form, the `urn:uuid:` form, the form in braces
and the raw hexadecimal form, told apart by their lengths. -/
def parse (text : String) : Option UUID :=
  let cs := text.toList
  if cs.length = 36 then (undash groups cs).bind ofHex
  else if cs.length = 45 then
    if toLowerAscii (cs.take 9) = "urn:uuid:".toList then (undash groups (cs.drop 9)).bind ofHex
    else none
  else if cs.length = 38 then (undash groups ((cs.drop 1).take 36)).bind ofHex
  else ofHex cs
where
  toLowerAscii (cs : List Char) : List Char := cs.map Char.toLower

theorem mapM_ofChar_toChar (ds : List Nat) (hds : ∀ digit ∈ ds, digit < 16) :
    (ds.map toChar).mapM ofChar = some ds := by
  induction ds with
  | nil => rfl
  | cons digit ds ih =>
    have hrest := ih fun d hd => hds d (List.mem_cons_of_mem _ hd)
    rw [List.map_cons, List.mapM_cons, ofChar_toChar (hds digit List.mem_cons_self), hrest]
    rfl

theorem parse_print (u : UUID) : parse (print u) = some u := by
  have hlength : ((digits 32 u.toNat).map toChar).length = 32 := by
    rw [List.length_map, digits_length]
  have hsum : groups.sum ≤ ((digits 32 u.toNat).map toChar).length := by
    rw [hlength]
    decide
  have hdashed := dash_length groups _ hsum
  have hvalue : ofDigits (digits 32 u.toNat) = u.toNat := by
    rw [ofDigits_digits]
    exact Nat.mod_eq_of_lt (by simpa using u.isLt)
  rw [hlength, show 32 + groups.length = 36 from rfl] at hdashed
  unfold parse print
  simp only [String.toList_ofList]
  rw [if_pos hdashed, undash_dash groups _ hsum, Option.bind_some, ofHex, if_pos hlength,
    mapM_ofChar_toChar _ (digits_lt 32 u.toNat), Option.map_some, hvalue]
  simp

end UuidText

def UuidPackage.google : UuidPackage where
  parse := UuidText.parse
  print := UuidText.print
  parse_print := UuidText.parse_print
  parse_empty := by decide
  parse_null := by decide
  parse_legacy := by decide

end Fs3
