import Fs3.Hash.Reader
import Fs3.ObjectReader.RangeHeader
import Mathlib.Tactic.IntervalCases

/-! # ETags as texts

An ETag is written as hexadecimal digits, that of a multipart object with a minus and a number
behind them. A text is read as its bytes, each as the rune of its number. -/

namespace Fs3.Hash

open ObjectReader

inductive ETagErr where
  | invalidHex
  | invalidLength (length : Nat)
  | invalidPrefixLength (length : Nat)
  | suffixIsNotAPartNumber
  | atoi (err : NumError)
  | invalidPartNumber (partNumber : Int)
  deriving DecidableEq

/-- Double quotes at both ends are dropped: `s[1:0]` of a text that is one quote panics. -/
def unquote (s : List Char) : Option (List Char) :=
  if s.head? = some '"' ∧ s.getLast? = some '"' then
    if s.length < 2 then none else some s.tail.dropLast
  else some s

def suffixBytes (suffix : List Char) : Bytes := suffix.map fun rune => UInt8.ofNat rune.toNat

def parseUnquoted (s : List Char) (strict : Bool) : Except ETagErr Bytes :=
  match splitAtFirst '-' s with
  | (_, none) =>
    match decodeHex s with
    | none => .error .invalidHex
    | some etag =>
      if strict ∧ etag.length ≠ 16 then .error (.invalidLength etag.length) else .ok etag
  | (checksum, some number) =>
    if checksum.length ≠ 32 then .error (.invalidPrefixLength checksum.length)
    else if number = [] then .error .suffixIsNotAPartNumber
    else
      match decodeHex checksum with
      | none => .error .invalidHex
      | some etag =>
        match atoi (String.ofList number) with
        | (_, some err) => .error (.atoi err)
        | (partNumber, none) =>
          if strict ∧ (partNumber = 0 ∨ 10000 < partNumber) then
            .error (.invalidPartNumber partNumber)
          else .ok (etag ++ suffixBytes ('-' :: number))

/-- `etag.parse`; `none` is a panic. -/
def parse (s : String) (strict : Bool) : Option (Except ETagErr Bytes) :=
  (unquote s.toList).map fun s => parseUnquoted s strict

/-! ## Hexadecimal -/

theorem fromHexChar_digitChar {n : Nat} (hn : n < 16) :
    fromHexChar (Nat.digitChar n) = some (UInt8.ofNat n) := by
  interval_cases n <;> rfl

theorem shiftLeft_or_eq (byte : UInt8) :
    UInt8.ofNat (byte.toNat / 16) <<< 4 ||| UInt8.ofNat (byte.toNat % 16) = byte := by
  have hless := byte.toNat_lt
  apply UInt8.toNat_inj.mp
  rw [UInt8.toNat_or, UInt8.toNat_shiftLeft, UInt8.toNat_ofNat', UInt8.toNat_ofNat',
    Nat.mod_eq_of_lt (show byte.toNat / 16 < 2 ^ 8 by omega),
    Nat.mod_eq_of_lt (show byte.toNat % 16 < 2 ^ 8 by omega)]
  have hfour : UInt8.toNat 4 % 8 = 4 := rfl
  rw [hfour, Nat.shiftLeft_eq, Nat.mod_eq_of_lt (by omega), ← Nat.shiftLeft_eq,
    ← Nat.shiftLeft_add_eq_or_of_lt (show byte.toNat % 16 < 2 ^ 4 by omega), Nat.shiftLeft_eq]
  omega

/-- The digits that `encodeToString` writes. -/
def hexDigits (bytes : Bytes) : List Char :=
  bytes.flatMap fun byte => [Nat.digitChar (byte.toNat / 16), Nat.digitChar (byte.toNat % 16)]

theorem hexDigits_cons (byte : UInt8) (bytes : Bytes) :
    hexDigits (byte :: bytes) =
      Nat.digitChar (byte.toNat / 16) :: Nat.digitChar (byte.toNat % 16) :: hexDigits bytes := rfl

theorem decodeHex_hexDigits_append (bytes : Bytes) (more : List Char) :
    decodeHex (hexDigits bytes ++ more) = (decodeHex more).map (bytes ++ ·) := by
  induction bytes with
  | nil => exact (Option.map_id_apply).symm
  | cons byte bytes ih =>
    have hless := byte.toNat_lt
    rw [hexDigits_cons, List.cons_append, List.cons_append, decodeHex,
      fromHexChar_digitChar (by omega), fromHexChar_digitChar (by omega), ih]
    cases decodeHex more with
    | none => rfl
    | some rest =>
      change some (_ :: (bytes ++ rest)) = some (byte :: (bytes ++ rest))
      rw [shiftLeft_or_eq]

theorem decodeHex_hexDigits (bytes : Bytes) : decodeHex (hexDigits bytes) = some bytes := by
  have happend := decodeHex_hexDigits_append bytes []
  rw [List.append_nil, decodeHex, Option.map_some, List.append_nil] at happend
  exact happend

theorem length_hexDigits (bytes : Bytes) : (hexDigits bytes).length = 2 * bytes.length := by
  induction bytes with
  | nil => rfl
  | cons byte bytes ih =>
    rw [hexDigits_cons, List.length_cons, List.length_cons, List.length_cons, ih]
    omega

def IsHex (rune : Char) : Prop := (fromHexChar rune).isSome

variable {runes : List Char}

theorem decodeHex_eq_some {bytes : Bytes} (hdecode : decodeHex runes = some bytes) :
    runes.length = 2 * bytes.length ∧ ∀ rune ∈ runes, IsHex rune := by
  induction runes using decodeHex.induct generalizing bytes with
  | case1 =>
    cases hdecode
    exact ⟨rfl, by simp⟩
  | case2 rune => cases hdecode
  | case3 a b rest ih =>
    rw [decodeHex] at hdecode
    cases ha : fromHexChar a with
    | none => simp [ha] at hdecode
    | some high =>
      cases hb : fromHexChar b with
      | none => simp [ha, hb] at hdecode
      | some low =>
        cases hrest : decodeHex rest with
        | none => simp [ha, hb, hrest] at hdecode
        | some tail =>
          obtain ⟨hlength, hhex⟩ := ih hrest
          simp only [ha, hb, hrest, Option.bind_eq_bind, Option.bind_some,
            Option.some.injEq] at hdecode
          subst hdecode
          refine ⟨by simp only [List.length_cons, hlength]; omega, ?_⟩
          intro rune hrune
          rcases List.mem_cons.mp hrune with rfl | hrune
          · exact Option.isSome_of_eq_some ha
          · rcases List.mem_cons.mp hrune with rfl | hrune
            · exact Option.isSome_of_eq_some hb
            · exact hhex rune hrune

theorem exists_decodeHex (heven : runes.length % 2 = 0) (hhex : ∀ rune ∈ runes, IsHex rune) :
    ∃ bytes, decodeHex runes = some bytes := by
  induction runes using decodeHex.induct with
  | case1 => exact ⟨[], rfl⟩
  | case2 rune => exact absurd heven (by simp)
  | case3 a b rest ih =>
    obtain ⟨high, hhigh⟩ := Option.isSome_iff_exists.mp (hhex a (by simp))
    obtain ⟨low, hlow⟩ := Option.isSome_iff_exists.mp (hhex b (by simp))
    obtain ⟨bytes, hbytes⟩ := ih (by simp only [List.length_cons] at heven; omega)
      fun rune hrune => hhex rune (by simp [hrune])
    exact ⟨_, by rw [decodeHex, hhigh, hlow, hbytes]; rfl⟩

theorem not_isHex_minus : ¬ IsHex '-' := by
  unfold IsHex
  decide

theorem not_isHex_quote : ¬ IsHex '"' := by
  unfold IsHex
  decide

/-- The digits of 16 bytes. -/
structure Checksum (runes : List Char) : Prop where
  length : runes.length = 32
  hex : ∀ rune ∈ runes, IsHex rune

theorem checksum_iff : Checksum runes ↔ ∃ etag, decodeHex runes = some etag ∧ etag.length = 16 := by
  constructor
  · intro ⟨hlength, hhex⟩
    obtain ⟨etag, hetag⟩ := exists_decodeHex (by omega) hhex
    have hdouble := (decodeHex_eq_some hetag).1
    exact ⟨etag, hetag, by omega⟩
  · intro ⟨etag, hetag, hlength⟩
    obtain ⟨hdouble, hhex⟩ := decodeHex_eq_some hetag
    exact ⟨by omega, hhex⟩

theorem minus_notMem_of_decodeHex {bytes : Bytes} (hdecode : decodeHex runes = some bytes) :
    '-' ∉ runes := fun hmem =>
  not_isHex_minus ((decodeHex_eq_some hdecode).2 _ hmem)

theorem splitAtFirst_of_notMem {sep : Char} (hnot : sep ∉ runes) :
    splitAtFirst sep runes = (runes, none) := by
  induction runes with
  | nil => rfl
  | cons rune runes ih =>
    obtain ⟨hne, hrest⟩ := not_or.mp (mt List.mem_cons.mpr hnot)
    rw [splitAtFirst, if_neg fun heq => hne heq.symm, ih hrest]

/-! ## What the parser takes -/

/-- A number that `strconv.Atoi` reads. -/
def Reads (number : List Char) (n : Int) : Prop := atoi (String.ofList number) = (n, none)

theorem reads_nil (n : Int) : ¬ Reads [] n := by
  unfold Reads atoi
  simp [splitSign]

variable {s : List Char}

theorem parseUnquoted_of_decodeHex {etag : Bytes} (strict : Bool)
    (hdecode : decodeHex s = some etag) :
    parseUnquoted s strict =
      if strict ∧ etag.length ≠ 16 then .error (.invalidLength etag.length) else .ok etag := by
  rw [parseUnquoted, splitAtFirst_of_notMem (minus_notMem_of_decodeHex hdecode)]
  simp only [hdecode]

theorem parseUnquoted_numbered {checksum number : List Char} (hminus : '-' ∉ checksum)
    {strict : Bool} {etag : Bytes} :
    parseUnquoted (checksum ++ '-' :: number) strict = .ok etag ↔
      ∃ sum n, decodeHex checksum = some sum ∧ sum.length = 16 ∧ Reads number n ∧
        (strict = true → n ≠ 0 ∧ n ≤ 10000) ∧ etag = sum ++ suffixBytes ('-' :: number) := by
  rw [parseUnquoted, splitAtFirst_eq_some.mpr ⟨hminus, rfl⟩]
  dsimp only
  split
  next hlength =>
    refine iff_of_false (by simp) fun ⟨sum, n, hsum, hsixteen, _⟩ => hlength ?_
    rw [(decodeHex_eq_some hsum).1, hsixteen]
  next hlength =>
    split
    next hnil =>
      refine iff_of_false (by simp) fun ⟨sum, n, _, _, hreads, _⟩ => ?_
      exact reads_nil n (hnil ▸ hreads)
    next =>
      cases hsum : decodeHex checksum with
      | none => exact iff_of_false (by simp) (by simp)
      | some sum =>
        have hsixteen : sum.length = 16 := by
          have hdouble := (decodeHex_eq_some hsum).1
          omega
        cases hreads : atoi (String.ofList number) with
        | mk n err =>
          cases err with
          | some err =>
            refine iff_of_false (by simp) fun ⟨sum', n', _, _, hreads', _⟩ => ?_
            rw [Reads, hreads] at hreads'
            cases hreads'
          | none =>
            have hunique : ∀ n', Reads number n' ↔ n = n' := by
              intro n'
              rw [Reads, hreads, Prod.mk.injEq, and_iff_left rfl]
            simp only [Option.some.injEq, hunique]
            split
            next hrefused =>
              refine iff_of_false (by simp) fun ⟨_, _, _, _, heq, hbounds, _⟩ => ?_
              obtain ⟨hzero, hlarge⟩ := heq ▸ hbounds hrefused.1
              rcases hrefused.2 with h | h
              · exact hzero h
              · exact absurd hlarge (Int.not_le.mpr h)
            next haccepted =>
              rw [Except.ok.injEq]
              constructor
              · rintro rfl
                refine ⟨sum, n, rfl, hsixteen, rfl, fun hstrict => ?_, rfl⟩
                obtain ⟨hzero, hlarge⟩ := not_or.mp (not_and.mp haccepted hstrict)
                exact ⟨hzero, Int.not_lt.mp hlarge⟩
              · rintro ⟨_, _, rfl, -, -, -, rfl⟩
                rfl

theorem parseUnquoted_eq_ok {strict : Bool} {etag : Bytes} :
    parseUnquoted s strict = .ok etag ↔
      decodeHex s = some etag ∧ (strict = true → etag.length = 16) ∨
      ∃ checksum number sum n, s = checksum ++ '-' :: number ∧ decodeHex checksum = some sum ∧
        sum.length = 16 ∧ Reads number n ∧ (strict = true → n ≠ 0 ∧ n ≤ 10000) ∧
        etag = sum ++ suffixBytes ('-' :: number) := by
  by_cases hminus : '-' ∈ s
  · obtain ⟨checksum, number, rfl, hfirst⟩ := List.eq_append_cons_of_mem hminus
    rw [parseUnquoted_numbered hfirst]
    constructor
    · intro ⟨sum, n, hsum, hrest⟩
      exact Or.inr ⟨checksum, number, sum, n, rfl, hsum, hrest⟩
    · rintro (⟨hdecode, -⟩ | ⟨checksum', number', sum, n, heq, hsum, hrest⟩)
      · exact absurd hminus (minus_notMem_of_decodeHex hdecode)
      · have hsame : (checksum, some number) = (checksum', some number') := by
          rw [← splitAtFirst_eq_some.mpr ⟨hfirst, rfl⟩, heq,
            splitAtFirst_eq_some.mpr ⟨minus_notMem_of_decodeHex hsum, rfl⟩]
        cases hsame
        exact ⟨sum, n, hsum, hrest⟩
  · rw [parseUnquoted, splitAtFirst_of_notMem hminus]
    have hno : ¬ ∃ checksum number sum n, s = checksum ++ '-' :: number ∧
        decodeHex checksum = some sum ∧ sum.length = 16 ∧ Reads number n ∧
        (strict = true → n ≠ 0 ∧ n ≤ 10000) ∧ etag = sum ++ suffixBytes ('-' :: number) := by
      rintro ⟨checksum, number, -, -, rfl, -⟩
      exact hminus (by simp)
    rw [or_iff_left hno]
    cases hdecode : decodeHex s with
    | none => simp
    | some etag' =>
      dsimp only
      split
      next hrefused =>
        refine iff_of_false (by simp) fun ⟨heq, hlength⟩ => hrefused.2 ?_
        cases heq
        exact hlength hrefused.1
      next haccepted =>
        rw [Except.ok.injEq, Option.some.injEq]
        constructor
        · rintro rfl
          exact ⟨rfl, fun hstrict => not_not.mp (not_and.mp haccepted hstrict)⟩
        · exact fun h => h.1

variable {n : Int}

theorem reads_iff_of_splitSign {number runes : List Char} {negative : Bool}
    (hsplit : splitSign number = (negative, runes)) :
    Reads number n ↔ ∃ m : Nat, Decimal runes m ∧ n = (if negative then -(m : Int) else m) ∧
      -2 ^ 63 ≤ n ∧ n < 2 ^ 63 := by
  rw [Reads, atoi, String.toList_ofList, hsplit]
  simp only [decimal_iff]
  split
  next hbad =>
    refine iff_of_false (by simp) ?_
    rintro ⟨m, ⟨hne, hall, _⟩, _⟩
    exact hbad.elim hne (not_not.mpr hall)
  next hgood =>
    obtain ⟨hne, hall⟩ := not_or.mp hgood
    have hall := not_not.mp hall
    simp only [hall, ne_eq, hne, not_false_eq_true, true_and]
    rw [exists_eq_left']
    generalize (if negative = true then -(digits runes : Int) else digits runes) = value
    split
    next => exact iff_of_false (by simp) (by omega)
    next =>
      split
      next => exact iff_of_false (by simp) (by omega)
      next =>
        rw [Prod.mk.injEq, and_iff_left rfl]
        omega

theorem reads_minus :
    Reads ('-' :: runes) n ↔ ∃ m : Nat, Decimal runes m ∧ m ≤ 2 ^ 63 ∧ n = -(m : Int) := by
  have hsplit : splitSign ('-' :: runes) = (true, runes) := rfl
  rw [reads_iff_of_splitSign hsplit]
  refine exists_congr fun m => and_congr_right fun _ => ?_
  rw [if_pos rfl]
  omega

theorem reads_plus :
    Reads ('+' :: runes) n ↔ ∃ m : Nat, Decimal runes m ∧ m < 2 ^ 63 ∧ n = (m : Int) := by
  have hsplit : splitSign ('+' :: runes) = (false, runes) := rfl
  rw [reads_iff_of_splitSign hsplit]
  refine exists_congr fun m => and_congr_right fun _ => ?_
  rw [if_neg (by simp)]
  omega

theorem reads_unsigned (hminus : runes.head? ≠ some '-') (hplus : runes.head? ≠ some '+') :
    Reads runes n ↔ ∃ m : Nat, Decimal runes m ∧ m < 2 ^ 63 ∧ n = (m : Int) := by
  have hsplit : splitSign runes = (false, runes) := by
    cases runes with
    | nil => rfl
    | cons rune runes =>
      rw [List.head?_cons, ne_eq, Option.some.injEq] at hminus hplus
      exact splitSign_of_unsigned hminus hplus
  rw [reads_iff_of_splitSign hsplit]
  refine exists_congr fun m => and_congr_right fun _ => ?_
  rw [if_neg (by simp)]
  omega

theorem decimal_head_ne {m : Nat} (hdecimal : Decimal runes m) {sign : Char}
    (hsign : sign.isDigit = false) : runes.head? ≠ some sign := by
  intro hhead
  have hdigit := hdecimal.digit sign (List.mem_of_mem_head? hhead)
  rw [hsign] at hdigit
  exact Bool.false_ne_true hdigit

/-- What is read is a sequence of digits or has one sign in front. -/
theorem reads_cases {number : List Char} (hreads : Reads number n) :
    (∃ m : Nat, Decimal number m ∧ n = (m : Int)) ∨
      ∃ sign runes m, number = sign :: runes ∧ Decimal runes m ∧
        (sign = '+' ∧ n = (m : Int) ∨ sign = '-' ∧ m ≤ 2 ^ 63 ∧ n = -(m : Int)) := by
  by_cases hminus : number.head? = some '-'
  · obtain ⟨runes, rfl⟩ := List.head?_eq_some_iff.mp hminus
    obtain ⟨m, hdecimal, hless, hn⟩ := reads_minus.mp hreads
    exact Or.inr ⟨'-', runes, m, rfl, hdecimal, Or.inr ⟨rfl, hless, hn⟩⟩
  · by_cases hplus : number.head? = some '+'
    · obtain ⟨runes, rfl⟩ := List.head?_eq_some_iff.mp hplus
      obtain ⟨m, hdecimal, -, hn⟩ := reads_plus.mp hreads
      exact Or.inr ⟨'+', runes, m, rfl, hdecimal, Or.inl ⟨rfl, hn⟩⟩
    · obtain ⟨m, hdecimal, -, hn⟩ := (reads_unsigned hminus hplus).mp hreads
      exact Or.inl ⟨m, hdecimal, hn⟩

/-- 32 hexadecimal digits, and a part number from 1 to 10000 behind a minus if there is one. -/
def StrictForm (s : List Char) : Prop :=
  Checksum s ∨ ∃ checksum number m, s = checksum ++ '-' :: number ∧ Checksum checksum ∧
    Decimal number m ∧ 1 ≤ m ∧ m ≤ 10000

def SignedPart (s : List Char) : Prop :=
  ∃ checksum sign number m, s = checksum ++ '-' :: sign :: number ∧ Checksum checksum ∧
    Decimal number m ∧ 1 ≤ m ∧ (sign = '+' ∧ m ≤ 10000 ∨ sign = '-' ∧ m ≤ 2 ^ 63)

theorem accepts_iff (s : List Char) :
    (∃ etag, parseUnquoted s true = .ok etag) ↔ StrictForm s ∨ SignedPart s := by
  simp only [parseUnquoted_eq_ok, true_imp_iff]
  constructor
  · rintro ⟨etag, ⟨hdecode, hlength⟩ | ⟨checksum, number, sum, n, hs, hsum, hlength, hreads,
      ⟨hzero, hlarge⟩, -⟩⟩
    · exact Or.inl (Or.inl (checksum_iff.mpr ⟨etag, hdecode, hlength⟩))
    · have hchecksum := checksum_iff.mpr ⟨sum, hsum, hlength⟩
      rcases reads_cases hreads with ⟨m, hdecimal, rfl⟩ | ⟨sign, runes, m, rfl, hdecimal, hsign⟩
      · exact Or.inl (Or.inr ⟨checksum, number, m, hs, hchecksum, hdecimal, by omega, by omega⟩)
      · refine Or.inr ⟨checksum, sign, runes, m, hs, hchecksum, hdecimal, ?_⟩
        rcases hsign with ⟨rfl, rfl⟩ | ⟨rfl, hless, rfl⟩
        · exact ⟨by omega, Or.inl ⟨rfl, by omega⟩⟩
        · exact ⟨by omega, Or.inr ⟨rfl, hless⟩⟩
  · rintro ((hchecksum | ⟨checksum, number, m, hs, hchecksum, hdecimal, hpos, hless⟩) |
      ⟨checksum, sign, number, m, hs, hchecksum, hdecimal, hpos, hsign⟩)
    · obtain ⟨etag, hdecode, hlength⟩ := checksum_iff.mp hchecksum
      exact ⟨etag, Or.inl ⟨hdecode, hlength⟩⟩
    · obtain ⟨sum, hsum, hlength⟩ := checksum_iff.mp hchecksum
      refine ⟨_, Or.inr ⟨checksum, number, sum, m, hs, hsum, hlength, ?_, by omega, rfl⟩⟩
      exact (reads_unsigned (decimal_head_ne hdecimal rfl) (decimal_head_ne hdecimal rfl)).mpr
        ⟨m, hdecimal, by omega, rfl⟩
    · obtain ⟨sum, hsum, hlength⟩ := checksum_iff.mp hchecksum
      rcases hsign with ⟨rfl, hless⟩ | ⟨rfl, hless⟩
      · exact ⟨_, Or.inr ⟨checksum, '+' :: number, sum, m, hs, hsum, hlength,
          reads_plus.mpr ⟨m, hdecimal, by omega, rfl⟩, by omega, rfl⟩⟩
      · exact ⟨_, Or.inr ⟨checksum, '-' :: number, sum, -(m : Int), hs, hsum, hlength,
          reads_minus.mpr ⟨m, hdecimal, hless, rfl⟩, by omega, rfl⟩⟩

theorem Checksum.minus_notMem {checksum : List Char} (hchecksum : Checksum checksum) :
    '-' ∉ checksum := fun hmem => not_isHex_minus (hchecksum.hex _ hmem)

theorem not_signedPart_of_strictForm (hform : StrictForm s) : ¬ SignedPart s := by
  rintro ⟨checksum, sign, number, m, rfl, hchecksum, -, -, hsign⟩
  rcases hform with hplain | ⟨checksum', number', m', heq, hchecksum', hdecimal, -⟩
  · exact hplain.minus_notMem (by simp)
  · have hsame : (checksum, some (sign :: number)) = (checksum', some number') := by
      rw [← splitAtFirst_eq_some.mpr ⟨hchecksum.minus_notMem, rfl⟩, heq,
        splitAtFirst_eq_some.mpr ⟨hchecksum'.minus_notMem, rfl⟩]
    cases hsame
    rcases hsign with ⟨rfl, -⟩ | ⟨rfl, -⟩
    · exact decimal_head_ne hdecimal rfl rfl
    · exact decimal_head_ne hdecimal rfl rfl

theorem accepts_iff_strictForm (s : List Char) :
    ((∃ etag, parseUnquoted s true = .ok etag) ↔ StrictForm s) ↔ ¬ SignedPart s := by
  rw [accepts_iff]
  constructor
  · exact fun hiff hsigned => not_signedPart_of_strictForm (hiff.mp (Or.inr hsigned)) hsigned
  · exact fun hnot => ⟨fun h => h.resolve_right hnot, Or.inl⟩

theorem unquote_of_head (hhead : s.head? ≠ some '"') : unquote s = some s := by
  rw [unquote, if_neg fun h => hhead h.1]

theorem unquote_quoted (s : List Char) : unquote ('"' :: (s ++ ['"'])) = some s := by
  rw [unquote, if_pos ⟨rfl, by rw [← List.cons_append, List.getLast?_concat]⟩,
    if_neg (by simp), List.tail_cons, List.dropLast_concat]

theorem unquote_eq_some {s body : List Char} (hbody : unquote s = some body) :
    s = body ∨ s = '"' :: (body ++ ['"']) := by
  rw [unquote] at hbody
  split at hbody
  next hquotes =>
    split at hbody
    next => cases hbody
    next hlong =>
      obtain ⟨rest, rfl⟩ := List.head?_eq_some_iff.mp hquotes.1
      obtain ⟨front, hfront⟩ := List.getLast?_eq_some_iff.mp hquotes.2
      cases front with
      | nil =>
        rw [List.nil_append] at hfront
        exact absurd (by rw [hfront]; simp) hlong
      | cons rune front =>
        obtain ⟨-, rfl⟩ := List.cons.inj (hfront.trans (List.cons_append ..))
        rw [List.tail_cons, List.dropLast_concat, Option.some.injEq] at hbody
        exact Or.inr (by rw [hbody])
  next => exact Or.inl (Option.some.inj hbody)

theorem StrictForm.head_ne (hform : StrictForm s) : s.head? ≠ some '"' := by
  have hfirst : ∀ {checksum : List Char} (more : List Char), Checksum checksum →
      (checksum ++ more).head? ≠ some '"' := by
    intro checksum more hchecksum hhead
    cases checksum with
    | nil => exact absurd hchecksum.length (by simp)
    | cons rune checksum =>
      rw [List.cons_append, List.head?_cons, Option.some.injEq] at hhead
      exact not_isHex_quote (hhead ▸ hchecksum.hex rune List.mem_cons_self)
  rcases hform with hplain | ⟨checksum, number, m, rfl, hchecksum, -⟩
  · exact s.append_nil ▸ hfirst [] hplain
  · exact hfirst _ hchecksum

def AcceptedForm (s : String) : Prop :=
  ∃ body, StrictForm body ∧ (s.toList = body ∨ s.toList = '"' :: (body ++ ['"']))

theorem acceptedForm_iff {s : String} {body : List Char} (hbody : unquote s.toList = some body) :
    AcceptedForm s ↔ StrictForm body := by
  constructor
  · rintro ⟨body', hform, hs | hs⟩
    · rw [hs, unquote_of_head hform.head_ne] at hbody
      exact Option.some.inj hbody ▸ hform
    · rw [hs, unquote_quoted] at hbody
      exact Option.some.inj hbody ▸ hform
  · exact fun hform => ⟨body, hform, unquote_eq_some hbody⟩

/-! ## Writing an ETag and reading it again -/

/-- The ETag ends in a minus and a number, behind the 16 bytes of a checksum. -/
def Numbered (etag : Bytes) : Prop :=
  ∃ number n, etag.drop 16 = suffixBytes ('-' :: number) ∧ Reads number n

theorem toList_etagString (etag : Bytes) :
    (etagString etag).toList =
      if isMultipart etag then
        hexDigits (etag.take 16) ++ (etag.drop 16).map fun byte => Char.ofNat byte.toNat
      else hexDigits etag := by
  rw [etagString]
  split
  next => rw [String.toList_append, encodeToString, String.toList_ofList, String.toList_ofList]; rfl
  next => rw [encodeToString, String.toList_ofList]; rfl

theorem parse_etagString (etag : Bytes) (strict : Bool) :
    parse (etagString etag) strict = some (parseUnquoted (etagString etag).toList strict) := by
  have hhead : (etagString etag).toList.head? ≠ some '"' := by
    have hdigit : ∀ n < 16, Nat.digitChar n ≠ '"' := by
      intro n hn heq
      have hhex := fromHexChar_digitChar hn
      rw [heq] at hhex
      exact not_isHex_quote (Option.isSome_of_eq_some hhex)
    cases etag with
    | nil => simp [etagString, isMultipart, encodeToString]
    | cons byte etag =>
      have hless := byte.toNat_lt
      have hfirst : (etagString (byte :: etag)).toList.head? =
          some (Nat.digitChar (byte.toNat / 16)) := by
        rw [toList_etagString]
        split <;> rfl
      rw [hfirst, ne_eq, Option.some.injEq]
      exact hdigit _ (by omega)
  rw [parse, unquote_of_head hhead]
  rfl

theorem isMultipart_iff {etag : Bytes} :
    isMultipart etag = true ↔ 16 < etag.length ∧ 0x2d ∈ etag := by
  rw [isMultipart, Bool.and_eq_true, decide_eq_true_eq, List.contains_iff_mem]

/-- What is read as a number is ASCII, and its bytes are its runes. -/
theorem map_suffixBytes {number : List Char} (hreads : Reads number n) :
    (suffixBytes ('-' :: number)).map (fun byte => Char.ofNat byte.toNat) = '-' :: number := by
  have hascii : ∀ rune ∈ '-' :: number, rune.toNat < 128 := by
    have hdigit : ∀ {runes : List Char} {m : Nat}, Decimal runes m →
        ∀ rune ∈ runes, rune.toNat < 128 := by
      intro runes m hdecimal rune hrune
      have hdigit := hdecimal.digit rune hrune
      rw [Char.isDigit, Bool.and_eq_true, decide_eq_true_eq, decide_eq_true_eq] at hdigit
      have hle : rune.toNat ≤ 57 := hdigit.2
      omega
    intro rune hrune
    rcases List.mem_cons.mp hrune with rfl | hrune
    · decide
    · rcases reads_cases hreads with ⟨m, hdecimal, -⟩ | ⟨sign, runes, m, rfl, hdecimal, hsign⟩
      · exact hdigit hdecimal rune hrune
      · rcases List.mem_cons.mp hrune with rfl | hrune
        · rcases hsign with ⟨rfl, -⟩ | ⟨rfl, -⟩
          · decide
          · decide
        · exact hdigit hdecimal rune hrune
  rw [suffixBytes, List.map_map]
  refine (List.map_congr_left fun rune hrune => ?_).trans (List.map_id _)
  have hless := hascii rune hrune
  rw [Function.comp_apply, UInt8.toNat_ofNat', Nat.mod_eq_of_lt (by omega), Char.ofNat_toNat]
  rfl

/-- The text of an ETag is read as this ETag again, unless the minus that makes it multipart is
one of the bytes of something else. -/
theorem parse_etagString_iff (etag : Bytes) :
    parse (etagString etag) false = some (.ok etag) ↔
      (isMultipart etag = true → Numbered etag) := by
  rw [parse_etagString, Option.some.injEq, toList_etagString]
  cases hmultipart : isMultipart etag with
  | false =>
    simp only [Bool.false_eq_true, if_false, false_imp_iff, iff_true]
    rw [parseUnquoted_of_decodeHex false (decodeHex_hexDigits etag)]
    rfl
  | true =>
    obtain ⟨hlong, -⟩ := isMultipart_iff.mp hmultipart
    have htake : (etag.take 16).length = 16 := List.length_take_of_le hlong.le
    simp only [if_true, true_imp_iff]
    rw [parseUnquoted_eq_ok]
    constructor
    · rintro (⟨hdecode, -⟩ | ⟨checksum, number, sum, n, -, -, hlength, hreads, -, rfl⟩)
      · -- twice as many digits as bytes are written for the first 16 bytes only
        have hdouble := (decodeHex_eq_some hdecode).1
        rw [List.length_append, length_hexDigits, htake, List.length_map,
          List.length_drop] at hdouble
        omega
      · exact ⟨number, n, by rw [← hlength, List.drop_left], hreads⟩
    · intro ⟨number, n, hdrop, hreads⟩
      refine Or.inr ⟨hexDigits (etag.take 16), number, etag.take 16, n, ?_,
        decodeHex_hexDigits _, htake, hreads, by simp, ?_⟩
      · rw [hdrop, map_suffixBytes hreads]
      · rw [← hdrop, List.take_append_drop]

/-- Digits of more than 16 bytes, one of them the byte of the minus, without a number where a
multipart ETag has it. -/
def Misread (s : List Char) : Prop :=
  ∃ etag, decodeHex s = some etag ∧ 16 < etag.length ∧ 0x2d ∈ etag ∧ ¬ Numbered etag

theorem roundTrips_iff (s : List Char) :
    (∀ etag, parseUnquoted s false = .ok etag →
      parse (etagString etag) false = some (.ok etag)) ↔ ¬ Misread s := by
  simp only [parse_etagString_iff, parseUnquoted_eq_ok]
  constructor
  · rintro hround ⟨etag, hdecode, hlong, hminus, hnot⟩
    exact hnot (hround etag (Or.inl ⟨hdecode, by simp⟩) (isMultipart_iff.mpr ⟨hlong, hminus⟩))
  · rintro hnot etag (⟨hdecode, -⟩ | ⟨checksum, number, sum, n, -, -, hlength, hreads, -, rfl⟩)
        hmultipart
    · obtain ⟨hlong, hminus⟩ := isMultipart_iff.mp hmultipart
      by_contra hnumber
      exact hnot ⟨etag, hdecode, hlong, hminus, hnumber⟩
    · exact ⟨number, n, by rw [← hlength, List.drop_left], hreads⟩

/-- Neither mode panics on a text, what is read from it is written as a text that is read as
the same, and the strict mode takes the form of an S3 ETag only. -/
structure Faithful (s : String) : Prop where
  no_panic : ∀ strict, parse s strict ≠ none
  round_trip : ∀ etag, parse s false = some (.ok etag) →
    parse (etagString etag) false = some (.ok etag)
  strict_form : (∃ etag, parse s true = some (.ok etag)) ↔ AcceptedForm s

/-- The texts that fail are the lone quote, those with a sign in front of the part number, and
those of an encrypted ETag that has the byte of the minus. -/
theorem faithful_iff (s : String) :
    Faithful s ↔ ∃ body, unquote s.toList = some body ∧ ¬ SignedPart body ∧ ¬ Misread body := by
  cases hbody : unquote s.toList with
  | none =>
    refine iff_of_false (fun h => h.no_panic true ?_) (by simp)
    rw [parse, hbody]
    rfl
  | some body =>
    have hparse : ∀ strict, parse s strict = some (parseUnquoted body strict) := by
      intro strict
      rw [parse, hbody]
      rfl
    simp only [Option.some.injEq, exists_eq_left']
    rw [← accepts_iff_strictForm, ← roundTrips_iff]
    constructor
    · intro ⟨_, hround, hstrict⟩
      simp only [hparse, Option.some.injEq, acceptedForm_iff hbody] at hround hstrict
      exact ⟨hstrict, hround⟩
    · intro ⟨hstrict, hround⟩
      refine ⟨fun strict => by simp [hparse], ?_, ?_⟩
      · simpa only [hparse, Option.some.injEq] using hround
      · simpa only [hparse, Option.some.injEq, acceptedForm_iff hbody] using hstrict

/-- One double quote is its own beginning and end. -/
theorem quote_not_faithful : parse "\"" false = none ∧ ¬ ∀ s, Faithful s :=
  ⟨rfl, fun h => (h "\"").no_panic false rfl⟩

end Fs3.Hash
