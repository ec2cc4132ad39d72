import Fs3.ObjectReader.ObjectInfo

/-! # The range that a request header asks for

A range is written with a first position, with a last one, with both, or as the length of a suffix.
-/

namespace Fs3.ObjectReader

def byteRangePrefix : String := "bytes="

/-- `strconv.ParseInt` in base 10 and 64 bits: it differs from `Atoi` by its name only. -/
def parseInt (text : List Char) : Int × Option NumError := atoi (String.ofList text)

/-- One half of the range, `-1` where it is empty. -/
def parsePosition (rangeString which title : String) (text : List Char) : Except ReadErr Int :=
  match text with
  | [] => .ok (-1)
  | rune :: _ =>
    if rune = '+' then
      .error (.text ("Byte position ('" ++ String.ofList text ++ "') must not have a sign"))
    else
      match parseInt text with
      | (_, some _) =>
        .error (.text ("'" ++ rangeString ++ "' does not have a valid " ++ which ++
          " byte position value"))
      | (position, none) =>
        if position < 0 then
          .error (.text (title ++ " byte position is negative ('" ++ toString position ++ "')"))
        else .ok position

def rangeSpec (rangeString : String) (offsetBegin offsetEnd : Int) :
    Except ReadErr HTTPRangeSpec :=
  if offsetBegin > -1 ∧ offsetEnd > -1 then
    if offsetBegin > offsetEnd then .error .errInvalidRange
    else .ok { start := offsetBegin, end_ := offsetEnd }
  else if offsetBegin > -1 then .ok { start := offsetBegin, end_ := -1 }
  else if offsetEnd > -1 then
    if offsetEnd = 0 then .error .errInvalidRange
    else .ok { isSuffixLength := true, start := -offsetEnd, end_ := -1 }
  else .error (.text ("'" ++ rangeString ++ "' does not have valid range value"))

def parseRequestRangeSpec (rangeString : String) : Except ReadErr HTTPRangeSpec :=
  if ¬ hasPrefix rangeString byteRangePrefix then
    .error (.text ("'" ++ rangeString ++ "' does not start with '" ++ byteRangePrefix ++ "'"))
  else
    match splitAtFirst '-' (rangeString.toList.drop byteRangePrefix.toList.length) with
    | (_, none) => .error (.text ("'" ++ rangeString ++ "' does not have a valid range value"))
    | (offsetBeginString, some offsetEndString) =>
      match parsePosition rangeString "first" "First" offsetBeginString with
      | .error err => .error err
      | .ok offsetBegin =>
        match parsePosition rangeString "last" "Last" offsetEndString with
        | .error err => .error err
        | .ok offsetEnd => rangeSpec rangeString offsetBegin offsetEnd

/-- The ranges of RFC 7233. -/
inductive ByteRange where
  | closed (first last : Nat)
  | open_ (first : Nat)
  | suffix (length : Nat)

namespace ByteRange

def spec : ByteRange → HTTPRangeSpec
  | closed first last => { start := first, end_ := last }
  | open_ first => { start := first, end_ := -1 }
  | suffix length => { isSuffixLength := true, start := -length, end_ := -1 }

/-- The ranges that can be passed on: in order, not empty, and with 64-bit positions. -/
def Admitted : ByteRange → Prop
  | closed first last => first ≤ last ∧ last < 2 ^ 63
  | open_ first => first < 2 ^ 63
  | suffix length => 0 < length ∧ length < 2 ^ 63

def Designates (size i : Nat) : ByteRange → Prop
  | closed first last => i < size ∧ first ≤ i ∧ i ≤ last
  | open_ first => i < size ∧ first ≤ i
  | suffix length => i < size ∧ size ≤ i + length

/-- The ranges that start at or behind the end, and those of an empty suffix. -/
def Unsatisfiable (size : Nat) : ByteRange → Prop
  | closed first _ => size ≤ first
  | open_ first => size ≤ first
  | suffix length => length = 0

end ByteRange

/-- Decimal digits and their value. -/
structure Decimal (text : List Char) (n : Nat) : Prop where
  ne_nil : text ≠ []
  digit : ∀ rune ∈ text, rune.isDigit = true
  value : digits text = n

/-- How a range is written in a header. -/
inductive Writes : ByteRange → List Char → Prop
  | closed {first last : Nat} {begins ends : List Char} (hfirst : Decimal begins first)
      (hlast : Decimal ends last) :
      Writes (.closed first last) (byteRangePrefix.toList ++ (begins ++ '-' :: ends))
  | open_ {first : Nat} {begins : List Char} (hfirst : Decimal begins first) :
      Writes (.open_ first) (byteRangePrefix.toList ++ (begins ++ ['-']))
  | suffix {length : Nat} {ends : List Char} (hlast : Decimal ends length) :
      Writes (.suffix length) (byteRangePrefix.toList ++ '-' :: ends)

def SignedLast (text : List Char) : Prop :=
  ∃ begins ends, '-' ∉ begins ∧
    text = byteRangePrefix.toList ++ (begins ++ '-' :: '-' :: ends)

/-! ## Reading the numbers -/

theorem splitAtFirst_eq_some {sep : Char} {runes before after : List Char} :
    splitAtFirst sep runes = (before, some after) ↔
      sep ∉ before ∧ runes = before ++ sep :: after := by
  induction runes generalizing before with
  | nil => simp [splitAtFirst]
  | cons rune runes ih =>
    rw [splitAtFirst]
    split
    next heq =>
      subst heq
      cases before with
      | nil => simp
      | cons first before => simp +contextual [eq_comm]
    next hne =>
      cases before with
      | nil => simp [hne]
      | cons first before =>
        have htail := @ih before
        rw [Prod.ext_iff] at htail ⊢
        simp only [List.cons.injEq, List.mem_cons, not_or, List.cons_append] at htail ⊢
        rw [and_assoc, htail]
        constructor
        · intro ⟨heq, hnot, htext⟩
          exact ⟨⟨fun hsep => hne (heq.trans hsep.symm), hnot⟩, heq, htext⟩
        · intro ⟨⟨_, hnot⟩, heq, htext⟩
          exact ⟨heq, hnot, htext⟩

theorem splitSign_of_unsigned {rune : Char} {runes : List Char} (hminus : rune ≠ '-')
    (hplus : rune ≠ '+') : splitSign (rune :: runes) = (false, rune :: runes) := by
  rw [splitSign.eq_def]
  split
  next heq => exact absurd (List.cons.inj heq).1 hminus
  next heq => exact absurd (List.cons.inj heq).1 hplus
  next => rfl

variable {text : List Char}

theorem parseInt_eq {rune : Char} {runes : List Char} (htext : text = rune :: runes)
    (hminus : rune ≠ '-') (hplus : rune ≠ '+') :
    parseInt text =
      if ¬ text.all Char.isDigit then (0, some .errSyntax)
      else if 2 ^ 63 ≤ digits text then (2 ^ 63 - 1, some .errRange)
      else ((digits text : Int), none) := by
  rw [parseInt, atoi, String.toList_ofList, htext, splitSign_of_unsigned hminus hplus, ← htext]
  have hne : text ≠ [] := by rw [htext]; exact List.cons_ne_nil _ _
  simp only [hne, false_or]
  split
  next => rfl
  next =>
    rw [if_neg Bool.false_ne_true, if_neg (by omega)]
    have hiff : (2 : Int) ^ 63 ≤ (digits text : Int) ↔ 2 ^ 63 ≤ digits text := by omega
    simp only [hiff]

theorem decimal_iff {n : Nat} :
    Decimal text n ↔ text ≠ [] ∧ text.all Char.isDigit = true ∧ digits text = n := by
  rw [List.all_eq_true]
  exact ⟨fun ⟨hne, hdigit, hvalue⟩ => ⟨hne, hdigit, hvalue⟩,
    fun ⟨hne, hdigit, hvalue⟩ => ⟨hne, hdigit, hvalue⟩⟩

theorem Decimal.not_mem_minus {n : Nat} (hdecimal : Decimal text n) :
    '-' ∉ text := fun hmem => absurd (hdecimal.digit '-' hmem) (by decide)

/-- A half without a minus in front is empty or a number that fits. -/
theorem parsePosition_eq_ok {rangeString which title : String} {n : Int}
    (hminus : text.head? ≠ some '-') :
    parsePosition rangeString which title text = .ok n ↔
      text = [] ∧ n = -1 ∨ ∃ m, Decimal text m ∧ m < 2 ^ 63 ∧ n = (m : Int) := by
  cases htext : text with
  | nil =>
    rw [parsePosition, Except.ok.injEq]
    constructor
    · exact fun heq => Or.inl ⟨rfl, heq.symm⟩
    · rintro (⟨-, rfl⟩ | ⟨m, hm, -⟩)
      · rfl
      · exact absurd rfl hm.ne_nil
  | cons rune runes =>
    rw [htext, List.head?_cons, ne_eq, Option.some.injEq] at hminus
    rw [parsePosition]
    split
    next hplus =>
      refine iff_of_false (by simp) ?_
      rintro (⟨hnil, -⟩ | ⟨m, hm, -⟩)
      · exact List.cons_ne_nil _ _ hnil
      · exact absurd (hm.digit rune List.mem_cons_self) (by rw [hplus]; decide)
    next hplus =>
      have hne : rune :: runes ≠ [] := List.cons_ne_nil _ _
      rw [parseInt_eq rfl hminus hplus]
      simp only [hne, false_and, false_or, decimal_iff, ne_eq, not_false_eq_true, true_and]
      by_cases hdigit : (rune :: runes).all Char.isDigit = true
      · by_cases hlarge : 2 ^ 63 ≤ digits (rune :: runes)
        · simp only [hdigit, not_true_eq_false, if_false, hlarge, if_true]
          refine iff_of_false (by simp) fun ⟨m, ⟨_, hm⟩, hless, _⟩ => ?_
          omega
        · simp only [hdigit, not_true_eq_false, if_false, hlarge]
          rw [if_neg (by omega), Except.ok.injEq]
          constructor
          · exact fun heq => ⟨_, ⟨trivial, rfl⟩, by omega, heq.symm⟩
          · intro ⟨m, ⟨_, hm⟩, _, heq⟩
            rw [heq, hm]
      · simp only [hdigit]
        exact iff_of_false (by simp) fun ⟨m, ⟨htrue, _⟩, _⟩ => absurd htrue (by simp)

theorem rangeSpec_eq_ok {rangeString : String} {b e : Int} {spec : HTTPRangeSpec} :
    rangeSpec rangeString b e = .ok spec ↔
      (-1 < b ∧ b ≤ e ∧ spec = { start := b, end_ := e }) ∨
        (-1 < b ∧ e ≤ -1 ∧ spec = { start := b, end_ := -1 }) ∨
        (b ≤ -1 ∧ 0 < e ∧ spec = { isSuffixLength := true, start := -e, end_ := -1 }) := by
  unfold rangeSpec
  by_cases hb : b > -1
  · by_cases he : e > -1
    · rw [if_pos ⟨hb, he⟩]
      by_cases hless : b > e
      · rw [if_pos hless]
        exact iff_of_false (by simp) (by omega)
      · rw [if_neg hless, Except.ok.injEq, eq_comm]
        constructor
        · exact fun heq => Or.inl ⟨hb, by omega, heq⟩
        · rintro (⟨-, -, heq⟩ | hopen | hsuffix)
          · exact heq
          · omega
          · omega
    · rw [if_neg (fun hboth => he hboth.2), if_pos hb, Except.ok.injEq, eq_comm]
      constructor
      · exact fun heq => Or.inr (Or.inl ⟨hb, by omega, heq⟩)
      · rintro (hclosed | ⟨-, -, heq⟩ | hsuffix)
        · omega
        · exact heq
        · omega
  · rw [if_neg (fun hboth => hb hboth.1), if_neg hb]
    by_cases he : e > -1
    · rw [if_pos he]
      by_cases hzero : e = 0
      · rw [if_pos hzero]
        exact iff_of_false (by simp) (by omega)
      · rw [if_neg hzero, Except.ok.injEq, eq_comm]
        constructor
        · exact fun heq => Or.inr (Or.inr ⟨by omega, by omega, heq⟩)
        · rintro (hclosed | hopen | ⟨-, -, heq⟩)
          · omega
          · omega
          · exact heq
    · rw [if_neg he]
      exact iff_of_false (by simp) (by omega)

/-- A header is accepted by its two halves. -/
theorem parseRequestRangeSpec_eq_ok {rangeString : String} {spec : HTTPRangeSpec} :
    parseRequestRangeSpec rangeString = .ok spec ↔
      ∃ begins ends b e, '-' ∉ begins ∧
        rangeString.toList = byteRangePrefix.toList ++ (begins ++ '-' :: ends) ∧
        parsePosition rangeString "first" "First" begins = .ok b ∧
        parsePosition rangeString "last" "Last" ends = .ok e ∧
        rangeSpec rangeString b e = .ok spec := by
  unfold parseRequestRangeSpec
  constructor
  · intro hok
    split at hok
    next => exact absurd hok (by simp)
    next hpre =>
      rw [not_not, hasPrefix_iff] at hpre
      obtain ⟨body, hbody⟩ := hpre
      rw [← hbody, List.drop_left] at hok
      split at hok
      next => exact absurd hok (by simp)
      next begins ends hsplit =>
        obtain ⟨hnot, hbegins⟩ := splitAtFirst_eq_some.mp hsplit
        split at hok
        next => exact absurd hok (by simp)
        next b hb =>
          split at hok
          next => exact absurd hok (by simp)
          next e he => exact ⟨begins, ends, b, e, hnot, by rw [← hbody, hbegins], hb, he, hok⟩
  · intro ⟨begins, ends, b, e, hnot, htext, hb, he, hspec⟩
    have hpre : hasPrefix rangeString byteRangePrefix = true := by
      rw [hasPrefix_iff, htext]
      exact List.prefix_append _ _
    rw [if_neg (not_not.mpr hpre), htext, List.drop_left, splitAtFirst_eq_some.mpr ⟨hnot, rfl⟩]
    simp only [hb, he]
    exact hspec

theorem head_ne_of_not_mem {rune : Char} (hnot : rune ∉ text) :
    text.head? ≠ some rune := fun hhead => hnot (List.mem_of_mem_head? hhead)

/-- Without a second minus a header is accepted as the range that it writes. -/
theorem parseRequestRangeSpec_iff {rangeString : String}
    (hlast : ¬ SignedLast rangeString.toList) {spec : HTTPRangeSpec} :
    parseRequestRangeSpec rangeString = .ok spec ↔
      ∃ range, Writes range rangeString.toList ∧ range.Admitted ∧ range.spec = spec := by
  rw [parseRequestRangeSpec_eq_ok]
  constructor
  · intro ⟨begins, ends, b, e, hnot, htext, hb, he, hspec⟩
    have hends : ends.head? ≠ some '-' := by
      intro hhead
      cases ends with
      | nil => exact absurd hhead (by simp)
      | cons rune ends =>
        rw [List.head?_cons, Option.some.injEq] at hhead
        exact hlast ⟨begins, ends, hnot, by rw [htext, hhead]⟩
    rw [parsePosition_eq_ok (head_ne_of_not_mem hnot)] at hb
    rw [parsePosition_eq_ok hends] at he
    rw [htext]
    rcases rangeSpec_eq_ok.mp hspec with ⟨hb', hle, rfl⟩ | ⟨hb', he', rfl⟩ | ⟨hb', he', rfl⟩
    · rcases hb with ⟨-, hnone⟩ | ⟨first, hfirst, hfirst63, rfl⟩
      · omega
      · rcases he with ⟨-, hnone⟩ | ⟨last, hlast', hlast63, rfl⟩
        · omega
        · exact ⟨.closed first last, .closed hfirst hlast', ⟨by omega, hlast63⟩, rfl⟩
    · rcases hb with ⟨-, hnone⟩ | ⟨first, hfirst, hfirst63, rfl⟩
      · omega
      · rcases he with ⟨rfl, -⟩ | ⟨last, -, -, rfl⟩
        · exact ⟨.open_ first, .open_ hfirst, hfirst63, rfl⟩
        · omega
    · rcases hb with ⟨rfl, -⟩ | ⟨first, -, -, rfl⟩
      · rcases he with ⟨-, hnone⟩ | ⟨length, hlength, hlength63, rfl⟩
        · omega
        · exact ⟨.suffix length, .suffix hlength, ⟨by omega, hlength63⟩, rfl⟩
      · omega
  · intro ⟨range, hwrites, hadmitted, hspec⟩
    subst hspec
    generalize rangeString.toList = text at hwrites ⊢
    cases hwrites with
    | @closed first last begins ends hfirst hlast' =>
      obtain ⟨hle, hless⟩ := hadmitted
      refine ⟨begins, ends, first, last, hfirst.not_mem_minus, rfl, ?_, ?_, ?_⟩
      · rw [parsePosition_eq_ok (head_ne_of_not_mem hfirst.not_mem_minus)]
        exact Or.inr ⟨first, hfirst, by omega, rfl⟩
      · rw [parsePosition_eq_ok (head_ne_of_not_mem hlast'.not_mem_minus)]
        exact Or.inr ⟨last, hlast', hless, rfl⟩
      · exact rangeSpec_eq_ok.mpr (Or.inl ⟨by omega, by omega, rfl⟩)
    | @open_ first begins hfirst =>
      refine ⟨begins, [], first, -1, hfirst.not_mem_minus, rfl, ?_, rfl, ?_⟩
      · rw [parsePosition_eq_ok (head_ne_of_not_mem hfirst.not_mem_minus)]
        exact Or.inr ⟨first, hfirst, hadmitted, rfl⟩
      · exact rangeSpec_eq_ok.mpr (Or.inr (Or.inl ⟨by omega, by omega, rfl⟩))
    | @suffix length ends hlength =>
      obtain ⟨hpos, hless⟩ := hadmitted
      refine ⟨[], ends, -1, length, List.not_mem_nil, rfl, rfl, ?_, ?_⟩
      · rw [parsePosition_eq_ok (head_ne_of_not_mem hlength.not_mem_minus)]
        exact Or.inr ⟨length, hlength, hless, rfl⟩
      · exact rangeSpec_eq_ok.mpr (Or.inr (Or.inr ⟨by omega, by omega, rfl⟩))

/-! ## The bytes of a resource -/

/-- What is read of a resource: nothing of an unsatisfiable range, and else the bytes
that the range designates. -/
def ByteRange.ReadsAs (range : ByteRange) (size : Nat) :
    Except ReadErr (Int × Int) → Prop
  | .error err => range.Unsatisfiable size ∧ err = .errInvalidRange
  | .ok (off, length) =>
    ¬ range.Unsatisfiable size ∧ 0 ≤ off ∧ 0 ≤ length ∧ off + length ≤ size ∧
      ∀ i : Nat, off ≤ i ∧ i < off + length ↔ range.Designates size i

section Reads

variable {start end_ size : Int} (hsize : 0 ≤ size)

include hsize

theorem getOffsetLength_past (hpast : size ≤ start) :
    getOffsetLength (some { start, end_ }) size = .error .errInvalidRange := by
  rw [getOffsetLength, getLength, if_neg (Int.not_lt.mpr hsize)]
  simp [hpast]

theorem getOffsetLength_closed (hstart : start < size) (hend : -1 < end_) :
    getOffsetLength (some { start, end_ }) size =
      .ok (start, (if size ≤ end_ then size - 1 else end_) - start + 1) := by
  rw [getOffsetLength, getLength, if_neg (Int.not_lt.mpr hsize)]
  simp [Int.not_le.mpr hstart, hend]

theorem getOffsetLength_open (hstart : start < size) :
    getOffsetLength (some { start, end_ := -1 }) size = .ok (start, size - start) := by
  rw [getOffsetLength, getLength, if_neg (Int.not_lt.mpr hsize)]
  simp [Int.not_le.mpr hstart]

theorem getOffsetLength_suffix (length : Int) :
    getOffsetLength (some { isSuffixLength := true, start := -length, end_ := -1 }) size =
      .ok (if size < length then (0, size) else (size - length, length)) := by
  rw [getOffsetLength, getLength, if_neg (Int.not_lt.mpr hsize)]
  by_cases hlong : size < length
  · have hneg : size + -length < 0 := by omega
    simp [hlong, hneg]
  · have hpos : ¬ size + -length < 0 := by omega
    simp [hlong, hpos, Int.sub_eq_add_neg]

end Reads

/-- An admitted range reads the bytes that it designates. -/
theorem readsAs_of_admitted {range : ByteRange} (hadmitted : range.Admitted) (size : Nat) :
    range.ReadsAs size (getOffsetLength (some range.spec) size) := by
  have hsize : 0 ≤ (size : Int) := Int.natCast_nonneg size
  cases range with
  | closed first last =>
    have hle := hadmitted.1
    by_cases hpast : size ≤ first
    · rw [ByteRange.spec, getOffsetLength_past hsize (by omega)]
      exact ⟨hpast, rfl⟩
    · rw [ByteRange.spec, getOffsetLength_closed hsize (by omega) (by omega)]
      by_cases hend : (size : Int) ≤ last
      · rw [if_pos hend]
        refine ⟨hpast, by omega, by omega, by omega, fun i => ?_⟩
        rw [ByteRange.Designates]
        omega
      · rw [if_neg hend]
        refine ⟨hpast, by omega, by omega, by omega, fun i => ?_⟩
        rw [ByteRange.Designates]
        omega
  | open_ first =>
    by_cases hpast : size ≤ first
    · rw [ByteRange.spec, getOffsetLength_past hsize (by omega)]
      exact ⟨hpast, rfl⟩
    · rw [ByteRange.spec, getOffsetLength_open hsize (by omega)]
      refine ⟨hpast, by omega, by omega, by omega, fun i => ?_⟩
      rw [ByteRange.Designates]
      omega
  | suffix length =>
    have hne : ¬ (ByteRange.suffix length).Unsatisfiable size :=
      Nat.ne_of_gt hadmitted.1
    rw [ByteRange.spec, getOffsetLength_suffix hsize]
    by_cases hlong : (size : Int) < length
    · rw [if_pos hlong]
      refine ⟨hne, by omega, by omega, by omega, fun i => ?_⟩
      rw [ByteRange.Designates]
      omega
    · rw [if_neg hlong]
      refine ⟨hne, by omega, by omega, by omega, fun i => ?_⟩
      rw [ByteRange.Designates]
      omega

/-- Without a second minus, a header is accepted exactly where it writes an admitted
range, and of every resource the bytes that the range designates are read. -/
theorem parseRequestRangeSpec_reads (rangeString : String)
    (hlast : ¬ SignedLast rangeString.toList) :
    (∀ spec, parseRequestRangeSpec rangeString = .ok spec ↔
      ∃ range, Writes range rangeString.toList ∧ range.Admitted ∧ range.spec = spec) ∧
    ∀ spec, parseRequestRangeSpec rangeString = .ok spec →
      ∃ range, Writes range rangeString.toList ∧ range.Admitted ∧
        ∀ size : Nat, range.ReadsAs size (getOffsetLength (some spec) size) := by
  refine ⟨fun spec => parseRequestRangeSpec_iff hlast, fun spec hok => ?_⟩
  obtain ⟨range, hwrites, hadmitted, rfl⟩ := (parseRequestRangeSpec_iff hlast).mp hok
  exact ⟨range, hwrites, hadmitted, fun size => readsAs_of_admitted hadmitted size⟩

theorem not_signedLast_of_writes {range : ByteRange} (hwrites : Writes range text) :
    ¬ SignedLast text := by
  have hcut : ∀ {begins ends : List Char}, '-' ∉ begins → '-' ∉ ends →
      ¬ SignedLast (byteRangePrefix.toList ++ (begins ++ '-' :: ends)) := by
    intro begins ends hbegins hends ⟨before, after, hbefore, htext⟩
    rw [List.append_cancel_left_eq] at htext
    have hsplit : splitAtFirst '-' (begins ++ '-' :: ends) = (begins, some ends) :=
      splitAtFirst_eq_some.mpr ⟨hbegins, rfl⟩
    rw [htext, splitAtFirst_eq_some.mpr ⟨hbefore, rfl⟩, Prod.mk.injEq,
      Option.some.injEq] at hsplit
    exact hends (hsplit.2 ▸ List.mem_cons_self)
  cases hwrites with
  | closed hfirst hlast => exact hcut hfirst.not_mem_minus hlast.not_mem_minus
  | open_ hfirst => exact hcut hfirst.not_mem_minus List.not_mem_nil
  | suffix hlast => exact hcut List.not_mem_nil hlast.not_mem_minus

theorem writes_firstFour : Writes (.closed 0 3) "bytes=0-3".toList :=
  @Writes.closed 0 3 ['0'] ['3'] (decimal_iff.mpr (by decide)) (decimal_iff.mpr (by decide))

theorem firstFour_reads :
    (∀ spec, parseRequestRangeSpec "bytes=0-3" = .ok spec ↔
      ∃ range, Writes range "bytes=0-3".toList ∧ range.Admitted ∧ range.spec = spec) ∧
    ∀ spec, parseRequestRangeSpec "bytes=0-3" = .ok spec →
      ∃ range, Writes range "bytes=0-3".toList ∧ range.Admitted ∧
        ∀ size : Nat, range.ReadsAs size (getOffsetLength (some spec) size) :=
  parseRequestRangeSpec_reads "bytes=0-3" (not_signedLast_of_writes writes_firstFour)

/-- An empty suffix is refused when it is parsed, so is a position that does not fit, and
a last position of minus zero is taken for zero. -/
theorem parseRequestRangeSpec_not_as_claimed :
    (Writes (.suffix 0) "bytes=-0".toList ∧
      parseRequestRangeSpec "bytes=-0" = .error .errInvalidRange) ∧
    (Writes (.closed 0 9223372036854775808) "bytes=0-9223372036854775808".toList ∧
      parseRequestRangeSpec "bytes=0-9223372036854775808" =
        .error (.text
          "'bytes=0-9223372036854775808' does not have a valid last byte position value")) ∧
    ((¬ ∃ range, Writes range "bytes=0--0".toList) ∧
      parseRequestRangeSpec "bytes=0--0" = .ok { start := 0, end_ := 0 }) := by
  refine ⟨⟨?_, by decide⟩, ⟨?_, by decide⟩, ?_, by decide⟩
  · exact @Writes.suffix 0 ['0'] (decimal_iff.mpr (by decide))
  · exact @Writes.closed 0 9223372036854775808 ['0'] "9223372036854775808".toList
      (decimal_iff.mpr (by decide)) (decimal_iff.mpr (by decide))
  · intro ⟨range, hwrites⟩
    exact not_signedLast_of_writes hwrites ⟨['0'], ['0'], by decide, by decide⟩

end Fs3.ObjectReader
