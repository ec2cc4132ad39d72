import Mathlib.Data.List.Induction
import Mathlib.Data.Nat.Bitwise
import Mathlib.Tactic.NormNum

/-! # MessagePack headers

Numbers, byte strings, strings and map headers as the message pack library writes and reads them.
-/

namespace Msgp

/-- The `width` low bytes of a number, most significant first. -/
def bigEndian : Nat → Nat → List UInt8
  | 0, _ => []
  | width + 1, value => bigEndian width (value / 256) ++ [UInt8.ofNat value]

def ofBigEndian (bytes : List UInt8) : Nat :=
  bytes.foldl (fun acc byte => 256 * acc + byte.toNat) 0

theorem bigEndian_length (width value : Nat) : (bigEndian width value).length = width := by
  induction width generalizing value with
  | zero => rfl
  | succ width ih => rw [bigEndian, List.length_append, ih, List.length_singleton]

theorem ofBigEndian_append (bytes : List UInt8) (byte : UInt8) :
    ofBigEndian (bytes ++ [byte]) = 256 * ofBigEndian bytes + byte.toNat := by
  simp only [ofBigEndian, List.foldl_append, List.foldl_cons, List.foldl_nil]

theorem ofBigEndian_bigEndian (width value : Nat) :
    ofBigEndian (bigEndian width value) = value % 256 ^ width := by
  induction width generalizing value with
  | zero => simp [bigEndian, ofBigEndian, Nat.mod_one]
  | succ width ih =>
    rw [bigEndian, ofBigEndian_append, ih, pow_succ', Nat.mod_mul, UInt8.toNat_ofNat',
      Nat.add_comm]

def readFixed (width : Nat) (input : List UInt8) : Option (Nat × List UInt8) :=
  if width ≤ input.length then some (ofBigEndian (input.take width), input.drop width) else none

theorem readFixed_append (width value : Nat) (rest : List UInt8) :
    readFixed width (bigEndian width value ++ rest) = some (value % 256 ^ width, rest) := by
  have hlength := bigEndian_length width value
  rw [readFixed, if_pos (by rw [List.length_append, hlength]; exact Nat.le_add_right _ _),
    List.take_left' hlength, List.drop_left' hlength, ofBigEndian_bigEndian]

theorem readFixed_append_of_lt (width : Nat) {value : Nat} (rest : List UInt8)
    (hvalue : value < 256 ^ width) :
    readFixed width (bigEndian width value ++ rest) = some (value, rest) := by
  rw [readFixed_append, Nat.mod_eq_of_lt hvalue]

variable {input rest : List UInt8}

theorem readFixed_lt {width value : Nat} (hread : readFixed width input = some (value, rest)) :
    value < 256 ^ width := by
  unfold readFixed at hread
  split at hread
  next hle =>
    obtain ⟨rfl, -⟩ := Prod.mk.inj (Option.some.inj hread)
    have hbound : ∀ bytes : List UInt8, ofBigEndian bytes < 256 ^ bytes.length := by
      intro bytes
      induction bytes using List.reverseRec with
      | nil => simp [ofBigEndian]
      | append_singleton bytes byte ih =>
        have hbyte := byte.toNat_lt
        rw [ofBigEndian_append, List.length_append, List.length_singleton, pow_succ]
        omega
    have htake := hbound (input.take width)
    rwa [List.length_take, Nat.min_eq_left hle] at htake
  next => cases hread

theorem readFixed_lt_word {width value : Nat} (hwidth : width ≤ 4)
    (hread : readFixed width input = some (value, rest)) : value < 2 ^ 32 :=
  (readFixed_lt hread).trans_le (Nat.pow_le_pow_right (by norm_num) hwidth : 256 ^ width ≤ 256 ^ 4)

def Extends {α : Type} (read : List UInt8 → Option (α × List UInt8)) : Prop :=
  ∀ input value rest more, read input = some (value, rest) →
    read (input ++ more) = some (value, rest ++ more)

theorem readFixed_extends (width : Nat) : Extends (readFixed width) := by
  intro input value rest more hread
  unfold readFixed at hread
  split at hread
  next hle =>
    obtain ⟨rfl, rfl⟩ := Prod.mk.inj (Option.some.inj hread)
    rw [readFixed, if_pos (hle.trans (by simp)), List.take_append_of_le_length hle,
      List.drop_append_of_le_length hle]
  next => cases hread

/-- Read a signed number of a fixed width where an unsigned one is expected:
one below zero is an error. -/
def readSigned (width : Nat) (input : List UInt8) : Option (Nat × List UInt8) :=
  (readFixed width input).filter fun read => read.1 < 256 ^ width / 2

/-- `ReadUint64Bytes`. -/
def readUint64Bytes : List UInt8 → Option (Nat × List UInt8)
  | [] => none
  | lead :: rest =>
    if lead < 0x80 then some (lead.toNat, rest)
    else if lead = 0xcc then readFixed 1 rest
    else if lead = 0xcd then readFixed 2 rest
    else if lead = 0xce then readFixed 4 rest
    else if lead = 0xcf then readFixed 8 rest
    else if lead = 0xd0 then readSigned 1 rest
    else if lead = 0xd1 then readSigned 2 rest
    else if lead = 0xd2 then readSigned 4 rest
    else if lead = 0xd3 then readSigned 8 rest
    else none

/-- `ReadUint32Bytes`: a number of more than 32 bits is an error. -/
def readUint32Bytes (input : List UInt8) : Option (UInt32 × List UInt8) :=
  ((readUint64Bytes input).filter fun read => read.1 < 2 ^ 32).map fun read =>
    (UInt32.ofNat read.1, read.2)

/-- `AppendUint32`: the shortest form that holds the number. -/
def appendUint32 (value : UInt32) : List UInt8 :=
  if value.toNat < 2 ^ 7 then [UInt8.ofNat value.toNat]
  else if value.toNat < 2 ^ 8 then 0xcc :: bigEndian 1 value.toNat
  else if value.toNat < 2 ^ 16 then 0xcd :: bigEndian 2 value.toNat
  else 0xce :: bigEndian 4 value.toNat

theorem readUint64Bytes_append (value : UInt32) (rest : List UInt8) :
    readUint64Bytes (appendUint32 value ++ rest) = some (value.toNat, rest) := by
  unfold appendUint32
  split
  next hsmall =>
    have hlead : (UInt8.ofNat value.toNat).toNat = value.toNat := by
      rw [UInt8.toNat_ofNat']
      omega
    have hfix : UInt8.ofNat value.toNat < 0x80 := by
      rw [UInt8.lt_iff_toNat_lt, hlead]
      exact hsmall
    rw [List.singleton_append, readUint64Bytes, if_pos hfix, hlead]
  next =>
    split
    next hbyte =>
      rw [List.cons_append]
      exact readFixed_append_of_lt 1 rest hbyte
    next =>
      split
      next hshort =>
        rw [List.cons_append]
        exact readFixed_append_of_lt 2 rest hshort
      next =>
        rw [List.cons_append]
        exact readFixed_append_of_lt 4 rest value.toNat_lt

theorem readUint32Bytes_append (value : UInt32) (rest : List UInt8) :
    readUint32Bytes (appendUint32 value ++ rest) = some (value, rest) := by
  rw [readUint32Bytes, readUint64Bytes_append, Option.filter_some,
    if_pos (decide_eq_true value.toNat_lt), Option.map_some, UInt32.ofNat_toNat]

theorem appendUint32_length_le (value : UInt32) : (appendUint32 value).length ≤ 5 := by
  unfold appendUint32
  split
  · simp
  · split
    · simp [bigEndian_length]
    · split <;> simp [bigEndian_length]

/-! ## Byte strings -/

/-- `ReadBytesHeader`. -/
def readBytesHeader : List UInt8 → Option (Nat × List UInt8)
  | [] => none
  | lead :: rest =>
    if lead = 0xc4 then readFixed 1 rest
    else if lead = 0xc5 then readFixed 2 rest
    else if lead = 0xc6 then readFixed 4 rest
    else none

def readBody (header : Option (Nat × List UInt8)) : Option (List UInt8 × List UInt8) :=
  header.bind fun read =>
    if read.1 ≤ read.2.length then some (read.2.take read.1, read.2.drop read.1) else none

/-- `ReadBytesZC`. -/
def readBytesZC (input : List UInt8) : Option (List UInt8 × List UInt8) :=
  readBody (readBytesHeader input)

def bin32Header (length : Nat) : List UInt8 := 0xc6 :: bigEndian 4 length

/-- `AppendBytes`. -/
def appendBytes (value : List UInt8) : List UInt8 :=
  if value.length < 2 ^ 8 then 0xc4 :: bigEndian 1 value.length ++ value
  else if value.length < 2 ^ 16 then 0xc5 :: bigEndian 2 value.length ++ value
  else bin32Header value.length ++ value

theorem readBody_append {length : Nat} (value rest : List UInt8) (hlength : value.length = length) :
    readBody (some (length, value ++ rest)) = some (value, rest) := by
  subst hlength
  rw [readBody, Option.bind_some, if_pos (by simp), List.take_left' rfl, List.drop_left' rfl]

theorem readBody_counted {lead : UInt8} {width : Nat} {read : List UInt8 → Option (Nat × List UInt8)}
    (value rest : List UInt8) (hvalue : value.length < 256 ^ width)
    (hread : ∀ input, read (lead :: input) = readFixed width input) :
    readBody (read (lead :: bigEndian width value.length ++ value ++ rest)) =
      some (value, rest) := by
  rw [List.append_assoc, List.cons_append, hread, readFixed_append_of_lt width _ hvalue,
    readBody_append value rest rfl]

theorem readBody_length {length : Nat} {header value after : List UInt8}
    (hread : readBody (some (length, header)) = some (value, after)) : value.length = length := by
  rw [readBody, Option.bind_some] at hread
  split at hread
  next hle =>
    obtain ⟨rfl, -⟩ := Prod.mk.inj (Option.some.inj hread)
    rw [List.length_take, Nat.min_eq_left hle]
  next => cases hread

theorem readBytesHeader_lt {length : Nat} (hread : readBytesHeader input = some (length, rest)) :
    length < 2 ^ 32 := by
  cases input with
  | nil => cases hread
  | cons lead input =>
    rw [readBytesHeader] at hread
    split_ifs at hread
    · exact readFixed_lt_word (by decide) hread
    · exact readFixed_lt_word (by decide) hread
    · exact readFixed_lt_word (by decide) hread

theorem readBody_length_lt {header : Option (Nat × List UInt8)} {value after : List UInt8}
    (hheader : ∀ length rest, header = some (length, rest) → length < 2 ^ 32)
    (hread : readBody header = some (value, after)) : value.length < 2 ^ 32 := by
  cases header with
  | none => cases hread
  | some read =>
    obtain ⟨length, rest⟩ := read
    rw [readBody_length hread]
    exact hheader length rest rfl

theorem readBytesZC_length_lt {input value rest : List UInt8}
    (hread : readBytesZC input = some (value, rest)) : value.length < 2 ^ 32 :=
  readBody_length_lt (fun _ _ hheader => readBytesHeader_lt hheader) hread

theorem bin32Header_length (length : Nat) : (bin32Header length).length = 5 := by
  rw [bin32Header, List.length_cons, bigEndian_length]

theorem readBytesHeader_bin32 (length : Nat) (rest : List UInt8) :
    readBytesHeader (bin32Header length ++ rest) = some (length % 2 ^ 32, rest) :=
  readFixed_append 4 length rest

theorem readBytesZC_bin32 (length : Nat) (rest : List UInt8) :
    readBytesZC (bin32Header length ++ rest) = readBody (some (length % 2 ^ 32, rest)) := by
  rw [readBytesZC, readBytesHeader_bin32]

theorem readBytesZC_append (value rest : List UInt8) (hvalue : value.length < 2 ^ 32) :
    readBytesZC (appendBytes value ++ rest) = some (value, rest) := by
  unfold appendBytes
  split
  next hbyte => exact readBody_counted value rest hbyte fun _ => rfl
  next =>
    split
    next hshort => exact readBody_counted value rest hshort fun _ => rfl
    next =>
      rw [List.append_assoc, readBytesZC_bin32, Nat.mod_eq_of_lt hvalue,
        readBody_append value rest rfl]

/-! ## Strings and the keys of a map -/

def readStringHeader : List UInt8 → Option (Nat × List UInt8)
  | [] => none
  | lead :: rest =>
    if 0xa0 ≤ lead ∧ lead ≤ 0xbf then some (lead.toNat - 0xa0, rest)
    else if lead = 0xd9 then readFixed 1 rest
    else if lead = 0xda then readFixed 2 rest
    else if lead = 0xdb then readFixed 4 rest
    else none

/-- `ReadStringZC`. -/
def readStringZC (input : List UInt8) : Option (List UInt8 × List UInt8) :=
  readBody (readStringHeader input)

theorem readStringHeader_lt {length : Nat} (hread : readStringHeader input = some (length, rest)) :
    length < 2 ^ 32 := by
  cases input with
  | nil => cases hread
  | cons lead input =>
    rw [readStringHeader] at hread
    split_ifs at hread
    · obtain ⟨rfl, -⟩ := Prod.mk.inj (Option.some.inj hread)
      have hlead := lead.toNat_lt
      omega
    · exact readFixed_lt_word (by decide) hread
    · exact readFixed_lt_word (by decide) hread
    · exact readFixed_lt_word (by decide) hread

/-- `ReadMapKeyZC`: a string, or the bytes where the lead is that of bytes;
no lead is of both kinds. -/
def readMapKeyZC (input : List UInt8) : Option (List UInt8 × List UInt8) :=
  (readStringZC input).or (readBytesZC input)

/-- `AppendStringFromBytes`. -/
def appendStringFromBytes (value : List UInt8) : List UInt8 :=
  if value.length < 2 ^ 5 then UInt8.ofNat (0xa0 + value.length) :: value
  else if value.length < 2 ^ 8 then 0xd9 :: bigEndian 1 value.length ++ value
  else if value.length < 2 ^ 16 then 0xda :: bigEndian 2 value.length ++ value
  else 0xdb :: bigEndian 4 value.length ++ value

theorem toNat_fixLead {low high : UInt8} {base size : Nat} (hlow : low.toNat = base)
    (hsize : base + size ≤ high.toNat) :
    (UInt8.ofNat (base + size)).toNat = base + size ∧
      low ≤ UInt8.ofNat (base + size) ∧ UInt8.ofNat (base + size) ≤ high := by
  have hlead : (UInt8.ofNat (base + size)).toNat = base + size :=
    UInt8.toNat_ofNat_of_lt' (hsize.trans_lt high.toNat_lt)
  rw [UInt8.le_iff_toNat_le, UInt8.le_iff_toNat_le, hlead, hlow]
  exact ⟨rfl, Nat.le_add_right _ _, hsize⟩

theorem readStringZC_append (value rest : List UInt8) (hvalue : value.length < 2 ^ 32) :
    readStringZC (appendStringFromBytes value ++ rest) = some (value, rest) := by
  unfold appendStringFromBytes
  split
  next hfix =>
    obtain ⟨hlead, hrange⟩ :=
      @toNat_fixLead 0xa0 0xbf 0xa0 value.length rfl (show _ ≤ 0xbf by omega)
    rw [readStringZC, List.cons_append, readStringHeader, if_pos hrange, hlead,
      Nat.add_sub_cancel_left, readBody_append value rest rfl]
  next =>
    split
    next hbyte => exact readBody_counted value rest hbyte fun _ => rfl
    next =>
      split
      next hshort => exact readBody_counted value rest hshort fun _ => rfl
      next => exact readBody_counted value rest hvalue fun _ => rfl

theorem readMapKeyZC_length_lt {input key rest : List UInt8}
    (hread : readMapKeyZC input = some (key, rest)) : key.length < 2 ^ 32 := by
  rw [readMapKeyZC, Option.or_eq_some_iff] at hread
  rcases hread with hstring | ⟨-, hbytes⟩
  · exact readBody_length_lt (fun _ _ hheader => readStringHeader_lt hheader) hstring
  · exact readBytesZC_length_lt hbytes

theorem readMapKeyZC_append (key rest : List UInt8) (hkey : key.length < 2 ^ 32) :
    readMapKeyZC (appendStringFromBytes key ++ rest) = some (key, rest) := by
  rw [readMapKeyZC, readStringZC_append key rest hkey, Option.some_or]

/-! ## Headers of maps and arrays

The two differ in their leads only.
-/

def readCount (low high short long : UInt8) : List UInt8 → Option (Nat × List UInt8)
  | [] => none
  | lead :: rest =>
    if low ≤ lead ∧ lead ≤ high then some (lead.toNat - low.toNat, rest)
    else if lead = short then readFixed 2 rest
    else if lead = long then readFixed 4 rest
    else none

section Counts

variable {low high short long : UInt8}

theorem readCount_append {size : Nat} (hhigh : low.toNat + 15 ≤ high.toNat)
    (hshort : ¬ short ≤ high) (hlong : ¬ long ≤ high) (hne : long ≠ short) (hsize : size < 2 ^ 32)
    (rest : List UInt8) :
    readCount low high short long ((if size < 2 ^ 4 then [UInt8.ofNat (low.toNat + size)]
      else if size < 2 ^ 16 then short :: bigEndian 2 size else long :: bigEndian 4 size) ++ rest) =
      some (size, rest) := by
  split
  next =>
    obtain ⟨hlead, hrange⟩ := @toNat_fixLead low high _ size rfl (by omega)
    rw [List.singleton_append, readCount, if_pos hrange, hlead, Nat.add_sub_cancel_left]
  next =>
    split
    next hbound =>
      rw [List.cons_append, readCount, if_neg fun h => hshort h.2, if_pos rfl,
        readFixed_append_of_lt 2 rest hbound]
    next =>
      rw [List.cons_append, readCount, if_neg fun h => hlong h.2, if_neg hne, if_pos rfl,
        readFixed_append_of_lt 4 rest hsize]

theorem readCount_lt {entries : Nat}
    (hread : readCount low high short long input = some (entries, rest)) : entries < 2 ^ 32 := by
  cases input with
  | nil => cases hread
  | cons lead input =>
    rw [readCount] at hread
    split_ifs at hread
    · obtain ⟨rfl, -⟩ := Prod.mk.inj (Option.some.inj hread)
      have hlead := lead.toNat_lt
      omega
    · exact readFixed_lt_word (by decide) hread
    · exact readFixed_lt_word (by decide) hread

theorem readCount_extends : Extends (readCount low high short long) := by
  intro input value rest more hread
  cases input with
  | nil => cases hread
  | cons lead input =>
    rw [readCount] at hread
    rw [List.cons_append, readCount]
    split_ifs at hread ⊢
    · obtain ⟨rfl, rfl⟩ := Prod.mk.inj (Option.some.inj hread)
      rfl
    · exact readFixed_extends 2 _ _ _ more hread
    · exact readFixed_extends 4 _ _ _ more hread

end Counts

/-- `ReadMapHeaderBytes`. -/
def readMapHeaderBytes : List UInt8 → Option (Nat × List UInt8)
  | [] => none
  | lead :: rest =>
    if 0x80 ≤ lead ∧ lead ≤ 0x8f then some (lead.toNat - 0x80, rest)
    else if lead = 0xde then readFixed 2 rest
    else if lead = 0xdf then readFixed 4 rest
    else none

theorem readMapHeaderBytes_eq : readMapHeaderBytes = readCount 0x80 0x8f 0xde 0xdf := by
  funext input
  cases input <;> rfl

theorem readMapHeaderBytes_lt {entries : Nat}
    (hread : readMapHeaderBytes input = some (entries, rest)) : entries < 2 ^ 32 := by
  rw [readMapHeaderBytes_eq] at hread
  exact readCount_lt hread

/-- `AppendMapHeader` of a length as the caller wraps it into 32 bits. -/
def appendMapHeader (entries : Nat) : List UInt8 :=
  let size := entries % 2 ^ 32
  if size < 2 ^ 4 then [UInt8.ofNat (0x80 + size)]
  else if size < 2 ^ 16 then 0xde :: bigEndian 2 size
  else 0xdf :: bigEndian 4 size

theorem readMapHeaderBytes_append (entries : Nat) (rest : List UInt8) :
    readMapHeaderBytes (appendMapHeader entries ++ rest) = some (entries % 2 ^ 32, rest) := by
  rw [readMapHeaderBytes_eq]
  exact readCount_append (by decide) (by decide) (by decide) (by decide)
    (Nat.mod_lt _ (by norm_num)) rest

/-- `ReadArrayHeaderBytes`. -/
def readArrayHeaderBytes : List UInt8 → Option (Nat × List UInt8)
  | [] => none
  | lead :: rest =>
    if 0x90 ≤ lead ∧ lead ≤ 0x9f then some (lead.toNat - 0x90, rest)
    else if lead = 0xdc then readFixed 2 rest
    else if lead = 0xdd then readFixed 4 rest
    else none

theorem readArrayHeaderBytes_eq : readArrayHeaderBytes = readCount 0x90 0x9f 0xdc 0xdd := by
  funext input
  cases input <;> rfl

/-- `AppendArrayHeader` of a length as the caller wraps it into 32 bits. -/
def appendArrayHeader (entries : Nat) : List UInt8 :=
  let size := entries % 2 ^ 32
  if size < 2 ^ 4 then [UInt8.ofNat (0x90 + size)]
  else if size < 2 ^ 16 then 0xdc :: bigEndian 2 size
  else 0xdd :: bigEndian 4 size

theorem readArrayHeaderBytes_append (entries : Nat) (rest : List UInt8) :
    readArrayHeaderBytes (appendArrayHeader entries ++ rest) = some (entries % 2 ^ 32, rest) := by
  rw [readArrayHeaderBytes_eq]
  exact readCount_append (by decide) (by decide) (by decide) (by decide)
    (Nat.mod_lt _ (by norm_num)) rest

theorem readArrayHeaderBytes_extends : Extends readArrayHeaderBytes := by
  rw [readArrayHeaderBytes_eq]
  exact readCount_extends

theorem readArrayHeaderBytes_lt {entries : Nat}
    (hread : readArrayHeaderBytes input = some (entries, rest)) : entries < 2 ^ 32 := by
  rw [readArrayHeaderBytes_eq] at hread
  exact readCount_lt hread

end Msgp

/-! ## MessagePack values on a stream

The reader of the message pack library takes values from a stream one at a time. It
tells a stream that is at its end from one that ends within a value, and from bytes that
are not what is expected, and it skips a value of any kind.
-/

namespace Msgp

/-- Why a value cannot be read. -/
inductive Fault where
  | eof
  | unexpectedEOF
  | malformed
  deriving DecidableEq

def readKind {α : Type} (isLead : UInt8 → Bool) (read : List UInt8 → Option (α × List UInt8)) :
    List UInt8 → Except Fault (α × List UInt8)
  | [] => .error .eof
  | lead :: rest =>
    match read (lead :: rest) with
    | some value => .ok value
    | none => .error (if isLead lead then .unexpectedEOF else .malformed)

theorem readKind_of_read {α : Type} {isLead : UInt8 → Bool}
    {read : List UInt8 → Option (α × List UInt8)} {input rest : List UInt8} {value : α}
    (hnil : read [] = none) (hread : read input = some (value, rest)) :
    readKind isLead read input = .ok (value, rest) := by
  cases input with
  | nil =>
    rw [hnil] at hread
    cases hread
  | cons lead input => rw [readKind, hread]

/-- `ReadBool`. -/
def readBool : List UInt8 → Except Fault (Bool × List UInt8)
  | [] => .error .eof
  | lead :: rest =>
    if lead = 0xc3 then .ok (true, rest)
    else if lead = 0xc2 then .ok (false, rest)
    else .error .malformed

/-- `WriteBool`. -/
def appendBool (value : Bool) : List UInt8 := [if value then 0xc3 else 0xc2]

theorem readBool_append (value : Bool) (rest : List UInt8) :
    readBool (appendBool value ++ rest) = .ok (value, rest) := by
  cases value <;> rfl

/-- `ReadByte`. -/
def readByte : List UInt8 → Except Fault (UInt8 × List UInt8) :=
  readKind (fun lead => 0xcc ≤ lead && lead ≤ 0xd3) fun input =>
    ((readUint64Bytes input).filter fun read => read.1 < 2 ^ 8).map fun read =>
      (UInt8.ofNat read.1, read.2)

def isStringLead (lead : UInt8) : Bool :=
  (0xa0 ≤ lead && lead ≤ 0xbf) || (0xd9 ≤ lead && lead ≤ 0xdb)

def isBytesLead (lead : UInt8) : Bool := 0xc4 ≤ lead && lead ≤ 0xc6

/-- `ReadString`. -/
def readString : List UInt8 → Except Fault (List UInt8 × List UInt8) :=
  readKind isStringLead readStringZC

/-- `ReadBytes`. -/
def readBytes : List UInt8 → Except Fault (List UInt8 × List UInt8) :=
  readKind isBytesLead readBytesZC

variable {value : List UInt8}

theorem readString_append (hvalue : value.length < 2 ^ 32) (rest : List UInt8) :
    readString (appendStringFromBytes value ++ rest) = .ok (value, rest) :=
  readKind_of_read rfl (readStringZC_append value rest hvalue)

theorem readBytes_append (hvalue : value.length < 2 ^ 32) (rest : List UInt8) :
    readBytes (appendBytes value ++ rest) = .ok (value, rest) :=
  readKind_of_read rfl (readBytesZC_append value rest hvalue)

/-! ## Skipping values -/

/-- How many bytes the first of some values takes without the values in it, and how many
values are in it, from the bytes behind its lead. -/
def valueSize (lead : UInt8) (rest : List UInt8) : Except Fault (Nat × Nat) :=
  let counted (width extra : Nat) : Except Fault (Nat × Nat) :=
    match readFixed width rest with
    | none => .error .unexpectedEOF
    | some (length, _) => .ok (1 + width + extra + length, 0)
  let nested (width each : Nat) : Except Fault (Nat × Nat) :=
    match readFixed width rest with
    | none => .error .unexpectedEOF
    | some (count, _) => .ok (1 + width, each * count)
  if lead < 0x80 then .ok (1, 0)
  else if lead < 0x90 then .ok (1, 2 * (lead.toNat - 0x80))
  else if lead < 0xa0 then .ok (1, lead.toNat - 0x90)
  else if lead < 0xc0 then .ok (1 + (lead.toNat - 0xa0), 0)
  else if lead = 0xc1 then .error .malformed
  else if lead < 0xc4 then .ok (1, 0)
  else if lead = 0xc4 then counted 1 0
  else if lead = 0xc5 then counted 2 0
  else if lead = 0xc6 then counted 4 0
  else if lead = 0xc7 then counted 1 1
  else if lead = 0xc8 then counted 2 1
  else if lead = 0xc9 then counted 4 1
  else if lead = 0xca then .ok (5, 0)
  else if lead = 0xcb then .ok (9, 0)
  else if lead = 0xcc ∨ lead = 0xd0 then .ok (2, 0)
  else if lead = 0xcd ∨ lead = 0xd1 then .ok (3, 0)
  else if lead = 0xce ∨ lead = 0xd2 then .ok (5, 0)
  else if lead = 0xcf ∨ lead = 0xd3 then .ok (9, 0)
  else if lead < 0xd9 then .ok (2 + 2 ^ (lead.toNat - 0xd4), 0)
  else if lead = 0xd9 then counted 1 0
  else if lead = 0xda then counted 2 0
  else if lead = 0xdb then counted 4 0
  else if lead = 0xdc then nested 2 1
  else if lead = 0xdd then nested 4 1
  else if lead = 0xde then nested 2 2
  else if lead = 0xdf then nested 4 2
  else .ok (1, 0)

def skipValues : Nat → Nat → List UInt8 → Except Fault (List UInt8)
  | _, 0, input => .ok input
  | 0, _ + 1, _ => .error .eof
  | _ + 1, _ + 1, [] => .error .eof
  | fuel + 1, count + 1, lead :: rest =>
    match valueSize lead rest with
    | .error fault => .error fault
    | .ok (size, inner) =>
      if size ≤ rest.length + 1 then
        skipValues fuel (inner + count) ((lead :: rest).drop size)
      else .error .unexpectedEOF

/-- `Skip`. -/
def skip (input : List UInt8) : Except Fault (List UInt8) := skipValues input.length 1 input

theorem skip_of_valueSize {lead : UInt8} {value rest : List UInt8}
    (hsize : valueSize lead (value ++ rest) = .ok (value.length + 1, 0)) :
    skip (lead :: value ++ rest) = .ok rest := by
  have hle : value.length + 1 ≤ (value ++ rest).length + 1 := by
    rw [List.length_append]
    omega
  rw [List.cons_append, skip, List.length_cons, skipValues, hsize]
  dsimp only
  rw [if_pos hle, List.drop_succ_cons, List.drop_left]
  exact skipValues.eq_1 _ _

theorem skip_counted {lead : UInt8} {width : Nat} (rest : List UInt8)
    (hvalue : value.length < 256 ^ width)
    (hlead : ∀ rest, valueSize lead rest = match readFixed width rest with
      | none => .error .unexpectedEOF
      | some (length, _) => .ok (1 + width + 0 + length, 0)) :
    skip (lead :: bigEndian width value.length ++ value ++ rest) = .ok rest := by
  rw [List.cons_append]
  refine skip_of_valueSize ?_
  rw [hlead, List.append_assoc, readFixed_append_of_lt width _ hvalue, List.length_append,
    bigEndian_length]
  dsimp only
  rw [Nat.add_zero, Nat.add_assoc, Nat.add_comm 1]

theorem skip_appendBytes (hvalue : value.length < 2 ^ 32) (rest : List UInt8) :
    skip (appendBytes value ++ rest) = .ok rest := by
  unfold appendBytes
  split
  next hbyte => exact skip_counted rest hbyte fun _ => rfl
  next =>
    split
    next hshort => exact skip_counted rest hshort fun _ => rfl
    next => exact skip_counted rest hvalue fun _ => rfl

theorem skip_appendStringFromBytes (hvalue : value.length < 2 ^ 32) (rest : List UInt8) :
    skip (appendStringFromBytes value ++ rest) = .ok rest := by
  unfold appendStringFromBytes
  split
  next hfix =>
    obtain ⟨hlead, -⟩ := @toNat_fixLead 0xa0 0xbf 0xa0 value.length rfl (show _ ≤ 0xbf by omega)
    have hnot : ∀ bound : UInt8, bound.toNat ≤ 0xa0 →
        ¬ UInt8.ofNat (0xa0 + value.length) < bound := by
      intro bound hbound
      rw [UInt8.lt_iff_toNat_lt, hlead]
      omega
    have hstring : UInt8.ofNat (0xa0 + value.length) < 0xc0 := by
      rw [UInt8.lt_iff_toNat_lt, hlead]
      show _ < 0xc0
      omega
    refine skip_of_valueSize ?_
    rw [valueSize, if_neg (hnot 0x80 (by decide)), if_neg (hnot 0x90 (by decide)),
      if_neg (hnot 0xa0 (by decide)), if_pos hstring, hlead, Nat.add_sub_cancel_left,
      Nat.add_comm 1]
  next =>
    split
    next hbyte => exact skip_counted rest hbyte fun _ => rfl
    next =>
      split
      next hshort => exact skip_counted rest hshort fun _ => rfl
      next => exact skip_counted rest hvalue fun _ => rfl

end Msgp

/-! ## Values on a byte stream

A codec writes a value as bytes and reads it back from the front of a stream. The reader looks
at no more than the bytes that it consumes, so a stream that ends within a value cannot be read.
-/

namespace Fs3.Foundation

/-- How the values of a type are written on a stream and read from it. -/
structure StreamCodec (α : Type) where
  encode : α → List UInt8
  decode : List UInt8 → Option (α × List UInt8)
  decode_encode : ∀ a rest, decode (encode a ++ rest) = some (a, rest)
  extends_decode : Msgp.Extends decode
  shorter : ∀ {input a rest}, decode input = some (a, rest) → rest.length < input.length

namespace StreamCodec

variable {α : Type} (codec : StreamCodec α)

theorem decode_cut {a : α} {cut missing : List UInt8} (hcut : cut ++ missing = codec.encode a)
    (hmissing : missing ≠ []) : codec.decode cut = none := by
  cases hread : codec.decode cut with
  | none => rfl
  | some read =>
    obtain ⟨b, rest⟩ := read
    have hwhole := codec.extends_decode cut b rest missing hread
    have hself := codec.decode_encode a []
    rw [List.append_nil, ← hcut, hwhole] at hself
    have hrest : rest ++ missing = [] := (Prod.mk.inj (Option.some.inj hself)).2
    exact absurd (List.append_eq_nil_iff.mp hrest).2 hmissing

theorem prefix_cases {a : α} {cut missing rest : List UInt8}
    (hcut : cut ++ missing = codec.encode a ++ rest) :
    (codec.decode cut = none ∧ missing ≠ []) ∨
      ∃ after, cut = codec.encode a ++ after ∧ after ++ missing = rest := by
  rcases List.append_eq_append_iff.mp hcut with ⟨within, hencode, hmissing⟩ | ⟨after, hafter, hrest⟩
  · by_cases hnil : within = []
    · subst hnil
      refine Or.inr ⟨[], ?_, ?_⟩
      · rw [hencode, List.append_nil, List.append_nil]
      · exact hmissing
    · refine Or.inl ⟨codec.decode_cut hencode.symm hnil, ?_⟩
      rw [hmissing]
      exact fun h => hnil (List.append_eq_nil_iff.mp h).1
  · exact Or.inr ⟨after, hafter, hrest.symm⟩

omit codec in
theorem take_of_mem_table {values : List α} {encode : α → List UInt8} {width : Nat}
    (hwidth : ∀ a, (encode a).length = width) {input : List UInt8} {a : α}
    (hfind : (values.find? fun a => input.take width == encode a) = some a) :
    input.take width = encode a ∧ width ≤ input.length := by
  have htake : input.take width = encode a := by simpa using List.find?_some hfind
  have hlength := congrArg List.length htake
  rw [List.length_take, hwidth] at hlength
  exact ⟨htake, min_eq_left_iff.mp hlength⟩

/-- The codec of finitely many values whose encodings are different and of one length. -/
def ofTable (values : List α) (encode : α → List UInt8) (width : Nat) (hvalues : ∀ a, a ∈ values)
    (hwidth : ∀ a, (encode a).length = width) (hpos : 0 < width)
    (hinjective : Function.Injective encode) : StreamCodec α where
  encode := encode
  decode input :=
    (values.find? fun a => input.take width == encode a).map fun a => (a, input.drop width)
  decode_encode a rest := by
    rw [List.take_left' (hwidth a), List.drop_left' (hwidth a)]
    cases hfind : values.find? fun b => encode a == encode b with
    | none => exact absurd (List.find?_eq_none.mp hfind a (hvalues a)) (by simp)
    | some b =>
      have hsame : encode a = encode b := by simpa using List.find?_some hfind
      rw [hinjective hsame]
      rfl
  extends_decode := by
    intro input a rest more hread
    obtain ⟨b, hfind, hpair⟩ := Option.map_eq_some_iff.mp hread
    obtain ⟨-, hlength⟩ := take_of_mem_table hwidth hfind
    dsimp only
    rw [List.take_append_of_le_length hlength, List.drop_append_of_le_length hlength, hfind]
    obtain ⟨rfl, rfl⟩ := Prod.mk.inj hpair
    rfl
  shorter := by
    intro input a rest hread
    obtain ⟨b, hfind, hpair⟩ := Option.map_eq_some_iff.mp hread
    obtain ⟨-, hlength⟩ := take_of_mem_table hwidth hfind
    rw [← (Prod.mk.inj hpair).2, List.length_drop]
    omega

end StreamCodec

end Fs3.Foundation
