import Fs3.Journal.InlineBytes

/-! # The bytes of `xl.meta`

A file holds a header, the versions in one message pack value, a checksum of that value and the
inline data. The generated code that packs the versions and the checksum are parameters; every
offset and length of the file is computed here as the code computes it. -/

namespace Fs3

open Msgp

/-- `xlMetaV2.MarshalMsg` and `xlMetaV2.UnmarshalMsg`: versions of fewer than
32 bits of bytes read back, and a part of the bytes never reads as the whole. -/
structure VersionsCodec where
  marshalMsg : List XlMetaV2Version → Bytes
  unmarshalMsg : Bytes → Option (List XlMetaV2Version)
  unmarshalMsg_marshalMsg : ∀ versions, (∀ version ∈ versions, version.valid = true) →
    (marshalMsg versions).length < 2 ^ 32 → unmarshalMsg (marshalMsg versions) = some versions
  unmarshalMsg_cut : ∀ versions part, part <+: marshalMsg versions →
    part ≠ marshalMsg versions → unmarshalMsg part ≠ some versions

/-! ## The file -/

/-- `xlMetaV2` with its data as the bytes the file holds. -/
structure StoredXlMetaV2 where
  versions : List XlMetaV2Version := []
  data : InlineBytes := []
  deriving DecidableEq

/-- `"XL2 "`. -/
def xlHeader : Bytes := [0x58, 0x4c, 0x32, 0x20]

def xlVersionMajor : Nat := 1
def xlVersionMinor : Nat := 2

def xlVersionCurrent : Bytes := [0x01, 0x00, 0x02, 0x00]

/-- `binary.LittleEndian.Uint16` at an offset that is in range. -/
def uint16At (buf : Bytes) (offset : Nat) : Nat :=
  (buf.getD offset 0).toNat + 256 * (buf.getD (offset + 1) 0).toNat

/-- `checkXL2V1`: the payload, the major and the minor version. -/
def checkXL2V1 (buf : Bytes) : Option (Bytes × Nat × Nat) :=
  if buf.length ≤ 8 then none
  else if buf.take 4 ≠ xlHeader then none
  else
    -- "1   " is how version 1.0 was written.
    let version :=
      if (buf.drop 4).take 4 = [0x31, 0x20, 0x20, 0x20] then (1, 0)
      else (uint16At buf 4, uint16At buf 6)
    if version.1 > xlVersionMajor then none else some (buf.drop 8, version)

/-- `Uint32Size` of the message pack library. -/
def uint32Size : Nat := 5

section Files

variable (codec : VersionsCodec) (sum64 : Bytes → UInt64)

namespace StoredXlMetaV2

/-- `xlMetaV2.AppendTo`; nothing where the data does not pass `validate`. -/
def appendTo (z : StoredXlMetaV2) (dst : Bytes) : Option Bytes :=
  if z.data.validate then
    let metadata := codec.marshalMsg z.versions
    some (dst ++ xlHeader ++ xlVersionCurrent ++ bin32Header metadata.length ++ metadata ++
      appendUint32 (sum64 metadata).toUInt32 ++ z.data)
  else none

/-- The checksum step of `Load`: version 1.1 has none. -/
def loadCrc (minor : Nat) (v buf : Bytes) : Option Bytes :=
  if 2 ≤ minor then
    match readUint32Bytes buf with
    | none => none
    | some (crc, nbuf) => if (sum64 v).toUInt32 = crc then some nbuf else none
  else some buf

/-- `xlMetaV2.Load` into an empty journal; nothing where it returns an error. -/
def load (buf : Bytes) : Option StoredXlMetaV2 :=
  match checkXL2V1 buf with
  | none => none
  | some (buf, major, minor) =>
    if major = 1 then
      if minor = 0 then (codec.unmarshalMsg buf).map fun versions => { versions }
      else if minor = 1 ∨ minor = 2 then
        (readBytesZC buf).bind fun (v, buf) =>
          (loadCrc sum64 minor v buf).bind fun data =>
            (codec.unmarshalMsg v).map fun versions =>
              { versions, data := InlineBytes.checked data }
      else none
    else none

end StoredXlMetaV2

/-- `xlMetaV2TrimData`. Its variables `min` and `maj` receive the major and the
minor version in this order. -/
def xlMetaV2TrimData (buf : Bytes) : Bytes :=
  match checkXL2V1 buf with
  | none => buf
  | some (metaBuf, min, maj) =>
    if maj = 1 ∧ min < 1 then buf
    else
      match readBytesZC metaBuf with
      | none => buf
      | some (_, metaBuf) =>
        if maj > 1 ∨ min ≥ 2 then
          -- An error leaves no bytes after the checksum, and the file as it is.
          let after := ((readUint32Bytes metaBuf).map Prod.snd).getD []
          buf.take (buf.length - after.length)
        else buf.take (buf.length - metaBuf.length)

/-- `readMore` of `readXLMetaNoData`: the bytes read so far, up to at least `n`. -/
def readMore (r buf : Bytes) (size : Nat) (hasFull : Bool) (n : Nat) : Option Bytes :=
  if n ≤ buf.length then some buf
  else if hasFull ∨ size < n then none
  else if n ≤ r.length then some (r.take n)
  else none

/-- The header-only branch of `readXLMetaNoData`. A slice behind the end of what
was read is `none` as well. -/
def readMetadataOnly (r buf tmp : Bytes) (size : Nat) (hasFull : Bool) (minor : Nat) :
    Option Bytes :=
  (readBytesHeader tmp).bind fun (sz, tmp) =>
    let want := sz + (buf.length - tmp.length)
    if minor < 2 then (readMore r buf size hasFull want).map fun buf => buf.take want
    else
      let wantMax := if want + uint32Size > size then size else want + uint32Size
      (readMore r buf size hasFull wantMax).bind fun buf =>
        let tmp := buf.drop want
        (readUint32Bytes tmp).map fun (_, after) =>
          buf.take (want + (tmp.length - after.length))

/-- `readXLMetaNoData` of a reader and a size, with the most it reads at first. -/
def readXLMetaNoDataFrom (readDefault : Nat) (r : Bytes) (size : Nat) : Option Bytes :=
  let initial := if size > readDefault then readDefault else size
  let hasFull : Bool := decide (size ≤ readDefault)
  if r.length < initial then none
  else
    let buf := r.take initial
    match checkXL2V1 buf with
    | none => readMore r buf size hasFull size
    | some (tmp, major, minor) =>
      if major = 1 then
        if minor = 0 then readMore r buf size hasFull size
        else if minor = 1 ∨ minor = 2 then readMetadataOnly r buf tmp size hasFull minor
        else none
      else none

/-- The code's `readDefault`. -/
def readDefault : Nat := 4 <<< 10

def readXLMetaNoData (r : Bytes) (size : Nat) : Option Bytes :=
  readXLMetaNoDataFrom readDefault r size

end Files

end Fs3

/-! ## A packed journal of delete markers

What the generated code writes for delete markers that carry no metadata: the
one kind of version whose packed form has the same length every time.
-/

namespace Fs3

open Msgp

namespace PackedMarkers

def marker (id : UUID) : XlMetaV2Version :=
  .deleteType { versionID := id, modTime := 1, metaSys := ∅ }

/-- A map of one key, `"Versions"`. -/
def versionsKey : Bytes := [0x81, 0xa8, 0x56, 0x65, 0x72, 0x73, 0x69, 0x6f, 0x6e, 0x73]

/-- `"Type"` with its value, `"DelObj"`, and `"ID"` with the header of its value. -/
def beforeID : Bytes :=
  [0x82, 0xa4, 0x54, 0x79, 0x70, 0x65, 0x02, 0xa6, 0x44, 0x65, 0x6c, 0x4f, 0x62, 0x6a,
    0x82, 0xa2, 0x49, 0x44, 0xc4, 0x10]

/-- `"MTime"` with its value. -/
def afterID : Bytes := [0xa5, 0x4d, 0x54, 0x69, 0x6d, 0x65, 0x01]

def packEntry (id : UUID) : Bytes := beforeID ++ (bigEndian 16 id.toNat ++ afterID)

def packEntries (ids : List UUID) : Bytes := ids.flatMap packEntry

/-- `xlMetaV2.MarshalMsg` of delete markers. -/
def pack (ids : List UUID) : Bytes :=
  versionsKey ++ (appendArrayHeader ids.length ++ packEntries ids)

def skip (expected input : Bytes) : Option Bytes :=
  if expected <+: input then some (input.drop expected.length) else none

def unpackEntry (input : Bytes) : Option (UUID × Bytes) :=
  (skip beforeID input).bind fun rest =>
    (readFixed 16 rest).bind fun (id, rest) =>
      (skip afterID rest).map fun rest => (BitVec.ofNat 128 id, rest)

def unpackEntries : Nat → Bytes → Option (List UUID × Bytes)
  | 0, input => some ([], input)
  | count + 1, input =>
    (unpackEntry input).bind fun (id, rest) =>
      (unpackEntries count rest).map fun (ids, rest) => (id :: ids, rest)

/-- `xlMetaV2.UnmarshalMsg` of what `pack` writes. -/
def unpack (input : Bytes) : Option (List UUID × Bytes) :=
  (skip versionsKey input).bind fun rest =>
    (readArrayHeaderBytes rest).bind fun (count, rest) => unpackEntries count rest

theorem skip_append (expected rest : Bytes) : skip expected (expected ++ rest) = some rest := by
  rw [skip, if_pos (List.prefix_append _ _), List.drop_left' rfl]

theorem unpackEntry_packEntry (id : UUID) (rest : Bytes) :
    unpackEntry (packEntry id ++ rest) = some (id, rest) := by
  have hid : id.toNat < 256 ^ 16 := id.isLt
  rw [unpackEntry, packEntry, List.append_assoc, skip_append, Option.bind_some, List.append_assoc,
    readFixed_append_of_lt 16 _ hid, Option.bind_some]
  dsimp only
  rw [skip_append, Option.map_some, BitVec.ofNat_toNat, BitVec.setWidth_eq]

theorem unpackEntries_packEntries (ids : List UUID) (rest : Bytes) :
    unpackEntries ids.length (packEntries ids ++ rest) = some (ids, rest) := by
  induction ids with
  | nil => rfl
  | cons id ids ih =>
    rw [packEntries, List.flatMap_cons, List.append_assoc, List.length_cons, unpackEntries,
      unpackEntry_packEntry, Option.bind_some]
    dsimp only
    rw [← packEntries, ih, Option.map_some]

variable {ids : List UUID}

theorem unpack_pack (hlength : ids.length < 2 ^ 32) : unpack (pack ids) = some (ids, []) := by
  rw [unpack, pack, skip_append, Option.bind_some, readArrayHeaderBytes_append,
    Nat.mod_eq_of_lt hlength, Option.bind_some]
  dsimp only
  rw [← List.append_nil (packEntries ids), unpackEntries_packEntries]

theorem skip_extends {expected input rest : Bytes} (more : Bytes)
    (hskip : skip expected input = some rest) :
    skip expected (input ++ more) = some (rest ++ more) := by
  unfold skip at hskip
  split at hskip
  next hfront =>
    obtain rfl := Option.some.inj hskip
    rw [skip, if_pos (hfront.trans (List.prefix_append _ _)),
      List.drop_append_of_le_length hfront.length_le]
  next => cases hskip

theorem unpackEntry_extends : Extends unpackEntry := by
  intro input value rest more hread
  obtain ⟨afterSkip, hskip, hread⟩ := Option.bind_eq_some_iff.mp hread
  obtain ⟨⟨id, afterRead⟩, hid, hread⟩ := Option.bind_eq_some_iff.mp hread
  obtain ⟨last, hlast, hvalue⟩ := Option.map_eq_some_iff.mp hread
  obtain ⟨rfl, rfl⟩ := Prod.mk.inj hvalue
  rw [unpackEntry, skip_extends more hskip, Option.bind_some,
    readFixed_extends 16 _ _ _ more hid, Option.bind_some]
  dsimp only
  rw [skip_extends more hlast, Option.map_some]

theorem unpackEntries_extends (count : Nat) : Extends (unpackEntries count) := by
  induction count with
  | zero =>
    intro input value rest more hread
    obtain ⟨rfl, rfl⟩ := Prod.mk.inj (Option.some.inj hread)
    rfl
  | succ count ih =>
    intro input value rest more hread
    obtain ⟨⟨id, afterEntry⟩, hentry, hread⟩ := Option.bind_eq_some_iff.mp hread
    obtain ⟨⟨ids, last⟩, hrest, hvalue⟩ := Option.map_eq_some_iff.mp hread
    obtain ⟨rfl, rfl⟩ := Prod.mk.inj hvalue
    rw [unpackEntries, unpackEntry_extends _ _ _ more hentry, Option.bind_some]
    dsimp only
    rw [ih _ _ _ more hrest, Option.map_some]

theorem unpack_extends : Extends unpack := by
  intro input value rest more hread
  obtain ⟨afterSkip, hskip, hread⟩ := Option.bind_eq_some_iff.mp hread
  obtain ⟨⟨count, afterHeader⟩, hheader, hread⟩ := Option.bind_eq_some_iff.mp hread
  rw [unpack, skip_extends more hskip, Option.bind_some,
    readArrayHeaderBytes_extends _ _ _ more hheader, Option.bind_some]
  exact unpackEntries_extends count _ _ _ more hread

theorem length_of_unpackEntries {count : Nat} {input rest : Bytes}
    (hread : unpackEntries count input = some (ids, rest)) : ids.length = count := by
  induction count generalizing input rest ids with
  | zero =>
    obtain ⟨rfl, -⟩ := Prod.mk.inj (Option.some.inj hread)
    rfl
  | succ count ih =>
    obtain ⟨⟨id, afterEntry⟩, -, hread⟩ := Option.bind_eq_some_iff.mp hread
    obtain ⟨⟨tail, last⟩, hrest, hvalue⟩ := Option.map_eq_some_iff.mp hread
    obtain ⟨rfl, -⟩ := Prod.mk.inj hvalue
    rw [List.length_cons, ih hrest]

theorem length_lt_of_unpack {input rest : Bytes} (hread : unpack input = some (ids, rest)) :
    ids.length < 2 ^ 32 := by
  obtain ⟨afterSkip, -, hread⟩ := Option.bind_eq_some_iff.mp hread
  obtain ⟨⟨count, afterHeader⟩, hheader, hread⟩ := Option.bind_eq_some_iff.mp hread
  rw [length_of_unpackEntries hread]
  exact readArrayHeaderBytes_lt hheader

theorem unpack_part {part rest : Bytes} (hpart : part <+: pack ids)
    (hread : unpack part = some (ids, rest)) : part = pack ids := by
  obtain ⟨more, hmore⟩ := hpart
  have hwhole := unpack_extends _ _ _ more hread
  rw [hmore, unpack_pack (length_lt_of_unpack hread)] at hwhole
  have hnil : rest ++ more = [] := (Prod.mk.inj (Option.some.inj hwhole)).2.symm
  rw [(List.append_eq_nil_iff.mp hnil).2, List.append_nil] at hmore
  exact hmore

def markerID? (version : XlMetaV2Version) : Option UUID :=
  if version = marker version.uuid then some version.uuid else none

theorem markerID?_marker (id : UUID) : markerID? (marker id) = some id := if_pos rfl

theorem eq_marker {version : XlMetaV2Version} {id : UUID} (hid : markerID? version = some id) :
    version = marker id := by
  unfold markerID? at hid
  split at hid
  next heq => rwa [Option.some.inj hid] at heq
  next => cases hid

theorem mapM_marker (ids : List UUID) : (ids.map marker).mapM markerID? = some ids := by
  induction ids with
  | nil => rfl
  | cons id ids ih => rw [List.map_cons, List.mapM_cons, markerID?_marker, ih]; rfl

theorem eq_map_marker {versions : List XlMetaV2Version} (hids : versions.mapM markerID? = some ids)
     :
    versions = ids.map marker := by
  induction versions generalizing ids with
  | nil =>
    cases hids
    rfl
  | cons version versions ih =>
    rw [List.mapM_cons] at hids
    obtain ⟨id, hid, hids⟩ := Option.bind_eq_some_iff.mp hids
    obtain ⟨rest, hrest, hids⟩ := Option.bind_eq_some_iff.mp hids
    cases hids
    rw [List.map_cons, ← eq_marker hid, ← ih hrest]

theorem length_le_pack (ids : List UUID) : 43 * ids.length ≤ (pack ids).length := by
  have hentries : (packEntries ids).length = 43 * ids.length := by
    induction ids with
    | nil => rfl
    | cons id ids ih =>
      rw [packEntries, List.flatMap_cons, List.length_append, ← packEntries, ih, packEntry,
        List.length_append, List.length_append, bigEndian_length, List.length_cons, Nat.mul_succ,
        Nat.add_comm]
      rfl
  rw [pack, List.length_append, List.length_append, hentries]
  omega

def tooLong : Bytes := List.replicate (2 ^ 32) 0xc0

def marshalMsg (versions : List XlMetaV2Version) : Bytes :=
  ((versions.mapM markerID?).map pack).getD tooLong

theorem marshalMsg_map (ids : List UUID) : marshalMsg (ids.map marker) = pack ids := by
  rw [marshalMsg, mapM_marker, Option.map_some, Option.getD_some]

end PackedMarkers

open PackedMarkers

def markersCodec : VersionsCodec where
  marshalMsg := marshalMsg
  unmarshalMsg input := (unpack input).map fun (ids, _) => ids.map marker
  unmarshalMsg_marshalMsg versions _ hlength := by
    cases hids : versions.mapM markerID? with
    | none =>
      rw [marshalMsg, hids, Option.map_none, Option.getD_none, tooLong,
        List.length_replicate] at hlength
      exact absurd hlength (Nat.lt_irrefl _)
    | some ids =>
      obtain rfl := eq_map_marker hids
      rw [marshalMsg_map] at hlength ⊢
      have hpack := length_le_pack ids
      rw [unpack_pack (by omega), Option.map_some]
  unmarshalMsg_cut versions part hpart hne hread := by
    obtain ⟨⟨ids, rest⟩, hids, rfl⟩ := Option.map_eq_some_iff.mp hread
    rw [marshalMsg_map] at hpart hne
    exact hne (unpack_part hpart hids)

end Fs3
