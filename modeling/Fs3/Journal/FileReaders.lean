import Fs3.Journal.FileFormat

/-! # Three readers of one file

`Load` reads the whole file, `xlMetaV2TrimData` cuts the inline data off and `readXLMetaNoData`
reads no more than it has to. -/

namespace Fs3

open Msgp

variable (codec : VersionsCodec) (sum64 : Bytes → UInt64)

def currentFile (rest : Bytes) : Bytes := xlHeader ++ (xlVersionCurrent ++ rest)

theorem currentFile_length (rest : Bytes) : (currentFile rest).length = 8 + rest.length := by
  simp only [currentFile, List.length_append, ← Nat.add_assoc]
  rfl

theorem currentFile_drop (rest : Bytes) : (currentFile rest).drop 8 = rest := rfl

theorem checkXL2V1_currentFile {rest : Bytes} (hrest : rest ≠ []) :
    checkXL2V1 (currentFile rest) = some (rest, 1, 2) := by
  have hlength : ¬ (currentFile rest).length ≤ 8 := by
    have hpos := List.length_pos_of_ne_nil hrest
    rw [currentFile_length]
    omega
  rw [checkXL2V1, if_neg hlength]
  rfl

theorem currentFile_take {rest : Bytes} {count : Nat} (hcount : 8 ≤ count) :
    (currentFile rest).take count = currentFile (rest.take (count - 8)) := by
  obtain ⟨extra, rfl⟩ := Nat.exists_eq_add_of_le hcount
  rw [Nat.add_sub_cancel_left, currentFile, ← List.append_assoc, Nat.add_comm,
    List.take_append, List.take_of_length_le, currentFile, List.append_assoc]
  · rfl
  · exact Nat.le_add_left 8 extra

namespace StoredXlMetaV2

/-- The metadata of a file with its length before it and its checksum behind. -/
def metadataBytes (versions : List XlMetaV2Version) : Bytes :=
  bin32Header (codec.marshalMsg versions).length ++
    (codec.marshalMsg versions ++ appendUint32 (sum64 (codec.marshalMsg versions)).toUInt32)

/-- What `AppendTo` appends. -/
def file (z : StoredXlMetaV2) : Bytes :=
  currentFile (metadataBytes codec sum64 z.versions ++ z.data)

theorem appendTo_eq {z : StoredXlMetaV2} (hdata : z.data.validate = true) (dst : Bytes) :
    z.appendTo codec sum64 dst = some (dst ++ z.file codec sum64) := by
  rw [appendTo, if_pos hdata]
  simp only [file, currentFile, metadataBytes, List.append_assoc]

theorem metadataBytes_append_ne_nil (versions : List XlMetaV2Version) (data : Bytes) :
    metadataBytes codec sum64 versions ++ data ≠ [] := List.cons_ne_nil _ _

variable {versions : List XlMetaV2Version}

theorem readBytesZC_metadataBytes (data : Bytes)
    (hfits : (codec.marshalMsg versions).length < 2 ^ 32) :
    readBytesZC (metadataBytes codec sum64 versions ++ data) =
      some (codec.marshalMsg versions,
        appendUint32 (sum64 (codec.marshalMsg versions)).toUInt32 ++ data) := by
  rw [metadataBytes, List.append_assoc, List.append_assoc, readBytesZC_bin32,
    Nat.mod_eq_of_lt hfits, readBody_append _ _ rfl]

theorem load_currentFile {rest : Bytes} (hrest : rest ≠ []) :
    load codec sum64 (currentFile rest) =
      (readBytesZC rest).bind fun (v, buf) =>
        (loadCrc sum64 2 v buf).bind fun data =>
          (codec.unmarshalMsg v).map fun versions =>
            { versions, data := InlineBytes.checked data } := by
  rw [load, checkXL2V1_currentFile hrest]
  rfl

theorem loadCrc_append (v rest : Bytes) :
    loadCrc sum64 2 v (appendUint32 (sum64 v).toUInt32 ++ rest) = some rest := by
  rw [loadCrc, if_pos (Nat.le_refl 2), readUint32Bytes_append]
  exact if_pos rfl

theorem load_metadataBytes (data : Bytes) (hvalid : ∀ version ∈ versions, version.valid = true)
    (hfits : (codec.marshalMsg versions).length < 2 ^ 32) :
    load codec sum64 (currentFile (metadataBytes codec sum64 versions ++ data)) =
      some { versions, data := InlineBytes.checked data } := by
  rw [load_currentFile codec sum64 (metadataBytes_append_ne_nil codec sum64 versions data),
    readBytesZC_metadataBytes codec sum64 data hfits, Option.bind_some]
  dsimp only
  rw [loadCrc_append, Option.bind_some, codec.unmarshalMsg_marshalMsg versions hvalid hfits,
    Option.map_some]

theorem load_versions {rest : Bytes} {z : StoredXlMetaV2} (hrest : rest ≠ [])
    (hload : load codec sum64 (currentFile rest) = some z) :
    ∃ v buf, readBytesZC rest = some (v, buf) ∧ codec.unmarshalMsg v = some z.versions := by
  rw [load_currentFile codec sum64 hrest] at hload
  obtain ⟨⟨v, buf⟩, hbody, hload⟩ := Option.bind_eq_some_iff.mp hload
  obtain ⟨data, -, hload⟩ := Option.bind_eq_some_iff.mp hload
  obtain ⟨versions, hversions, rfl⟩ := Option.map_eq_some_iff.mp hload
  exact ⟨v, buf, hbody, hversions⟩

theorem load_ne_of_wrapped {data : Bytes} {z : StoredXlMetaV2}
    (hlong : 2 ^ 32 ≤ (codec.marshalMsg versions).length)
    (hload : load codec sum64 (currentFile (metadataBytes codec sum64 versions ++ data)) = some z) :
    z.versions ≠ versions := by
  intro heq
  obtain ⟨v, buf, hbody, hversions⟩ := load_versions codec sum64
    (metadataBytes_append_ne_nil codec sum64 versions data) hload
  have hshort : (codec.marshalMsg versions).length % 2 ^ 32 < (codec.marshalMsg versions).length :=
    (Nat.mod_lt _ (by norm_num)).trans_le hlong
  rw [metadataBytes, List.append_assoc, List.append_assoc, readBytesZC_bin32, readBody,
    Option.bind_some, if_pos (by rw [List.length_append]; omega)] at hbody
  obtain ⟨rfl, -⟩ := Prod.mk.inj (Option.some.inj hbody)
  rw [List.take_append_of_le_length hshort.le] at hversions
  refine codec.unmarshalMsg_cut versions _ (List.take_prefix _ _) ?_ (heq ▸ hversions)
  intro hwhole
  have hlength := congrArg List.length hwhole
  rw [List.length_take] at hlength
  omega

end StoredXlMetaV2

open StoredXlMetaV2

theorem xlMetaV2TrimData_metadataBytes {versions : List XlMetaV2Version} (data : Bytes)
    (hfits : (codec.marshalMsg versions).length < 2 ^ 32) :
    xlMetaV2TrimData (currentFile (metadataBytes codec sum64 versions ++ data)) =
      currentFile (metadataBytes codec sum64 versions) := by
  have hlength : (currentFile (metadataBytes codec sum64 versions ++ data)).length - data.length =
      (currentFile (metadataBytes codec sum64 versions)).length := by
    rw [currentFile_length, currentFile_length, List.length_append]
    omega
  rw [xlMetaV2TrimData,
    checkXL2V1_currentFile (metadataBytes_append_ne_nil codec sum64 versions data)]
  dsimp only
  rw [if_neg (by decide), readBytesZC_metadataBytes codec sum64 data hfits]
  dsimp only
  rw [if_pos (by decide), readUint32Bytes_append]
  dsimp only [Option.map_some, Option.getD_some]
  rw [hlength]
  exact List.take_left' rfl

/-! ## The read without data -/

theorem readMore_take {r : Bytes} {initial count : Nat} {hasFull : Bool}
    (hfull : hasFull = true → r.length ≤ initial) (hinitial : initial ≤ r.length)
    (hcount : count ≤ r.length) :
    readMore r (r.take initial) r.length hasFull count = some (r.take (max initial count)) := by
  have hlength : (r.take initial).length = initial := by
    rw [List.length_take, Nat.min_eq_left hinitial]
  rw [readMore, hlength]
  split
  next hle => rw [Nat.max_eq_left hle]
  next hlt =>
    have hpartial : ¬ (hasFull = true ∨ r.length < count) := by
      rintro (htrue | hmore)
      · exact hlt (hcount.trans (hfull htrue))
      · exact absurd hcount (Nat.not_le.mpr hmore)
    rw [if_neg hpartial, Nat.max_eq_right (Nat.le_of_not_le hlt)]

/-- The part of a file that is read for its metadata. -/
theorem readMetadataOnly_currentFile {metadata data r : Bytes} {crc : UInt32} {initial : Nat}
    {hasFull : Bool}
    (hr : r = currentFile (bin32Header metadata.length ++ (metadata ++ (appendUint32 crc ++ data))))
    (hfits : metadata.length < 2 ^ 32) (hheader : 13 ≤ initial) (hinitial : initial ≤ r.length)
    (hfull : hasFull = true → r.length ≤ initial) :
    readMetadataOnly r (r.take initial) ((r.take initial).drop 8) r.length hasFull 2 =
      some (r.take (13 + metadata.length + (appendUint32 crc).length)) := by
  have hsize : r.length = 13 + (metadata ++ (appendUint32 crc ++ data)).length := by
    rw [hr, currentFile_length, List.length_append, bin32Header_length, ← Nat.add_assoc]
  have hparts : (metadata ++ (appendUint32 crc ++ data)).length =
      metadata.length + (appendUint32 crc).length + data.length := by
    rw [List.length_append, List.length_append, Nat.add_assoc]
  have hcrc := appendUint32_length_le crc
  have htmp : (r.take initial).drop 8 = bin32Header metadata.length ++
      (metadata ++ (appendUint32 crc ++ data)).take (initial - 13) := by
    rw [hr, currentFile_take (by omega), currentFile_drop, List.take_append, bin32Header_length,
      List.take_of_length_le (by rw [bin32Header_length]; omega), Nat.sub_sub]
  have hread : readBytesHeader ((r.take initial).drop 8) = some (metadata.length,
      (metadata ++ (appendUint32 crc ++ data)).take (initial - 13)) := by
    rw [htmp, readBytesHeader_bin32, Nat.mod_eq_of_lt hfits]
  have hwant : metadata.length + ((r.take initial).length -
      ((metadata ++ (appendUint32 crc ++ data)).take (initial - 13)).length) =
        13 + metadata.length := by
    rw [List.length_take, List.length_take]
    omega
  have hbehind : r.drop (13 + metadata.length) = appendUint32 crc ++ data := by
    rw [hr, currentFile, ← List.append_assoc, ← List.append_assoc, ← List.append_assoc]
    apply List.drop_left'
    rw [List.length_append, List.length_append, bin32Header_length]
    rfl
  rw [readMetadataOnly, hread, Option.bind_some]
  dsimp only
  rw [hwant, if_neg (by decide)]
  generalize hmax : (if 13 + metadata.length + uint32Size > r.length then r.length
    else 13 + metadata.length + uint32Size) = wantMax
  have hwantMax : wantMax ≤ r.length ∧
      13 + metadata.length + (appendUint32 crc).length ≤ wantMax := by
    rw [uint32Size] at hmax
    split at hmax <;> omega
  rw [readMore_take hfull hinitial hwantMax.1, Option.bind_some, List.drop_take, hbehind,
    List.take_append, List.take_of_length_le (by omega), readUint32Bytes_append, Option.map_some]
  rw [List.length_append, Nat.add_sub_cancel, List.take_take, Nat.min_eq_left (by omega)]

/-- A read without data gives the file up to its inline data, wherever the
first read ends behind the header. -/
theorem readXLMetaNoDataFrom_metadataBytes {versions : List XlMetaV2Version} (data : Bytes)
    (hfits : (codec.marshalMsg versions).length < 2 ^ 32) {readDefault : Nat}
    (hdefault : 13 ≤ readDefault) :
    readXLMetaNoDataFrom readDefault (currentFile (metadataBytes codec sum64 versions ++ data))
        (currentFile (metadataBytes codec sum64 versions ++ data)).length =
      some (currentFile (metadataBytes codec sum64 versions)) := by
  have hcrc := appendUint32_length_le (sum64 (codec.marshalMsg versions)).toUInt32
  have hbytes : (metadataBytes codec sum64 versions).length =
      5 + ((codec.marshalMsg versions).length +
        (appendUint32 (sum64 (codec.marshalMsg versions)).toUInt32).length) := by
    rw [metadataBytes, List.length_append, List.length_append, bin32Header_length]
  generalize hr : currentFile (metadataBytes codec sum64 versions ++ data) = r
  have hsize : r.length = 8 + ((metadataBytes codec sum64 versions).length + data.length) := by
    rw [← hr, currentFile_length, List.length_append]
  generalize hinitial : (if r.length > readDefault then readDefault else r.length) = initial
  have hbounds : 13 ≤ initial ∧ initial ≤ r.length ∧
      (r.length ≤ readDefault → r.length ≤ initial) := by
    split at hinitial <;> omega
  have hheader : checkXL2V1 (r.take initial) = some ((r.take initial).drop 8, 1, 2) := by
    rw [← hr, currentFile_take (by omega), currentFile_drop]
    apply checkXL2V1_currentFile
    rw [← List.length_pos_iff, List.length_take, List.length_append]
    omega
  have hlayout : r = currentFile (bin32Header (codec.marshalMsg versions).length ++
      (codec.marshalMsg versions ++
        (appendUint32 (sum64 (codec.marshalMsg versions)).toUInt32 ++ data))) := by
    rw [← hr, metadataBytes]
    simp only [List.append_assoc]
  rw [readXLMetaNoDataFrom]
  dsimp only
  rw [hinitial, if_neg (Nat.not_lt.mpr hbounds.2.1), hheader]
  dsimp only
  rw [if_pos rfl, if_neg (by decide), if_pos (Or.inr rfl),
    readMetadataOnly_currentFile hlayout hfits hbounds.1 hbounds.2.1
      (fun htrue => hbounds.2.2 (of_decide_eq_true htrue)), ← hr,
    currentFile_take (by omega), List.take_left' (by omega)]

/-! ## All readers agree -/

/-- The three readers give back what `AppendTo` stored, the second and the third
without the inline data. -/
structure ReadsBack (readDefault : Nat) (z : StoredXlMetaV2) : Prop where
  load_appendTo : ∀ buf, z.appendTo codec sum64 [] = some buf → load codec sum64 buf = some z
  load_trimData : ∀ buf, z.appendTo codec sum64 [] = some buf →
    load codec sum64 (xlMetaV2TrimData buf) = some { versions := z.versions }
  load_noData : ∀ buf, z.appendTo codec sum64 [] = some buf →
    ∃ short, readXLMetaNoDataFrom readDefault buf buf.length = some short ∧
      load codec sum64 short = some { versions := z.versions }

/-- The readers agree exactly as long as the length of the packed versions fits
the 32 bits of the header. -/
theorem readsBack_iff {readDefault : Nat} (hdefault : 13 ≤ readDefault) {z : StoredXlMetaV2}
    (hvalid : ∀ version ∈ z.versions, version.valid = true) (hdata : z.data.validate = true) :
    ReadsBack codec sum64 readDefault z ↔ (codec.marshalMsg z.versions).length < 2 ^ 32 := by
  have hfile := appendTo_eq codec sum64 hdata []
  rw [List.nil_append] at hfile
  constructor
  · intro hreads
    by_contra hlong
    have hload := hreads.load_appendTo _ hfile
    exact load_ne_of_wrapped codec sum64 (Nat.not_lt.mp hlong) hload rfl
  · intro hfits
    have hempty := load_metadataBytes codec sum64 [] hvalid hfits
    rw [List.append_nil] at hempty
    constructor
    · intro buf hbuf
      obtain rfl := Option.some.inj (hfile.symm.trans hbuf)
      rw [file, load_metadataBytes codec sum64 z.data hvalid hfits, InlineBytes.checked,
        if_pos hdata]
    · intro buf hbuf
      obtain rfl := Option.some.inj (hfile.symm.trans hbuf)
      rw [file, xlMetaV2TrimData_metadataBytes codec sum64 z.data hfits, hempty]
      rfl
    · intro buf hbuf
      obtain rfl := Option.some.inj (hfile.symm.trans hbuf)
      exact ⟨_, readXLMetaNoDataFrom_metadataBytes codec sum64 z.data hfits hdefault, hempty⟩

def oneEntry : InlineBytes := InlineBytes.serialize [(XlMetaInlineData.keyBytes "null", [0x61])]

theorem validate_oneEntry : oneEntry.validate = true := by decide

theorem marshalMsg_oneMarker_lt :
    (markersCodec.marshalMsg [PackedMarkers.marker 7]).length < 2 ^ 32 := by
  have hmarshal : markersCodec.marshalMsg [PackedMarkers.marker 7] = PackedMarkers.pack [7] :=
    PackedMarkers.marshalMsg_map [7]
  rw [hmarshal]
  decide

/-- One delete marker and inline data: the three readers agree. -/
theorem oneMarker_readsBack :
    ReadsBack markersCodec (fun _ => 0x42b9e77f4f5d9754) readDefault
      { versions := [PackedMarkers.marker 7], data := oneEntry } := by
  rw [readsBack_iff]
  · exact marshalMsg_oneMarker_lt
  · decide
  · decide
  · exact validate_oneEntry

def markersJournal (count : Nat) : StoredXlMetaV2 where
  versions := ((List.range count).map (BitVec.ofNat 128)).map PackedMarkers.marker
  data := oneEntry

theorem markersJournal_valid (count : Nat) :
    ∀ version ∈ (markersJournal count).versions, version.valid = true := by
  intro version hversion
  obtain ⟨id, -, rfl⟩ := List.mem_map.mp hversion
  rfl

theorem markersJournal_lost {count : Nat} (hcount : 2 ^ 32 ≤ 43 * count) (sum64 : Bytes → UInt64) :
    ¬ ReadsBack markersCodec sum64 readDefault (markersJournal count) := by
  intro hreads
  have hdata : (markersJournal count).data.validate = true := validate_oneEntry
  have hlong : 2 ^ 32 ≤ (markersCodec.marshalMsg (markersJournal count).versions).length := by
    have hpack := PackedMarkers.length_le_pack ((List.range count).map (BitVec.ofNat 128))
    rw [← PackedMarkers.marshalMsg_map, List.length_map, List.length_range] at hpack
    exact hcount.trans hpack
  have hload := hreads.load_appendTo _ (appendTo_eq markersCodec sum64 hdata [])
  exact load_ne_of_wrapped markersCodec sum64 hlong hload rfl

/-- A journal of `2 ^ 28` valid markers is lost, whatever its checksum. -/
theorem hugeJournal_lost :
    (∀ version ∈ (markersJournal (2 ^ 28)).versions, version.valid = true) ∧
      ¬ ∃ sum64, ReadsBack markersCodec sum64 readDefault (markersJournal (2 ^ 28)) := by
  refine ⟨markersJournal_valid _, ?_⟩
  rintro ⟨sum64, hreads⟩
  exact markersJournal_lost (by norm_num) sum64 hreads

end Fs3
