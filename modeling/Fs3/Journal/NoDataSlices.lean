import Fs3.Journal.FileFormat

/-! # Reading a damaged file without its data

`readXLMetaNoData` cuts its buffer at positions it computes from lengths in the file. -/

namespace Fs3

open Msgp

/-- How a read ends. -/
inductive ReadOutcome where
  | bytes (buf : Bytes)
  | error
  | panics
  deriving DecidableEq

namespace ReadOutcome

def toOption : ReadOutcome → Option Bytes
  | bytes buf => some buf
  | error => none
  | panics => none

def ofOption : Option Bytes → ReadOutcome
  | some buf => bytes buf
  | none => error

@[simp]
theorem toOption_ofOption (result : Option Bytes) : (ofOption result).toOption = result := by
  cases result <;> rfl

theorem ofOption_ne_panics (result : Option Bytes) : ofOption result ≠ panics := by
  cases result <;> exact nofun

end ReadOutcome

/-- `buf[:n]`. -/
def sliceTo (buf : Bytes) (n : Nat) : ReadOutcome :=
  if n ≤ buf.length then .bytes (buf.take n) else .panics

/-- `buf[n:]`; nothing where it panics. -/
def sliceFrom (buf : Bytes) (n : Nat) : Option Bytes :=
  if n ≤ buf.length then some (buf.drop n) else none

/-- The part of `readXLMetaNoData` behind its last call of `readMore`: the
checksum is read and cut off. -/
def cutChecksum (buf : Bytes) (want : Nat) : ReadOutcome :=
  match sliceFrom buf want with
  | none => .panics
  | some tmp =>
    match readUint32Bytes tmp with
    | none => .error
    | some (_, after) => sliceTo buf (want + (tmp.length - after.length))

/-- The header-only branch of `readXLMetaNoData`. -/
def readMetadataSlices (r buf tmp : Bytes) (size : Nat) (hasFull : Bool) (minor : Nat) :
    ReadOutcome :=
  match readBytesHeader tmp with
  | none => .error
  | some (sz, tmp) =>
    let want := sz + (buf.length - tmp.length)
    if minor < 2 then
      match readMore r buf size hasFull want with
      | none => .error
      | some buf => sliceTo buf want
    else
      let wantMax := if want + uint32Size > size then size else want + uint32Size
      match readMore r buf size hasFull wantMax with
      | none => .error
      | some buf => cutChecksum buf want

/-- `readXLMetaNoData` of a size that is not negative. -/
def readXLMetaNoDataSized (readDefault : Nat) (r : Bytes) (size : Nat) : ReadOutcome :=
  let initial := if size > readDefault then readDefault else size
  let hasFull : Bool := decide (size ≤ readDefault)
  if r.length < initial then .error
  else
    let buf := r.take initial
    match checkXL2V1 buf with
    | none => .ofOption (readMore r buf size hasFull size)
    | some (tmp, major, minor) =>
      if major = 1 then
        if minor = 0 then .ofOption (readMore r buf size hasFull size)
        else if minor = 1 ∨ minor = 2 then readMetadataSlices r buf tmp size hasFull minor
        else .error
      else .error

/-- `readXLMetaNoData`. -/
def readXLMetaNoDataSlices (readDefault : Nat) (r : Bytes) : Int → ReadOutcome
  | .ofNat size => readXLMetaNoDataSized readDefault r size
  | .negSucc _ => .panics

/-! ## The read of `FileFormat` -/

theorem cutChecksum_toOption (buf : Bytes) (want : Nat) :
    (cutChecksum buf want).toOption =
      (readUint32Bytes (buf.drop want)).map fun (_, after) =>
        buf.take (want + ((buf.drop want).length - after.length)) := by
  unfold cutChecksum sliceFrom
  split
  next hslice =>
    have hlong : ¬ want ≤ buf.length := by
      intro hle
      rw [if_pos hle] at hslice
      cases hslice
    have hnil : buf.drop want = [] := List.drop_eq_nil_of_le (Nat.le_of_not_le hlong)
    rw [hnil]
    rfl
  next tmp hslice =>
    split at hslice
    next hle =>
      cases hslice
      split
      next hread => rw [hread]; rfl
      next crc after hread =>
        have hcut : want + ((buf.drop want).length - after.length) ≤ buf.length := by
          rw [List.length_drop]
          omega
        rw [sliceTo, if_pos hcut, hread]
        rfl
    next => cases hslice

theorem le_length_of_readMore {r buf buf' : Bytes} {size n : Nat} {hasFull : Bool}
    (hmore : readMore r buf size hasFull n = some buf') : n ≤ buf'.length := by
  unfold readMore at hmore
  split at hmore
  next hhas =>
    cases hmore
    exact hhas
  next =>
    split at hmore
    next => cases hmore
    next =>
      split at hmore
      next hlong =>
        cases hmore
        rw [List.length_take, Nat.min_eq_left hlong]
      next => cases hmore

theorem readMetadataSlices_toOption (r buf tmp : Bytes) (size : Nat) (hasFull : Bool)
    (minor : Nat) :
    (readMetadataSlices r buf tmp size hasFull minor).toOption =
      readMetadataOnly r buf tmp size hasFull minor := by
  unfold readMetadataSlices readMetadataOnly
  cases readBytesHeader tmp with
  | none => rfl
  | some header =>
    obtain ⟨sz, tmp⟩ := header
    rw [Option.bind_some]
    dsimp only
    split
    next =>
      cases hmore : readMore r buf size hasFull (sz + (buf.length - tmp.length)) with
      | none => rfl
      | some more =>
        dsimp only
        rw [sliceTo, if_pos (le_length_of_readMore hmore)]
        rfl
    next =>
      cases readMore r buf size hasFull _ with
      | none => rfl
      | some more => exact cutChecksum_toOption more _

theorem readXLMetaNoDataSized_toOption (readDefault : Nat) (r : Bytes) (size : Nat) :
    (readXLMetaNoDataSized readDefault r size).toOption =
      readXLMetaNoDataFrom readDefault r size := by
  unfold readXLMetaNoDataSized readXLMetaNoDataFrom
  dsimp only
  generalize (if size > readDefault then readDefault else size) = initial
  split
  next => rfl
  next =>
    cases checkXL2V1 (r.take initial) with
    | none => exact ReadOutcome.toOption_ofOption _
    | some header =>
      obtain ⟨tmp, major, minor⟩ := header
      dsimp only
      split
      next =>
        split
        next => exact ReadOutcome.toOption_ofOption _
        next =>
          split
          next => exact readMetadataSlices_toOption _ _ _ _ _ _
          next => rfl
      next => rfl

/-! ## When a slice is out of range -/

theorem cutChecksum_panics_iff {buf : Bytes} {want : Nat} :
    cutChecksum buf want = .panics ↔ buf.length < want := by
  unfold cutChecksum sliceFrom
  by_cases hle : want ≤ buf.length
  · rw [if_pos hle]
    dsimp only
    refine ⟨fun hpanics => ?_, fun hlt => absurd hle (Nat.not_le.mpr hlt)⟩
    cases hread : readUint32Bytes (buf.drop want) with
    | none =>
      rw [hread] at hpanics
      cases hpanics
    | some read =>
      obtain ⟨crc, after⟩ := read
      have hcut : want + ((buf.drop want).length - after.length) ≤ buf.length := by
        rw [List.length_drop]
        omega
      rw [hread] at hpanics
      dsimp only at hpanics
      rw [sliceTo, if_pos hcut] at hpanics
      cases hpanics
  · rw [if_neg hle]
    exact ⟨fun _ => Nat.not_le.mp hle, fun _ => rfl⟩

theorem readMore_size {r buf buf' : Bytes} {size : Nat} {hasFull : Bool} {initial : Nat}
    (hbuf : buf = r.take initial) (hinitial : initial ≤ r.length) (hle : initial ≤ size)
    (hmore : readMore r buf size hasFull size = some buf') : buf'.length = size := by
  have hlength : buf.length = initial := by rw [hbuf, List.length_take, Nat.min_eq_left hinitial]
  unfold readMore at hmore
  rw [hlength] at hmore
  split at hmore
  next hhas =>
    cases hmore
    rw [hlength]
    exact Nat.le_antisymm hle hhas
  next =>
    split at hmore
    next => cases hmore
    next =>
      split at hmore
      next hlong =>
        cases hmore
        rw [List.length_take, Nat.min_eq_left hlong]
      next => cases hmore

theorem exists_readMore_size {r buf : Bytes} {size : Nat} {hasFull : Bool} {initial : Nat}
    (hbuf : buf = r.take initial) (hinitial : initial ≤ r.length)
    (hfull : hasFull = true → size ≤ initial) (hsize : size ≤ r.length) :
    ∃ buf', readMore r buf size hasFull size = some buf' := by
  have hlength : buf.length = initial := by rw [hbuf, List.length_take, Nat.min_eq_left hinitial]
  unfold readMore
  rw [hlength]
  split
  next => exact ⟨_, rfl⟩
  next hlt =>
    have hpartial : ¬ (hasFull = true ∨ size < size) := by
      rintro (htrue | hself)
      · exact hlt (hfull htrue)
      · exact absurd hself (Nat.lt_irrefl size)
    simp only [if_neg hpartial]
    exact ⟨_, rfl⟩

/-- The branch for the header panics exactly when the file has its declared
size and announces metadata beyond it, with a checksum behind. -/
theorem readMetadataSlices_panics_iff {r buf tmp : Bytes} {size initial minor : Nat}
    {hasFull : Bool} (hbuf : buf = r.take initial) (hinitial : initial ≤ r.length)
    (hle : initial ≤ size) (hfull : hasFull = true → size ≤ initial) :
    readMetadataSlices r buf tmp size hasFull minor = .panics ↔
      2 ≤ minor ∧ size ≤ r.length ∧
        ∃ sz rest, readBytesHeader tmp = some (sz, rest) ∧
          size < sz + (buf.length - rest.length) := by
  unfold readMetadataSlices
  cases readBytesHeader tmp with
  | none =>
    refine ⟨nofun, ?_⟩
    rintro ⟨-, -, sz, rest, hheader, -⟩
    cases hheader
  | some header =>
    obtain ⟨sz, rest⟩ := header
    dsimp only
    generalize hwant : sz + (buf.length - rest.length) = want
    have hexists : (∃ sz' rest', some (sz, rest) = some (sz', rest') ∧
        size < sz' + (buf.length - rest'.length)) ↔ size < want := by
      constructor
      · rintro ⟨sz', rest', heq, hlt⟩
        cases heq
        exact hwant ▸ hlt
      · exact fun hlt => ⟨sz, rest, rfl, hwant.symm ▸ hlt⟩
    rw [hexists]
    split
    next hminor =>
      refine ⟨fun hpanics => ?_, fun h => absurd h.1 (Nat.not_le.mpr hminor)⟩
      cases hmore : readMore r buf size hasFull want with
      | none =>
        rw [hmore] at hpanics
        cases hpanics
      | some more =>
        rw [hmore] at hpanics
        dsimp only at hpanics
        rw [sliceTo, if_pos (le_length_of_readMore hmore)] at hpanics
        cases hpanics
    next hminor =>
      by_cases hlong : size < want
      · -- The clamp asks for the whole file, which is too short.
        have hclamp : (if want + uint32Size > size then size else want + uint32Size) = size :=
          if_pos (hlong.trans_le (Nat.le_add_right _ _))
        rw [hclamp]
        constructor
        · intro hpanics
          refine ⟨Nat.le_of_not_lt hminor, ?_, hlong⟩
          cases hmore : readMore r buf size hasFull size with
          | none =>
            rw [hmore] at hpanics
            cases hpanics
          | some more =>
            have hlength := readMore_size hbuf hinitial hle hmore
            unfold readMore at hmore
            split at hmore
            next hhas =>
              refine hhas.trans ?_
              rw [hbuf]
              exact List.length_take_le' _ _
            next =>
              split at hmore
              next => cases hmore
              next =>
                split at hmore
                next hsize => exact hsize
                next => cases hmore
        · rintro ⟨-, hsize, -⟩
          obtain ⟨more, hmore⟩ := exists_readMore_size hbuf hinitial hfull hsize
          rw [hmore]
          exact cutChecksum_panics_iff.mpr
            ((readMore_size hbuf hinitial hle hmore).symm ▸ hlong)
      · refine ⟨fun hpanics => ?_, fun h => absurd h.2.2 hlong⟩
        generalize hmax : (if want + uint32Size > size then size else want + uint32Size) =
          wantMax at hpanics
        have henough : want ≤ wantMax := by
          split at hmax
          · exact hmax ▸ Nat.le_of_not_lt hlong
          · exact hmax ▸ Nat.le_add_right _ _
        cases hmore : readMore r buf size hasFull wantMax with
        | none =>
          rw [hmore] at hpanics
          cases hpanics
        | some more =>
          rw [hmore] at hpanics
          exact absurd (henough.trans (le_length_of_readMore hmore))
            (Nat.not_le.mpr (cutChecksum_panics_iff.mp hpanics))

/-- Where the metadata of a file ends, as the bytes that were read first announce it. -/
def announcedEnd (buf : Bytes) : Option Nat :=
  (checkXL2V1 buf).bind fun (tmp, major, minor) =>
    if major = 1 ∧ minor = 2 then
      (readBytesHeader tmp).map fun (sz, rest) => sz + (buf.length - rest.length)
    else none

def Overruns (readDefault : Nat) (r : Bytes) (size : Nat) : Prop :=
  size ≤ r.length ∧ ∃ want, announcedEnd (r.take (min readDefault size)) = some want ∧ size < want

theorem readXLMetaNoDataSized_panics_iff {readDefault : Nat} {r : Bytes} {size : Nat} :
    readXLMetaNoDataSized readDefault r size = .panics ↔ Overruns readDefault r size := by
  unfold readXLMetaNoDataSized Overruns
  have hmin : (if size > readDefault then readDefault else size) = min readDefault size := by
    split <;> omega
  have hfull : decide (size ≤ readDefault) = true → size ≤ min readDefault size := by
    intro hle
    have := of_decide_eq_true hle
    omega
  have hle : min readDefault size ≤ size := Nat.min_le_right _ _
  dsimp only
  rw [hmin]
  generalize decide (size ≤ readDefault) = hasFull at hfull
  generalize min readDefault size = initial at hfull hle
  split
  next hshort =>
    refine ⟨nofun, ?_⟩
    rintro ⟨hsize, -⟩
    exact absurd (hle.trans hsize) (Nat.not_le.mpr hshort)
  next hinitial =>
    rw [Nat.not_lt] at hinitial
    unfold announcedEnd
    cases checkXL2V1 (r.take initial) with
    | none =>
      refine ⟨fun hpanics => absurd hpanics (ReadOutcome.ofOption_ne_panics _), ?_⟩
      rintro ⟨-, want, hend, -⟩
      cases hend
    | some header =>
      obtain ⟨tmp, major, minor⟩ := header
      rw [Option.bind_some]
      dsimp only
      by_cases hversion : major = 1 ∧ minor = 2
      · obtain ⟨rfl, rfl⟩ := hversion
        rw [if_pos rfl, if_neg (by decide), if_pos (Or.inr rfl), if_pos ⟨rfl, rfl⟩,
          readMetadataSlices_panics_iff rfl hinitial hle hfull]
        simp only [Option.map_eq_some_iff, Prod.exists]
        constructor
        · rintro ⟨-, hsize, sz, rest, hheader, hlong⟩
          exact ⟨hsize, _, ⟨sz, rest, hheader, rfl⟩, hlong⟩
        · rintro ⟨hsize, want, ⟨sz, rest, hheader, rfl⟩, hlong⟩
          exact ⟨Nat.le_refl 2, hsize, sz, rest, hheader, hlong⟩
      · rw [if_neg hversion]
        refine ⟨fun hpanics => ?_, ?_⟩
        · split at hpanics
          next hmajor =>
            split at hpanics
            next => exact absurd hpanics (ReadOutcome.ofOption_ne_panics _)
            next =>
              split at hpanics
              next hminor =>
                rw [readMetadataSlices_panics_iff rfl hinitial hle hfull] at hpanics
                have hold : minor = 1 := hminor.resolve_right fun htwo =>
                  hversion ⟨hmajor, htwo⟩
                exact absurd hpanics.1 (by rw [hold]; decide)
              next => cases hpanics
          next => cases hpanics
        · rintro ⟨-, want, hend, -⟩
          cases hend

/-- A read of a file with any first read, any bytes and any declared size gives
bytes or an error exactly when the size is not negative and the file does not
announce metadata behind its end. -/
theorem readXLMetaNoDataSlices_returns_iff (readDefault : Nat) (r : Bytes) (size : Int) :
    readXLMetaNoDataSlices readDefault r size ≠ .panics ↔
      0 ≤ size ∧ ¬ Overruns readDefault r size.toNat := by
  cases size with
  | ofNat size =>
    rw [readXLMetaNoDataSlices, Ne, readXLMetaNoDataSized_panics_iff]
    exact ⟨fun hruns => ⟨Int.natCast_nonneg size, hruns⟩, fun hruns => hruns.2⟩
  | negSucc size =>
    refine ⟨fun hreturns => absurd rfl hreturns, fun hsize => ?_⟩
    exact absurd (Int.negSucc_lt_zero size) (Int.not_lt.mpr hsize.1)

def cutFile : Bytes := xlHeader ++ xlVersionCurrent ++ [0xc4, 100]

/-- A file that was cut behind the length of its metadata is sliced at a
position it does not have. -/
theorem cutFile_panics :
    readXLMetaNoDataSlices readDefault cutFile cutFile.length = .panics := by
  decide

end Fs3
