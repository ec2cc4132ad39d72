import Fs3.Runtime.Uuid
import Fs3.Storage.FileInfo

/-! # The version journal of an object

`xl.meta` holds a list of versions of three kinds (objects, delete markers and one legacy object)
and the data of the small ones. A version is modelled by the one pointer its type selects:
`invalid` stands for a type out of range and for a type whose pointer is nil. -/

namespace Fs3

inductive ErasureAlgo where
  | invalidErasureAlgo
  | reedSolomon
  | lastErasureAlgo
  deriving DecidableEq, Repr

namespace ErasureAlgo

def valid (algo : ErasureAlgo) : Bool := algo == reedSolomon

def toText : ErasureAlgo → String
  | reedSolomon => "reedsolomon"
  | _ => ""

end ErasureAlgo

inductive ChecksumAlgo where
  | invalidChecksumAlgo
  | highwayHash
  | lastChecksumAlgo
  deriving DecidableEq, Repr

def ChecksumAlgo.valid (algo : ChecksumAlgo) : Bool := algo == highwayHash

structure XlMetaV2DeleteMarker where
  versionID : UUID
  modTime : Int
  metaSys : Metadata
  deriving DecidableEq

structure XlMetaV2Object where
  versionID : UUID
  dataDir : UUID
  erasureAlgorithm : ErasureAlgo
  erasureM : Int
  erasureN : Int
  erasureBlockSize : Int
  erasureIndex : Int
  erasureDist : List UInt8
  bitrotChecksumAlgo : ChecksumAlgo
  partNumbers : List Int
  partETags : List String
  partSizes : List Int
  partActualSizes : List Int
  size : Int
  modTime : Int
  metaSys : Metadata
  metaUser : Metadata
  deriving DecidableEq

structure StatInfo where
  size : Int := 0
  modTime : Time := Time.zero
  deriving DecidableEq, Repr

/-- The contents of an `xl.json` file. -/
structure XlMetaV1Object where
  version : String := ""
  format : String := ""
  stat : StatInfo := {}
  erasure : ErasureInfo := {}
  metaData : Metadata := ∅
  parts : List ObjectPartInfo := []
  versionID : String := ""
  dataDir : String := ""
  deriving DecidableEq

/-- A legacy object as a journal holds it: `addLegacy` is the only way in, and
it stores the object under the null id with its parts in the legacy directory. -/
structure LegacyObject extends XlMetaV1Object where
  versionID_eq : versionID = nullVersionID
  dataDir_eq : dataDir = legacyDataDir
  deriving DecidableEq

def isXLMetaErasureInfoValid (data parity : Int) : Bool :=
  decide (parity ≤ data) && decide (data ≠ 0) && decide (parity ≠ 0)

/-- Whether an `xl.json` has a version and a format this code knows. -/
def isXLMetaFormatValid (version format : String) : Bool :=
  (version == "1.0.1" || version == "1.0.0") && format == "xl"

def XlMetaV1Object.valid (m : XlMetaV1Object) : Bool :=
  isXLMetaFormatValid m.version m.format &&
    isXLMetaErasureInfoValid m.erasure.dataBlocks m.erasure.parityBlocks

inductive XlMetaV2Version where
  | invalid
  | objectType (object : XlMetaV2Object)
  | deleteType (marker : XlMetaV2DeleteMarker)
  | legacyType (object : LegacyObject)
  deriving DecidableEq

namespace XlMetaV2Version

/-- `xlMetaV2Version.Valid`. -/
def valid : XlMetaV2Version → Bool
  | invalid => false
  | legacyType object => object.toXlMetaV1Object.valid
  | objectType object =>
    object.erasureAlgorithm.valid && object.bitrotChecksumAlgo.valid &&
      isXLMetaErasureInfoValid object.erasureM object.erasureN && decide (0 < object.modTime)
  | deleteType marker => decide (0 < marker.modTime)

/-- `getModTimeFromVersion`. -/
def modTime : XlMetaV2Version → Time
  | invalid => Time.zero
  | objectType object => Time.ofUnixNano object.modTime
  | deleteType marker => Time.ofUnixNano marker.modTime
  | legacyType object => object.stat.modTime

def uuid : XlMetaV2Version → UUID
  | invalid => 0
  | objectType object => object.versionID
  | deleteType marker => marker.versionID
  | legacyType _ => 0

def isLegacy : XlMetaV2Version → Bool
  | legacyType _ => true
  | _ => false

/-- How the journal's loops compare a version with a requested id: by uuid for
the two newer kinds, by the text of the id for a legacy object. -/
def answersTo (uv : UUID) (versionID : String) : XlMetaV2Version → Bool
  | invalid => false
  | objectType object => object.versionID == uv
  | deleteType marker => marker.versionID == uv
  | legacyType object => object.versionID == versionID

theorem answersTo_legacy {uv : UUID} {versionID : String} {object : LegacyObject} :
    (legacyType object).answersTo uv versionID = true ↔ versionID = nullVersionID := by
  rw [answersTo, object.versionID_eq, beq_iff_eq, eq_comm]

theorem answersTo_of_not_legacy {version : XlMetaV2Version} {uv : UUID} {versionID : String}
    (hvalid : version.valid = true) (hlegacy : version.isLegacy = false) :
    version.answersTo uv versionID = true ↔ version.uuid = uv := by
  cases version with
  | invalid => cases hvalid
  | legacyType => cases hlegacy
  | objectType object => exact beq_iff_eq
  | deleteType marker => exact beq_iff_eq

end XlMetaV2Version

/-! ## Inline data -/

/-- The data of small versions, as the serialized pairs of the file in order. -/
abbrev XlMetaInlineData := List (String × Bytes)

namespace XlMetaInlineData

/-- The data under a key; `none` is a nil slice. -/
def find : XlMetaInlineData → String → Option Bytes
  | [], _ => none
  | entry :: rest, key => if entry.1 = key then some entry.2 else find rest key

def overwrite (x : XlMetaInlineData) (key : String) (value : Bytes) : XlMetaInlineData :=
  x.map fun entry => if entry.1 = key then (entry.1, value) else entry

def replace (x : XlMetaInlineData) (key : String) (value : Bytes) : XlMetaInlineData :=
  if (x.find key).isSome then x.overwrite key value else x ++ [(key, value)]

def remove (x : XlMetaInlineData) (keys : List String) : XlMetaInlineData :=
  x.filter fun entry => !keys.contains entry.1

def validate (x : XlMetaInlineData) : Bool := x.all fun entry => entry.1 != ""

theorem find_overwrite (x : XlMetaInlineData) (key other : String) (value : Bytes) :
    (x.overwrite key value).find other =
      if other = key then (x.find key).map fun _ => value else x.find other := by
  induction x with
  | nil => simp [overwrite, find]
  | cons entry rest ih =>
    unfold overwrite at ih
    by_cases hentry : entry.1 = key
    · by_cases hother : other = key
      · simp [overwrite, find, hentry, hother]
      · have hne : ¬ entry.1 = other := fun heq => hother (heq.symm.trans hentry)
        simpa [overwrite, find, hentry, hother, Ne.symm hother] using ih
    · by_cases hother : other = key
      · subst other
        simpa [overwrite, find, hentry] using ih
      · simp only [overwrite, List.map_cons, if_neg hentry, find, ih, if_neg hother]

theorem find_append (x y : XlMetaInlineData) (key : String) :
    find (x ++ y) key = (x.find key).or (y.find key) := by
  induction x with
  | nil => simp [find]
  | cons entry rest ih =>
    rw [List.cons_append, find, find, ih]
    split <;> rfl

theorem find_replace (x : XlMetaInlineData) (key other : String) (value : Bytes) :
    (x.replace key value).find other = if other = key then some value else x.find other := by
  unfold replace
  split
  next hsome =>
    obtain ⟨old, hold⟩ := Option.isSome_iff_exists.mp hsome
    rw [find_overwrite, hold, Option.map_some]
  next hnone =>
    rw [Option.not_isSome_iff_eq_none] at hnone
    rw [find_append]
    by_cases hother : other = key
    · subst other
      simp [hnone, find]
    · rw [if_neg hother]
      simp [find, Ne.symm hother]

end XlMetaInlineData

/-- The journal: the versions in the order they were added, and inline data. -/
structure XlMetaV2 where
  versions : List XlMetaV2Version := []
  data : XlMetaInlineData := []
  deriving DecidableEq

namespace XlMetaV2

def AllValid (z : XlMetaV2) : Prop := ∀ version ∈ z.versions, version.valid = true

/-- The journal is a finite map: every version can be read and no id is held
by two versions. -/
structure WellFormed (z : XlMetaV2) : Prop where
  allValid : z.AllValid
  nodup : (z.versions.map XlMetaV2Version.uuid).Nodup

instance (z : XlMetaV2) : Decidable z.AllValid := by
  unfold AllValid
  infer_instance

end XlMetaV2

end Fs3
