import Fs3.Foundation.DescendingSort
import Fs3.Journal.Format

/-! # Reading a version back from the journal

A lookup sorts the versions by modification time and keeps the last one that answers to the
requested id; the empty id asks for the latest version. The sort is not stable, so it is a
parameter: any sort by descending modification time. -/

namespace Fs3

open Foundation

/-- What a loop over a map leaves in a variable it assigns at every key that is
`key` up to case. -/
def headerValue (metaSys : Metadata) (key : String) : String :=
  (metaSys.toList.filter fun entry => equals entry.1 [key]).getLast?.elim "" Prod.snd

def zipParts : List Int → List String → List Int → List Int → List ObjectPartInfo
  | number :: numbers, eTag :: eTags, size :: sizes, actualSize :: actualSizes =>
    { eTag, number, size, actualSize } :: zipParts numbers eTags sizes actualSizes
  | _, _, _, _ => []

/-- The id of a version in a `FileInfo`: the null version has no id. -/
def uuidText (uuid : UuidPackage) (uv : UUID) : String := if uv = 0 then "" else uuid.print uv

/-- The uuid an id stands for: no id and `null` are the zero uuid. -/
def parseVersionID (uuid : UuidPackage) (versionID : String) : Option UUID :=
  if versionID = "" ∨ versionID = nullVersionID then some 0 else uuid.parse versionID

theorem parseVersionID_empty (uuid : UuidPackage) : parseVersionID uuid "" = some 0 := rfl

theorem parseVersionID_null (uuid : UuidPackage) :
    parseVersionID uuid nullVersionID = some 0 := rfl

theorem parseVersionID_uuidText (uuid : UuidPackage) (uv : UUID) :
    parseVersionID uuid (uuidText uuid uv) = some uv := by
  unfold uuidText
  split
  next hzero => rw [hzero, parseVersionID_empty]
  next =>
    rw [parseVersionID, if_neg, uuid.parse_print]
    rintro (hempty | hnull)
    · exact uuid.print_ne_empty uv hempty
    · exact uuid.print_ne_null uv hnull

section Records

variable (uuid : UuidPackage) (volume path : String)

/-- `xlMetaV2DeleteMarker.ToFileInfo`. -/
def XlMetaV2DeleteMarker.toFileInfo (j : XlMetaV2DeleteMarker) : FileInfo where
  volume := volume
  name := path
  modTime := Time.ofUnixNano j.modTime
  versionID := uuidText uuid j.versionID
  deleted := true
  deleteMarkerReplicationStatus := headerValue j.metaSys amzBucketReplicationStatus
  versionPurgeStatus := headerValue j.metaSys versionPurgeStatusKey

namespace XlMetaV2Object

def parts (j : XlMetaV2Object) : List ObjectPartInfo :=
  zipParts j.partNumbers j.partETags j.partSizes j.partActualSizes

/-- User metadata without the two headers that belong to the encryption layer,
and the reserved part of the system metadata over it. -/
def metadata (j : XlMetaV2Object) : Metadata :=
  j.metaUser.filter (fun key _ =>
      !equals key [amzMetaUnencryptedContentLength, amzMetaUnencryptedContentMD5]) ∪
    j.metaSys.filter fun key _ => !equals key [versionPurgeStatusKey] && isReserved key

/-- What `toFileInfo` returns for a known bitrot algorithm. -/
def fileInfo (j : XlMetaV2Object) : FileInfo where
  volume := volume
  name := path
  size := j.size
  modTime := Time.ofUnixNano j.modTime
  versionID := uuidText uuid j.versionID
  parts := j.parts
  erasure :=
    { algorithm := j.erasureAlgorithm.toText
      dataBlocks := j.erasureM
      parityBlocks := j.erasureN
      blockSize := j.erasureBlockSize
      index := j.erasureIndex
      distribution := j.erasureDist.map fun block => (block.toNat : Int)
      checksums := j.parts.map fun part =>
        { partNumber := part.number, algorithm := .highwayHash256S, hash := [] } }
  metadata := j.metadata
  versionPurgeStatus := headerValue j.metaSys versionPurgeStatusKey
  dataDir := uuid.print j.dataDir
  transitionStatus := j.metaSys.getD transitionStatusKey ""
  transitionedObjName := j.metaSys.getD transitionedObjectNameKey ""
  transitionVersionID := j.metaSys.getD transitionedVersionIDKey ""
  transitionTier := j.metaSys.getD transitionTierKey ""

/-- `xlMetaV2Object.ToFileInfo`. -/
def toFileInfo (j : XlMetaV2Object) : Except StorageErr FileInfo :=
  if j.parts ≠ [] ∧ j.bitrotChecksumAlgo ≠ .highwayHash then
    .error (.unexpected "unknown BitrotChecksumAlgo")
  else .ok (j.fileInfo uuid volume path)

end XlMetaV2Object

namespace XlMetaV1Object

def fileInfo (m : XlMetaV1Object) : FileInfo where
  volume := volume
  name := path
  modTime := m.stat.modTime
  size := m.stat.size
  metadata := m.metaData
  parts := m.parts
  erasure := m.erasure
  versionID := m.versionID
  dataDir := m.dataDir

/-- `xlMetaV1Object.ToFileInfo`. -/
def toFileInfo (m : XlMetaV1Object) : Except StorageErr FileInfo :=
  if m.valid then .ok (m.fileInfo volume path) else .error .errFileCorrupt

end XlMetaV1Object

namespace XlMetaV2Version

def fileInfo : XlMetaV2Version → FileInfo
  | invalid => {}
  | objectType object => object.fileInfo uuid volume path
  | deleteType marker => marker.toFileInfo uuid volume path
  | legacyType object => object.fileInfo volume path

def toFileInfo : XlMetaV2Version → Except StorageErr FileInfo
  | invalid => .ok {}
  | objectType object => object.toFileInfo uuid volume path
  | deleteType marker => .ok (marker.toFileInfo uuid volume path)
  | legacyType object => object.toXlMetaV1Object.toFileInfo volume path

theorem toFileInfo_of_valid {version : XlMetaV2Version} (hvalid : version.valid = true) :
    version.toFileInfo uuid volume path = .ok (version.fileInfo uuid volume path) := by
  cases version with
  | invalid => rfl
  | objectType object =>
    have halgo : object.bitrotChecksumAlgo = .highwayHash := by
      simp only [valid, ChecksumAlgo.valid, Bool.and_eq_true, beq_iff_eq] at hvalid
      exact hvalid.1.1.2
    rw [toFileInfo, XlMetaV2Object.toFileInfo, if_neg fun h => h.2 halgo]
    rfl
  | deleteType => rfl
  | legacyType object => exact if_pos hvalid

@[simp]
theorem fileInfo_modTime (version : XlMetaV2Version) :
    (version.fileInfo uuid volume path).modTime = version.modTime := by
  cases version <;> rfl

theorem fileInfo_static (version : XlMetaV2Version) :
    version.fileInfo uuid volume path =
      { version.fileInfo uuid volume path with
        isLatest := false, numVersions := 0, successorModTime := Time.zero } := by
  cases version <;> rfl

end XlMetaV2Version

/-- A `FileInfo` without the fields a lookup fills in from the versions around
the one it found. -/
def FileInfo.static (fi : FileInfo) : FileInfo :=
  { fi with isLatest := false, numVersions := 0, successorModTime := Time.zero }

@[simp]
theorem XlMetaV2Version.static_fileInfo (version : XlMetaV2Version) :
    (version.fileInfo uuid volume path).static = version.fileInfo uuid volume path :=
  (version.fileInfo_static uuid volume path).symm

namespace XlMetaV2

variable (sorter : DescendingSort XlMetaV2Version.modTime)

/-- `xlMetaV2.ToFileInfo`. The loop over the sorted versions does not stop at a
match, its `break` only leaves the switch. -/
def toFileInfo (z : XlMetaV2) (versionID : String) : Except StorageErr FileInfo :=
  match parseVersionID uuid versionID with
  | none => .error .errFileVersionNotFound
  | some uv =>
    if z.versions.all XlMetaV2Version.valid then
      let orderedVersions := sorter.sort z.versions
      if versionID = "" then
        match orderedVersions with
        | [] => .error .errFileNotFound
        | latest :: _ => (latest.toFileInfo uuid volume path).map fun fi =>
          { fi with isLatest := true, numVersions := orderedVersions.length }
      else
        match lastMatch (XlMetaV2Version.answersTo uv versionID) orderedVersions with
        | none => .error .errFileVersionNotFound
        | some (version, foundIndex) => (version.toFileInfo uuid volume path).map fun fi =>
          { fi with
            isLatest := foundIndex == 0
            numVersions := z.versions.length
            successorModTime :=
              if 0 < foundIndex then
                orderedVersions[foundIndex - 1]?.elim Time.zero XlMetaV2Version.modTime
              else fi.successorModTime }
    else .error (if versionID = "" then .errFileNotFound else .errFileVersionNotFound)

def record (z : XlMetaV2) (versionID : String) : Except StorageErr FileInfo :=
  (z.toFileInfo uuid volume path sorter versionID).map FileInfo.static

end XlMetaV2

end Records

namespace XlMetaV2

variable {uuid : UuidPackage} {volume path : String}
variable {sorter : DescendingSort XlMetaV2Version.modTime}
variable {z : XlMetaV2} {versionID : String} {uv : UUID}

def Oldest (z : XlMetaV2) (uv : UUID) (versionID : String) (version : XlMetaV2Version) : Prop :=
  version ∈ z.versions ∧ version.answersTo uv versionID = true ∧
    ∀ other ∈ z.versions, other.answersTo uv versionID = true → version.modTime ≤ other.modTime

theorem allValid_iff : z.versions.all XlMetaV2Version.valid = true ↔ z.AllValid :=
  List.all_eq_true

theorem toFileInfo_of_parse_none (hparse : parseVersionID uuid versionID = none) :
    z.toFileInfo uuid volume path sorter versionID = .error .errFileVersionNotFound := by
  rw [toFileInfo, hparse]

theorem toFileInfo_of_none (hvalid : z.AllValid)
    (hnone : ∀ version ∈ z.versions, version.answersTo uv versionID = false)
    (hparse : parseVersionID uuid versionID = some uv) (hne : versionID ≠ "") :
    z.toFileInfo uuid volume path sorter versionID = .error .errFileVersionNotFound := by
  have hlast : lastMatch (XlMetaV2Version.answersTo uv versionID) (sorter.sort z.versions) =
      none := by
    rw [lastMatch_eq_none]
    exact fun version hmem => hnone version (sorter.mem_sort.mp hmem)
  rw [toFileInfo, hparse]
  simp only [allValid_iff.mpr hvalid, if_true, if_neg hne, hlast]

theorem allValid_of_toFileInfo {fi : FileInfo}
    (h : z.toFileInfo uuid volume path sorter versionID = .ok fi) : z.AllValid := by
  rw [← allValid_iff]
  by_contra hinvalid
  unfold toFileInfo at h
  split at h
  · cases h
  · rw [if_neg hinvalid] at h
    cases h

theorem record_of_lastMatch (hvalid : z.AllValid) {version : XlMetaV2Version} {foundIndex : Nat}
    (hparse : parseVersionID uuid versionID = some uv) (hne : versionID ≠ "")
    (hlast : lastMatch (XlMetaV2Version.answersTo uv versionID) (sorter.sort z.versions) =
      some (version, foundIndex)) :
    z.record uuid volume path sorter versionID = .ok (version.fileInfo uuid volume path) := by
  have hversion := hvalid version (sorter.mem_sort.mp (mem_of_lastMatch hlast).1)
  rw [record, toFileInfo, hparse]
  simp only [allValid_iff.mpr hvalid, if_true, if_neg hne, hlast,
    XlMetaV2Version.toFileInfo_of_valid uuid volume path hversion, Except.map]
  rw [← version.static_fileInfo]
  rfl

variable (volume path sorter) in
theorem exists_record (hvalid : z.AllValid) (hparse : parseVersionID uuid versionID = some uv)
    (hne : versionID ≠ "")
    (hsome : ∃ version ∈ z.versions, version.answersTo uv versionID = true) :
    ∃ version, z.Oldest uv versionID version ∧
      z.record uuid volume path sorter versionID = .ok (version.fileInfo uuid volume path) := by
  cases hlast : lastMatch (XlMetaV2Version.answersTo uv versionID) (sorter.sort z.versions) with
  | none =>
    obtain ⟨version, hmem, hanswers⟩ := hsome
    have hnone := lastMatch_eq_none.mp hlast version (sorter.mem_sort.mpr hmem)
    rw [hanswers] at hnone
    cases hnone
  | some found =>
    obtain ⟨version, foundIndex⟩ := found
    have hfound := mem_of_lastMatch hlast
    exact ⟨version, ⟨sorter.mem_sort.mp hfound.1, hfound.2,
      fun other hmem hother => sorter.lastMatch_le hlast hmem hother⟩,
      record_of_lastMatch hvalid hparse hne hlast⟩

variable (volume path) in
theorem exists_sorter_record (hvalid : z.AllValid)
    (hparse : parseVersionID uuid versionID = some uv) (hne : versionID ≠ "")
    {version : XlMetaV2Version} (holdest : z.Oldest uv versionID version) :
    z.record uuid volume path (DescendingSort.putLast _ version) versionID =
      .ok (version.fileInfo uuid volume path) := by
  obtain ⟨foundIndex, hlast⟩ := DescendingSort.putLast_lastMatch holdest.1 holdest.2.1 holdest.2.2
  exact record_of_lastMatch hvalid hparse hne hlast

variable (volume path sorter) in
theorem record_of_unique (hvalid : z.AllValid) (hparse : parseVersionID uuid versionID = some uv)
    (hne : versionID ≠ "") {version : XlMetaV2Version} (hmem : version ∈ z.versions)
    (hanswers : version.answersTo uv versionID = true)
    (hunique : ∀ other ∈ z.versions, other.answersTo uv versionID = true → other = version) :
    z.record uuid volume path sorter versionID = .ok (version.fileInfo uuid volume path) := by
  obtain ⟨found, holdest, hrecord⟩ := exists_record volume path sorter
    hvalid hparse hne ⟨version, hmem, hanswers⟩
  rwa [hunique found holdest.1 holdest.2.1] at hrecord

variable (volume path sorter) in
theorem exists_toFileInfo_iff (hvalid : z.AllValid) (hne : versionID ≠ "") :
    (∃ fi, z.toFileInfo uuid volume path sorter versionID = .ok fi) ↔
      ∃ uv, parseVersionID uuid versionID = some uv ∧
        ∃ version ∈ z.versions, version.answersTo uv versionID = true := by
  constructor
  · rintro ⟨fi, hfi⟩
    cases hparse : parseVersionID uuid versionID with
    | none =>
      rw [toFileInfo_of_parse_none hparse] at hfi
      cases hfi
    | some uv =>
      refine ⟨uv, rfl, ?_⟩
      by_contra hnone
      rw [toFileInfo_of_none hvalid (fun version hmem => ?_) hparse hne] at hfi
      · cases hfi
      · by_contra hanswers
        exact hnone ⟨version, hmem, by simpa using hanswers⟩
  · rintro ⟨uv, hparse, hsome⟩
    obtain ⟨version, _, hrecord⟩ := exists_record volume path sorter
      hvalid hparse hne hsome
    unfold record at hrecord
    cases hfi : z.toFileInfo uuid volume path sorter versionID with
    | error => rw [hfi] at hrecord; cases hrecord
    | ok fi => exact ⟨fi, rfl⟩

/-! ## The latest version -/

variable (uuid volume path sorter) in
theorem exists_latest (hvalid : z.AllValid) (hne : z.versions ≠ []) :
    ∃ latest ∈ z.versions, (sorter.sort z.versions).head? = some latest ∧
      (∀ version ∈ z.versions, version.modTime ≤ latest.modTime) ∧
      z.record uuid volume path sorter "" = .ok (latest.fileInfo uuid volume path) := by
  cases hsort : sorter.sort z.versions with
  | nil =>
    have hlength := sorter.length_sort z.versions
    rw [hsort, List.length_nil] at hlength
    exact absurd (List.length_eq_zero_iff.mp hlength.symm) hne
  | cons latest rest =>
    have hmem : latest ∈ z.versions := by
      rw [← sorter.mem_sort, hsort]
      exact List.mem_cons_self
    refine ⟨latest, hmem, rfl, sorter.key_le_head hsort, ?_⟩
    rw [record, toFileInfo, parseVersionID_empty]
    simp only [allValid_iff.mpr hvalid, if_true, hsort,
      XlMetaV2Version.toFileInfo_of_valid uuid volume path (hvalid latest hmem), Except.map]
    rw [← latest.static_fileInfo]
    rfl

theorem toFileInfo_empty_of_nil (hnil : z.versions = []) :
    z.toFileInfo uuid volume path sorter "" = .error .errFileNotFound := by
  have hlength := sorter.length_sort z.versions
  rw [hnil, List.length_nil, List.length_eq_zero_iff] at hlength
  rw [toFileInfo, parseVersionID_empty]
  simp [hnil, hlength]

def notFound (versionID : String) : StorageErr :=
  if versionID = "" then .errFileNotFound else .errFileVersionNotFound

/-- Whether a lookup of an id may return a version; the empty id may return
any of them. -/
def names (uv : UUID) (versionID : String) (version : XlMetaV2Version) : Bool :=
  versionID == "" || version.answersTo uv versionID

/-- A lookup reports that an id is not there exactly when it names nothing. -/
theorem toFileInfo_eq_notFound_iff (hvalid : z.AllValid)
    (hparse : parseVersionID uuid versionID = some uv) :
    z.toFileInfo uuid volume path sorter versionID = .error (notFound versionID) ↔
      ∀ version ∈ z.versions, names uv versionID version = false := by
  by_cases hempty : versionID = ""
  · subst versionID
    constructor
    · intro h
      by_cases hnil : z.versions = []
      · rw [hnil]
        intro version hmem
        cases hmem
      · obtain ⟨latest, _, _, _, hrecord⟩ := exists_latest uuid volume path sorter
          hvalid hnil
        rw [record, h] at hrecord
        cases hrecord
    · intro h
      apply toFileInfo_empty_of_nil
      cases hversions : z.versions with
      | nil => rfl
      | cons version rest =>
        have hnamed := h version (by rw [hversions]; exact List.mem_cons_self)
        simp [names] at hnamed
  · have hnames : ∀ version : XlMetaV2Version,
        names uv versionID version = version.answersTo uv versionID := by
      intro version
      simp [names, hempty]
    rw [notFound, if_neg hempty]
    constructor
    · intro h version hmem
      rw [hnames]
      by_contra hanswers
      rw [Bool.not_eq_false] at hanswers
      obtain ⟨fi, hfi⟩ := (exists_toFileInfo_iff volume path sorter
        hvalid hempty).mpr ⟨uv, hparse, version, hmem, hanswers⟩
      rw [h] at hfi
      cases hfi
    · intro h
      exact toFileInfo_of_none hvalid
        (fun version hmem => (hnames version).symm.trans (h version hmem)) hparse hempty

end XlMetaV2

end Fs3
