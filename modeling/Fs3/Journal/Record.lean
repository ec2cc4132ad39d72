import Fs3.Journal.Frame

/-! # What an added version reads back as

`addVersion` spreads the metadata of a `FileInfo` over two maps and its parts over four arrays, and
a lookup puts them together again. -/

namespace Fs3

open Foundation

theorem toLower_eq_of_equals {key other : String} (h : equals key [other] = true) :
    toLower key = toLower other := by
  simpa [equals] using h

theorem not_isReserved_of_equals {key other : String} (h : equals key [other] = true)
    (hother : isReserved other = false) : isReserved key = false := by
  rw [isReserved, toLower_eq_of_equals h]
  exact hother

def isUnencryptedContent (key : String) : Bool :=
  equals key [amzMetaUnencryptedContentLength, amzMetaUnencryptedContentMD5]

theorem not_isReserved_of_isUnencryptedContent {key : String}
    (h : isUnencryptedContent key = true) : isReserved key = false := by
  have hsplit : equals key [amzMetaUnencryptedContentLength] = true ∨
      equals key [amzMetaUnencryptedContentMD5] = true := by
    simpa [isUnencryptedContent, equals] using h
  rcases hsplit with hlength | hmd5
  · exact not_isReserved_of_equals hlength (by decide)
  · exact not_isReserved_of_equals hmd5 (by decide)

theorem not_equals_versionPurgeStatusKey {key : String} (h : isReserved key = true) :
    equals key [versionPurgeStatusKey] = false := by
  by_contra hequals
  rw [Bool.not_eq_false] at hequals
  rw [not_isReserved_of_equals hequals (by decide)] at h
  cases h

theorem headerValue_of_none {metaSys : Metadata} {key : String}
    (hnone : ∀ other value, metaSys[other]? = some value → equals other [key] = false) :
    headerValue metaSys key = "" := by
  have hfilter : (metaSys.toList.filter fun entry => equals entry.1 [key]) = [] := by
    rw [List.filter_eq_nil_iff]
    intro entry hmem
    have hentry := hnone entry.1 entry.2
      (Std.ExtTreeMap.mem_toList_iff_getElem?_eq_some.mp hmem)
    simp [hentry]
  rw [headerValue, hfilter]
  rfl

theorem getElem?_filter_key (metadata : Metadata) (p : String → Bool) (key : String) :
    (metadata.filter fun key _ => p key)[key]? = if p key then metadata[key]? else none := by
  rw [Std.ExtTreeMap.getElem?_filter']
  cases p key with
  | true => cases metadata[key]? <;> rfl
  | false => cases metadata[key]? <;> rfl

theorem isReserved_transitionStatusKey : isReserved transitionStatusKey = true := by decide

theorem isReserved_transitionedObjectNameKey : isReserved transitionedObjectNameKey = true := by
  decide

theorem isReserved_transitionedVersionIDKey : isReserved transitionedVersionIDKey = true := by
  decide

theorem isReserved_transitionTierKey : isReserved transitionTierKey = true := by decide

theorem zipParts_map (parts : List ObjectPartInfo) :
    zipParts (parts.map ObjectPartInfo.number) (parts.map ObjectPartInfo.eTag)
      (parts.map ObjectPartInfo.size) (parts.map ObjectPartInfo.actualSize) = parts := by
  induction parts with
  | nil => rfl
  | cons part parts ih => simp [zipParts, ih]

theorem toNat_ofInt (block : Int) : ((UInt8.ofInt block).toNat : Int) = block % 256 := by
  rw [UInt8.ofInt, UInt8.toNat_ofNat']
  omega

namespace FileInfo

variable (fi : FileInfo) (uv dd : UUID)

/-- The value stored under a key of the metadata: a transition field that is
set covers the metadata under its reserved key. -/
def storedValue (key : String) : Option String :=
  if fi.transitionTier ≠ "" ∧ key = transitionTierKey then some fi.transitionTier
  else if fi.transitionVersionID ≠ "" ∧ key = transitionedVersionIDKey then
    some fi.transitionVersionID
  else if fi.transitionedObjName ≠ "" ∧ key = transitionedObjectNameKey then
    some fi.transitionedObjName
  else if fi.transitionStatus ≠ "" ∧ key = transitionStatusKey then some fi.transitionStatus
  else fi.metadata[key]?

theorem storedValue_of_not_isReserved {key : String} (hkey : isReserved key = false) :
    fi.storedValue key = fi.metadata[key]? := by
  have hne : ∀ other, isReserved other = true → key ≠ other := by
    rintro other hother rfl
    rw [hkey] at hother
    cases hother
  unfold storedValue
  rw [if_neg fun h => hne _ isReserved_transitionTierKey h.2,
    if_neg fun h => hne _ isReserved_transitionedVersionIDKey h.2,
    if_neg fun h => hne _ isReserved_transitionedObjectNameKey h.2,
    if_neg fun h => hne _ isReserved_transitionStatusKey h.2]

theorem getElem?_metaSys (key : String) :
    fi.metaSys[key]? = if isReserved key then fi.storedValue key else none := by
  unfold metaSys
  simp only [getElem?_insertNonempty, getElem?_filter_key]
  cases hkey : isReserved key with
  | true => rfl
  | false =>
    have hne : ∀ other, isReserved other = true → key ≠ other := by
      rintro other hother rfl
      rw [hkey] at hother
      cases hother
    rw [if_neg fun h => hne _ isReserved_transitionTierKey h.2,
      if_neg fun h => hne _ isReserved_transitionedVersionIDKey h.2,
      if_neg fun h => hne _ isReserved_transitionedObjectNameKey h.2,
      if_neg fun h => hne _ isReserved_transitionStatusKey h.2]
    rfl

theorem getElem?_toObject_metadata (key : String) :
    (fi.toObject uv dd).metadata[key]? =
      if isUnencryptedContent key then none else fi.storedValue key := by
  unfold XlMetaV2Object.metadata toObject
  rw [Std.ExtTreeMap.getElem?_union]
  simp only [getElem?_filter_key, getElem?_metaSys]
  rw [← isUnencryptedContent]
  cases hkey : isReserved key with
  | true =>
    have hheader : isUnencryptedContent key = false := by
      by_contra hheader
      rw [not_isReserved_of_isUnencryptedContent (by simpa using hheader)] at hkey
      cases hkey
    simp [hheader, not_equals_versionPurgeStatusKey hkey]
  | false =>
    rw [storedValue_of_not_isReserved fi hkey]
    cases hheader : isUnencryptedContent key with
    | true => simp
    | false => simp

theorem getD_metaSys {key : String} (hkey : isReserved key = true) :
    fi.metaSys.getD key "" = (fi.storedValue key).getD "" := by
  rw [Std.ExtTreeMap.getD_eq_getD_getElem?, getElem?_metaSys, if_pos hkey]

theorem headerValue_metaSys : headerValue fi.metaSys versionPurgeStatusKey = "" := by
  apply headerValue_of_none
  intro key value hvalue
  rw [getElem?_metaSys] at hvalue
  split at hvalue
  next hkey => exact not_equals_versionPurgeStatusKey hkey
  · cases hvalue

end FileInfo

/-! ## The round trip -/

/-- How much of an object's `FileInfo` comes back from the journal. -/
structure FileInfo.RecordedObject (uuid : UuidPackage) (fi got : FileInfo) : Prop where
  size : got.size = fi.size
  parts : got.parts = fi.parts
  dataBlocks : got.erasure.dataBlocks = fi.erasure.dataBlocks
  parityBlocks : got.erasure.parityBlocks = fi.erasure.parityBlocks
  blockSize : got.erasure.blockSize = fi.erasure.blockSize
  index : got.erasure.index = fi.erasure.index
  distribution : got.erasure.distribution = fi.erasure.distribution.map (· % 256)
  metadata : ∀ key, got.metadata[key]? =
    if isUnencryptedContent key then none else fi.storedValue key
  transitionStatus : got.transitionStatus = (fi.storedValue transitionStatusKey).getD ""
  transitionedObjName :
    got.transitionedObjName = (fi.storedValue transitionedObjectNameKey).getD ""
  transitionVersionID :
    got.transitionVersionID = (fi.storedValue transitionedVersionIDKey).getD ""
  transitionTier : got.transitionTier = (fi.storedValue transitionTierKey).getD ""
  versionPurgeStatus : got.versionPurgeStatus = ""
  dataDir : ∀ dd, parseDataDir uuid fi.dataDir = some dd → got.dataDir = uuid.print dd

/-- How much of a `FileInfo` comes back: a delete marker keeps only its time. -/
structure FileInfo.Recorded (uuid : UuidPackage) (fi got : FileInfo) : Prop where
  deleted : got.deleted = fi.deleted
  modTime : got.modTime = fi.modTime
  object : fi.deleted = false → fi.RecordedObject uuid got

theorem FileInfo.recordedObject_toObject (uuid : UuidPackage) (volume path : String)
    (fi : FileInfo) {uv dd : UUID} (hdir : parseDataDir uuid fi.dataDir = some dd) :
    fi.RecordedObject uuid ((fi.toObject uv dd).fileInfo uuid volume path) where
  size := rfl
  parts := zipParts_map fi.parts
  dataBlocks := rfl
  parityBlocks := rfl
  blockSize := rfl
  index := rfl
  distribution := by
    change (fi.erasure.distribution.map UInt8.ofInt).map (fun block => (block.toNat : Int)) = _
    rw [List.map_map]
    exact List.map_congr_left fun block _ => toNat_ofInt block
  metadata := fi.getElem?_toObject_metadata uv dd
  transitionStatus := fi.getD_metaSys isReserved_transitionStatusKey
  transitionedObjName := fi.getD_metaSys isReserved_transitionedObjectNameKey
  transitionVersionID := fi.getD_metaSys isReserved_transitionedVersionIDKey
  transitionTier := fi.getD_metaSys isReserved_transitionTierKey
  versionPurgeStatus := fi.headerValue_metaSys
  dataDir := by
    intro dd' hdir'
    obtain rfl : dd = dd' := Option.some.inj (hdir.symm.trans hdir')
    rfl

theorem FileInfo.recorded_toVersion (uuid : UuidPackage) (volume path : String)
    (fi : FileInfo) {uv dd : UUID} (hdir : parseDataDir uuid fi.dataDir = some dd)
    (hvalid : (fi.toVersion uv dd).valid = true) :
    fi.Recorded uuid ((fi.toVersion uv dd).fileInfo uuid volume path) where
  deleted := by
    unfold toVersion
    split
    next hdeleted => exact hdeleted.symm
    next hdeleted => simpa [XlMetaV2Version.fileInfo, XlMetaV2Object.fileInfo] using hdeleted
  modTime := by
    rw [XlMetaV2Version.fileInfo_modTime]
    exact toVersion_modTime hvalid
  object := by
    intro hdeleted
    rw [toVersion, if_neg (by simp [hdeleted])]
    exact fi.recordedObject_toObject uuid volume path hdir

theorem FileInfo.Recorded.static {uuid : UuidPackage} {fi got : FileInfo}
    (h : fi.Recorded uuid got.static) : fi.Recorded uuid got where
  deleted := h.deleted
  modTime := h.modTime
  object := fun hdeleted =>
    { size := (h.object hdeleted).size
      parts := (h.object hdeleted).parts
      dataBlocks := (h.object hdeleted).dataBlocks
      parityBlocks := (h.object hdeleted).parityBlocks
      blockSize := (h.object hdeleted).blockSize
      index := (h.object hdeleted).index
      distribution := (h.object hdeleted).distribution
      metadata := (h.object hdeleted).metadata
      transitionStatus := (h.object hdeleted).transitionStatus
      transitionedObjName := (h.object hdeleted).transitionedObjName
      transitionVersionID := (h.object hdeleted).transitionVersionID
      transitionTier := (h.object hdeleted).transitionTier
      versionPurgeStatus := (h.object hdeleted).versionPurgeStatus
      dataDir := (h.object hdeleted).dataDir }

end Fs3
