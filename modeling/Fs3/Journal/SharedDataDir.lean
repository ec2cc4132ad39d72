import Fs3.Journal.Frame

/-! # Which data directory a delete gives up

Versions may share a data directory. `deleteVersion` counts the other versions that need the
directory of the object it gives up, and skips the count when the object's data is inlined. -/

namespace Fs3

namespace XlMetaV2

variable {uuid : UuidPackage} {clock : Clock} {z z' : XlMetaV2} {fi : FileInfo} {uv : UUID}

/-- Whether the data of an object is in the journal file, under the key a read
looks it up with. -/
def isInlined (uuid : UuidPackage) (data : XlMetaInlineData) (object : XlMetaV2Object) : Bool :=
  (data.find (normalizeID (uuidText uuid object.versionID))).isSome

def needsDataDir (uuid : UuidPackage) (clock : Clock) (data : XlMetaInlineData) (dataDir : UUID) :
    XlMetaV2Version → Bool
  | .objectType object =>
    object.dataDir == dataDir && object.usesDataDir clock && !isInlined uuid data object
  | _ => false

/-- The object a delete gives up: the first one of its uuid, unless the delete
only marks it or finds a delete marker instead. -/
def deletedObject (fi : FileInfo) (uv : UUID) (versions : List XlMetaV2Version) :
    Option XlMetaV2Object :=
  if fi.updateVersion || versions.any (XlMetaV2Version.isMarkerOf uv) then none
  else versions.findSome? fun version =>
    match version with
    | .objectType object => if object.versionID = uv then some object else none
    | _ => none

/-- A delete returns a directory nobody needs, and returns the directory of the
object it gives up when nobody needs it any more. -/
structure DataDirAccounted (uuid : UuidPackage) (clock : Clock) (z : XlMetaV2) (fi : FileInfo)
    (uv : UUID) (z' : XlMetaV2) (dataDir : String) : Prop where
  unused : dataDir ≠ "" → ∀ dir, uuid.print dir = dataDir →
    ∀ version ∈ z'.versions, needsDataDir uuid clock z'.data dir version = false
  noLeak : ∀ object, deletedObject fi uv z.versions = some object →
    isInlined uuid z.data object = false →
    (∀ version ∈ z'.versions, needsDataDir uuid clock z'.data object.dataDir version = false) →
    dataDir = uuid.print object.dataDir

/-- Some version that is left when `object` is given up needs its directory. -/
def StillNeeded (uuid : UuidPackage) (clock : Clock) (z : XlMetaV2) (fi : FileInfo)
    (object : XlMetaV2Object) : Prop :=
  ∃ version ∈ fi.keptObject object ++ z.versions.erase (.objectType object),
    needsDataDir uuid clock z.data object.dataDir version = true

def CountTells (uuid : UuidPackage) (clock : Clock) (z : XlMetaV2) (fi : FileInfo)
    (object : XlMetaV2Object) : Prop :=
  if (z.data.find (uuid.print object.versionID)).isSome then ¬ z.StillNeeded uuid clock fi object
  else if z.versions.any (XlMetaV2Version.sharesDataDir clock object.versionID object.dataDir) then
    isInlined uuid z.data object = false → z.StillNeeded uuid clock fi object
  else ¬ z.StillNeeded uuid clock fi object

theorem findSome?_eq_none_of_isObjectOf {versions : List XlMetaV2Version}
    (h : ∀ version ∈ versions, version.isObjectOf uv = false) :
    (versions.findSome? fun version =>
      match version with
      | .objectType object => if object.versionID = uv then some object else none
      | _ => none) = none := by
  rw [List.findSome?_eq_none_iff]
  intro version hmem
  have hobject := h version hmem
  cases version with
  | objectType object =>
    have hne : object.versionID ≠ uv := by simpa [XlMetaV2Version.isObjectOf] using hobject
    exact if_neg hne
  | invalid | deleteType | legacyType => rfl

end XlMetaV2

open XlMetaV2

variable {versions versions' : List XlMetaV2Version}

theorem DeleteCase.freed_eq {fi : FileInfo} {uv : UUID} {freed : Option XlMetaV2Object}
    (hcase : DeleteCase fi uv versions versions' freed) : freed = deletedObject fi uv versions := by
  cases hcase with
  | markMarker before marker after hversions hbefore huuid hupdate => simp [deletedObject, hupdate]
  | markObject before object after hversions hbefore huuid hupdate => simp [deletedObject, hupdate]
  | dropMarker before marker after hversions hbefore huuid hupdate =>
    simp [deletedObject, hversions, XlMetaV2Version.isMarkerOf, huuid]
  | dropObject before object after hversions hmarkers hbefore huuid hupdate =>
    have hany : versions.any (XlMetaV2Version.isMarkerOf uv) = false := by
      rw [List.any_eq_false]
      exact fun version hmem => by simp [hmarkers version hmem]
    rw [deletedObject, hupdate, hany, hversions, List.findSome?_append,
      findSome?_eq_none_of_isObjectOf hbefore]
    simp [huuid]
  | addMarker hversions hdeleted =>
    have hobjects : ∀ version ∈ versions, version.isObjectOf uv = false := by
      intro version hmem
      have hnewer := hversions version hmem
      rw [XlMetaV2Version.isNewerOf, Bool.or_eq_false_iff] at hnewer
      exact hnewer.2
    rw [deletedObject, findSome?_eq_none_of_isObjectOf hobjects, ite_self]

variable {object : XlMetaV2Object}

theorem DeleteCase.freed_versionID {fi : FileInfo} {uv : UUID}
    (hcase : DeleteCase fi uv versions versions' (some object)) : object.versionID = uv := by
  cases hcase with
  | dropObject before _ after hversions hmarkers hbefore huuid hupdate => exact huuid

variable {version : XlMetaV2Version}

theorem DeleteCase.mem_iff {fi : FileInfo} {uv : UUID}
    (hcase : DeleteCase fi uv versions versions' (some object))
    (hobject : version ≠ fi.deleteEntry uv) :
    version ∈ versions' ↔
      version ∈ fi.keptObject object ++ versions.erase (.objectType object) := by
  cases hcase with
  | dropObject before _ after hversions hmarkers hbefore huuid hupdate =>
    have hnot : XlMetaV2Version.objectType object ∉ before := by
      intro hmem
      have hfalse := hbefore _ hmem
      simp [XlMetaV2Version.isObjectOf, huuid] at hfalse
    have herase : versions.erase (.objectType object) = before ++ after := by
      rw [hversions, List.erase_append_right _ hnot, List.erase_cons_head]
    rw [herase, appendEntry_eq]
    simp only [List.mem_append]
    have hentry : version ∉ (if fi.deleted then [fi.deleteEntry uv] else []) := by
      split
      · simpa using hobject
      · exact List.not_mem_nil
    tauto

namespace XlMetaV2

variable {uuid : UuidPackage} {clock : Clock} {z z' : XlMetaV2} {fi : FileInfo} {uv : UUID}

theorem ne_deleteEntry_of_needsDataDir {dataDir : UUID} {data : XlMetaInlineData}
    (h : needsDataDir uuid clock data dataDir version = true) : version ≠ fi.deleteEntry uv := by
  rintro rfl
  unfold FileInfo.deleteEntry at h
  split at h <;> cases h

variable (uuid clock) in
theorem stillNeeded_iff (hdata : z'.data = z.data)
    (hcase : DeleteCase fi uv z.versions z'.versions (some object)) :
    (∃ version ∈ z'.versions, needsDataDir uuid clock z'.data object.dataDir version = true) ↔
      z.StillNeeded uuid clock fi object := by
  rw [hdata]
  constructor
  · rintro ⟨version, hmem, hneeds⟩
    exact ⟨version, (hcase.mem_iff (ne_deleteEntry_of_needsDataDir hneeds)).mp hmem, hneeds⟩
  · rintro ⟨version, hmem, hneeds⟩
    exact ⟨version, (hcase.mem_iff (ne_deleteEntry_of_needsDataDir hneeds)).mpr hmem, hneeds⟩

theorem ne_invalid_of_sharesDataDir {versionID dataDir : UUID}
    (h : version.sharesDataDir clock versionID dataDir = true) :
    version ≠ .invalid ∧ version.uuid ≠ versionID := by
  cases version with
  | objectType object =>
    simp only [XlMetaV2Version.sharesDataDir, Bool.and_eq_true, bne_iff_ne] at h
    exact ⟨by simp, h.1.1⟩
  | invalid | deleteType | legacyType => cases h

theorem any_sharesDataDir_congr {dataDir : UUID}
    (hagree : AgreeExcept uv z.versions z'.versions) :
    z'.versions.any (XlMetaV2Version.sharesDataDir clock uv dataDir) =
      z.versions.any (XlMetaV2Version.sharesDataDir clock uv dataDir) := by
  rw [Bool.eq_iff_iff, List.any_eq_true, List.any_eq_true]
  constructor
  · rintro ⟨version, hmem, hshares⟩
    have hother := ne_invalid_of_sharesDataDir hshares
    exact ⟨version, (hagree version hother.1 hother.2).mp hmem, hshares⟩
  · rintro ⟨version, hmem, hshares⟩
    have hother := ne_invalid_of_sharesDataDir hshares
    exact ⟨version, (hagree version hother.1 hother.2).mpr hmem, hshares⟩

theorem sharedDataDirCount_pos_iff {versionID dataDir : UUID} :
    0 < z.sharedDataDirCount uuid clock versionID dataDir ↔
      (z.data.find (uuid.print versionID)).isSome = false ∧
        z.versions.any (XlMetaV2Version.sharesDataDir clock versionID dataDir) = true := by
  unfold sharedDataDirCount
  cases hinline : (z.data.find (uuid.print versionID)).isSome with
  | true => simp
  | false => simp [List.length_pos_iff, List.filter_eq_nil_iff]

theorem freedDataDir_eq (hdata : z'.data = z.data)
    (hagree : AgreeExcept object.versionID z.versions z'.versions) :
    z'.freedDataDir uuid clock (some object) =
      if (z.data.find (uuid.print object.versionID)).isSome = false ∧
          z.versions.any (XlMetaV2Version.sharesDataDir clock object.versionID object.dataDir) =
            true
      then "" else uuid.print object.dataDir := by
  unfold freedDataDir
  rw [← hdata, ← any_sharesDataDir_congr hagree]
  exact if_congr sharedDataDirCount_pos_iff rfl rfl

/-- The two halves of the account, for an object that was given up. -/
theorem dataDirAccounted_some_iff {dataDir : String}
    (hobject : deletedObject fi uv z.versions = some object)
    (hdir : dataDir = "" ∨ dataDir = uuid.print object.dataDir) :
    DataDirAccounted uuid clock z fi uv z' dataDir ↔
      (dataDir = uuid.print object.dataDir →
        ¬ ∃ version ∈ z'.versions,
          needsDataDir uuid clock z'.data object.dataDir version = true) ∧
      (dataDir = "" → isInlined uuid z.data object = false →
        ∃ version ∈ z'.versions,
          needsDataDir uuid clock z'.data object.dataDir version = true) := by
  have hprint := uuid.print_ne_empty object.dataDir
  constructor
  · intro h
    refine ⟨fun hreturned => ?_, fun hkept hinlined => ?_⟩
    · rintro ⟨version, hmem, hneeds⟩
      have hunused := h.unused (by rw [hreturned]; exact hprint) _ hreturned.symm version hmem
      rw [hneeds] at hunused
      cases hunused
    · by_contra hnone
      have hleak := h.noLeak object hobject hinlined fun version hmem => by
        by_contra hneeds
        exact hnone ⟨version, hmem, by simpa using hneeds⟩
      exact hprint (hleak.symm.trans hkept)
  · rintro ⟨hreturned, hkept⟩
    refine ⟨fun hne dir hdir' version hmem => ?_, fun object' hobject' hinlined hnone => ?_⟩
    · have heq := hdir.resolve_left hne
      obtain rfl := uuid.print_injective (hdir'.trans heq)
      by_contra hneeds
      exact hreturned heq ⟨version, hmem, by simpa using hneeds⟩
    · obtain rfl := Option.some.inj (hobject.symm.trans hobject')
      refine hdir.resolve_left fun hempty => ?_
      obtain ⟨version, hmem, hneeds⟩ := hkept hempty hinlined
      rw [hnone version hmem] at hneeds
      cases hneeds

/-- A delete accounts for the data directory exactly when its count tells
whether the directory is still needed. -/
theorem deleteVersion_dataDirAccounted_iff (uuid : UuidPackage) (clock : Clock) (z : XlMetaV2)
    (fi : FileInfo) (uv : UUID) (z' : XlMetaV2) (dataDir : String) (lastVersion : Bool)
    (hparse : parseVersionID uuid fi.versionID = some uv)
    (hdelete : z.deleteVersion uuid clock fi = .ok (z', dataDir, lastVersion)) :
    DataDirAccounted uuid clock z fi uv z' dataDir ↔
      ∀ object, deletedObject fi uv z.versions = some object →
        z.CountTells uuid clock fi object := by
  obtain ⟨uv', freed, hparse', _, hdata, hcase, rfl, _⟩ := deleteVersion_cases hdelete
  obtain rfl : uv = uv' := Option.some.inj (hparse.symm.trans hparse')
  have hfreed := hcase.freed_eq
  cases freed with
  | none =>
    refine ⟨fun _ object hobject => ?_, fun _ => ⟨fun hne => ?_, fun object hobject => ?_⟩⟩
    · rw [← hfreed] at hobject
      cases hobject
    · exact absurd rfl hne
    · rw [← hfreed] at hobject
      cases hobject
  | some object =>
    have hagree := hcase.agreeExcept
    have huuid := hcase.freed_versionID
    subst huuid
    have hneeded := stillNeeded_iff uuid clock hdata hcase
    have hprint := uuid.print_ne_empty object.dataDir
    have honly : (∀ object', deletedObject fi object.versionID z.versions = some object' →
        z.CountTells uuid clock fi object') ↔ z.CountTells uuid clock fi object := by
      rw [← hfreed]
      exact ⟨fun h => h object rfl, fun h object' heq => Option.some.inj heq ▸ h⟩
    rw [honly, freedDataDir_eq hdata hagree, CountTells]
    cases hinline : (z.data.find (uuid.print object.versionID)).isSome with
    | true =>
      rw [if_neg (by simp), if_pos rfl, dataDirAccounted_some_iff hfreed.symm (Or.inr rfl),
        hneeded]
      exact ⟨fun h => h.1 rfl, fun h => ⟨fun _ => h, fun hempty => absurd hempty hprint⟩⟩
    | false =>
      cases hshared : z.versions.any
          (XlMetaV2Version.sharesDataDir clock object.versionID object.dataDir) with
      | true =>
        rw [if_pos ⟨rfl, rfl⟩, if_neg (by simp), if_pos rfl,
          dataDirAccounted_some_iff hfreed.symm (Or.inl rfl), hneeded]
        exact ⟨fun h => h.2 rfl, fun h =>
          ⟨fun hempty => absurd hempty.symm hprint, fun _ => h⟩⟩
      | false =>
        rw [if_neg (by simp), if_neg (by simp), if_neg (by simp),
          dataDirAccounted_some_iff hfreed.symm (Or.inr rfl), hneeded]
        exact ⟨fun h => h.1 rfl, fun h => ⟨fun _ => h, fun hempty => absurd hempty hprint⟩⟩

def plainObject (versionID dataDir : UUID) : XlMetaV2Object where
  versionID := versionID
  dataDir := dataDir
  erasureAlgorithm := .reedSolomon
  erasureM := 2
  erasureN := 2
  erasureBlockSize := 1048576
  erasureIndex := 1
  erasureDist := [1, 2, 3, 4]
  bitrotChecksumAlgo := .highwayHash
  partNumbers := [1]
  partETags := [""]
  partSizes := [3]
  partActualSizes := [3]
  size := 3
  modTime := 1
  metaSys := ∅
  metaUser := ∅

def sharedOnDisk : XlMetaV2 where
  versions := [.objectType (plainObject 1 7), .objectType (plainObject 2 7)]

/-- Deleting one of two versions that share a directory keeps the directory. -/
theorem sharedOnDisk_accounted :
    DataDirAccounted .google ⟨(0 : Int), fun _ => none⟩ sharedOnDisk
      { versionID := UuidPackage.google.print 1 } 1
      { sharedOnDisk with versions := [.objectType (plainObject 2 7)] } "" := by
  refine (deleteVersion_dataDirAccounted_iff .google ⟨(0 : Int), fun _ => none⟩ sharedOnDisk _ 1
    _ _ false (parseVersionID_uuidText .google 1) rfl).mpr ?_
  intro object hobject
  obtain rfl : plainObject 1 7 = object := Option.some.inj hobject
  exact fun _ => ⟨.objectType (plainObject 2 7), List.mem_singleton.mpr rfl, rfl⟩

def halfInlined : XlMetaV2 where
  versions := [.objectType (plainObject 1 7), .objectType (plainObject 2 7)]
  data := [(UuidPackage.google.print 1, [0, 1, 2])]

/-- Deleting the inlined version gives up the directory the other one needs. -/
theorem halfInlined_not_accounted :
    halfInlined.AllValid ∧
      halfInlined.deleteVersion .google ⟨(0 : Int), fun _ => none⟩
        { versionID := UuidPackage.google.print 1 } =
          .ok ({ halfInlined with versions := [.objectType (plainObject 2 7)] },
            UuidPackage.google.print 7, false) ∧
      ¬ DataDirAccounted .google ⟨(0 : Int), fun _ => none⟩ halfInlined
        { versionID := UuidPackage.google.print 1 } 1
        { halfInlined with versions := [.objectType (plainObject 2 7)] }
        (UuidPackage.google.print 7) := by
  refine ⟨by decide, rfl, fun haccounted => ?_⟩
  have hunused := haccounted.unused (UuidPackage.google.print_ne_empty 7) 7 rfl
    (.objectType (plainObject 2 7)) (List.mem_singleton.mpr rfl)
  have hneeds : needsDataDir .google ⟨(0 : Int), fun _ => none⟩ halfInlined.data 7
      (.objectType (plainObject 2 7)) = true := rfl
  rw [hneeds] at hunused
  cases hunused

end XlMetaV2

end Fs3
