import Fs3.Journal.Update

/-! # Deleting a version

`deleteVersion` walks the journal twice. -/

namespace Fs3

open Foundation

/-- `xlMetaV2Object.UsesDataDir`: a transitioned object has left its data
directory unless it was restored to the drives. -/
def XlMetaV2Object.usesDataDir (clock : Clock) (j : XlMetaV2Object) : Bool :=
  j.metaSys.getD transitionStatusKey "" != transitionComplete ||
    isRestoredObjectOnDisk clock j.metaUser

/-- Whether a version is an object with another id that needs the directory. -/
def XlMetaV2Version.sharesDataDir (clock : Clock) (versionID dataDir : UUID) :
    XlMetaV2Version → Bool
  | objectType object =>
    object.versionID != versionID && object.dataDir == dataDir && object.usesDataDir clock
  | _ => false

namespace FileInfo

def updateVersion (fi : FileInfo) : Bool :=
  if fi.versionPurgeStatus = "" ∧
      (fi.deleteMarkerReplicationStatus = "REPLICA" ∨ fi.deleteMarkerReplicationStatus = "") then
    fi.markDeleted
  else
    (fi.deleted && fi.versionPurgeStatus != purgeComplete &&
        (fi.versionPurgeStatus != "" || fi.deleteMarkerReplicationStatus != "")) ||
      (fi.versionPurgeStatus != "" && fi.versionPurgeStatus != purgeComplete)

def putStatus (fi : FileInfo) (metaSys : Metadata) : Metadata :=
  insertNonempty (insertNonempty metaSys amzBucketReplicationStatus
    fi.deleteMarkerReplicationStatus) versionPurgeStatusKey fi.versionPurgeStatus

/-- The delete marker of a request; a request that adds none leaves the entry
with no type. -/
def deleteEntry (fi : FileInfo) (uv : UUID) : XlMetaV2Version :=
  if fi.deleted then
    .deleteType { versionID := uv, modTime := fi.modTime.unixNano, metaSys := fi.putStatus ∅ }
  else .invalid

end FileInfo

def XlMetaV2DeleteMarker.mark (marker : XlMetaV2DeleteMarker) (fi : FileInfo) :
    XlMetaV2DeleteMarker :=
  { marker with
    metaSys := fi.putStatus
      ((marker.metaSys.erase amzBucketReplicationStatus).erase versionPurgeStatusKey) }

namespace XlMetaV2Object

def mark (object : XlMetaV2Object) (fi : FileInfo) : XlMetaV2Object :=
  { object with metaSys := object.metaSys.insert versionPurgeStatusKey fi.versionPurgeStatus }

def expireRestored (object : XlMetaV2Object) : XlMetaV2Object :=
  { object with
    metaUser := ((object.metaUser.erase amzRestore).erase amzRestoreExpiryDays).erase
      amzRestoreRequestDate }

def transition (object : XlMetaV2Object) (fi : FileInfo) : XlMetaV2Object :=
  { object with
    metaSys := (((object.metaSys.insert transitionStatusKey fi.transitionStatus).insert
      transitionedObjectNameKey fi.transitionedObjName).insert
      transitionedVersionIDKey fi.transitionVersionID).insert transitionTierKey fi.transitionTier }

end XlMetaV2Object

/-- What a delete leaves of an object: all of it but the restored copy or the
data a tier has taken over, or nothing. -/
def FileInfo.keptObject (fi : FileInfo) (object : XlMetaV2Object) : List XlMetaV2Version :=
  if fi.expireRestored then [.objectType object.expireRestored]
  else if fi.transitionStatus = transitionComplete then [.objectType (object.transition fi)]
  else []

/-- The delete marker of a request at the end of the journal, if it adds one. -/
def appendEntry (fi : FileInfo) (uv : UUID) (versions : List XlMetaV2Version) :
    List XlMetaV2Version :=
  if fi.deleted then versions ++ [fi.deleteEntry uv] else versions

namespace XlMetaV2

variable (uuid : UuidPackage) (clock : Clock)

/-- `xlMetaV2.SharedDataDirCount`: how many other objects need the directory. -/
def sharedDataDirCount (z : XlMetaV2) (versionID dataDir : UUID) : Nat :=
  if (z.data.find (uuid.print versionID)).isSome then 0
  else (z.versions.filter (XlMetaV2Version.sharesDataDir clock versionID dataDir)).length

/-- `xlMetaV2.SharedDataDirCountStr`. -/
def sharedDataDirCountStr (z : XlMetaV2) (versionID dataDir : String) : Nat :=
  match parseVersionID uuid versionID with
  | none => 0
  | some uv =>
    match uuid.parse dataDir with
    | none => 0
    | some ddir => z.sharedDataDirCount uuid clock uv ddir

def markOrDrop (uv : UUID) (versionID : String) (fi : FileInfo) :
    XlMetaV2Version →
      Option (Except StorageErr (String × (List XlMetaV2Version → List XlMetaV2Version)))
  | .legacyType object =>
    if object.versionID = versionID then some (.ok (object.dataDir, appendEntry fi uv))
    else none
  | .deleteType marker =>
    if marker.versionID = uv then
      if fi.updateVersion then
        some (.ok ("", fun rest => .deleteType (marker.mark fi) :: rest))
      else if fi.markDeleted && (fi.versionPurgeStatus == "" ||
          fi.versionPurgeStatus != purgeComplete) then
        some (.ok ("", fun rest => rest ++ [fi.deleteEntry uv]))
      else some (.ok ("", id))
    else none
  | .objectType object =>
    if object.versionID = uv ∧ fi.updateVersion = true then
      some (.ok ("", fun rest => .objectType (object.mark fi) :: rest))
    else none
  | .invalid => none

def dropObject (uv : UUID) (fi : FileInfo) :
    XlMetaV2Version →
      Option (Except StorageErr (XlMetaV2Object × (List XlMetaV2Version → List XlMetaV2Version)))
  | .objectType object =>
    if object.versionID = uv then
      some (.ok (object, fun rest => appendEntry fi uv (fi.keptObject object ++ rest)))
    else none
  | _ => none

/-- `xlMetaV2.DeleteVersion`: the journal after the delete, the data directory
to remove, and whether no version is left. -/
def deleteVersion (z : XlMetaV2) (fi : FileInfo) :
    Except StorageErr (XlMetaV2 × String × Bool) :=
  let versionID := if fi.versionID = nullVersionID then "" else fi.versionID
  match parseVersionID uuid versionID with
  | none => .error .errFileVersionNotFound
  | some uv =>
    if fi.deleted && !(fi.deleteEntry uv).valid then
      .error (.unexpected "internal error: invalid version entry generated")
    else
      match editFirst XlMetaV2Version.valid .errFileCorrupt (markOrDrop uv versionID fi)
          z.versions with
      | .error err => .error err
      | .ok (some (dataDir, versions)) => .ok ({ z with versions }, dataDir, versions.isEmpty)
      | .ok none =>
        match editFirst XlMetaV2Version.valid .errFileCorrupt (dropObject uv fi)
            z.versions with
        | .error err => .error err
        | .ok (some (object, versions)) =>
          let z' : XlMetaV2 := { z with versions }
          let shared := z'.sharedDataDirCount uuid clock object.versionID object.dataDir
          .ok (z', if 0 < shared then "" else uuid.print object.dataDir, versions.isEmpty)
        | .ok none =>
          if fi.deleted then
            .ok ({ z with versions := z.versions ++ [fi.deleteEntry uv] }, "", false)
          else .error .errFileVersionNotFound

end XlMetaV2

/-! ## What a delete can do -/

namespace XlMetaV2Version

def isMarkerOf (uv : UUID) : XlMetaV2Version → Bool
  | deleteType marker => marker.versionID == uv
  | _ => false

def isObjectOf (uv : UUID) : XlMetaV2Version → Bool
  | objectType object => object.versionID == uv
  | _ => false

def isNewerOf (uv : UUID) (version : XlMetaV2Version) : Bool :=
  version.isMarkerOf uv || version.isObjectOf uv

end XlMetaV2Version

/-- The ways a delete of `uv` turns one list of versions into another. -/
inductive DeleteCase (fi : FileInfo) (uv : UUID) (versions : List XlMetaV2Version) :
    List XlMetaV2Version → Option XlMetaV2Object → Prop
  | markMarker (before : List XlMetaV2Version) (marker : XlMetaV2DeleteMarker)
      (after : List XlMetaV2Version)
      (hversions : versions = before ++ .deleteType marker :: after)
      (hbefore : ∀ version ∈ before, version.isNewerOf uv = false)
      (huuid : marker.versionID = uv) (hupdate : fi.updateVersion = true) :
      DeleteCase fi uv versions (before ++ .deleteType (marker.mark fi) :: after) none
  | markObject (before : List XlMetaV2Version) (object : XlMetaV2Object)
      (after : List XlMetaV2Version)
      (hversions : versions = before ++ .objectType object :: after)
      (hbefore : ∀ version ∈ before, version.isNewerOf uv = false)
      (huuid : object.versionID = uv) (hupdate : fi.updateVersion = true) :
      DeleteCase fi uv versions (before ++ .objectType (object.mark fi) :: after) none
  | dropMarker (before : List XlMetaV2Version) (marker : XlMetaV2DeleteMarker)
      (after : List XlMetaV2Version)
      (hversions : versions = before ++ .deleteType marker :: after)
      (hbefore : ∀ version ∈ before, version.isMarkerOf uv = false)
      (huuid : marker.versionID = uv) (hupdate : fi.updateVersion = false) :
      DeleteCase fi uv versions
        (before ++ (after ++
          if fi.markDeleted = true ∧ fi.versionPurgeStatus ≠ purgeComplete then
            [fi.deleteEntry uv] else [])) none
  | dropObject (before : List XlMetaV2Version) (object : XlMetaV2Object)
      (after : List XlMetaV2Version)
      (hversions : versions = before ++ .objectType object :: after)
      (hmarkers : ∀ version ∈ versions, version.isMarkerOf uv = false)
      (hbefore : ∀ version ∈ before, version.isObjectOf uv = false)
      (huuid : object.versionID = uv) (hupdate : fi.updateVersion = false) :
      DeleteCase fi uv versions
        (before ++ appendEntry fi uv (fi.keptObject object ++ after)) (some object)
  | addMarker (hversions : ∀ version ∈ versions, version.isNewerOf uv = false)
      (hdeleted : fi.deleted = true) :
      DeleteCase fi uv versions (versions ++ [fi.deleteEntry uv]) none

namespace XlMetaV2

variable {uuid : UuidPackage} {clock : Clock} {z : XlMetaV2} {fi : FileInfo}

theorem deleteID_ne_null (versionID : String) :
    (if versionID = nullVersionID then "" else versionID) ≠ nullVersionID := by
  split
  · decide
  next hne => exact hne

theorem parseVersionID_deleteID (versionID : String) :
    parseVersionID uuid (if versionID = nullVersionID then "" else versionID) =
      parseVersionID uuid versionID := by
  split
  next hnull => rw [hnull]; rfl
  next => rfl

def freedDataDir (uuid : UuidPackage) (clock : Clock) (z : XlMetaV2) :
    Option XlMetaV2Object → String
  | none => ""
  | some object =>
    if 0 < z.sharedDataDirCount uuid clock object.versionID object.dataDir then ""
    else uuid.print object.dataDir

variable {version : XlMetaV2Version} {uv : UUID}

theorem markOrDrop_eq_none {versionID : String} (hne : versionID ≠ nullVersionID) :
    markOrDrop uv versionID fi version = none ↔
      version.isMarkerOf uv = false ∧
        (fi.updateVersion = true → version.isObjectOf uv = false) := by
  cases version with
  | invalid => simp [markOrDrop, XlMetaV2Version.isMarkerOf, XlMetaV2Version.isObjectOf]
  | legacyType object =>
    have hid : object.versionID ≠ versionID := by
      rw [object.versionID_eq]
      exact hne.symm
    simp [markOrDrop, XlMetaV2Version.isMarkerOf, XlMetaV2Version.isObjectOf, hid]
  | deleteType marker =>
    by_cases huuid : marker.versionID = uv
    · simp only [markOrDrop, XlMetaV2Version.isMarkerOf, huuid, if_true]
      split
      · simp
      · split <;> simp
    · simp [markOrDrop, XlMetaV2Version.isMarkerOf, XlMetaV2Version.isObjectOf, huuid]
  | objectType object =>
    simp [markOrDrop, XlMetaV2Version.isMarkerOf, XlMetaV2Version.isObjectOf, imp.swap]

theorem dropObject_eq_none : dropObject uv fi version = none ↔ version.isObjectOf uv = false := by
  cases version <;> simp [dropObject, XlMetaV2Version.isObjectOf]

/-- The first walk, when it changes the journal. -/
theorem deleteCase_of_markOrDrop {versionID dataDir : String} {edited : List XlMetaV2Version}
    (hne : versionID ≠ nullVersionID)
    (h : editFirst XlMetaV2Version.valid .errFileCorrupt (markOrDrop uv versionID fi) z.versions =
      .ok (some (dataDir, edited))) : dataDir = "" ∧ DeleteCase fi uv z.versions edited none := by
  obtain ⟨before, version, after, splice, hversions, hbefore, _, hedit, rfl⟩ :=
    exists_of_editFirst_some h
  have hmarkers : ∀ other ∈ before, other.isMarkerOf uv = false := fun other hmem =>
    ((markOrDrop_eq_none hne).mp (hbefore other hmem).2).1
  have hnewer : fi.updateVersion = true → ∀ other ∈ before, other.isNewerOf uv = false := by
    intro hupdate other hmem
    have hother := (markOrDrop_eq_none hne).mp (hbefore other hmem).2
    rw [XlMetaV2Version.isNewerOf, hother.1, hother.2 hupdate]
    rfl
  cases version with
  | invalid => cases hedit
  | legacyType object =>
    have hid : object.versionID ≠ versionID := by
      rw [object.versionID_eq]
      exact hne.symm
    rw [markOrDrop, if_neg hid] at hedit
    cases hedit
  | deleteType marker =>
    rw [markOrDrop] at hedit
    split at hedit
    next huuid =>
      split at hedit
      next hupdate =>
        cases hedit
        exact ⟨rfl, .markMarker before marker after hversions (hnewer hupdate) huuid hupdate⟩
      next hupdate =>
        rw [Bool.not_eq_true] at hupdate
        have hcase := DeleteCase.dropMarker before marker after hversions hmarkers huuid hupdate
        split at hedit
        next hmark =>
          cases hedit
          have hpurge : fi.markDeleted = true ∧ fi.versionPurgeStatus ≠ purgeComplete := by
            simp only [Bool.and_eq_true, Bool.or_eq_true, beq_iff_eq, bne_iff_ne] at hmark
            refine ⟨hmark.1, ?_⟩
            rcases hmark.2 with hempty | hcomplete
            · rw [hempty]
              decide
            · exact hcomplete
          rw [if_pos hpurge] at hcase
          exact ⟨rfl, hcase⟩
        next hmark =>
          cases hedit
          have hpurge : ¬ (fi.markDeleted = true ∧ fi.versionPurgeStatus ≠ purgeComplete) := by
            rintro ⟨hmarked, hcomplete⟩
            apply hmark
            simp [hmarked, hcomplete]
          rw [if_neg hpurge, List.append_nil] at hcase
          exact ⟨rfl, hcase⟩
    · cases hedit
  | objectType object =>
    rw [markOrDrop] at hedit
    split at hedit
    next hmatch =>
      cases hedit
      exact ⟨rfl, .markObject before object after hversions (hnewer hmatch.2) hmatch.1 hmatch.2⟩
    · cases hedit

/-- Everything a successful delete can have done. -/
theorem deleteVersion_cases {z' : XlMetaV2} {dataDir : String} {lastVersion : Bool}
    (h : z.deleteVersion uuid clock fi = .ok (z', dataDir, lastVersion)) :
    ∃ uv freed, parseVersionID uuid fi.versionID = some uv ∧
      (fi.deleted = true → (fi.deleteEntry uv).valid = true) ∧ z'.data = z.data ∧
      DeleteCase fi uv z.versions z'.versions freed ∧
      dataDir = z'.freedDataDir uuid clock freed ∧ lastVersion = z'.versions.isEmpty := by
  have hne := deleteID_ne_null fi.versionID
  simp only [deleteVersion] at h
  rw [parseVersionID_deleteID] at h
  split at h
  · cases h
  next uv hparse =>
    split at h
    · cases h
    next hentry =>
      have hmarker : fi.deleted = true → (fi.deleteEntry uv).valid = true := by
        intro hdeleted
        simpa [hdeleted] using hentry
      split at h
      · cases h
      next hfirst =>
        cases h
        obtain ⟨rfl, hcase⟩ := deleteCase_of_markOrDrop hne hfirst
        exact ⟨uv, none, hparse, hmarker, rfl, hcase, rfl, rfl⟩
      next hfirst =>
        have hnone : ∀ version ∈ z.versions, version.isMarkerOf uv = false ∧
            (fi.updateVersion = true → version.isObjectOf uv = false) := fun version hmem =>
          (markOrDrop_eq_none hne).mp (valid_of_editFirst_none hfirst version hmem).2
        split at h
        · cases h
        next object versions hsecond =>
          cases h
          obtain ⟨before, version, after, splice, hversions, hbefore, _, hedit, rfl⟩ :=
            exists_of_editFirst_some hsecond
          cases version with
          | invalid | deleteType | legacyType => cases hedit
          | objectType object' =>
            rw [dropObject] at hedit
            split at hedit
            next huuid =>
              cases hedit
              have hupdate : fi.updateVersion = false := by
                by_contra hupdate
                rw [Bool.not_eq_false] at hupdate
                have hobject := (hnone (.objectType object) (by simp [hversions])).2 hupdate
                simp [XlMetaV2Version.isObjectOf, huuid] at hobject
              exact ⟨uv, some object, hparse, hmarker, rfl,
                .dropObject before object after hversions (fun v hv => (hnone v hv).1)
                  (fun v hv => dropObject_eq_none.mp (hbefore v hv).2) huuid hupdate, rfl, rfl⟩
            · cases hedit
        next hsecond =>
          split at h
          next hdeleted =>
            cases h
            refine ⟨uv, none, hparse, hmarker, rfl, .addMarker (fun v hv => ?_) hdeleted, rfl, ?_⟩
            · have hobject := dropObject_eq_none.mp (valid_of_editFirst_none hsecond v hv).2
              rw [XlMetaV2Version.isNewerOf, (hnone v hv).1, hobject]
              rfl
            · simp
          · cases h

theorem markOrDrop_ne_error {versionID : String} (err : StorageErr) :
    markOrDrop uv versionID fi version ≠ some (.error err) := by
  cases version with
  | invalid => simp [markOrDrop]
  | legacyType object => simp [markOrDrop]
  | objectType object => simp [markOrDrop]
  | deleteType marker =>
    rw [markOrDrop]
    split
    · split
      · simp
      · split <;> simp
    · simp

theorem dropObject_ne_error (err : StorageErr) : dropObject uv fi version ≠ some (.error err) := by
  cases version <;> simp [dropObject]

variable (clock) in
/-- A delete of a readable journal succeeds when there is something to delete
or a marker to add. -/
theorem deleteVersion_isOk (hvalid : z.AllValid)
    (hparse : parseVersionID uuid fi.versionID = some uv)
    (hentry : fi.deleted = true → (fi.deleteEntry uv).valid = true)
    (hsome : fi.deleted = true ∨ ∃ version ∈ z.versions, version.isNewerOf uv = true) :
    ∃ result, z.deleteVersion uuid clock fi = .ok result := by
  have hne := deleteID_ne_null fi.versionID
  obtain ⟨first, hfirst⟩ := editFirst_isOk StorageErr.errFileCorrupt
    (markOrDrop uv (if fi.versionID = nullVersionID then "" else fi.versionID) fi)
    hvalid fun version _ err => markOrDrop_ne_error err
  obtain ⟨second, hsecond⟩ := editFirst_isOk StorageErr.errFileCorrupt
    (dropObject uv fi) hvalid fun version _ err => dropObject_ne_error err
  have hguard : ¬ (fi.deleted && !(fi.deleteEntry uv).valid) = true := by
    intro hguard
    simp only [Bool.and_eq_true, Bool.not_eq_true'] at hguard
    rw [hentry hguard.1] at hguard
    cases hguard.2
  simp only [deleteVersion, parseVersionID_deleteID, hparse, if_neg hguard, hfirst]
  cases first with
  | some found => exact ⟨_, rfl⟩
  | none =>
    simp only [hsecond]
    cases second with
    | some found => exact ⟨_, rfl⟩
    | none =>
      rcases hsome with hdeleted | ⟨version, hmem, hnewer⟩
      · exact ⟨_, if_pos hdeleted⟩
      · have hmarker := ((markOrDrop_eq_none hne).mp
          (valid_of_editFirst_none hfirst version hmem).2).1
        have hobject := dropObject_eq_none.mp (valid_of_editFirst_none hsecond version hmem).2
        rw [XlMetaV2Version.isNewerOf, hmarker, hobject] at hnewer
        cases hnewer

end XlMetaV2

end Fs3
