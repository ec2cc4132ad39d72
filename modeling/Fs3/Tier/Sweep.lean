import Fs3.MultiDelete.Handler
import Fs3.ObjectLock.Versions

/-! # Sweeping remote objects

The data of a transitioned version is an object on a remote tier. -/

namespace Fs3.Tier

open Listing MultiDelete

/-- What an entry of the tier deletion journal names. -/
structure Remote where
  objName : String
  versionID : String
  tierName : String
  deriving DecidableEq

end Fs3.Tier

namespace Fs3

def XlMetaV2Object.remote (object : XlMetaV2Object) : Option Tier.Remote :=
  if object.metaSys.getD transitionStatusKey "" = transitionComplete then
    some
      { objName := object.metaSys.getD transitionedObjectNameKey ""
        versionID := object.metaSys.getD transitionedVersionIDKey ""
        tierName := object.metaSys.getD transitionTierKey "" }
  else none

end Fs3

namespace Fs3.Tier

open Listing MultiDelete

/-- What a lookup of a version gives: its information, if it has a name, and the error. -/
abbrev Look := Option FileInfo × Option StorageErr

structure ObjSweeper where
  reqVersion : String
  versioned : Bool
  suspended : Bool
  transitionStatus : String := ""
  transitionTier : String := ""
  transitionVersionID : String := ""
  remoteObject : String := ""

/-- `newObjSweeper` with `WithVersion`. -/
def newObjSweeper (versioning : VersioningState) (version : String) : ObjSweeper where
  reqVersion := version
  versioned := versioning == .enabled
  suspended := versioning == .suspended

namespace ObjSweeper

variable (os : ObjSweeper)

/-- `GetOpts`: the version that is looked up. -/
def getOpts : String :=
  if os.suspended && os.reqVersion == "" then nullVersionID else os.reqVersion

def setTransitionState (info : FileInfo) : ObjSweeper :=
  { os with
    transitionTier := info.transitionTier
    transitionStatus := info.transitionStatus
    remoteObject := info.transitionedObjName
    transitionVersionID := info.transitionVersionID }

def setFound : Look → ObjSweeper
  | (some info, none) => os.setTransitionState info
  | _ => os

def shouldRemoveRemoteObject : Option Remote :=
  if os.transitionStatus ≠ transitionComplete then none
  else if (!os.versioned || os.suspended) || (os.versioned && os.reqVersion != "") then
    some { objName := os.remoteObject, versionID := os.transitionVersionID,
           tierName := os.transitionTier }
  else none

end ObjSweeper

/-- What a delete meets: the time, the id of a new delete marker, and whether a lock or
the drives fail it. -/
structure Meets where
  now : Time
  fresh : UUID
  fails : Bool := false

section Layer

variable (ol : ObjectLayer)

/-- `GetObjectInfo`, before the information is turned into that of an object. -/
def getObjectInfo (z : XlMetaV2) (object : Name) (versionID : String) (deleteMarker : Bool) :
    Look :=
  match z.toFileInfo ol.uuid ol.bucket (String.ofList object) ol.sorter versionID with
  | .error err => (none, some err)
  | .ok fi =>
    if fi.versionPurgeStatus ≠ "" then (some fi, some .errMethodNotAllowed)
    else if fi.deleted then
      if versionID = "" ∨ deleteMarker = true then (some fi, some .errFileNotFound)
      else (some fi, some .errMethodNotAllowed)
    else (some fi, none)

def deleteVersion (z : XlMetaV2) (fi : FileInfo) (forceDelMarker : Bool) : Option XlMetaV2 :=
  if z.versions.isEmpty then
    if fi.deleted && forceDelMarker then (z.addVersion ol.uuid fi).toOption else none
  else
    match z.deleteVersion ol.uuid ol.clock fi with
    | .error _ => none
    | .ok (z', _, lastVersion) => some (if lastVersion then {} else z')

def requestOf (z : XlMetaV2) (object : Name) (opts : DeleteOptions) (meets : Meets) : FileInfo :=
  ErasureObjects.deleteRequest ol.uuid opts
    { object := String.ofList object, look := .ok [], now := meets.now, fresh := meets.fresh }
    ((getObjectInfo ol z object opts.versionID opts.deleteMarker).1.map
      (FileInfo.toObjectInfo · opts.versioning))

def stopsAt (z : XlMetaV2) (object : Name) (opts : DeleteOptions) : Option StorageErr :=
  let (goi, gerr) := getObjectInfo ol z object opts.versionID opts.deleteMarker
  ErasureObjects.lookupErr opts (goi.map (FileInfo.toObjectInfo · opts.versioning)) gerr

/-- `DeleteObject`, unless it gives an error. -/
def deleteObject (z : XlMetaV2) (object : Name) (opts : DeleteOptions) (meets : Meets) :
    Option XlMetaV2 :=
  if (stopsAt ol z object opts).isSome then none
  else if meets.fails then none
  else deleteVersion ol z (requestOf ol z object opts meets) opts.deleteMarker

end Layer

/-! ## The operations -/

/-- A bucket with the entries of the tier deletion journal. Entries that `AddEntry` fails to
add are left out. -/
structure TierBucket where
  objects : Name → XlMetaV2
  journal : List Remote := []

/-- A request of `DeleteObjectHandler`, and what the checks say to what was looked up. -/
structure SingleDelete where
  object : Name
  versioning : VersioningState
  versionID : String := ""
  /-- The header `X-Minio-Source-DeleteMarker` is `true`. -/
  deleteMarker : Bool := false
  /-- The header `X-Minio-Source-DeleteMarker-Delete` is `true`. -/
  deleteMarkerDelete : Bool := false
  mTime : Time := Time.zero
  deletePrefix : Bool := false
  deleteAllowed : Bool := true
  isReplica : Bool := false
  replicateDeleteAllowed : Bool := true
  lockEnabled : Bool := false
  checkReplicateDelete : Look → Bool := fun _ => false
  /-- Whether it answers with an error; that of a key that is not found is among them. -/
  enforceRetentionBypassForDelete : Look → Bool := fun _ => false
  meets : Meets

/-- A request of `DeleteMultipleObjectsHandler` with what the object layer is asked for. -/
structure MultipleDelete where
  server : MultiDelete.Server
  request : DeleteObjectsRequest
  asked : List (ObjectToDelete × MultiDelete.Server.Outcome)
  now : Time

/-- A transitioned version whose time has come, as the scanner has read it. -/
structure Expiry where
  object : Name
  remote : Remote
  versionID : String
  versioned : Bool
  /-- The action is `expireRestoredObj`. -/
  restored : Bool := false
  addEntryFails : Bool := false
  meets : Meets

/-- A version that is not transitioned and whose time has come. -/
structure PlainExpiry where
  object : Name
  versionID : String
  versioned : Bool
  applyOnVersion : Bool
  meets : Meets

inductive BucketOp
  | delete (r : SingleDelete)
  | deleteMultiple (r : MultipleDelete)
  | expireTransitioned (e : Expiry)
  | expireNonTransitioned (e : PlainExpiry)

namespace SingleDelete

variable (ol : ObjectLayer) (r : SingleDelete) (objects : Name → XlMetaV2)

def name : Name := encodeDirObject r.object

/-- `delOpts`. -/
def opts : DeleteOptions where
  versioning := r.versioning
  versionID := r.versionID
  deleteMarker := r.deleteMarker
  versionPurgeStatus := if r.deleteMarkerDelete then purgeComplete else ""
  mTime := r.mTime
  deletePrefix := r.deletePrefix

def sweeper : ObjSweeper := newObjSweeper r.opts.versioning r.opts.versionID

def look : Look :=
  getObjectInfo ol (objects r.name) r.name r.sweeper.getOpts false

def deleteOpts : DeleteOptions :=
  let opts :=
    if r.checkReplicateDelete (r.look ol objects) then
      if r.opts.versionID ≠ "" then { r.opts with versionPurgeStatus := pending }
      else { r.opts with deleteMarkerReplicationStatus := pending }
    else r.opts
  if r.isReplica then { opts with deleteMarkerReplicationStatus := "REPLICA" } else opts

def checkedID : String :=
  if r.isReplica = true ∧ (r.deleteOpts ol objects).versionPurgeStatus = "" then ""
  else r.opts.versionID

def refused : Bool :=
  !r.deleteAllowed || (r.isReplica && !r.replicateDeleteAllowed) ||
    (r.lockEnabled && (r.opts.deletePrefix ||
      (r.checkedID ol objects != "" && r.enforceRetentionBypassForDelete (r.look ol objects))))

def swept : Option Remote :=
  (r.sweeper.setFound (r.look ol objects)).shouldRemoveRemoteObject

end SingleDelete

def deletePrefix (objects : Name → XlMetaV2) (pre : Name) : Name → XlMetaV2 := fun name =>
  if name = pre ∨ (pre ++ slashSeparator).isPrefixOf name then {} else objects name

namespace MultipleDelete

variable (ol : ObjectLayer) (r : MultipleDelete)

def versioning : VersioningState :=
  if r.server.versioned then .enabled
  else if r.server.versionSuspended then .suspended
  else .unversioned

/-- Whether the loop of the handler sets a sweeper for an object of the request. -/
def hasSweeper (object : ObjectToDelete) : Bool :=
  (r.server.checkRequestAuthType .deleteObject object.objectName).isNone &&
    !(object.versionID ≠ "" && object.versionID ≠ nullVersionID &&
      (r.server.uuid.parse object.versionID).isNone)

def sweeper (object : ObjectToDelete) : ObjSweeper := newObjSweeper r.versioning object.versionID

/-- The remote object that the sweeper of an object takes to be no longer referred to. -/
def swept (objects : Name → XlMetaV2) (object : ObjectToDelete) : Option Remote :=
  let name := encodeDirObject object.objectName
  let look := getObjectInfo ol (objects name) name (r.sweeper object).getOpts false
  ((r.sweeper object).setFound look).shouldRemoveRemoteObject

/-- What `erasureObjects.DeleteObjects` asks the drives to delete. -/
def requestOf (ask : ObjectToDelete × MultiDelete.Server.Outcome) : FileInfo :=
  if ask.1.versionID = "" && (r.server.versioned || r.server.versionSuspended) then
    { name := String.ofList (encodeDirObject ask.1.objectName)
      versionID := if r.server.versioned then ask.2.uuid else ""
      modTime := r.now
      deleted := true
      deleteMarkerReplicationStatus := ask.1.deleteMarkerReplicationStatus
      versionPurgeStatus := ask.1.versionPurgeStatus }
  else
    { name := String.ofList (encodeDirObject ask.1.objectName)
      versionID := ask.1.versionID
      deleteMarkerReplicationStatus := ask.1.deleteMarkerReplicationStatus
      versionPurgeStatus := ask.1.versionPurgeStatus }

def carriesOut (ask : ObjectToDelete × MultiDelete.Server.Outcome) : Bool :=
  (r.server.bulkErr (r.asked.map fun other => encoded other.1)).isNone &&
    !r.server.inNoPool (encoded ask.1) && ask.2.err.isNone

def deleteOne (objects : Name → XlMetaV2) (ask : ObjectToDelete × MultiDelete.Server.Outcome) :
    Name → XlMetaV2 :=
  let name := encodeDirObject ask.1.objectName
  if r.carriesOut ask then
    Function.update objects name
      ((deleteVersion ol (objects name) (r.requestOf ask) false).getD (objects name))
  else objects

end MultipleDelete

/-- The options of the delete of `expireTransitionedObject`. -/
def Expiry.opts (e : Expiry) : DeleteOptions where
  versioning := if e.versioned then .enabled else .unversioned
  versionID := e.versionID
  expireRestored := e.restored

/-- The options of the delete of `applyExpiryOnNonTransitionedObjects`. -/
def PlainExpiry.opts (e : PlainExpiry) : DeleteOptions :=
  let versionID := if e.applyOnVersion then e.versionID else ""
  { versioning := if versionID = "" ∧ e.versioned = true then .enabled else .unversioned
    versionID }

namespace TierBucket

variable (ol : ObjectLayer) (s : TierBucket)

def put (name : Name) (z : Option XlMetaV2) : TierBucket :=
  { s with objects := Function.update s.objects name (z.getD (s.objects name)) }

/-- `Sweep`. -/
def sweep (remotes : List Remote) : TierBucket := { s with journal := s.journal ++ remotes }

/-- `DeleteObjectHandler`. -/
def deleteObjectHandler (r : SingleDelete) : TierBucket :=
  if r.refused ol s.objects then s
  else if r.opts.deletePrefix then
    if r.meets.fails then s else { s with objects := deletePrefix s.objects r.object }
  else
    match deleteObject ol (s.objects r.name) r.name (r.deleteOpts ol s.objects) r.meets with
    | none => s
    | some z => (s.put r.name (some z)).sweep (r.swept ol s.objects).toList

/-- `DeleteMultipleObjectsHandler`: the sweepers are those of the loop over the request,
whatever becomes of their objects. -/
def deleteMultipleObjectsHandler (r : MultipleDelete) : TierBucket :=
  match r.server.collect r.request.objects with
  | .error _ => s
  | .ok collected =>
    if (r.asked.map Prod.fst).isPerm (collected.objectsToDelete.map Prod.fst) then
      { s with objects := r.asked.foldl (r.deleteOne ol) s.objects }.sweep
        ((r.request.objects.filter r.hasSweeper).filterMap (r.swept ol s.objects))
    else s

/-- `expireTransitionedObject`. -/
def expireTransitionedObject (e : Expiry) : TierBucket :=
  if e.restored then
    s.put e.object (deleteObject ol (s.objects e.object) e.object e.opts e.meets)
  else if e.addEntryFails then s
  else
    (s.sweep [e.remote]).put e.object
      (deleteObject ol (s.objects e.object) e.object e.opts e.meets)

/-- `applyExpiryOnNonTransitionedObjects`. -/
def applyExpiryOnNonTransitionedObjects (e : PlainExpiry) : TierBucket :=
  s.put e.object (deleteObject ol (s.objects e.object) e.object e.opts e.meets)

def step (op : BucketOp) : TierBucket :=
  match op with
  | .delete r => s.deleteObjectHandler ol r
  | .deleteMultiple r => s.deleteMultipleObjectsHandler ol r
  | .expireTransitioned e => s.expireTransitionedObject ol e
  | .expireNonTransitioned e => s.applyExpiryOnNonTransitionedObjects ol e

end TierBucket

end Fs3.Tier

/-! ## What a delete leaves

A delete leaves no object that the journal did not hold, and never changes the remote object
that one names. Of the version that it removes, it leaves nothing.
-/

namespace Fs3

open Tier

namespace XlMetaV2Object

variable (object : XlMetaV2Object)

theorem remote_mark (fi : FileInfo) : (object.mark fi).remote = object.remote := by
  have hget : ∀ key, key ≠ versionPurgeStatusKey →
      (object.mark fi).metaSys.getD key "" = object.metaSys.getD key "" := by
    intro key hne
    change (object.metaSys.insert versionPurgeStatusKey fi.versionPurgeStatus).getD key "" = _
    rw [Std.ExtTreeMap.getD_insert, if_neg]
    rw [Std.LawfulEqCmp.compare_eq_iff_eq]
    exact fun heq => hne heq.symm
  unfold remote
  rw [hget _ (by decide), hget _ (by decide), hget _ (by decide), hget _ (by decide)]

theorem remote_expireRestored : object.expireRestored.remote = object.remote := rfl

end XlMetaV2Object

/-- Every object of a journal after a delete was there before it, with the same id and the
same remote object. -/
def LeavesObjects (versions versions' : List XlMetaV2Version) : Prop :=
  ∀ object, .objectType object ∈ versions' → ∃ old : XlMetaV2Object,
    .objectType old ∈ versions ∧ old.versionID = object.versionID ∧ old.remote = object.remote

namespace LeavesObjects

variable {versions versions' versions'' : List XlMetaV2Version}

theorem of_subset (hsubset : ∀ object, .objectType object ∈ versions' →
    XlMetaV2Version.objectType object ∈ versions) : LeavesObjects versions versions' :=
  fun object hmem => ⟨object, hsubset object hmem, rfl, rfl⟩

theorem trans (hfirst : LeavesObjects versions versions')
    (hsecond : LeavesObjects versions' versions'') : LeavesObjects versions versions'' := by
  intro object hmem
  obtain ⟨middle, hmiddle, hid, hremote⟩ := hsecond object hmem
  obtain ⟨old, hold, hid', hremote'⟩ := hfirst middle hmiddle
  exact ⟨old, hold, hid'.trans hid, hremote'.trans hremote⟩

end LeavesObjects

variable {fi : FileInfo} {uv : UUID} {versions versions' : List XlMetaV2Version}
  {freed : Option XlMetaV2Object}

theorem objectType_ne_deleteEntry (object : XlMetaV2Object) :
    XlMetaV2Version.objectType object ≠ fi.deleteEntry uv := by
  unfold FileInfo.deleteEntry
  split <;> exact XlMetaV2Version.noConfusion

theorem mem_appendEntry {object : XlMetaV2Object}
    (hmem : .objectType object ∈ appendEntry fi uv versions) :
    XlMetaV2Version.objectType object ∈ versions := by
  unfold appendEntry at hmem
  split at hmem
  · rcases List.mem_append.mp hmem with hversions | hentry
    · exact hversions
    · exact absurd (List.mem_singleton.mp hentry) (objectType_ne_deleteEntry object)
  · exact hmem

/-- A delete that is no transition leaves objects as they were. -/
theorem DeleteCase.leavesObjects (hcase : DeleteCase fi uv versions versions' freed)
    (hstatus : fi.transitionStatus ≠ transitionComplete) : LeavesObjects versions versions' := by
  intro object hmem
  cases hcase with
  | markMarker before marker after hversions hbefore huuid hupdate =>
    refine ⟨object, ?_, rfl, rfl⟩
    rw [hversions]
    simpa using hmem
  | markObject before marked after hversions hbefore huuid hupdate =>
    rw [List.mem_append, List.mem_cons] at hmem
    rcases hmem with hmem | heq | hmem
    · exact ⟨object, by simp [hversions, hmem], rfl, rfl⟩
    · cases heq
      exact ⟨marked, by simp [hversions], rfl, (marked.remote_mark fi).symm⟩
    · exact ⟨object, by simp [hversions, hmem], rfl, rfl⟩
  | dropMarker before marker after hversions hbefore huuid hupdate =>
    refine ⟨object, ?_, rfl, rfl⟩
    have hentry : .objectType object ≠ fi.deleteEntry uv := objectType_ne_deleteEntry object
    rw [hversions]
    split at hmem <;> simp_all
  | dropObject before dropped after hversions hmarkers hbefore huuid hupdate =>
    rcases List.mem_append.mp hmem with hmem | hmem
    · exact ⟨object, by simp [hversions, hmem], rfl, rfl⟩
    · rcases List.mem_append.mp (mem_appendEntry hmem) with hkept | hmem
      · rw [FileInfo.keptObject, if_neg hstatus] at hkept
        split at hkept
        · cases List.mem_singleton.mp hkept
          exact ⟨dropped, by simp [hversions], rfl, dropped.remote_expireRestored.symm⟩
        · cases hkept
      · exact ⟨object, by simp [hversions, hmem], rfl, rfl⟩
  | addMarker hversions hdeleted =>
    rcases List.mem_append.mp hmem with hmem | hentry
    · exact ⟨object, hmem, rfl, rfl⟩
    · exact absurd (List.mem_singleton.mp hentry) (objectType_ne_deleteEntry object)

def OneOf (uv : UUID) (versions : List XlMetaV2Version) : Prop :=
  versions.countP (XlMetaV2Version.isNewerOf uv) ≤ 1

variable {before after : List XlMetaV2Version}

theorem OneOf.not_mem {version : XlMetaV2Version} (hone : OneOf uv (before ++ version :: after))
    (hversion : version.isNewerOf uv = true) :
    ∀ other, other ∈ before ++ after → other.isNewerOf uv = false := by
  intro other hmem
  unfold OneOf at hone
  rw [List.countP_append, List.countP_cons_of_pos hversion] at hone
  have hzero : (before ++ after).countP (XlMetaV2Version.isNewerOf uv) = 0 := by
    rw [List.countP_append]
    omega
  exact Bool.eq_false_iff.mpr (List.countP_eq_zero.mp hzero other hmem)

theorem isNewerOf_objectType {object : XlMetaV2Object} :
    (XlMetaV2Version.objectType object).isNewerOf uv = true ↔ object.versionID = uv := by
  simp [XlMetaV2Version.isNewerOf, XlMetaV2Version.isMarkerOf, XlMetaV2Version.isObjectOf]

theorem isNewerOf_deleteType {marker : XlMetaV2DeleteMarker} :
    (XlMetaV2Version.deleteType marker).isNewerOf uv = true ↔ marker.versionID = uv := by
  simp [XlMetaV2Version.isNewerOf, XlMetaV2Version.isMarkerOf, XlMetaV2Version.isObjectOf]

/-- A delete that does not only mark the version leaves no object of its id. -/
theorem DeleteCase.versionID_ne (hcase : DeleteCase fi uv versions versions' freed)
    (hone : OneOf uv versions) (hremoves : fi.updateVersion = false)
    (hrestored : fi.expireRestored = false) (hstatus : fi.transitionStatus ≠ transitionComplete)
    {object : XlMetaV2Object} (hmem : .objectType object ∈ versions') : object.versionID ≠ uv := by
  intro hid
  have hnewer := isNewerOf_objectType.mpr hid
  have hentry : .objectType object ≠ fi.deleteEntry uv := objectType_ne_deleteEntry object
  cases hcase with
  | markMarker _ _ _ _ _ _ hupdate | markObject _ _ _ _ _ _ hupdate =>
    rw [hremoves] at hupdate
    cases hupdate
  | dropMarker before marker after hversions hbefore huuid hupdate =>
    rw [hversions] at hone
    have hleft : .objectType object ∈ before ++ after := by
      split at hmem <;> simp_all
    rw [hone.not_mem (isNewerOf_deleteType.mpr huuid) _ hleft] at hnewer
    cases hnewer
  | dropObject before dropped after hversions hmarkers hbefore huuid hupdate =>
    rw [hversions] at hone
    have hleft : .objectType object ∈ before ++ after := by
      rw [FileInfo.keptObject, hrestored, if_neg hstatus] at hmem
      rcases List.mem_append.mp hmem with hmem | hmem
      · exact List.mem_append_left _ hmem
      · exact List.mem_append_right _ (mem_appendEntry hmem)
    rw [hone.not_mem (isNewerOf_objectType.mpr huuid) _ hleft] at hnewer
    cases hnewer
  | addMarker hversions hdeleted =>
    rcases List.mem_append.mp hmem with hmem | hmem
    · rw [hversions _ hmem] at hnewer
      cases hnewer
    · exact hentry (List.mem_singleton.mp hmem)

/-! ## Deletes that mark nothing -/

/-- A request that removes what it names and leaves at most a marker that can be read. -/
structure FileInfo.Unmarked (fi : FileInfo) (uv : UUID) : Prop where
  markDeleted : fi.markDeleted = false
  expireRestored : fi.expireRestored = false
  transitionStatus : fi.transitionStatus ≠ transitionComplete
  entry : fi.deleted = true → (fi.deleteEntry uv).valid = true

theorem FileInfo.Unmarked.keptObject (hunmarked : fi.Unmarked uv) (object : XlMetaV2Object) :
    fi.keptObject object = [] := by
  rw [FileInfo.keptObject, hunmarked.expireRestored, if_neg hunmarked.transitionStatus]
  rfl

variable {other : UUID}

theorem isNewerOf_deleteEntry (hnewer : (fi.deleteEntry uv).isNewerOf other = true) :
    other = uv := by
  unfold FileInfo.deleteEntry at hnewer
  split at hnewer
  · exact (isNewerOf_deleteType.mp hnewer).symm
  · cases hnewer

theorem OneOf.append (hone : OneOf other versions)
    (hnone : other = uv → ∀ version ∈ versions, version.isNewerOf uv = false) :
    OneOf other (versions ++ [fi.deleteEntry uv]) := by
  unfold OneOf at hone ⊢
  rw [List.countP_append, List.countP_singleton]
  split
  next hnewer =>
    have heq := isNewerOf_deleteEntry hnewer
    rw [heq, List.countP_eq_zero.mpr fun version hmem => by simp [hnone heq version hmem]]
  next => exact hone

theorem OneOf.remove {version : XlMetaV2Version} (hone : OneOf other (before ++ version :: after)) :
    OneOf other (before ++ after) :=
  (((List.sublist_cons_self version after).append_left before).countP_le).trans hone

theorem OneOf.replace {old new : XlMetaV2Version} (hone : OneOf other (before ++ old :: after))
    (hsame : new.isNewerOf other = old.isNewerOf other) : OneOf other (before ++ new :: after) := by
  unfold OneOf at hone ⊢
  rw [List.countP_append, List.countP_cons] at hone ⊢
  rw [hsame]
  exact hone

theorem DeleteCase.oneOf (hcase : DeleteCase fi uv versions versions' freed)
    (hunmarked : fi.Unmarked uv) (hone : OneOf other versions) : OneOf other versions' := by
  cases hcase with
  | markMarker _ _ _ hversions _ _ _ | markObject _ _ _ hversions _ _ _ =>
    rw [hversions] at hone
    exact hone.replace rfl
  | dropMarker before marker after hversions hbefore huuid hupdate =>
    rw [hversions] at hone
    rw [if_neg fun hmark => by simp [hunmarked.markDeleted] at hmark, List.append_nil]
    exact hone.remove
  | dropObject before object after hversions hmarkers hbefore huuid hupdate =>
    rw [hversions] at hone
    rw [hunmarked.keptObject object, List.nil_append, appendEntry]
    split
    · rw [← List.append_assoc]
      refine hone.remove.append fun heq => ?_
      subst heq
      exact hone.not_mem (isNewerOf_objectType.mpr huuid)
    · exact hone.remove
  | addMarker hversions hdeleted => exact hone.append fun _ => hversions

end Fs3
