import Fs3.Drive.ObjectDir
import Fs3.Erasure.Dangling
import Fs3.Erasure.PutObject

/-! # Deleting an object

`DeleteObject` looks the object up, gives the lock up, and takes a lock of its own for the delete.
-/

namespace Fs3

/-- The versioning state of a bucket. -/
inductive VersioningState where
  | unversioned
  | enabled
  | suspended
  deriving DecidableEq, Repr

/-- `ObjectOptions` of a delete: the versioning state of the bucket stands for
`Versioned` and `VersionSuspended`. -/
structure DeleteOptions where
  versioning : VersioningState
  versionID : String := ""
  deleteMarker : Bool := false
  deleteMarkerReplicationStatus : String := ""
  versionPurgeStatus : String := ""
  transitionStatus : String := ""
  expireRestored : Bool := false
  mTime : Time := Time.zero
  deletePrefix : Bool := false

namespace DeleteOptions

def versioned (opts : DeleteOptions) : Bool := opts.versioning == .enabled

def versionSuspended (opts : DeleteOptions) : Bool := opts.versioning == .suspended

end DeleteOptions

/-- `ObjectInfo`, the fields that a delete reads or returns. -/
structure ObjectInfo where
  versionID : String := ""
  deleteMarker : Bool := false
  versionPurgeStatus : String := ""
  replicationStatus : String := ""
  deriving DecidableEq, Repr

/-- `FileInfo.ToObjectInfo`: where versions have ids, no id reads as `null`. -/
def FileInfo.toObjectInfo (fi : FileInfo) (versioning : VersioningState) : ObjectInfo where
  versionID :=
    if versioning ≠ .unversioned ∧ fi.versionID = "" then nullVersionID else fi.versionID
  deleteMarker := fi.deleted
  versionPurgeStatus := fi.versionPurgeStatus
  replicationStatus :=
    if fi.deleted then fi.deleteMarkerReplicationStatus
    else fi.metadata.getD amzBucketReplicationStatus ""

/-- What the erasure layer of one set works with. -/
structure ErasureObjects where
  clock : Clock
  orders : MapOrders
  hash : MetaHash
  sCfg : StorageClassConfig
  defaultParityCount : Int

/-- One call: the object's name, what the lookup got from the drives (or the
error of its lock), the error of the lock of the delete, the time, and the id
that `mustGetUUID` makes. -/
structure DeleteCall where
  object : String
  look : Except StorageErr (List (Except StorageErr FileInfo))
  lockErr : Option StorageErr := none
  now : Time
  fresh : UUID

/-- The result of a call, and what each drive that was asked made of it. -/
structure DeleteObjectOutcome where
  objInfo : ObjectInfo
  err : Option StorageErr := none
  drives : List (Option DeleteOutcome) := []

namespace ErasureObjects

variable (er : ErasureObjects)

/-- `getObjectFileInfo` of an object in a user's bucket. -/
def getObjectFileInfo (opts : DeleteOptions) (answers : List (Except StorageErr FileInfo)) :
    Except StorageErr FileInfo :=
  let reads := readAllFileInfo answers
  let metaArr := reads.map Prod.fst
  let errs := reads.map Prod.snd
  match objectQuorumFromMeta er.orders er.sCfg reads er.defaultParityCount with
  | .error err => .error err
  | .ok (readQuorum, _) =>
    match reduceReadQuorumErrs er.orders errs objectOpIgnoredErrs readQuorum with
    | some err =>
      if err = .errErasureReadQuorum ∧ (isObjectDangling er.clock metaArr errs []).2 = true then
        .error (if opts.versionID ≠ "" then .errFileVersionNotFound else .errFileNotFound)
      else .error err
    | none =>
      let (modTime, dataDir) :=
        commonTime er.orders (listObjectModtimes reads) (listObjectDataDirs reads)
      pickValidFileInfo er.orders er.hash metaArr modTime dataDir readQuorum

/-- `GetObjectInfo`; no information stands for one without a name. -/
def getObjectInfo (opts : DeleteOptions)
    (look : Except StorageErr (List (Except StorageErr FileInfo))) :
    Option ObjectInfo × Option StorageErr :=
  match look with
  | .error err => (none, some err)
  | .ok answers =>
    match er.getObjectFileInfo opts answers with
    | .error err => (none, some err)
    | .ok fi =>
      let objInfo := fi.toObjectInfo opts.versioning
      if fi.versionPurgeStatus ≠ "" then (some objInfo, some .errMethodNotAllowed)
      else if fi.deleted then
        if opts.versionID = "" ∨ opts.deleteMarker = true then
          (some objInfo, some .errFileNotFound)
        else (some objInfo, some .errMethodNotAllowed)
      else (some objInfo, none)

def markDelete (opts : DeleteOptions) (goi : Option ObjectInfo) : Bool :=
  let markDelete := (goi.elim "" ObjectInfo.versionID) != ""
  if opts.versionID ≠ "" then
    if goi.isSome = true ∧ opts.deleteMarkerReplicationStatus = "REPLICA" then false
    else if opts.versionPurgeStatus = "" ∧ opts.deleteMarkerReplicationStatus = "" then false
    else if opts.versionPurgeStatus = purgeComplete then false
    else markDelete
  else markDelete

def deleteMarker (opts : DeleteOptions) (goi : Option ObjectInfo) : Bool :=
  if opts.versionID ≠ "" ∧ goi.any (fun objInfo => !objInfo.deleteMarker) = true then false
  else opts.versioned

def marksVersion (opts : DeleteOptions) (goi : Option ObjectInfo) : Bool :=
  markDelete opts goi && (opts.versioned || opts.versionSuspended)

def requestID (uuid : UuidPackage) (opts : DeleteOptions) (goi : Option ObjectInfo)
    (fresh : UUID) : String :=
  if marksVersion opts goi && opts.versioned && opts.versionID == "" then uuid.print fresh
  else if marksVersion opts goi && !opts.versioned then ""
  else opts.versionID

def deleteRequest (uuid : UuidPackage) (opts : DeleteOptions) (call : DeleteCall)
    (goi : Option ObjectInfo) : FileInfo where
  name := call.object
  versionID := requestID uuid opts goi call.fresh
  deleted := deleteMarker opts goi
  markDeleted := markDelete opts goi
  modTime := if opts.mTime.isZero then call.now else opts.mTime
  deleteMarkerReplicationStatus := opts.deleteMarkerReplicationStatus
  versionPurgeStatus := opts.versionPurgeStatus
  transitionStatus := opts.transitionStatus
  expireRestored := opts.expireRestored

def lookupErr (opts : DeleteOptions) (goi : Option ObjectInfo) (gerr : Option StorageErr) :
    Option StorageErr :=
  if goi.isSome then none
  else
    match gerr with
    | some .errErasureReadQuorum => some .errErasureWriteQuorum
    | some err => if opts.deleteMarker then none else some err
    | none => none

def driveErr (drive : Option DeleteOutcome) : Option StorageErr :=
  match drive with
  | none => some .errDiskNotFound
  | some outcome => outcome.err

/-- `deleteObjectVersion`: ask every drive, and reduce the errors. -/
def deleteObjectVersion (s : XlStorage) (disks : List (Option ObjectDir)) (writeQuorum : Int)
    (fi : FileInfo) (forceDelMarker : Bool) : List (Option DeleteOutcome) × Option StorageErr :=
  let drives := disks.map (Option.map fun dir => s.deleteVersion dir fi forceDelMarker)
  (drives, reduceWriteQuorumErrs er.orders (drives.map driveErr) objectOpIgnoredErrs writeQuorum)

/-- `deletePrefix`: every drive that is there removes all it has. -/
def deletePrefix (disks : List (Option ObjectDir)) : List (Option DeleteOutcome) :=
  disks.map (Option.map fun dir => { dir := {}, trash := dir.contents })

/-- `erasureObjects.DeleteObject`. -/
def deleteObject (s : XlStorage) (disks : List (Option ObjectDir)) (opts : DeleteOptions)
    (call : DeleteCall) : DeleteObjectOutcome :=
  if opts.deletePrefix then { objInfo := {}, drives := deletePrefix disks }
  else
    let (goi, gerr) := er.getObjectInfo opts call.look
    match lookupErr opts goi gerr with
    | some err => { objInfo := { versionID := opts.versionID }, err := some err }
    | none =>
      match call.lockErr with
      | some err => { objInfo := {}, err := some err }
      | none =>
        let writeQuorum : Nat := disks.length / 2 + 1
        let fi := deleteRequest s.uuid opts call goi
        match er.deleteObjectVersion s disks writeQuorum fi opts.deleteMarker with
        | (drives, some err) =>
          { objInfo := { versionID := opts.versionID }, err := some err, drives }
        | (drives, none) =>
          if marksVersion opts goi then
            { objInfo := fi.toObjectInfo opts.versioning, drives }
          else
            { objInfo :=
                { versionID := opts.versionID
                  versionPurgeStatus := opts.versionPurgeStatus
                  replicationStatus := opts.deleteMarkerReplicationStatus }
              drives }

theorem drives_of_deleteObject {s : XlStorage} {disks : List (Option ObjectDir)}
    {opts : DeleteOptions} {call : DeleteCall} (hfront : opts.deletePrefix = false)
    (hok : (er.deleteObject s disks opts call).err = none) :
    (er.deleteObject s disks opts call).drives =
      disks.map (Option.map fun dir =>
        s.deleteVersion dir (deleteRequest s.uuid opts call (er.getObjectInfo opts call.look).1)
          opts.deleteMarker) := by
  unfold deleteObject at hok ⊢
  rw [if_neg (by simp [hfront])] at hok ⊢
  generalize er.getObjectInfo opts call.look = info at hok ⊢
  obtain ⟨goi, gerr⟩ := info
  simp only at hok ⊢
  cases hlookup : lookupErr opts goi gerr with
  | some err =>
    rw [hlookup] at hok
    cases hok
  | none =>
    cases hlock : call.lockErr with
    | some err =>
      rw [hlookup, hlock] at hok
      cases hok
    | none =>
      rw [hlookup, hlock] at hok
      simp only [deleteObjectVersion] at hok ⊢
      split at hok
      · cases hok
      next hreduce =>
        rw [Prod.mk.injEq] at hreduce
        rw [hreduce.1]
        split <;> rfl

end ErasureObjects

end Fs3
