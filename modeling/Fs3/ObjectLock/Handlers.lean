import Fs3.ObjectLock.ObjectLayer

/-! # The requests that the lock has to withstand

`PutObject`, `PutObjectRetention`, `PutObjectLegalHold` and `DeleteObject` on a bucket with object
lock, with the three checks that they rely on. A handler gives the journal that the object has
afterwards, or the error that it answers with before it has changed anything. -/

namespace Fs3

/-- The actions that the policies of a request are asked for. -/
inductive Action where
  | putObject
  | putObjectRetention
  | putObjectLegalHold
  | putObjectTagging
  | replicateObject
  | deleteObject
  | replicateDelete
  | bypassGovernanceRetention
  | getBucketObjectLockConfiguration
  deriving DecidableEq, Repr

/-- `APIErrorCode`, the codes that these handlers answer with. -/
inductive APIErr where
  | accessDenied
  | objectLocked
  | invalidBucketObjectLockConfiguration
  | methodNotAllowed
  | invalidVersionID
  | invalidArgument
  | forceDelete
  | lock (err : LockErr)
  | storage (err : StorageErr)
  deriving DecidableEq, Repr

/-- A request: its object, the `versionId` of its query, its headers, when it is
handled, whether the time server answers, and what its user may do. -/
structure Request where
  object : String
  versionID : String := ""
  header : Header := fun _ => []
  now : Time
  ntpAnswers : Bool := true
  allowed : Action → Bool

def minIOForceDelete : String := "x-minio-force-delete"
def minIOSourceMTime : String := "x-minio-source-mtime"
def minIOSourceDeleteMarker : String := "x-minio-source-deletemarker"
def minIOSourceDeleteMarkerDelete : String := "x-minio-source-deletemarker-delete"

/-- `replication.Replica`, `replication.Pending` and `VersionPurgeStatus` of the same name. -/
def replicaStatus : String := "REPLICA"
def pendingStatus : String := "PENDING"

namespace Request

variable (r : Request)

/-- `UTCNowNTP`. -/
def clock : NTPClock := if r.ntpAnswers then some r.now else none

def vid : String := String.ofList (trimSpace r.versionID.toList)

def trimmed (key : String) : String := String.ofList (trimSpace (r.header.get key).toList)

def isReplica : Bool := r.header.get amzBucketReplicationStatus == replicaStatus

def bypassSet : Bool := isObjectLockGovernanceBypassSet r.header

end Request

/-- `strconv.ParseBool`. -/
def parseBool (text : String) : Option Bool :=
  if text ∈ ["1", "t", "T", "TRUE", "true", "True"] then some true
  else if text ∈ ["0", "f", "F", "FALSE", "false", "False"] then some false
  else none

def parseFlag (text : String) : Option Bool :=
  if text = "" then some false
  else if text = "true" then some true
  else if text = "false" then some false
  else none

section Checks

variable (ol : ObjectLayer)

def validVersionID (vid : String) : Bool :=
  vid == "" || vid == nullVersionID || (ol.uuid.parse vid).isSome

/-- `getOpts`. -/
def getOpts (r : Request) : Except APIErr DeleteOptions :=
  if !validVersionID ol r.vid then .error .invalidVersionID
  else
    let forceDelete := r.header.get minIOForceDelete
    match if forceDelete = "" then some false else parseBool forceDelete with
    | none => .error .invalidArgument
    | some deletePrefix =>
      match parseFlag (r.trimmed minIOSourceDeleteMarker) with
      | none => .error .invalidArgument
      | some deleteMarker =>
        .ok { versioning := .enabled, versionID := r.vid, deletePrefix, deleteMarker }

/-- `delOpts`. -/
def delOpts (r : Request) : Except APIErr DeleteOptions :=
  match getOpts ol r with
  | .error err => .error err
  | .ok opts =>
    match parseFlag (r.trimmed minIOSourceDeleteMarkerDelete) with
    | none => .error .invalidArgument
    | some purge =>
      let opts := { opts with versionPurgeStatus := if purge then purgeComplete else "" }
      if r.trimmed minIOSourceMTime = "" then .ok { opts with mTime := r.now }
      else
        match Time.parseRFC3339 (r.trimmed minIOSourceMTime) with
        | none => .error .invalidArgument
        | some mTime => .ok { opts with mTime }

/-- `enforceRetentionBypassForDelete`; nothing stands for `ErrNone`. -/
def enforceRetentionBypassForDelete (r : Request) (oi : Option LockedObjectInfo)
    (gerr : Option StorageErr) : Option APIErr :=
  match getOpts ol r with
  | .error err => some err
  | .ok _ =>
    match gerr with
    | some err =>
      if err = .errMethodNotAllowed ∧ oi.any (fun info => info.deleteMarker) = true then none
      else if err = .errFileNotFound ∨ err = .errFileVersionNotFound then none
      else some (.storage err)
    | none =>
      let userDefined := oi.elim ∅ LockedObjectInfo.userDefined
      if (getObjectLegalHoldMeta userDefined).status = some .on then some .objectLocked
      else
        let ret := getObjectRetentionMeta userDefined
        match ret.mode with
        | none => none
        | some .compliance =>
          match r.clock with
          | none => some .objectLocked
          | some t => if ret.retainUntilDate < t then none else some .objectLocked
        | some .governance =>
          if r.bypassSet = false then
            match r.clock with
            | none => some .objectLocked
            | some t => if ret.retainUntilDate < t then none else some .objectLocked
          else if r.allowed .bypassGovernanceRetention = false ∧
              r.allowed .getBucketObjectLockConfiguration = false then some .accessDenied
          else none

/-- `isPutRetentionAllowed`. -/
def isPutRetentionAllowed (r : Request) (retMode : Option RetMode) (byPassSet : Bool) :
    Option APIErr :=
  let byPassSet :=
    if retMode = some .governance ∧ byPassSet = true then r.allowed .bypassGovernanceRetention
    else byPassSet
  if byPassSet || r.allowed .putObjectRetention then none else some .accessDenied

/-- `enforceRetentionBypassForPut`, with the information that it has read. -/
def enforceRetentionBypassForPut (z : XlMetaV2) (r : Request) (objRetention : ObjectRetention) :
    Except APIErr LockedObjectInfo :=
  let answer (oi : LockedObjectInfo) (err : Option APIErr) : Except APIErr LockedObjectInfo :=
    match err with
    | none => .ok oi
    | some err => .error err
  match getOpts ol r with
  | .error err => .error err
  | .ok opts =>
    match ol.getObjectInfo z r.object opts.versionID opts.deleteMarker with
    | (_, some err) => .error (.storage err)
    | (none, none) => .error (.storage .errFileNotFound)
    | (some oi, none) =>
      match r.clock with
      | none => .error .objectLocked
      | some t =>
        let ret := getObjectRetentionMeta oi.userDefined
        match ret.mode with
        | none => answer oi (isPutRetentionAllowed r objRetention.mode r.bypassSet)
        | some mode =>
          if ret.retainUntilDate < t then
            answer oi (isPutRetentionAllowed r objRetention.mode r.bypassSet)
          else
            match mode with
            | .governance =>
              if r.bypassSet = false ∧ (objRetention.mode ≠ some .governance ∨
                  objRetention.retainUntilDate < ret.retainUntilDate) then
                .error .objectLocked
              else answer oi (isPutRetentionAllowed r objRetention.mode r.bypassSet)
            | .compliance =>
              if objRetention.mode ≠ some .compliance ∨
                  objRetention.retainUntilDate < ret.retainUntilDate then
                .error .objectLocked
              else answer oi (isPutRetentionAllowed r objRetention.mode false)

/-- `Retention`, the lock configuration of a bucket. -/
structure Retention where
  mode : Option RetMode := none
  validity : Int := 0
  lockEnabled : Bool := false

/-- What `checkPutObjectLockAllowed` reads of the version that a request names. -/
def lockOfNamedVersion (z : XlMetaV2) (r : Request) (opts : DeleteOptions) :
    Except APIErr (ObjectRetention × ObjectLegalHold) :=
  if opts.versionID ≠ "" ∧ r.isReplica = false then
    match ol.getObjectInfo z r.object opts.versionID opts.deleteMarker with
    | (_, some _) => .ok ({}, {})
    | (objInfo, none) =>
      let userDefined := objInfo.elim ∅ LockedObjectInfo.userDefined
      let ret := getObjectRetentionMeta userDefined
      match r.clock with
      | none => .error .objectLocked
      | some t =>
        if ret.mode = some .compliance ∧ t < ret.retainUntilDate then .error .objectLocked
        else
          let legalHold := getObjectLegalHoldMeta userDefined
          if legalHold.status = some .on then .error .objectLocked
          else .ok (ret, legalHold)
  else .ok ({}, {})

/-- `checkPutObjectLockAllowed`. -/
def checkPutObjectLockAllowed (z : XlMetaV2) (r : Request) (retentionCfg : Retention)
    (retentionPermErr : Option APIErr) : Except APIErr (ObjectRetention × ObjectLegalHold) :=
  let retentionRequested := isObjectLockRetentionRequested r.header
  let legalHoldRequested := isObjectLockLegalHoldRequested r.header
  if retentionCfg.lockEnabled = false then
    if legalHoldRequested || retentionRequested then
      .error .invalidBucketObjectLockConfiguration
    else .ok ({}, {})
  else
    match getOpts ol r with
    | .error err => .error err
    | .ok opts =>
      match lockOfNamedVersion ol z r opts with
      | .error err => .error err
      | .ok (ret, named) =>
        match if legalHoldRequested then parseObjectLockLegalHoldHeaders r.header
          else .ok named with
        | .error _ => .ok (ret, {})
        | .ok legalHold =>
          if retentionRequested then
            match parseObjectLockLegalHoldHeaders r.header,
                parseObjectLockRetentionHeaders r.clock r.header with
            | .error err, _ => .error (.lock err)
            | _, .error err => .error (.lock err)
            | .ok legalHold, .ok (rMode, rDate) =>
              match retentionPermErr with
              | some err => .error err
              | none => .ok ({ mode := some rMode, retainUntilDate := rDate }, legalHold)
          else if r.isReplica then .ok ({}, legalHold)
          else if 0 < retentionCfg.validity then
            match retentionPermErr, r.clock with
            | some err, _ => .error err
            | none, none => .error .objectLocked
            | none, some t =>
              if legalHoldRequested = false ∧ retentionCfg.lockEnabled = true then
                .ok ({ mode := retentionCfg.mode,
                       retainUntilDate := (show Int from t) + retentionCfg.validity },
                  legalHold)
              else .ok ({}, legalHold)
          else .ok (ret, legalHold)

end Checks

/-! ## The handlers -/

namespace ObjectLayer

variable (ol : ObjectLayer)

/-- The lock that `PutObjectHandler` writes into the metadata of a new version. -/
def lockMetadata (metadata : Metadata) (ret : ObjectRetention) (hold : ObjectLegalHold) :
    Metadata :=
  let metadata :=
    match ret.mode with
    | some mode =>
      (metadata.insert lockModeKey mode.toText).insert retainUntilDateKey
        (Time.formatISO8601 ret.retainUntilDate)
    | none => metadata
  match hold.status with
  | some status => metadata.insert legalHoldKey status.toText
  | none => metadata

def retentionPerms (r : Request) : Option APIErr :=
  if r.header.get amzObjectLockMode = "" ∧ r.header.get amzObjectLockRetainUntilDate = "" then none
  else if r.allowed .putObjectRetention then none
  else some .accessDenied

/-- `PutObjectHandler` of what the drives are to store. -/
def putObjectHandler (z : XlMetaV2) (r : Request) (retentionCfg : Retention) (fi : FileInfo)
    (fresh : UUID) : Except APIErr XlMetaV2 :=
  if r.allowed .putObject = false then .error .accessDenied
  else if !validVersionID ol r.vid then .error .invalidVersionID
  else
    match checkPutObjectLockAllowed ol z r retentionCfg (retentionPerms r) with
    | .error err => .error err
    | .ok (ret, hold) =>
      if r.isReplica = true ∧ r.allowed .replicateObject = false then .error .accessDenied
      else
        let fi := { fi with metadata := lockMetadata fi.metadata ret hold }
        match ol.putObject z r.vid fi fresh with
        | .error err => .error (.storage err)
        | .ok z' => .ok z'

/-- Write metadata that was read back with some keys changed; a request that
names no version means the one that was read. -/
def writeBack (z : XlMetaV2) (r : Request) (opts : DeleteOptions) (objInfo : LockedObjectInfo) :
    Except APIErr XlMetaV2 :=
  let versionID := if opts.versionID = "" then objInfo.versionID else opts.versionID
  match ol.putObjectMetadata z r.object versionID Time.zero objInfo.userDefined with
  | .error err => .error (.storage err)
  | .ok z' => .ok z'

def markReplicate (replicate : Bool) (metadata : Metadata) : Metadata :=
  if replicate then metadata.insert amzBucketReplicationStatus pendingStatus else metadata

/-- Metadata as the handlers have changed it: whether the change is replicated is
decided on what it makes of the version. -/
def changed (mustReplicate : LockedObjectInfo → Bool) (objInfo : LockedObjectInfo)
    (userDefined : Metadata) : LockedObjectInfo :=
  { objInfo with
    userDefined := markReplicate (mustReplicate { objInfo with userDefined }) userDefined }

/-- The keys that `PutObjectRetentionHandler` sets. -/
def retentionMetadata (objRetention : ObjectRetention) (metadata : Metadata) : Metadata :=
  match objRetention.mode with
  | some mode =>
    (metadata.insert lockModeKey mode.toText).insert retainUntilDateKey
      (Time.formatRFC3339 objRetention.retainUntilDate)
  | none => (metadata.insert lockModeKey "").insert retainUntilDateKey ""

/-- `PutObjectRetentionHandler` of a decoded document. -/
def putObjectRetentionHandler (z : XlMetaV2) (r : Request) (mode : String)
    (retainUntilDate : Time) (mustReplicate : LockedObjectInfo → Bool) :
    Except APIErr XlMetaV2 :=
  match parseObjectRetention r.clock mode retainUntilDate with
  | .error err => .error (.lock err)
  | .ok objRetention =>
    match getOpts ol r with
    | .error err => .error err
    | .ok opts =>
      match enforceRetentionBypassForPut ol z r objRetention with
      | .error err => .error err
      | .ok objInfo =>
        if objInfo.deleteMarker then .error .methodNotAllowed
        else
          ol.writeBack z r opts (changed mustReplicate objInfo
            (retentionMetadata objRetention objInfo.userDefined))

/-- `PutObjectLegalHoldHandler` of a status that has passed `ParseObjectLegalHold`. -/
def putObjectLegalHoldHandler (z : XlMetaV2) (r : Request) (status : LegalHoldStatus)
    (mustReplicate : LockedObjectInfo → Bool) : Except APIErr XlMetaV2 :=
  if r.allowed .putObjectLegalHold = false then .error .accessDenied
  else
    match getOpts ol r with
    | .error err => .error err
    | .ok opts =>
      match ol.getObjectInfo z r.object opts.versionID opts.deleteMarker with
      | (_, some err) => .error (.storage err)
      | (none, none) => .error (.storage .errFileNotFound)
      | (some objInfo, none) =>
        if objInfo.deleteMarker then .error .methodNotAllowed
        else
          ol.writeBack z r opts (changed mustReplicate objInfo
            (objInfo.userDefined.insert legalHoldKey status.toText))

/-- The options of `DeleteObjectHandler` as its replication rules change them. -/
def deleteOptions (r : Request) (opts : DeleteOptions) (replicateDel : Bool) : DeleteOptions :=
  let opts :=
    if replicateDel then
      if opts.versionID ≠ "" then { opts with versionPurgeStatus := pendingStatus }
      else { opts with deleteMarkerReplicationStatus := pendingStatus }
    else opts
  if r.isReplica then { opts with deleteMarkerReplicationStatus := replicaStatus } else opts

/-- The id that the lock is checked for: none where a replica's delete marker is
to be added, which is taken not to be on the drives yet. -/
def checkedID (r : Request) (opts : DeleteOptions) : String :=
  if r.isReplica = true ∧ opts.versionPurgeStatus = "" then "" else opts.versionID

/-- `DeleteObjectHandler`. -/
def deleteObjectHandler (z : XlMetaV2) (r : Request) (replicateDel : Bool) (fresh : UUID) :
    Except APIErr XlMetaV2 :=
  if r.allowed .deleteObject = false then .error .accessDenied
  else
    match delOpts ol r with
    | .error err => .error err
    | .ok requested =>
      let (goi, gerr) := ol.getObjectInfo z r.object r.vid false
      let opts := deleteOptions r requested replicateDel
      if r.isReplica = true ∧ r.allowed .replicateDelete = false then .error .accessDenied
      else if opts.deletePrefix then .error .forceDelete
      else
        let apiErr :=
          if checkedID r opts ≠ "" then enforceRetentionBypassForDelete ol r goi gerr else none
        match apiErr with
        | some err => if err = .storage .errFileNotFound then .ok z else .error err
        | none => .ok (ol.deleteObject z r.object opts r.now fresh)

end ObjectLayer

end Fs3
