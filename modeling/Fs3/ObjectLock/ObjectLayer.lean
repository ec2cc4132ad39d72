import Fs3.Erasure.DeleteObject

/-! # Retention and legal hold

What the metadata of a version and the headers of a request say about the lock of an object. A mode
or a status that is none of the known ones is the empty text in the source and `none` here. -/

namespace Fs3

/-- `RetMode`. -/
inductive RetMode where
  | governance
  | compliance
  deriving DecidableEq, Repr

/-- `LegalHoldStatus`. -/
inductive LegalHoldStatus where
  | on
  | off
  deriving DecidableEq, Repr

namespace RetMode

def toText : RetMode → String
  | governance => "GOVERNANCE"
  | compliance => "COMPLIANCE"

end RetMode

namespace LegalHoldStatus

def toText : LegalHoldStatus → String
  | on => "ON"
  | off => "OFF"

end LegalHoldStatus

def parseRetMode (modeStr : String) : Option RetMode :=
  if toUpper modeStr = "GOVERNANCE" then some .governance
  else if toUpper modeStr = "COMPLIANCE" then some .compliance
  else none

def parseLegalHoldStatus (holdStr : String) : Option LegalHoldStatus :=
  if toUpper holdStr = "ON" then some .on
  else if toUpper holdStr = "OFF" then some .off
  else none

theorem parseRetMode_toText (mode : RetMode) : parseRetMode mode.toText = some mode := by
  cases mode <;> decide

def amzObjectLockBypassRetGovernance : String := "X-Amz-Bypass-Governance-Retention"
def amzObjectLockRetainUntilDate : String := "X-Amz-Object-Lock-Retain-Until-Date"
def amzObjectLockMode : String := "X-Amz-Object-Lock-Mode"
def amzObjectLockLegalHold : String := "X-Amz-Object-Lock-Legal-Hold"

/-- The keys that the handlers write, `strings.ToLower` of the headers. -/
def lockModeKey : String := "x-amz-object-lock-mode"
def retainUntilDateKey : String := "x-amz-object-lock-retain-until-date"
def legalHoldKey : String := "x-amz-object-lock-legal-hold"

theorem toLower_amzObjectLockRetainUntilDate :
    toLower amzObjectLockRetainUntilDate = retainUntilDateKey := by decide

/-- `ObjectRetention` without its XML names. -/
structure ObjectRetention where
  mode : Option RetMode := none
  retainUntilDate : Time := Time.zero
  deriving DecidableEq

/-- `ObjectLegalHold` without its XML names. -/
structure ObjectLegalHold where
  status : Option LegalHoldStatus := none
  deriving DecidableEq

def lockText (metadata : Metadata) (key : String) : Option String :=
  metadata[toLower key]?.or metadata[key]?

/-- `GetObjectRetentionMeta`. -/
def getObjectRetentionMeta (metadata : Metadata) : ObjectRetention :=
  match lockText metadata amzObjectLockMode with
  | none => {}
  | some modeStr =>
    { mode := parseRetMode modeStr
      retainUntilDate :=
        ((lockText metadata amzObjectLockRetainUntilDate).bind Time.parseRFC3339).getD
          Time.zero }

/-- `GetObjectLegalHoldMeta`. -/
def getObjectLegalHoldMeta (metadata : Metadata) : ObjectLegalHold :=
  match lockText metadata amzObjectLockLegalHold with
  | none => {}
  | some holdStr => { status := parseLegalHoldStatus holdStr }

/-- `http.Header`, from canonical names; an absent header has no values. -/
abbrev Header := String → List String

/-- `Header.Get`. -/
def Header.get (h : Header) (key : String) : String := (h key).headD ""

/-- `_, ok := h[key]`. -/
def Header.has (h : Header) (key : String) : Bool := !(h key).isEmpty

def isObjectLockRetentionRequested (h : Header) : Bool :=
  h.has amzObjectLockMode || h.has amzObjectLockRetainUntilDate

def isObjectLockLegalHoldRequested (h : Header) : Bool := h.has amzObjectLockLegalHold

def isObjectLockGovernanceBypassSet (h : Header) : Bool :=
  toLower (h.get amzObjectLockBypassRetGovernance) == "true"

/-- The errors of the lock package. -/
inductive LockErr where
  | errMalformedXML
  | errUnknownWORMModeDirective
  | errInvalidRetentionDate
  | errPastObjectLockRetainDate
  | errObjectLockInvalidHeaders
  deriving DecidableEq, Repr

/-- `UTCNowNTP`: nothing where the time server does not answer. -/
abbrev NTPClock := Option Time

/-- `ParseObjectLockRetentionHeaders`. -/
def parseObjectLockRetentionHeaders (clock : NTPClock) (h : Header) :
    Except LockErr (RetMode × Time) :=
  let retMode := h.get amzObjectLockMode
  let dateStr := h.get amzObjectLockRetainUntilDate
  if retMode = "" ∨ dateStr = "" then .error .errObjectLockInvalidHeaders
  else
    match parseRetMode retMode with
    | none => .error .errUnknownWORMModeDirective
    | some rmode =>
      match Time.parseRFC3339 dateStr with
      | none => .error .errInvalidRetentionDate
      | some retDate =>
        match clock with
        | none => .error .errPastObjectLockRetainDate
        | some t =>
          if retDate < t then .error .errPastObjectLockRetainDate else .ok (rmode, retDate)

/-- `ParseObjectLockLegalHoldHeaders`. -/
def parseObjectLockLegalHoldHeaders (h : Header) : Except LockErr ObjectLegalHold :=
  match h amzObjectLockLegalHold with
  | [] => .ok {}
  | holdStatus :: _ =>
    match parseLegalHoldStatus holdStatus with
    | none => .error .errUnknownWORMModeDirective
    | some status => .ok { status := some status }

/-- The checks of `ParseObjectRetention` on a decoded document: its mode as it is
written and its date. -/
def parseObjectRetention (clock : NTPClock) (mode : String) (retainUntilDate : Time) :
    Except LockErr ObjectRetention :=
  let valid : Option RetMode :=
    if mode = "GOVERNANCE" then some .governance
    else if mode = "COMPLIANCE" then some .compliance
    else none
  if mode ≠ "" ∧ valid = none then .error .errUnknownWORMModeDirective
  else if valid ≠ none ∧ retainUntilDate.isZero = true then .error .errMalformedXML
  else if valid = none ∧ retainUntilDate.isZero = false then .error .errMalformedXML
  else
    match clock with
    | none => .error .errPastObjectLockRetainDate
    | some t =>
      if retainUntilDate.isZero = false ∧ retainUntilDate < t then
        .error .errPastObjectLockRetainDate
      else .ok { mode := valid, retainUntilDate }

/-- The date that a retention request leaves: what is below a second is lost, and
a year of five digits is not read at all. -/
def storedDate (date : Time) : Time := (Time.parseRFC3339 (Time.formatRFC3339 date)).getD Time.zero

theorem lockText_insert_lower (metadata : Metadata) (key value : String) :
    lockText (metadata.insert (toLower key) value) key = some value := by
  rw [lockText, Std.ExtTreeMap.getElem?_insert_self, Option.some_or]

/-- Two maps that agree on the keys of the lock say the same about it. -/
structure AgreeOnLock (metadata metadata' : Metadata) : Prop where
  mode : lockText metadata' amzObjectLockMode = lockText metadata amzObjectLockMode
  date : lockText metadata' amzObjectLockRetainUntilDate =
    lockText metadata amzObjectLockRetainUntilDate
  hold : lockText metadata' amzObjectLockLegalHold = lockText metadata amzObjectLockLegalHold

end Fs3

/-! ## The object layer over one journal for each object

What the handlers call, with the drives taken together: an object is the
journal that its drives agree on. The bucket keeps versions, as a bucket with
object lock does.
-/

namespace Fs3

open Foundation

def amzObjectTagging : String := "X-Amz-Tagging"

/-- The keys that `cleanMetadata` removes. -/
def cleanedKeys : List String := ["md5Sum", "etag", "expires", amzObjectTagging, "last-modified"]

/-- `cleanMetadata`. -/
def cleanMetadata (metadata : Metadata) : Metadata :=
  let metadata :=
    if metadata.getD amzStorageClass "" = "STANDARD" then metadata.erase amzStorageClass
    else metadata
  metadata.filter fun key _ => !cleanedKeys.contains key

/-- `ObjectInfo` with the metadata that the lock handlers read and write back, and
the tags, which are kept apart from it. -/
structure LockedObjectInfo extends ObjectInfo where
  userDefined : Metadata := ∅
  userTags : String := ""

/-- What the object layer of a bucket works with. -/
structure ObjectLayer where
  bucket : String
  uuid : UuidPackage
  clock : Clock
  sorter : DescendingSort XlMetaV2Version.modTime

namespace ObjectLayer

variable (ol : ObjectLayer)

/-- `ToObjectInfo` in a bucket that keeps versions. -/
def toObjectInfo (fi : FileInfo) : LockedObjectInfo :=
  { fi.toObjectInfo .enabled with
    userDefined := cleanMetadata fi.metadata
    userTags := fi.metadata.getD amzObjectTagging "" }

/-- `GetObjectInfo`; no information stands for one without a name. -/
def getObjectInfo (z : XlMetaV2) (object versionID : String) (deleteMarker : Bool) :
    Option LockedObjectInfo × Option StorageErr :=
  match z.toFileInfo ol.uuid ol.bucket object ol.sorter versionID with
  | .error err => (none, some err)
  | .ok fi =>
    if fi.versionPurgeStatus ≠ "" then (some (toObjectInfo fi), some .errMethodNotAllowed)
    else if fi.deleted then
      if versionID = "" ∨ deleteMarker = true then
        (some (toObjectInfo fi), some .errFileNotFound)
      else (some (toObjectInfo fi), some .errMethodNotAllowed)
    else (some (toObjectInfo fi), none)

/-- `PutObject` of what the drives are to store; a version without an id gets a
new one. -/
def putObject (z : XlMetaV2) (versionID : String) (fi : FileInfo) (fresh : UUID) :
    Except StorageErr XlMetaV2 :=
  let versionID := if versionID = "" then ol.uuid.print fresh else versionID
  z.addVersion ol.uuid { fi with versionID, deleted := false }

/-- `PutObjectMetadata`. -/
def putObjectMetadata (z : XlMetaV2) (object versionID : String) (mTime : Time)
    (userDefined : Metadata) : Except StorageErr XlMetaV2 :=
  match z.toFileInfo ol.uuid ol.bucket object ol.sorter versionID with
  | .error err => .error err
  | .ok fi =>
    if fi.deleted then
      .error (if versionID = "" then .errFileNotFound else .errMethodNotAllowed)
    else
      z.updateObjectVersion ol.uuid
        { fi with metadata := fi.metadata ∪ userDefined, modTime := mTime, versionID }

/-- `PutObjectTags`. -/
def putObjectTags (z : XlMetaV2) (object versionID tags : String) (userDefined : Metadata) :
    Except StorageErr XlMetaV2 :=
  match z.toFileInfo ol.uuid ol.bucket object ol.sorter versionID with
  | .error err => .error err
  | .ok fi =>
    if fi.deleted then
      .error (if versionID = "" then .errFileNotFound else .errMethodNotAllowed)
    else
      z.updateObjectVersion ol.uuid
        { fi with metadata := (fi.metadata.insert amzObjectTagging tags) ∪ userDefined }

def deleteVersion (z : XlMetaV2) (fi : FileInfo) (forceDelMarker : Bool) : XlMetaV2 :=
  if z.versions.isEmpty then
    if fi.deleted && forceDelMarker then ((z.addVersion ol.uuid fi).toOption).getD z else z
  else
    match z.deleteVersion ol.uuid ol.clock fi with
    | .error _ => z
    | .ok (z', _, lastVersion) => if lastVersion then {} else z'

/-- `DeleteObject`. -/
def deleteObject (z : XlMetaV2) (object : String) (opts : DeleteOptions) (now : Time)
    (fresh : UUID) : XlMetaV2 :=
  let (goi, gerr) := ol.getObjectInfo z object opts.versionID opts.deleteMarker
  let goi := goi.map LockedObjectInfo.toObjectInfo
  match ErasureObjects.lookupErr opts goi gerr with
  | some _ => z
  | none =>
    let call : DeleteCall := { object, look := .ok [], now, fresh }
    ol.deleteVersion z (ErasureObjects.deleteRequest ol.uuid opts call goi) opts.deleteMarker

end ObjectLayer

namespace XlMetaV2

/-- The journals that the requests of a bucket with object lock lead to: every
version can be read, has an id of its own, and is of a newer kind. -/
structure Sound (z : XlMetaV2) : Prop extends z.WellFormed where
  notLegacy : ∀ version ∈ z.versions, version.isLegacy = false

theorem sound_nil : ({} : XlMetaV2).Sound where
  allValid := by
    intro version hmem
    cases hmem
  nodup := List.nodup_nil
  notLegacy := by
    intro version hmem
    cases hmem

/-- An object of a journal that no delete has marked. -/
structure Holds (z : XlMetaV2) (object : XlMetaV2Object) : Prop where
  mem : .objectType object ∈ z.versions
  unmarked : headerValue object.metaSys versionPurgeStatusKey = ""

variable {uuid : UuidPackage} {z z' : XlMetaV2} {fi : FileInfo} {uv : UUID}
    {object : XlMetaV2Object}

theorem Sound.eq_of_uuid (hsound : z.Sound) {first second : XlMetaV2Version}
    (hfirst : first ∈ z.versions) (hsecond : second ∈ z.versions)
    (huuid : first.uuid = second.uuid) : first = second :=
  List.inj_on_of_nodup_map hsound.nodup hfirst hsecond huuid

theorem Sound.answersTo_iff (hsound : z.Sound) {version : XlMetaV2Version}
    (hmem : version ∈ z.versions) {versionID : String} :
    version.answersTo uv versionID = true ↔ version.uuid = uv :=
  XlMetaV2Version.answersTo_of_not_legacy (hsound.allValid version hmem)
    (hsound.notLegacy version hmem)

end XlMetaV2

end Fs3
