import Fs3.Foundation.Histories
import Fs3.ObjectLock.Checks

/-! # Requests that change the metadata of a version

`PutObjectRetention`, `PutObjectLegalHold` and `PutObjectTagging` read the version before they have
its lock, and write under the lock. -/

namespace Fs3

open Foundation

namespace ObjectLayer

variable (ol : ObjectLayer)

/-- `PutObjectTaggingHandler` of tags that have passed `ParseObjectXML`. -/
def putObjectTaggingHandler (z : XlMetaV2) (r : Request) (tags : String)
    (mustReplicate : LockedObjectInfo → Bool) : Except APIErr XlMetaV2 :=
  if r.allowed .putObjectTagging = false then .error .accessDenied
  else
    match getOpts ol r with
    | .error err => .error err
    | .ok opts =>
      match ol.getObjectInfo z r.object opts.versionID opts.deleteMarker with
      | (_, some err) => .error (.storage err)
      | (none, none) => .error (.storage .errFileNotFound)
      | (some objInfo, none) =>
        let userDefined := markReplicate (mustReplicate { objInfo with userTags := tags }) ∅
        match ol.putObjectTags z r.object opts.versionID tags userDefined with
        | .error err => .error (.storage err)
        | .ok z' => .ok z'

end ObjectLayer

/-- A request, with the document that it carries: a retention that has passed
`ParseObjectRetention`, a status, or tags. -/
inductive MetadataRequest where
  | retention (r : Request) (objRetention : ObjectRetention)
  | legalHold (r : Request) (status : LegalHoldStatus)
  | tags (r : Request) (text : String)

namespace MetadataRequest

def request : MetadataRequest → Request
  | retention r _ => r
  | legalHold r _ => r
  | tags r _ => r

variable (ol : ObjectLayer)

/-- `getObjectInfo` with the options of a request. -/
def readInfo (z : XlMetaV2) (r : Request) : Except APIErr LockedObjectInfo :=
  match getOpts ol r with
  | .error err => .error err
  | .ok opts =>
    match ol.getObjectInfo z r.object opts.versionID opts.deleteMarker with
    | (_, some err) => .error (.storage err)
    | (none, none) => .error (.storage .errFileNotFound)
    | (some objInfo, none) => .ok objInfo

/-- The first step: what is read of the version, where the request is let pass. -/
def look (z : XlMetaV2) : MetadataRequest → Except APIErr LockedObjectInfo
  | retention r objRetention =>
    match getOpts ol r with
    | .error err => .error err
    | .ok _ =>
      match enforceRetentionBypassForPut ol z r objRetention with
      | .error err => .error err
      | .ok objInfo =>
        if objInfo.deleteMarker then .error .methodNotAllowed else .ok objInfo
  | legalHold r _ =>
    if r.allowed .putObjectLegalHold = false then .error .accessDenied
    else
      match readInfo ol z r with
      | .error err => .error err
      | .ok objInfo => if objInfo.deleteMarker then .error .methodNotAllowed else .ok objInfo
  | tags r _ =>
    if r.allowed .putObjectTagging = false then .error .accessDenied else readInfo ol z r

def writeOptions (r : Request) : DeleteOptions := { versioning := .enabled, versionID := r.vid }

def edit (metadata : Metadata) : MetadataRequest → Metadata
  | retention _ objRetention => ObjectLayer.retentionMetadata objRetention metadata
  | legalHold _ status => metadata.insert legalHoldKey status.toText
  | tags _ _ => metadata

/-- The version as a request means to leave it, on which replication decides. -/
def intended (request : MetadataRequest) (objInfo : LockedObjectInfo) : LockedObjectInfo :=
  match request with
  | tags _ text => { objInfo with userTags := text }
  | request => { objInfo with userDefined := request.edit objInfo.userDefined }

def store (mustReplicate : Request → LockedObjectInfo → Bool) (objInfo : LockedObjectInfo)
    (z : XlMetaV2) (request : MetadataRequest) : Except APIErr XlMetaV2 :=
  let replicate := mustReplicate request.request (request.intended objInfo)
  match request with
  | tags r text =>
    match ol.putObjectTags z r.object r.vid text (ObjectLayer.markReplicate replicate ∅) with
    | .error err => .error (.storage err)
    | .ok z' => .ok z'
  | request =>
    ol.writeBack z request.request (writeOptions request.request)
      { objInfo with
        userDefined :=
          ObjectLayer.markReplicate replicate (request.edit objInfo.userDefined) }

def handle (mustReplicate : Request → LockedObjectInfo → Bool) (z : XlMetaV2)
    (request : MetadataRequest) : Except APIErr XlMetaV2 :=
  match request.look ol z with
  | .error err => .error err
  | .ok objInfo => request.store ol mustReplicate objInfo z

variable {ol} {z z' : XlMetaV2} {r : Request} {mustReplicate : Request → LockedObjectInfo → Bool}

theorem writeBack_writeOptions {opts : DeleteOptions} (hopts : getOpts ol r = .ok opts)
    (objInfo : LockedObjectInfo) :
    ol.writeBack z r (writeOptions r) objInfo = ol.writeBack z r opts objInfo := by
  rw [ObjectLayer.writeBack, ObjectLayer.writeBack, ObjectLayer.versionID_of_getOpts hopts]
  rfl

theorem handle_retention {mode : String} {date : Time} {objRetention : ObjectRetention}
    (hparse : parseObjectRetention r.clock mode date = .ok objRetention) :
    (retention r objRetention).handle ol mustReplicate z =
      ol.putObjectRetentionHandler z r mode date (mustReplicate r) := by
  rw [handle, look, ObjectLayer.putObjectRetentionHandler, hparse]
  dsimp only
  cases hopts : getOpts ol r with
  | error err => rfl
  | ok opts =>
    dsimp only
    cases enforceRetentionBypassForPut ol z r objRetention with
    | error err => rfl
    | ok objInfo =>
      dsimp only
      cases objInfo.deleteMarker with
      | true => rfl
      | false => exact writeBack_writeOptions hopts _

theorem handle_legalHold (status : LegalHoldStatus) :
    (legalHold r status).handle ol mustReplicate z =
      ol.putObjectLegalHoldHandler z r status (mustReplicate r) := by
  rw [handle, look, ObjectLayer.putObjectLegalHoldHandler, readInfo]
  cases r.allowed .putObjectLegalHold with
  | false => rfl
  | true =>
    rw [if_neg (by decide), if_neg (by decide)]
    cases hopts : getOpts ol r with
    | error err => rfl
    | ok opts =>
      dsimp only
      obtain ⟨info, err⟩ := ol.getObjectInfo z r.object opts.versionID opts.deleteMarker
      cases err with
      | some err => cases info <;> rfl
      | none =>
        cases info with
        | none => rfl
        | some objInfo =>
          dsimp only
          cases objInfo.deleteMarker with
          | true => rfl
          | false => exact writeBack_writeOptions hopts _

theorem handle_tags (text : String) :
    (tags r text).handle ol mustReplicate z =
      ol.putObjectTaggingHandler z r text (mustReplicate r) := by
  rw [handle, look, ObjectLayer.putObjectTaggingHandler, readInfo]
  cases r.allowed .putObjectTagging with
  | false => rfl
  | true =>
    rw [if_neg (by decide), if_neg (by decide)]
    cases hopts : getOpts ol r with
    | error err => rfl
    | ok opts =>
      dsimp only
      obtain ⟨info, err⟩ := ol.getObjectInfo z r.object opts.versionID opts.deleteMarker
      cases err with
      | some err => cases info <;> rfl
      | none =>
        cases info with
        | none => rfl
        | some objInfo =>
          dsimp only
          rw [ObjectLayer.versionID_of_getOpts hopts]
          rfl

end MetadataRequest

end Fs3
