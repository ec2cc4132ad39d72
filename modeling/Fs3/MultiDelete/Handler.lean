import Fs3.Listing.Entries
import Fs3.Runtime.Uuid
import Fs3.Storage.FileInfo

/-! # Deleting several objects at once

The handler sorts out what may be deleted, gives the rest to the object layer in the order of a
map, and puts every answer at the slot of the object in the request. -/

namespace Fs3.MultiDelete

open Listing

/-- `ObjectToDelete`, all of which the client sends. -/
structure ObjectToDelete where
  objectName : Name
  versionID : String := ""
  deleteMarkerReplicationStatus : String := ""
  versionPurgeStatus : String := ""
  deleteMarkerVersionID : String := ""
  deriving DecidableEq

def ObjectToDelete.pair (object : ObjectToDelete) : Name × String :=
  (object.objectName, object.versionID)

structure DeletedObject where
  deleteMarker : Bool := false
  deleteMarkerVersionID : String := ""
  objectName : Name := []
  versionID : String := ""
  deleteMarkerReplicationStatus : String := ""
  versionPurgeStatus : String := ""

structure DeleteError where
  code : String := ""
  message : String := ""
  key : Name := []
  versionID : String := ""

/-- `APIError`, with a code for the client. -/
structure APIError where
  code : String
  description : String
  coded : code ≠ ""

inductive APIErrorCode
  | signatureDoesNotMatch
  | invalidAccessKeyID
  | noSuchVersion
  | other (apiErr : APIError)

/-- `errorCodes.ToAPIErr`. -/
def APIErrorCode.toAPIErr : APIErrorCode → APIError
  | .signatureDoesNotMatch =>
    ⟨"SignatureDoesNotMatch", "The request signature we calculated does" ++
      " not match the signature you provided. Check your key and signing method.", by decide⟩
  | .invalidAccessKeyID => ⟨"InvalidAccessKeyId",
      "The Access Key Id you provided does not exist in our records.", by decide⟩
  | .noSuchVersion => ⟨"NoSuchVersion", "The specified version does not exist.", by decide⟩
  | .other apiErr => apiErr

def APIErrorCode.endsRequest : APIErrorCode → Bool
  | .signatureDoesNotMatch => true
  | .invalidAccessKeyID => true
  | _ => false

/-- An error of the object layer. -/
inductive ObjectErr
  | objectNotFound
  | versionNotFound
  | other (apiErr : APIError)

/-- What the client is told about an error, unless it says that there was nothing to
delete. -/
def failure : Option ObjectErr → Option APIError
  | some (.other apiErr) => some apiErr
  | _ => none

def APIError.about (apiErr : APIError) (object : ObjectToDelete) : DeleteError where
  code := apiErr.code
  message := apiErr.description
  key := object.objectName
  versionID := object.versionID

inductive PolicyAction
  | deleteObject
  | replicateDelete

/-- What looking for the pool of an object says. -/
inductive PoolAnswer
  | pool (index : Nat)
  | objectNotFound
  | failed (apiErr : APIError)

/-- The `replication.Pending` of a status. -/
def pending : String := "PENDING"

/-- What the handler and the object layer ask of the rest of the server. -/
structure Server where
  checkRequestAuthType : PolicyAction → Name → Option APIErrorCode
  uuid : UuidPackage
  /-- Whether the bucket has replication rules for one of the objects. -/
  replicateDeletes : Bool
  checkReplicateDelete : Name → String → Bool
  hasLockEnabled : Bool
  enforceRetentionBypassForDelete : Name → String → Option APIErrorCode
  versioned : Bool
  versionSuspended : Bool
  singlePool : Bool
  checkDelObjArgs : Name → Option APIError
  getPoolIdxExisting : Name → PoolAnswer
  /-- What getting the bulk lock fails with. -/
  lockErr : Option APIError

/-- What the handler does with an object of the request. -/
inductive Decision
  | endRequest (code : APIErrorCode)
  | refuse (code : APIErrorCode)
  /-- Go on to the next one. -/
  | passOver
  | delete (object : ObjectToDelete)

namespace Server

variable (server : Server)

def checkRetention (object : ObjectToDelete) : Decision :=
  if object.versionID ≠ "" && server.hasLockEnabled then
    match server.enforceRetentionBypassForDelete object.objectName object.versionID with
    | some code => .refuse code
    | none => .delete object
  else .delete object

def markPending (object : ObjectToDelete) : ObjectToDelete :=
  if object.versionID ≠ "" then { object with versionPurgeStatus := pending }
  else { object with deleteMarkerReplicationStatus := pending }

def examine (object : ObjectToDelete) : Decision :=
  match server.checkRequestAuthType .deleteObject object.objectName with
  | some code => if code.endsRequest then .endRequest code else .refuse code
  | none =>
    if object.versionID ≠ "" && object.versionID ≠ nullVersionID &&
        (server.uuid.parse object.versionID).isNone then .refuse .noSuchVersion
    else if server.replicateDeletes &&
        server.checkReplicateDelete object.objectName object.versionID then
      match server.checkRequestAuthType .replicateDelete object.objectName with
      | some code => if code.endsRequest then .endRequest code else .passOver
      | none => server.checkRetention (markPending object)
    else server.checkRetention object

/-- What the loop has found: the map of the objects to delete, each with the index it
first has in the request, and the errors by their index. -/
structure Collected where
  objectsToDelete : List (ObjectToDelete × Nat)
  dErrs : Nat → DeleteError

def Collected.add (collected : Collected) (object : ObjectToDelete) (index : Nat) : Collected :=
  if (collected.objectsToDelete.lookup object).isSome then collected
  else { collected with objectsToDelete := collected.objectsToDelete ++ [(object, index)] }

def collectFrom (collected : Collected) (index : Nat) :
    List ObjectToDelete → Except APIErrorCode Collected
  | [] => .ok collected
  | object :: rest =>
    match server.examine object with
    | .endRequest code => .error code
    | .refuse code =>
      collectFrom { collected with
        dErrs := Function.update collected.dErrs index (code.toAPIErr.about object) }
        (index + 1) rest
    | .passOver => collectFrom collected (index + 1) rest
    | .delete accepted => collectFrom (collected.add accepted index) (index + 1) rest

def collect (objects : List ObjectToDelete) : Except APIErrorCode Collected :=
  server.collectFrom ⟨[], fun _ => {}⟩ 0 objects

/-- What the drives of a set make of an object: the error that enough of them agree on,
and the id of a new delete marker. -/
structure Outcome where
  err : Option ObjectErr
  uuid : String

/-- What `erasureObjects.DeleteObjects` says it deleted. -/
def deletedObject (object : ObjectToDelete) (uuid : String) : DeletedObject :=
  if object.versionID = "" && (server.versioned || server.versionSuspended) then
    { deleteMarker := true
      deleteMarkerVersionID := if server.versioned then uuid else ""
      objectName := object.objectName
      deleteMarkerReplicationStatus := object.deleteMarkerReplicationStatus
      versionPurgeStatus := object.versionPurgeStatus }
  else
    { objectName := object.objectName
      versionID := object.versionID
      deleteMarkerReplicationStatus := object.deleteMarkerReplicationStatus
      versionPurgeStatus := object.versionPurgeStatus }

def poolErr : List ObjectToDelete → Option APIError
  | [] => none
  | object :: rest =>
    match server.getPoolIdxExisting object.objectName with
    | .failed apiErr => some apiErr
    | _ => poolErr rest

/-- What keeps `erasureServerPools.DeleteObjects` from deleting any object. -/
def bulkErr (objects : List ObjectToDelete) : Option APIError :=
  if server.singlePool then server.lockErr
  else (server.poolErr objects).or server.lockErr

def inNoPool (object : ObjectToDelete) : Bool :=
  !server.singlePool &&
    match server.getPoolIdxExisting object.objectName with
    | .objectNotFound => true
    | _ => false

def nameErr (object : ObjectToDelete) : Option ObjectErr :=
  if server.singlePool then none
  else (server.checkDelObjArgs object.objectName).map .other

end Server

def encoded (object : ObjectToDelete) : ObjectToDelete :=
  { object with objectName := encodeDirObject object.objectName }

namespace Server

variable (server : Server)

def answerOf (bulk : Option APIError) (ask : ObjectToDelete × Outcome) :
    DeletedObject × Option ObjectErr :=
  match bulk with
  | some apiErr => ({}, some (.other apiErr))
  | none =>
    if server.inNoPool (encoded ask.1) then ({}, some .objectNotFound)
    else (server.deletedObject (encoded ask.1) ask.2.uuid,
      ask.2.err.or (server.nameErr (encoded ask.1)))

/-- `erasureServerPools.DeleteObjects`, with what happens to each of the objects on the drives. -/
def deleteObjects (asked : List (ObjectToDelete × Outcome)) :
    List (ObjectToDelete × DeletedObject × Option ObjectErr) :=
  asked.map fun ask =>
    (ask.1, server.answerOf (server.bulkErr (asked.map fun other => encoded other.1)) ask)

end Server

def slotOf (objectsToDelete : List (ObjectToDelete × Nat)) (dobject : DeletedObject) : Nat :=
  (objectsToDelete.lookup
    { objectName := dobject.objectName
      versionID := dobject.versionID
      deleteMarkerReplicationStatus := dobject.deleteMarkerReplicationStatus
      versionPurgeStatus := dobject.versionPurgeStatus }).getD 0

/-- What the handler has for every index of the request. -/
structure Slots where
  deletedObjects : Nat → DeletedObject
  dErrs : Nat → DeleteError

namespace Server

variable (server : Server)

def withStatuses (object : ObjectToDelete) (dobject : DeletedObject) : DeletedObject :=
  if server.replicateDeletes then
    { dobject with
      deleteMarkerReplicationStatus := object.deleteMarkerReplicationStatus
      versionPurgeStatus := object.versionPurgeStatus }
  else dobject

def record (objectsToDelete : List (ObjectToDelete × Nat)) (slots : Slots) :
    List (ObjectToDelete × DeletedObject × Option ObjectErr) → Slots
  | [] => slots
  | (object, dobject, err) :: rest =>
    match failure err with
    | none =>
      record objectsToDelete { slots with
        deletedObjects := Function.update slots.deletedObjects
          (slotOf objectsToDelete dobject) (server.withStatuses object dobject) } rest
    | some apiErr =>
      record objectsToDelete { slots with
        dErrs := Function.update slots.dErrs (slotOf objectsToDelete dobject)
          (apiErr.about (encoded object)) } rest

end Server

structure DeleteObjectsRequest where
  quiet : Bool := false
  objects : List ObjectToDelete

structure DeleteObjectsResponse where
  deletedObjects : List DeletedObject
  errors : List DeleteError

def generateMultiDeleteResponse (quiet : Bool) (deletedObjects : List DeletedObject)
    (errs : List DeleteError) : DeleteObjectsResponse where
  deletedObjects := if errs.length = deletedObjects.length || quiet then [] else deletedObjects
  errors := errs

namespace Server

variable (server : Server)

/-- What the handler has for every index after the object layer has answered. -/
def slots (collected : Collected) (asked : List (ObjectToDelete × Outcome)) : Slots :=
  server.record collected.objectsToDelete ⟨fun _ => {}, collected.dErrs⟩
    (server.deleteObjects asked)

/-- `DeleteMultipleObjectsHandler` for a request with names that do not begin with a
slash, with what the object layer was asked and what became of it. -/
def DeleteMultipleObjectsHandler (request : DeleteObjectsRequest) (collected : Collected)
    (asked : List (ObjectToDelete × Outcome)) : DeleteObjectsResponse :=
  let indexes := List.range request.objects.length
  generateMultiDeleteResponse request.quiet
    (indexes.map (server.slots collected asked).deletedObjects)
    ((indexes.map (server.slots collected asked).dErrs).filter fun dErr => dErr.code ≠ "")

def Asks (collected : Collected) (asked : List (ObjectToDelete × Outcome)) : Prop :=
  (asked.map Prod.fst).Perm (collected.objectsToDelete.map Prod.fst)

end Server

end Fs3.MultiDelete
