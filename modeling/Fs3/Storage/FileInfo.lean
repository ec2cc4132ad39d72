import Std.Data.ExtTreeMap
import Fs3.Runtime.Text
import Fs3.Runtime.Time
import Fs3.Storage.Error

/-! # File information

`FileInfo` is what the erasure layer reads from and writes to a drive: one version of an object. A
field left out takes the zero value it has in the source. `Mode` is the only field no modelled
function uses, and is absent. -/

namespace Fs3

/-- A `map[string]string` or `map[string][]byte`. -/
abbrev Metadata := Std.ExtTreeMap String String

def nullVersionID : String := "null"

def legacyDataDir : String := "legacy"

def reservedMetadataPrefixLower : String := "x-minio-internal-"

def versionPurgeStatusKey : String := "purgestatus"

def isReserved (key : String) : Bool := hasPrefix (toLower key) reservedMetadataPrefixLower

def transitionStatusKey : String := reservedMetadataPrefixLower ++ "transition-status"

def transitionedObjectNameKey : String := reservedMetadataPrefixLower ++ "transitioned-object"

def transitionedVersionIDKey : String := reservedMetadataPrefixLower ++ "transitioned-versionID"

def transitionTierKey : String := reservedMetadataPrefixLower ++ "transition-tier"

/-- `lifecycle.TransitionComplete`. -/
def transitionComplete : String := "complete"

def amzRestore : String := "x-amz-restore"

def amzRestoreExpiryDays : String := "X-Amz-Restore-Expiry-Days"

def amzRestoreRequestDate : String := "X-Amz-Restore-Request-Date"

def amzBucketReplicationStatus : String := "X-Amz-Replication-Status"

def amzMetaUnencryptedContentLength : String := "X-Amz-Meta-X-Amz-Unencrypted-Content-Length"

def amzMetaUnencryptedContentMD5 : String := "X-Amz-Meta-X-Amz-Unencrypted-Content-Md5"

def amzStorageClass : String := "x-amz-storage-class"

/-- The bitrot algorithms; `none` is the zero value. -/
inductive BitrotAlgorithm where
  | none
  | sha256
  | highwayHash256
  | highwayHash256S
  | blake2b512
  deriving DecidableEq, Repr, Inhabited

structure ObjectPartInfo where
  eTag : String := ""
  number : Int := 0
  size : Int := 0
  actualSize : Int := 0
  deriving DecidableEq, Repr

structure ChecksumInfo where
  partNumber : Int := 0
  algorithm : BitrotAlgorithm := .none
  hash : Bytes := []
  deriving DecidableEq, Repr

structure ErasureInfo where
  algorithm : String := ""
  dataBlocks : Int := 0
  parityBlocks : Int := 0
  blockSize : Int := 0
  index : Int := 0
  distribution : List Int := []
  checksums : List ChecksumInfo := []
  deriving DecidableEq, Repr

structure FileInfo where
  volume : String := ""
  name : String := ""
  versionID : String := ""
  isLatest : Bool := false
  deleted : Bool := false
  transitionStatus : String := ""
  transitionedObjName : String := ""
  transitionTier : String := ""
  transitionVersionID : String := ""
  expireRestored : Bool := false
  dataDir : String := ""
  xlV1 : Bool := false
  modTime : Time := Time.zero
  size : Int := 0
  metadata : Metadata := ∅
  parts : List ObjectPartInfo := []
  erasure : ErasureInfo := {}
  markDeleted : Bool := false
  deleteMarkerReplicationStatus : String := ""
  versionPurgeStatus : String := ""
  data : Bytes := []
  numVersions : Int := 0
  successorModTime : Time := Time.zero
  deriving DecidableEq

def purgeComplete : String := "COMPLETE"

/-- The values the code reads from outside the repository while it works on
metadata: the current time and `time.Parse(http.TimeFormat, _)`. -/
structure Clock where
  now : Time
  parseHTTPTime : String → Option Time

/-- `parseRestoreObjStatus` followed by `OnDisk`: a completed restore whose
expiry lies ahead. -/
def restoreOnDisk (clock : Clock) (restoreHdr : String) : Bool :=
  match splitAtFirst ',' restoreHdr.toList with
  | (progress, rest?) =>
    match splitAtFirst '=' progress with
    | (key, some value) =>
      if trimSpace key = "ongoing-request".toList ∧ value = "false".toList then
        match rest? with
        | none => false
        | some rest =>
          match splitAtFirst '=' rest with
          | (expiryKey, some date) =>
            if trimSpace expiryKey = "expiry-date".toList then
              match clock.parseHTTPTime (String.ofList date) with
              | some expiry => decide (clock.now < expiry)
              | none => false
            else false
          | (_, none) => false
      else false
    | (_, none) => false

def isRestoredObjectOnDisk (clock : Clock) (metadata : Metadata) : Bool :=
  match metadata[amzRestore]? with
  | some restoreHdr => restoreOnDisk clock restoreHdr
  | none => false

namespace FileInfo

def isRemote (clock : Clock) (fi : FileInfo) : Bool :=
  fi.transitionStatus == transitionComplete && !isRestoredObjectOnDisk clock fi.metadata

def isValid (fi : FileInfo) : Bool :=
  if fi.deleted then true
  else
    let dataBlocks := fi.erasure.dataBlocks
    let parityBlocks := fi.erasure.parityBlocks
    let correctIndexes := decide (0 < fi.erasure.index) &&
      decide (fi.erasure.index ≤ dataBlocks + parityBlocks) &&
      decide ((fi.erasure.distribution.length : Int) = dataBlocks + parityBlocks)
    decide (parityBlocks ≤ dataBlocks) && decide (dataBlocks ≠ 0) &&
      decide (parityBlocks ≠ 0) && correctIndexes

theorem isValid_object_iff {fi : FileInfo} (hobject : fi.deleted = false) :
    fi.isValid = true ↔
      fi.erasure.parityBlocks ≤ fi.erasure.dataBlocks ∧ fi.erasure.dataBlocks ≠ 0 ∧
        fi.erasure.parityBlocks ≠ 0 ∧ 0 < fi.erasure.index ∧
        fi.erasure.index ≤ fi.erasure.dataBlocks + fi.erasure.parityBlocks ∧
        (fi.erasure.distribution.length : Int) =
          fi.erasure.dataBlocks + fi.erasure.parityBlocks := by
  simp [isValid, hobject, and_assoc]

theorem isValid_zero : ({} : FileInfo).isValid = false := by decide

end FileInfo

end Fs3
