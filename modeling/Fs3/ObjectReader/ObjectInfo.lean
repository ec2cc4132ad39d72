import Fs3.Storage.FileInfo

/-! # What a reader of an object is told about it

The information about an object that decides how a range of it is read, and the range that a
request asks for. -/

namespace Fs3.ObjectReader

/-- The errors a reader of an object is refused with. -/
inductive ReadErr where
  | errInvalidRange
  | errObjectTampered
  | errInvalidDecompressedSize
  | errUnexpectedEOF
  | preConditionFailed
  | text (message : String)
  deriving DecidableEq, Repr

/-- `HTTPRangeSpec`. A suffix has a negative start, and `-1` ends an open range. -/
structure HTTPRangeSpec where
  isSuffixLength : Bool := false
  start : Int
  end_ : Int
  deriving DecidableEq, Repr

/-- `GetLength`; no range stands for the whole resource. -/
def getLength (h : Option HTTPRangeSpec) (resourceSize : Int) : Except ReadErr Int :=
  if resourceSize < 0 then .error (.text "Resource size cannot be negative")
  else
    match h with
    | none => .ok resourceSize
    | some h =>
      if h.isSuffixLength then
        let specifiedLen := -h.start
        .ok (if specifiedLen > resourceSize then resourceSize else specifiedLen)
      else if h.start ≥ resourceSize then .error .errInvalidRange
      else if h.end_ > -1 then
        let end_ := if resourceSize ≤ h.end_ then resourceSize - 1 else h.end_
        .ok (end_ - h.start + 1)
      else if h.end_ = -1 then .ok (resourceSize - h.start)
      else .error (.text "Unexpected range specification case")

/-- `GetOffsetLength`. -/
def getOffsetLength (h : Option HTTPRangeSpec) (resourceSize : Int) :
    Except ReadErr (Int × Int) :=
  match h with
  | none => .ok (0, resourceSize)
  | some spec =>
    match getLength h resourceSize with
    | .error err => .error err
    | .ok length =>
      let start :=
        if spec.isSuffixLength then
          if resourceSize + spec.start < 0 then 0 else resourceSize + spec.start
        else spec.start
      .ok (start, length)

theorem getLength_of_getOffsetLength {h : Option HTTPRangeSpec} {resourceSize off length : Int}
    (hsize : 0 ≤ resourceSize) (hrange : getOffsetLength h resourceSize = .ok (off, length)) :
    getLength h resourceSize = .ok length := by
  cases h with
  | none =>
    rw [getOffsetLength, Except.ok.injEq, Prod.mk.injEq] at hrange
    rw [getLength, if_neg (Int.not_lt.mpr hsize), hrange.2]
  | some spec =>
    rw [getOffsetLength] at hrange
    cases hlength : getLength (some spec) resourceSize with
    | error err =>
      rw [hlength] at hrange
      nomatch hrange
    | ok found =>
      rw [hlength] at hrange
      simp only [Except.ok.injEq, Prod.mk.injEq] at hrange
      rw [hrange.2]

inductive BackendType where
  | unknown
  | fs
  | erasure
  | gateway
  deriving DecidableEq, Repr

/-- `ObjectInfo`, the fields that decide how the object is read. -/
structure ObjectInfo where
  size : Int := 0
  eTag : String := ""
  userDefined : Metadata := ∅
  parts : List ObjectPartInfo := []
  backendType : BackendType := .unknown

def metaMultipart : String := "X-Minio-Internal-Encrypted-Multipart"

def metaIV : String := "X-Minio-Internal-Server-Side-Encryption-Iv"

def metaAlgorithm : String := "X-Minio-Internal-Server-Side-Encryption-Seal-Algorithm"

def metaSealedKeySSEC : String := "X-Minio-Internal-Server-Side-Encryption-Sealed-Key"

def metaSealedKeyS3 : String := "X-Minio-Internal-Server-Side-Encryption-S3-Sealed-Key"

def metaSealedKeyKMS : String := "X-Minio-Internal-Server-Side-Encryption-Kms-Sealed-Key"

def metaKeyID : String := "X-Minio-Internal-Server-Side-Encryption-S3-Kms-Key-Id"

def metaDataEncryptionKey : String :=
  "X-Minio-Internal-Server-Side-Encryption-S3-Kms-Sealed-Key"

def metaContext : String := "X-Minio-Internal-Server-Side-Encryption-Context"

def reservedMetadataPrefix : String := "X-Minio-Internal-"

def compressionAlgorithmV1 : String := "golang/snappy/LZ77"

def compressionAlgorithmV2 : String := "klauspost/compress/s2"

namespace ObjectInfo

variable (o : ObjectInfo)

/-- `crypto.IsMultiPart`. -/
def isMultiPart : Bool := o.userDefined.contains metaMultipart

/-- `crypto.IsEncrypted`. -/
def isEncrypted : Bool :=
  [metaSealedKeyKMS, metaSealedKeyS3, metaSealedKeySSEC, metaMultipart, metaIV, metaAlgorithm,
    metaKeyID, metaDataEncryptionKey, metaContext].any o.userDefined.contains

/-- `IsCompressed`. -/
def isCompressed : Bool := o.userDefined.contains (reservedMetadataPrefix ++ "compression")

/-- `IsCompressedOK`. -/
def isCompressedOK : Except ReadErr Bool :=
  match o.userDefined[reservedMetadataPrefix ++ "compression"]? with
  | none => .ok false
  | some scheme =>
    if scheme = compressionAlgorithmV1 ∨ scheme = compressionAlgorithmV2 then .ok true
    else .error (.text ("unknown compression scheme: " ++ scheme))

end ObjectInfo

end Fs3.ObjectReader
