import Fs3.Foundation.Reading
import Fs3.Runtime.Text

/-! # The reader that checks content

A `hash.Reader` hands on what it reads from a stack of readers and compares, at the end, the MD5
and the SHA256 of it with reference values. A further `NewReader` around it does not nest but
merges its values into it. -/

namespace Fs3.Hash

open Foundation

/-- MD5 and SHA256. -/
structure Sums where
  md5 : Bytes → Bytes
  sha256 : Bytes → Bytes

def fromHexChar (c : Char) : Option UInt8 :=
  if '0' ≤ c ∧ c ≤ '9' then some (UInt8.ofNat (c.toNat - '0'.toNat))
  else if 'a' ≤ c ∧ c ≤ 'f' then some (UInt8.ofNat (c.toNat - 'a'.toNat + 10))
  else if 'A' ≤ c ∧ c ≤ 'F' then some (UInt8.ofNat (c.toNat - 'A'.toNat + 10))
  else none

def decodeHex : List Char → Option Bytes
  | [] => some []
  | [_] => none
  | a :: b :: rest => do
      let high ← fromHexChar a
      let low ← fromHexChar b
      let bytes ← decodeHex rest
      some ((high <<< 4 ||| low) :: bytes)

/-- `hex.DecodeString`. -/
def decodeString (text : String) : Option Bytes := decodeHex text.toList

/-- `hex.EncodeToString`. -/
def encodeToString (bytes : Bytes) : String :=
  String.ofList (bytes.flatMap fun byte =>
    [Nat.digitChar (byte.toNat / 16), Nat.digitChar (byte.toNat % 16)])

/-- `ETag.IsMultipart`. -/
def isMultipart (etag : Bytes) : Bool := 16 < etag.length && etag.contains 0x2d

/-- `ETag.String`, a byte of the suffix as the rune of its number. -/
def etagString (etag : Bytes) : String :=
  if isMultipart etag then
    encodeToString (etag.take 16) ++
      String.ofList ((etag.drop 16).map fun byte => Char.ofNat byte.toNat)
  else encodeToString etag

/-! ## Readers -/

/-- The errors of `Read` and `NewReader`. -/
inductive Err where
  | eof
  | verifyError (expected computed : Bytes)
  | badDigest (expectedMD5 calculatedMD5 : String)
  | sha256Mismatch (expectedSHA256 calculatedSHA256 : String)
  | errSizeMismatch (want got : Int)
  /-- hash: already read from hash reader -/
  | alreadyRead
  /-- Any other error of the source. -/
  | failed
  deriving DecidableEq

/-- The reader at the bottom of all others. -/
structure Source where
  State : Type
  read : State → Nat → Foundation.ReadResult UInt8 Err × State
  /-- Whether it implements `etag.Tagger`. -/
  isTagger : Bool

/-- What readers are put around a source: `io.LimitReader`, `etag.Reader` with what its
hash has been given, and `etag.Wrap`. -/
inductive Stack (σ : Type) where
  | source (s : σ)
  | limit (r : Stack σ) (n : Int)
  | etagReader (r : Stack σ) (checksum hashed : Bytes)
  | wrap (r : Stack σ)

namespace Stack

variable (sums : Sums) (source : Source)

/-- Whether a reader implements `etag.Tagger`. -/
def isTagger : Stack source.State → Bool
  | .source _ => source.isTagger
  | limit _ _ => false
  | etagReader _ _ _ => true
  | wrap _ => true

/-- `Read` of a reader of the stack. -/
def read : Stack source.State → Nat → Foundation.ReadResult UInt8 Err × Stack source.State
  | .source s, size =>
    let (result, s) := source.read s size
    (result, .source s)
  | limit r n, size =>
    if n ≤ 0 then ({ bytes := [], err := some .eof }, limit r n)
    else
      let (result, r) := read r (if n < size then n.toNat else size)
      (result, limit r (n - result.bytes.length))
  | etagReader r checksum hashed, size =>
    let (result, r) := read r size
    let hashed := hashed ++ result.bytes
    if result.err = some .eof ∧ checksum ≠ [] ∧ sums.md5 hashed ≠ checksum then
      ({ bytes := result.bytes, err := some (.verifyError checksum (sums.md5 hashed)) },
        etagReader r checksum hashed)
    else (result, etagReader r checksum hashed)
  | wrap r, size =>
    let (result, r) := read r size
    (result, wrap r)

/-- `etag.NewReader`. -/
def newEtagReader {σ : Type} (r : Stack σ) (etag : Bytes) : Stack σ :=
  match r with
  | etagReader r' checksum hashed =>
    if hashed.length = 0 ∧ etag = checksum then r
    else etagReader (etagReader r' checksum hashed) etag []
  | r => etagReader r etag []

end Stack

/-- `hash.Reader`. -/
structure Reader (σ : Type) where
  src : Stack σ
  bytesRead : Nat := 0
  size : Int
  actualSize : Int
  checksum : Bytes
  contentSHA256 : Bytes
  /-- What has been written to the SHA256 hash, if there is one. -/
  sha256 : Option Bytes

/-- What `NewReader` is given besides the source. -/
structure Call where
  size : Int
  md5Hex : String
  sha256Hex : String
  actualSize : Int

section NewReader

variable (source : Source)

/-- `NewReader` around a reader that is no `hash.Reader`. -/
def newReader (src : Stack source.State) (call : Call) : Except Err (Reader source.State) :=
  match decodeString call.md5Hex with
  | none => .error (.badDigest call.md5Hex "")
  | some MD5 =>
    match decodeString call.sha256Hex with
    | none => .error (.sha256Mismatch call.sha256Hex "")
    | some SHA256 =>
      let src :=
        if 0 ≤ call.size then
          let r := Stack.limit src call.size
          if ¬ src.isTagger source then Stack.newEtagReader r MD5 else Stack.wrap r
        else if ¬ src.isTagger source then Stack.newEtagReader src MD5
        else src
      .ok
        { src, size := call.size, actualSize := call.actualSize, checksum := MD5
          contentSHA256 := SHA256, sha256 := if SHA256.length ≠ 0 then some [] else none }

/-- The values of a further call in a `hash.Reader`. -/
def Reader.merge {σ : Type} (r : Reader σ) (call : Call) (MD5 SHA256 : Bytes) : Reader σ :=
  let r := { r with checksum := MD5, contentSHA256 := SHA256 }
  let r :=
    if r.size < 0 ∧ 0 ≤ call.size then
      { r with src := .wrap (.limit r.src call.size), size := call.size }
    else r
  if r.actualSize ≤ 0 ∧ 0 ≤ call.actualSize then { r with actualSize := call.actualSize } else r

/-- `NewReader` around a `hash.Reader`. -/
def mergeReader {σ : Type} (r : Reader σ) (call : Call) : Except Err (Reader σ) :=
  match decodeString call.md5Hex with
  | none => .error (.badDigest call.md5Hex "")
  | some MD5 =>
    match decodeString call.sha256Hex with
    | none => .error (.sha256Mismatch call.sha256Hex "")
    | some SHA256 =>
      if 0 < r.bytesRead then .error .alreadyRead
      else if r.checksum.length ≠ 0 ∧ MD5.length ≠ 0 ∧ r.checksum ≠ MD5 then
        .error (.badDigest (etagString r.checksum) call.md5Hex)
      else if r.contentSHA256.length ≠ 0 ∧ SHA256.length ≠ 0 ∧ r.contentSHA256 ≠ SHA256 then
        .error (.sha256Mismatch (encodeToString r.contentSHA256) call.sha256Hex)
      else if 0 ≤ r.size ∧ 0 ≤ call.size ∧ r.size ≠ call.size then
        .error (.errSizeMismatch r.size call.size)
      else .ok (r.merge call MD5 SHA256)

/-- A chain of `NewReader` calls around a source. -/
def newReaders (s : source.State) (first : Call) (rest : List Call) :
    Except Err (Reader source.State) := do
  rest.foldlM mergeReader (← newReader source (.source s) first)

end NewReader

/-- `hash.Reader.Read`. -/
def Reader.read (sums : Sums) (source : Source) (r : Reader source.State) (size : Nat) :
    Foundation.ReadResult UInt8 Err × Reader source.State :=
  let (result, src) := Stack.read sums source r.src size
  let r := { r with
    src, bytesRead := r.bytesRead + result.bytes.length
    sha256 := r.sha256.map (· ++ result.bytes) }
  match result.err with
  | some .eof =>
    match r.sha256 with
    | some written =>
      let sum := sums.sha256 written
      if r.contentSHA256 ≠ sum then
        ({ bytes := result.bytes
           err :=
            some (.sha256Mismatch (encodeToString r.contentSHA256) (encodeToString sum)) },
          r)
      else (result, r)
    | none => (result, r)
  | some (.verifyError expected computed) =>
    ({ bytes := result.bytes
       err := some (.badDigest (etagString expected) (etagString computed)) }, r)
  | _ => (result, r)

end Fs3.Hash
