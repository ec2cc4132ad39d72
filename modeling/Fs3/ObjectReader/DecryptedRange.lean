import Fs3.Foundation.Chunks
import Fs3.ObjectReader.ObjectInfo

/-! # Encrypted parts

An encrypted part is a stream of packages in the DARE format. -/

namespace Fs3.ObjectReader

open Foundation

def sseDAREPackageBlockSize : Nat := 64 * 1024

theorem sseDAREPackageBlockSize_pos : 0 < sseDAREPackageBlockSize := by decide

def sseDAREPackageMetaSize : Nat := 32

def maxDecryptedSize : Nat := 2 ^ 48

def dareSize (n : Nat) : Nat :=
  n + sseDAREPackageMetaSize * (n ⌈/⌉ sseDAREPackageBlockSize)

def storedSize (segments : List Bytes) : Nat :=
  (segments.map fun segment => dareSize segment.length).sum

theorem storedSize_nil : storedSize [] = 0 := rfl

theorem storedSize_cons (segment : Bytes) (segments : List Bytes) :
    storedSize (segment :: segments) = dareSize segment.length + storedSize segments := by
  rw [storedSize, List.map_cons, List.sum_cons, storedSize]

theorem storedSize_append (segments segments' : List Bytes) :
    storedSize (segments ++ segments') = storedSize segments + storedSize segments' := by
  rw [storedSize, List.map_append, List.sum_append, storedSize, storedSize]

theorem dareSize_le (n : Nat) :
    dareSize n ≤ (n ⌈/⌉ sseDAREPackageBlockSize) *
      (sseDAREPackageBlockSize + sseDAREPackageMetaSize) := by
  have hround : n ≤ sseDAREPackageBlockSize * (n ⌈/⌉ sseDAREPackageBlockSize) :=
    le_smul_ceilDiv sseDAREPackageBlockSize_pos
  calc
    dareSize n = n + sseDAREPackageMetaSize * (n ⌈/⌉ sseDAREPackageBlockSize) := rfl
    _ ≤ sseDAREPackageBlockSize * (n ⌈/⌉ sseDAREPackageBlockSize) +
        sseDAREPackageMetaSize * (n ⌈/⌉ sseDAREPackageBlockSize) := Nat.add_le_add_right hround _
    _ = _ := by ring

/-- The package `sio` and the key derivation that goes with it. -/
structure Dare (Key : Type) where
  encryptPackage : Key → Nat → Bytes → Bytes
  decryptPackage : Key → Nat → Bytes → Option Bytes
  encryptedSize : Nat → Option Nat
  decryptedSize : Nat → Option Nat
  /-- The key of a part, from the object's key and the part's number. -/
  partEncryptionKey : Key → Nat → Key
  length_encryptPackage : ∀ key n c,
    (encryptPackage key n c).length = c.length + sseDAREPackageMetaSize
  decrypt_encryptPackage : ∀ key n c, c.length ≤ sseDAREPackageBlockSize →
    decryptPackage key n (encryptPackage key n c) = some c
  encryptedSize_eq : ∀ n ≤ maxDecryptedSize, encryptedSize n = some (dareSize n)
  decryptedSize_eq : ∀ n ≤ maxDecryptedSize, decryptedSize (dareSize n) = some n

variable {Key : Type} (dare : Dare Key)

/-- `isEncryptedMultipart`. -/
def ObjectInfo.isEncryptedMultipart (o : ObjectInfo) : Bool :=
  if o.parts.length = 0 then false
  else if !o.isMultiPart then false
  else if o.parts.any fun part => (dare.decryptedSize part.size.toNat).isNone then false
  else !(o.backendType == .erasure && o.eTag.utf8ByteSize == 32)

/-- `sio.DecryptReader`, over all that it is given to read. -/
def Dare.decryptReader (key : Key) (sequenceNumber : Nat) (src : Bytes) : Bytes :=
  openStream (dare.decryptPackage key) (sseDAREPackageBlockSize + sseDAREPackageMetaSize)
    sequenceNumber src

def Dare.partKey (objectKey : Key) (part : ObjectPartInfo) : Key :=
  dare.partEncryptionKey objectKey (part.number % 2 ^ 32).toNat

/-- What `DecryptBlocksReader` reads part by part. -/
def decryptParts (objectKey : Key) (seqNumber : Nat) : List ObjectPartInfo → Bytes → Bytes
  | [], _ => []
  | part :: parts, src =>
    let partDecRelOffset := (seqNumber : Int) * sseDAREPackageBlockSize
    let partEncRelOffset :=
      (seqNumber : Int) * (sseDAREPackageBlockSize + sseDAREPackageMetaSize)
    let encLenToRead := (part.size - partEncRelOffset).toNat
    let plain :=
      dare.decryptReader (dare.partKey objectKey part) seqNumber (src.take encLenToRead)
    let unreadPartLen :=
      ((dare.decryptedSize part.size.toNat).getD 0 : Nat) - partDecRelOffset
    if (plain.length : Int) < unreadPartLen then plain
    else plain ++ decryptParts objectKey 0 parts (src.drop encLenToRead)

/-- `DecryptBlocksRequestR`. -/
def ObjectInfo.decryptBlocks (o : ObjectInfo) (objectKey : Key) (seqNumber partStart : Nat)
    (src : Bytes) : Bytes :=
  if !o.isEncryptedMultipart dare then dare.decryptReader objectKey seqNumber src
  else decryptParts dare objectKey seqNumber (o.parts.drop partStart) src

def ObjectInfo.streamKeys (o : ObjectInfo) (objectKey : Key) : List Key :=
  if !o.isEncryptedMultipart dare then [objectKey]
  else o.parts.map (dare.partKey objectKey)

def Dare.packages (key : Key) (segment : Bytes) : List Bytes :=
  Foundation.packages (dare.encryptPackage key) sseDAREPackageBlockSize 0 segment

def Dare.streams : List Key → List Bytes → List (List Bytes)
  | key :: keys, segment :: segments => dare.packages key segment :: Dare.streams keys segments
  | _, _ => []

/-- An object that holds these plaintexts, each encrypted to a stream of its own. -/
structure Encrypts (o : ObjectInfo) (segments : List Bytes) : Prop where
  encrypted : o.isEncrypted = true
  size : o.size = storedSize segments
  multipart : o.isEncryptedMultipart dare = true →
    o.parts.map ObjectPartInfo.size = segments.map fun segment => (dareSize segment.length : Int)
  single : o.isEncryptedMultipart dare = false → segments.length = 1
  bounded : ∀ segment ∈ segments, segment.length ≤ maxDecryptedSize

theorem Encrypts.ne_nil {dare : Dare Key} {o : ObjectInfo} {segments : List Bytes}
    (hencrypts : Encrypts dare o segments) : segments ≠ [] := by
  intro hnil
  cases hmultipart : o.isEncryptedMultipart dare with
  | false =>
    have hone := hencrypts.single hmultipart
    rw [hnil] at hone
    nomatch hone
  | true =>
    have hsizes := hencrypts.multipart hmultipart
    rw [hnil, List.map_nil, List.map_eq_nil_iff] at hsizes
    rw [ObjectInfo.isEncryptedMultipart, if_pos (by rw [hsizes]; rfl)] at hmultipart
    nomatch hmultipart

section Packages

variable {dare} {key : Key}

theorem Dare.length_packages (segment : Bytes) :
    (dare.packages key segment).flatten.length = dareSize segment.length :=
  Foundation.length_packages sseDAREPackageBlockSize_pos (dare.length_encryptPackage key) segment

theorem Dare.length_take_packages {k : Nat} {segment : Bytes}
    (hk : k * sseDAREPackageBlockSize ≤ segment.length) :
    ((dare.packages key segment).take k).flatten.length =
      k * (sseDAREPackageBlockSize + sseDAREPackageMetaSize) :=
  Foundation.length_take_packages sseDAREPackageBlockSize_pos (dare.length_encryptPackage key) hk

theorem Dare.decryptReader_packages (segment : Bytes) (first count : Nat) :
    dare.decryptReader key first (((dare.packages key segment).drop first).take count).flatten =
      (segment.drop (first * sseDAREPackageBlockSize)).take (count * sseDAREPackageBlockSize) := by
  rw [Dare.packages, ← packages_drop sseDAREPackageBlockSize_pos,
    ← packages_take sseDAREPackageBlockSize_pos, Nat.zero_add]
  exact openStream_packages sseDAREPackageBlockSize_pos (dare.length_encryptPackage key)
    (dare.decrypt_encryptPackage key) _

end Packages

end Fs3.ObjectReader

/-! ## The encrypted range for a range of the plaintext

To read a range of an encrypted object the packages that hold it are read. They are
found by the plaintext sizes of the parts.
-/

namespace Fs3.ObjectReader

open Foundation

variable {Key : Type} (dare : Dare Key)

/-- `sio.DecryptedSize` of a stored size. -/
def decryptedPartSize (size : Int) : Except ReadErr Int :=
  match dare.decryptedSize size.toNat with
  | none => .error .errObjectTampered
  | some partSize => .ok partSize

def partSizes : List ObjectPartInfo → Except ReadErr (List Int)
  | [] => .ok []
  | part :: parts =>
    match decryptedPartSize dare part.size with
    | .error err => .error err
    | .ok partSize =>
      match partSizes parts with
      | .error err => .error err
      | .ok sizes => .ok (partSize :: sizes)

def ObjectInfo.streamSizes (o : ObjectInfo) : Except ReadErr (List Int) :=
  if o.isEncryptedMultipart dare then partSizes dare o.parts
  else
    match decryptedPartSize dare o.size with
    | .error err => .error err
    | .ok partSize => .ok [partSize]

/-- `ObjectInfo.DecryptedSize`. -/
def ObjectInfo.decryptedObjSize (o : ObjectInfo) : Except ReadErr Int :=
  if !o.isEncrypted then
    .error (.text "Cannot compute decrypted size of an unencrypted object")
  else
    match o.streamSizes dare with
    | .error err => .error err
    | .ok sizes => .ok sizes.sum

/-- `sio.EncryptedSize`, whose error is dropped. -/
def encPartSize (size : Int) : Int := ((dare.encryptedSize size.toNat).getD 0 : Nat)

/-- The loop that locates the part of an offset, with the sizes of the parts before it. -/
def locatePart (off : Int) (part : Nat) : Nat → Int → Int → List Int → Nat × Int × Int
  | _, cumulativeSum, encCumulativeSum, [] => (part, cumulativeSum, encCumulativeSum)
  | i, cumulativeSum, encCumulativeSum, size :: sizes =>
    if off < cumulativeSum + size then (i, cumulativeSum, encCumulativeSum)
    else
      locatePart off part (i + 1) (cumulativeSum + size)
        (encCumulativeSum + encPartSize dare size) sizes

/-- What `GetDecryptedRange` returns. -/
structure DecryptedRange where
  encOff : Int
  encLength : Int
  skipLen : Int
  seqNumber : Nat
  partStart : Nat
  deriving DecidableEq, Repr

/-- `GetDecryptedRange`, once the offset and the length are known. -/
def rangeOfSizes (sizes : List Int) (off length : Int) : DecryptedRange :=
  let blockSize : Int := sseDAREPackageBlockSize
  let sseDAREEncPackageBlockSize : Int := sseDAREPackageBlockSize + sseDAREPackageMetaSize
  let (partStart, cumulativeSum, encCumulativeSum) := locatePart dare off 0 0 0 0 sizes
  let startPkgNum := (off - cumulativeSum).tdiv blockSize
  let skipLen := (off - cumulativeSum).tmod blockSize
  let encOff := encCumulativeSum + startPkgNum * sseDAREEncPackageBlockSize
  let endOffset := off + length - 1
  -- The second search starts at the part of the start.
  let (partEnd, cumulativeSum, encCumulativeSum) :=
    locatePart dare endOffset 0 partStart cumulativeSum encCumulativeSum (sizes.drop partStart)
  let endPkgNum := (endOffset - cumulativeSum).tdiv blockSize
  let endEncOffset := encCumulativeSum + (endPkgNum + 1) * sseDAREEncPackageBlockSize
  let lastPartSize := encPartSize dare (sizes.getD partEnd 0)
  -- The last package of a part may be smaller.
  let endEncOffset :=
    if endEncOffset > encCumulativeSum + lastPartSize then encCumulativeSum + lastPartSize
    else endEncOffset
  { encOff, encLength := endEncOffset - encOff, skipLen,
    seqNumber := (startPkgNum % 2 ^ 32).toNat, partStart }

/-- `GetDecryptedRange`. -/
def ObjectInfo.getDecryptedRange (o : ObjectInfo) (rs : Option HTTPRangeSpec) :
    Except ReadErr DecryptedRange :=
  if !o.isEncrypted then .error (.text "Object is not encrypted")
  else
    match rs with
    | none =>
      .ok { encOff := 0, encLength := o.size, skipLen := 0, seqNumber := 0, partStart := 0 }
    | some _ =>
      match o.streamSizes dare with
      | .error err => .error err
      | .ok sizes =>
        match getOffsetLength rs sizes.sum with
        | .error err => .error err
        | .ok (off, length) => .ok (rangeOfSizes dare sizes off length)

section Sizes

variable {dare} {o : ObjectInfo} {segments : List Bytes}

def segmentSizes (segments : List Bytes) : List Int :=
  segments.map fun segment => (segment.length : Int)

theorem sum_segmentSizes (segments : List Bytes) :
    (segmentSizes segments).sum = segments.flatten.length := by
  induction segments with
  | nil => rfl
  | cons segment segments ih =>
    rw [segmentSizes, List.map_cons, List.sum_cons, ← segmentSizes, ih, List.flatten_cons,
      List.length_append, Int.natCast_add]

theorem encPartSize_natCast {n : Nat} (hn : n ≤ maxDecryptedSize) :
    encPartSize dare n = dareSize n := by
  rw [encPartSize, Int.toNat_natCast, dare.encryptedSize_eq n hn, Option.getD_some]

theorem decryptedPartSize_dareSize {n : Nat} (hn : n ≤ maxDecryptedSize) :
    decryptedPartSize dare (dareSize n) = .ok (n : Int) := by
  rw [decryptedPartSize, Int.toNat_natCast, dare.decryptedSize_eq n hn]

theorem partSizes_eq {parts : List ObjectPartInfo}
    (hbounded : ∀ segment ∈ segments, segment.length ≤ maxDecryptedSize)
    (hparts : parts.map ObjectPartInfo.size =
      segments.map fun segment => (dareSize segment.length : Int)) :
    partSizes dare parts = .ok (segmentSizes segments) := by
  induction segments generalizing parts with
  | nil =>
    rw [List.map_nil, List.map_eq_nil_iff] at hparts
    rw [hparts]
    rfl
  | cons segment segments ih =>
    cases parts with
    | nil => nomatch hparts
    | cons part parts =>
      rw [List.map_cons, List.map_cons, List.cons.injEq] at hparts
      have hrest := ih (fun s hs => hbounded s (List.mem_cons_of_mem _ hs)) hparts.2
      rw [partSizes, hparts.1,
        decryptedPartSize_dareSize (hbounded segment List.mem_cons_self), hrest]
      rfl

theorem Encrypts.streamSizes (hstored : Encrypts dare o segments) :
    o.streamSizes dare = .ok (segmentSizes segments) := by
  rw [ObjectInfo.streamSizes]
  split
  next hmultipart => exact partSizes_eq hstored.bounded (hstored.multipart hmultipart)
  next hsingle =>
      rw [Bool.not_eq_true] at hsingle
      obtain ⟨segment, rfl⟩ := List.length_eq_one_iff.mp (hstored.single hsingle)
      have hsize := hstored.size
      rw [storedSize_cons, storedSize_nil, Nat.add_zero] at hsize
      rw [hsize, decryptedPartSize_dareSize (hstored.bounded segment List.mem_cons_self)]
      rfl

end Sizes

section Locate

variable {dare}

/-- An offset is in the first part that ends after it. -/
theorem locatePart_eq {off : Int} {part i : Nat} {cumulativeSum encCumulativeSum : Int}
    {segments : List Bytes}
    (hbounded : ∀ segment ∈ segments, segment.length ≤ maxDecryptedSize)
    (hoff : cumulativeSum ≤ off) (hlt : off < cumulativeSum + segments.flatten.length) :
    ∃ before segment after, segments = before ++ segment :: after ∧
      locatePart dare off part i cumulativeSum encCumulativeSum (segmentSizes segments) =
        (i + before.length, cumulativeSum + before.flatten.length,
          encCumulativeSum + storedSize before) ∧
      cumulativeSum + before.flatten.length ≤ off ∧
      off < cumulativeSum + before.flatten.length + segment.length := by
  induction segments generalizing i cumulativeSum encCumulativeSum with
  | nil =>
    rw [List.flatten_nil, List.length_nil] at hlt
    omega
  | cons segment segments ih =>
    rw [segmentSizes, List.map_cons, locatePart, ← segmentSizes]
    split
    next hhere =>
        refine ⟨[], segment, segments, rfl, ?_, ?_, ?_⟩
        · simp [storedSize]
        · simpa using hoff
        · simpa using hhere
    next hlater =>
        rw [List.flatten_cons, List.length_append] at hlt
        obtain ⟨before, found, after, hsplit, hlocate, hle, hlt⟩ :=
          @ih (i + 1) (cumulativeSum + segment.length)
            (encCumulativeSum + encPartSize dare segment.length)
            (fun s hs => hbounded s (List.mem_cons_of_mem _ hs)) (by omega) (by omega)
        have hsize : encPartSize dare segment.length = dareSize segment.length :=
          encPartSize_natCast (hbounded segment List.mem_cons_self)
        refine ⟨segment :: before, found, after, by rw [hsplit]; rfl, ?_, ?_, ?_⟩
        · rw [hlocate, hsize, List.length_cons, List.flatten_cons, List.length_append,
            storedSize_cons, Prod.mk.injEq, Prod.mk.injEq]
          exact ⟨by omega, by omega, by omega⟩
        · rw [List.flatten_cons, List.length_append]
          omega
        · rw [List.flatten_cons, List.length_append]
          omega

end Locate

end Fs3.ObjectReader
