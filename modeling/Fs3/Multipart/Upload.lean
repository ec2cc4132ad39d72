import Fs3.Erasure.PutObject

/-! # A multipart upload on the drives of a set

Each drive keeps an upload in a directory of its own: the `xl.meta` that lists the parts, and in
the upload's one data directory a file for each part. A call to a drive that reports no error has
taken effect; one that reports an error may have taken effect as well, since the answer of a remote
drive can be lost. -/

namespace Fs3

/-- What a drive keeps of an upload: what it answers when the `xl.meta` is read,
and the part files by their number. -/
structure UploadDir where
  xlMeta : Except StorageErr FileInfo
  parts : Int → Option Bytes

/-- An upload on all drives. -/
abbrev Upload (δ : Type) := δ → UploadDir

/-- How one call to a drive ends. -/
structure DriveCall where
  err : Option StorageErr := none
  effect : Bool := true
  effect_of_ok : err = none → effect = true := by decide

namespace UploadDir

def putPart (dir : UploadDir) (partID : Int) (file : Option Bytes) : UploadDir :=
  { dir with parts := Function.update dir.parts partID file }

def putMeta (dir : UploadDir) (fi : FileInfo) : UploadDir := { dir with xlMeta := .ok fi }

section Updates

variable (dir : UploadDir) (partID : Int) (file : Option Bytes) (fi : FileInfo)

@[simp]
theorem putPart_parts_self : (dir.putPart partID file).parts partID = file :=
  Function.update_self ..

@[simp]
theorem putPart_putPart (file' : Option Bytes) :
    (dir.putPart partID file).putPart partID file' = dir.putPart partID file' := by
  unfold putPart
  simp only [Function.update_idem]

@[simp]
theorem putPart_xlMeta : (dir.putPart partID file).xlMeta = dir.xlMeta := rfl

@[simp]
theorem putMeta_parts : (dir.putMeta fi).parts = dir.parts := rfl

@[simp]
theorem putMeta_xlMeta : (dir.putMeta fi).xlMeta = .ok fi := rfl

end Updates

end UploadDir

section Disks

variable {δ : Type}

def shuffleDisks (disks : List (Option δ)) (distribution : List Int) : List (Option δ) :=
  if distribution = [] then disks
  else
    (disks.zip distribution).foldl
      (fun shuffled (disk, blockIndex) => shuffled.set (blockIndex - 1).toNat disk)
      (List.replicate disks.length none)

/-- Set to `none` every drive that reported an error. -/
def evalDisks (disks : List (Option δ)) (errs : List (Option StorageErr)) : List (Option δ) :=
  if errs.length ≠ disks.length then []
  else List.zipWith (fun disk err => if err = none then disk else none) disks errs

def callDisks (disks : List (Option δ)) (call : δ → DriveCall) : List (Option StorageErr) :=
  disks.map fun
    | none => some .errDiskNotFound
    | some disk => (call disk).err

theorem mem_evalDisks_callDisks {disks : List (Option δ)} {call : δ → DriveCall} {disk : δ}
    (hmem : some disk ∈ evalDisks disks (callDisks disks call)) :
    some disk ∈ disks ∧ (call disk).err = none := by
  unfold evalDisks callDisks at hmem
  rw [List.length_map, if_neg (by simp)] at hmem
  induction disks with
  | nil => simp at hmem
  | cons first rest ih =>
    rw [List.map_cons, List.zipWith_cons_cons, List.mem_cons] at hmem
    rcases hmem with hfirst | hrest
    · cases first with
      | none => simp at hfirst
      | some other =>
        change some disk = if (call other).err = none then some other else none at hfirst
        split at hfirst
        next hok =>
          injection hfirst with hsame
          subst hsame
          exact ⟨List.mem_cons_self, hok⟩
        next => exact nomatch hfirst
    · obtain ⟨hmem, hok⟩ := ih hrest
      exact ⟨List.mem_cons_of_mem _ hmem, hok⟩

end Disks

def objectPart (parts : List ObjectPartInfo) (partNumber : Int) : Option ObjectPartInfo :=
  parts.find? fun part => partNumber == part.number

def replacePart (partInfo : ObjectPartInfo) : List ObjectPartInfo → Option (List ObjectPartInfo)
  | [] => none
  | part :: rest =>
    if partInfo.number = part.number then some (partInfo :: rest)
    else (replacePart partInfo rest).map (part :: ·)

/-- Record a part: replace its entry, or add one and sort the parts by number. -/
def FileInfo.addObjectPart (fi : FileInfo) (partInfo : ObjectPartInfo) : FileInfo :=
  match replacePart partInfo fi.parts with
  | some parts => { fi with parts := parts }
  | none =>
    { fi with
      parts := (fi.parts ++ [partInfo]).mergeSort fun a b => decide (a.number ≤ b.number) }

def addChecksumInfo (ckSumInfo : ChecksumInfo) : List ChecksumInfo → List ChecksumInfo
  | [] => [ckSumInfo]
  | sum :: rest =>
    if sum.partNumber = ckSumInfo.partNumber then ckSumInfo :: rest
    else sum :: addChecksumInfo ckSumInfo rest

/-- A part that the request to complete an upload names. -/
structure CompletePart where
  partNumber : Int
  eTag : String
  deriving DecidableEq, Repr

/-- Why the parts of a request are refused. -/
inductive PartRefused where
  | invalidPart (partNumber : Int) (expETag gotETag : String)
  | partTooSmall (partNumber partSize : Int) (partETag : String)
  deriving DecidableEq, Repr

def globalMinPartSize : Int := 5 * 1024 * 1024

/-- Check the parts of a request against those that are recorded, and take over their sizes. -/
def completedParts (canonicalizeETag : String → String) (current : List ObjectPartInfo) :
    List CompletePart → Except PartRefused (List ObjectPartInfo)
  | [] => .ok []
  | part :: rest =>
    match objectPart current part.partNumber with
    | none => .error (.invalidPart part.partNumber "" part.eTag)
    | some entry =>
      let eTag := canonicalizeETag part.eTag
      if entry.eTag ≠ eTag then
        .error (.invalidPart part.partNumber entry.eTag eTag)
      else if rest ≠ [] ∧ entry.actualSize < globalMinPartSize then
        .error (.partTooSmall part.partNumber entry.actualSize eTag)
      else
        match completedParts canonicalizeETag current rest with
        | .error err => .error err
        | .ok parts =>
          .ok ({ number := part.partNumber, size := entry.size,
                 actualSize := entry.actualSize } :: parts)

end Fs3
