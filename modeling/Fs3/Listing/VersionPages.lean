import Fs3.Erasure.DeleteObject
import Fs3.Journal.ListVersions
import Fs3.Listing.Entries

/-! # Pages of versions

A listing of versions comes in pages. A page starts with the object that the key marker names,
leaves out its versions up to the one that the version-id marker names, and tells the markers of
the next page: the name and the id of its last version, as the client sees them. -/

namespace Fs3.Listing

open Foundation

/-- The entries of a bucket carry the journals of its objects. -/
instance : ObjectMetadata XlMetaV2 where
  latestDeleted z :=
    match z.versions.getLast? with
    | none => true
    | some (.deleteType _) => true
    | some _ => false

/-- `ObjectInfo` as a listing shows it. -/
structure ListedObject extends ObjectInfo where
  name : Name
  isDir : Bool := false
  isLatest : Bool := false
  modTime : Time := Time.zero
  numVersions : Int := 0
  successorModTime : Time := Time.zero
  deriving DecidableEq

namespace ListedObject

def version (obj : ListedObject) : Name × ObjectInfo := (obj.name, obj.toObjectInfo)

end ListedObject

/-- `FileInfoVersions.findVersionIndex`. -/
def findVersionIndex (versions : List FileInfo) (v : String) : Option Nat :=
  if v = "" then none else versions.findIdx? fun ver => ver.versionID == v

def commonPrefix (namePrefix delimiter name : Name) : Option Name :=
  (index delimiter (trimPrefix name namePrefix)).map fun idx =>
    name.take (namePrefix.length + idx + delimiter.length)

/-- `maxObjectList`, by `metacacheBlockSize`. -/
def maxObjectList : Int := 5000 - 5000 / 10

def maxKeysPlusOne (maxKeys : Int) (addOne : Bool) : Int :=
  let maxKeys := if maxKeys < 0 ∨ maxObjectList < maxKeys then maxObjectList else maxKeys
  if addOne then maxKeys + 1 else maxKeys

/-- `forwardPast`, on sorted entries. -/
def forwardPast {μ : Type} (s : Name) (o : List (MetaCacheEntry μ)) : List (MetaCacheEntry μ) :=
  if s = [] then o else o.dropWhile fun entry => decide (entry.name ≤ s)

/-- The options of `listPath`, as it completes them. -/
def listPathOptions (namePrefix marker separator : Name) (limit : Int) (inclDeleted : Bool) :
    ListPathOptions :=
  if separator = slashSeparator ∨ separator = [] then
    { namePrefix, marker, limit, inclDeleted
      recursive := separator ≠ slashSeparator
      separator := slashSeparator
      includeDirectories := separator = slashSeparator }
  else
    { namePrefix, marker, limit, inclDeleted, separator
      recursive := true
      includeDirectories := false }

/-- `listPath` on the merged stream of the drives: the entries, and whether there
are no more. -/
def listPath {μ : Type} [ObjectMetadata μ] (stream : List (MetaCacheEntry μ))
    (namePrefix marker separator : Name) (limit : Int) (inclDeleted : Bool) :
    List (MetaCacheEntry μ) × Bool :=
  if marker ≠ [] ∧ namePrefix ≠ [] ∧ ¬ namePrefix.isPrefixOf marker then ([], true)
  else if limit = 0 then ([], true)
  else if slashSeparator.isPrefixOf namePrefix then ([], true)
  else (listPathOptions namePrefix marker separator limit inclDeleted).gatherResults stream

/-- `ListObjectVersionsInfo`. -/
structure ListObjectVersionsInfo where
  isTruncated : Bool := false
  nextMarker : Name := []
  nextVersionIDMarker : String := ""
  objects : List ListedObject := []
  prefixes : List Name := []

/-- The page that `ListObjectVersions` makes of what it has found. -/
def pageInfo (delimiter : Name) (maxKeys : Int) (eof : Bool) (objects : List ListedObject) :
    ListObjectVersionsInfo :=
  let cut : Bool := 0 < maxKeys ∧ maxKeys < objects.length
  let isTruncated := cut || (!eof && objects != [])
  let objects := if cut then objects.take maxKeys.toNat else objects
  let isPrefix := fun obj : ListedObject => obj.isDir && obj.modTime.isZero && delimiter != []
  { isTruncated
    nextMarker := if isTruncated then objects.getLast?.elim [] ListedObject.name else []
    nextVersionIDMarker := if isTruncated then objects.getLast?.elim "" (·.versionID) else ""
    objects := objects.filter fun obj => !isPrefix obj
    prefixes := (objects.filter isPrefix).map ListedObject.name }

/-- What a listing of the versions in a bucket works with. -/
structure VersionLister where
  uuid : UuidPackage
  sorter : DescendingSort FileInfo.modTime
  bucket : String
  versioning : VersioningState

namespace VersionLister

variable (v : VersionLister)

/-- `FileInfo.ToObjectInfo`. -/
def toObjectInfo (fi : FileInfo) (object : Name) : ListedObject :=
  let object := decodeDirObject object
  { fi.toObjectInfo v.versioning with
    name := object
    isDir := slashSeparator.isSuffixOf object
    isLatest := fi.isLatest
    modTime := fi.modTime
    numVersions := fi.numVersions
    successorModTime := fi.successorModTime }

/-- `getFileInfoVersions` of the journal of an object. -/
def getFileInfoVersions (z : XlMetaV2) (name : Name) : Except StorageErr (List FileInfo) :=
  (z.listVersions v.uuid v.bucket (String.ofList name) v.sorter).map Prod.fst

def versionsAfter (versions : List FileInfo) (afterV : String) : List FileInfo :=
  match findVersionIndex versions afterV with
  | none => versions
  | some vidMarkerIdx => versions.drop (vidMarkerIdx + 1)

/-- `metaCacheEntriesSorted.fileInfoVersions`. -/
def fileInfoVersions (namePrefix delimiter : Name) :
    Name → String → List (MetaCacheEntry XlMetaV2) → List ListedObject
  | _, _, [] => []
  | prevPrefix, afterV, entry :: rest =>
    let currPrefix :=
      if delimiter = [] then none else commonPrefix namePrefix delimiter entry.name
    match currPrefix, entry.metadata with
    | some currPrefix, _ =>
      if currPrefix = prevPrefix then
        fileInfoVersions namePrefix delimiter prevPrefix afterV rest
      else
        { name := currPrefix, isDir := true } ::
          fileInfoVersions namePrefix delimiter currPrefix afterV rest
    | none, none => fileInfoVersions namePrefix delimiter prevPrefix afterV rest
    | none, some z =>
      match v.getFileInfoVersions z entry.name with
      | .error _ => fileInfoVersions namePrefix delimiter prevPrefix afterV rest
      | .ok versions =>
        (versionsAfter versions afterV).map (v.toObjectInfo · entry.name) ++
          fileInfoVersions namePrefix delimiter prevPrefix "" rest

/-- `erasureServerPools.ListObjectVersions`. -/
def listObjectVersions (stream : List (MetaCacheEntry XlMetaV2))
    (namePrefix marker : Name) (versionMarker : String) (delimiter : Name) (maxKeys : Int) :
    Option ListObjectVersionsInfo :=
  if marker = [] ∧ versionMarker ≠ "" then none
  else
    match listPath stream namePrefix marker delimiter
        (maxKeysPlusOne maxKeys (marker ≠ [])) true with
    | (merged, eof) =>
      let merged := if versionMarker = "" then forwardPast marker merged else merged
      some (pageInfo delimiter maxKeys eof
        (v.fileInfoVersions namePrefix delimiter [] versionMarker merged))

/-- A client that asks for page after page of a whole bucket, with the markers of
the page before, until one is not truncated. -/
def listAll (stream : List (MetaCacheEntry XlMetaV2)) (maxKeys : Int) :
    Nat → Name → String → Option (List ListedObject)
  | 0, _, _ => none
  | fuel + 1, marker, versionMarker =>
    match v.listObjectVersions stream [] marker versionMarker [] maxKeys with
    | none => none
    | some loi =>
      if loi.isTruncated then
        (listAll stream maxKeys fuel loi.nextMarker loi.nextVersionIDMarker).map
          (loi.objects ++ ·)
      else some loi.objects

end VersionLister

end Fs3.Listing

/-! ## Every version once

The id of a page's last version leads the next page back to its place, unless it is
a null version that has no id in the journal: the journal does not know it under the
id that is printed for it. Then the next page starts with the first version of the
same object again or, where nothing is printed, behind its last one.
-/

namespace Fs3.Listing

open Foundation

/-- What is in a bucket: entries in the order of their names, as the drives name
them once their suffix is decoded, with readable journals. -/
structure VersionedBucket where
  stream : List (MetaCacheEntry XlMetaV2)
  sorted : stream.Pairwise fun e e' => e.name < e'.name
  readable : ∀ e ∈ stream, ∀ z ∈ e.metadata, z.WellFormed ∧ z.versions ≠ []
  decoded : ∀ e ∈ stream, decodeDirObject e.name = e.name

namespace VersionedBucket

variable (b : VersionedBucket)

def objects : List (MetaCacheEntry XlMetaV2) := b.stream.filter MetaCacheEntry.isObject

end VersionedBucket

/-- A version of an object, as its journal has it. -/
structure StoredVersion where
  object : Name
  fileInfo : FileInfo
  deriving DecidableEq

namespace VersionLister

variable (v : VersionLister)

def journalVersions (e : MetaCacheEntry XlMetaV2) : List (Name × ObjectInfo) :=
  (e.metadata.elim [] XlMetaV2.versions).map fun version =>
    (e.name, (version.fileInfo v.uuid v.bucket (String.ofList e.name)).toObjectInfo v.versioning)

/-- Every version of every object is there once, in the order of the names and
newest first within a name. -/
structure ListsEvery (b : VersionedBucket) (listed : List ListedObject) : Prop where
  nameOrder : listed.Pairwise fun obj obj' => obj.name ≤ obj'.name
  newestFirst : listed.Pairwise fun obj obj' => obj.name = obj'.name → obj'.modTime ≤ obj.modTime
  once : (listed.map ListedObject.version).Perm (b.stream.flatMap v.journalVersions)

def storedVersions (e : MetaCacheEntry XlMetaV2) : List StoredVersion :=
  match e.metadata with
  | none => []
  | some z =>
    match v.getFileInfoVersions z e.name with
    | .error _ => []
    | .ok versions => versions.map (StoredVersion.mk e.name)

def shown (stored : StoredVersion) : ListedObject := v.toObjectInfo stored.fileInfo stored.object

end VersionLister

/-- A place between two pages: what is listed and what is left of the versions of one
object, and the objects after it. -/
structure PagePlace where
  done : List StoredVersion
  left : List StoredVersion
  later : List (MetaCacheEntry XlMetaV2)

namespace PagePlace

variable (v : VersionLister) (maxKeys : Int) (p : PagePlace)

def start (b : VersionedBucket) : PagePlace := ⟨[], [], b.objects⟩

def remaining : List StoredVersion := p.left ++ p.later.flatMap v.storedVersions

def window : List StoredVersion :=
  p.left ++ (p.later.take (maxKeysPlusOne maxKeys false).toNat).flatMap v.storedVersions

def page : List StoredVersion := (p.window v maxKeys).take maxKeys.toNat

def Truncated : Prop := (p.page v maxKeys).length < (p.remaining v).length

instance : Decidable (p.Truncated v maxKeys) := inferInstanceAs (Decidable (_ < _))

def after : Nat → List StoredVersion → List StoredVersion → List (MetaCacheEntry XlMetaV2) →
    PagePlace
  | n, done, left, [] => ⟨done ++ left.take n, left.drop n, []⟩
  | n, done, left, e :: later =>
    if n ≤ left.length then ⟨done ++ left.take n, left.drop n, e :: later⟩
    else after (n - left.length) [] (v.storedVersions e) later

def afterPage : PagePlace := after v (p.page v maxKeys).length p.done p.left p.later

/-- The last version before the place has an id in the journal; where nothing is printed
for a null version, that may be missing if the version is the last one of its object. -/
def Kept : Prop :=
  ∀ last ∈ p.done.getLast?,
    last.fileInfo.versionID ≠ "" ∨ v.versioning = .unversioned ∧ p.left = []

instance : Decidable (p.Kept v) := by
  unfold Kept
  infer_instance

/-- The places between the pages, each page taken up where the one before it ended. -/
inductive Between (b : VersionedBucket) : PagePlace → Prop
  | start : Between b (start b)
  | next {p : PagePlace} (hp : Between b p) (htruncated : p.Truncated v maxKeys) :
      Between b (p.afterPage v maxKeys)

end PagePlace

/-- No page ends at a version without an id, as long as there is a next page. -/
def VersionLister.CutsKept (v : VersionLister) (b : VersionedBucket) (maxKeys : Int) : Prop :=
  ∀ p, PagePlace.Between v maxKeys b p → p.Truncated v maxKeys → (p.afterPage v maxKeys).Kept v

end Fs3.Listing
