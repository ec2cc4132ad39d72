import Fs3.Journal.LatestMarker

/-! # One object on one drive

An object is a directory with a metadata file and a data directory for each version whose data is
not in the metadata file. The file system itself is taken to be free of faults: an operation fails
for what it finds, never by itself. -/

namespace Fs3

open Foundation

/-- The files of a data directory. -/
abbrev DataFiles := Std.ExtTreeMap String Bytes

/-- What an `xl.meta` file holds: a journal, or the contents of an older
`xl.json` that was only renamed. -/
inductive MetaFile where
  | empty
  | journal (z : XlMetaV2)
  | legacy (m : XlMetaV1Object)
  deriving DecidableEq

/-- The directory of an object: its metadata file, an older metadata file, the
other files beside it, and its subdirectories. -/
structure ObjectDir where
  xlMeta : Option MetaFile := none
  xlJson : Option XlMetaV1Object := none
  files : DataFiles := ∅
  dirs : Std.ExtTreeMap String DataFiles := ∅
  deriving DecidableEq

/-- What has been moved away for deletion, with its old name. -/
abbrev Trash := List (String × DataFiles)

/-- One drive: the packages its code uses, whether it was formatted before
`xl.meta` came, and the entry a listing of an object directory returns first,
with whether it is a directory. -/
structure XlStorage where
  uuid : UuidPackage
  clock : Clock
  sorter : DescendingSort XlMetaV2Version.modTime
  formatLegacy : Bool
  firstEntry : ObjectDir → Option (String × Bool)

namespace ObjectDir

variable (dir : ObjectDir) (name : String)

def discarded : Trash :=
  match dir.dirs[name]? with
  | none => []
  | some files => [(name, files)]

def withoutDir : ObjectDir := { dir with dirs := dir.dirs.erase name }

theorem getElem?_withoutDir (other : String) :
    (dir.withoutDir name).dirs[other]? = if other = name then none else dir.dirs[other]? := by
  unfold withoutDir
  rw [Std.ExtTreeMap.getElem?_erase]
  by_cases hname : other = name
  · subst other
    simp
  · have hcompare : compare name other ≠ .eq := fun heq =>
      hname (Std.LawfulEqOrd.eq_of_compare heq).symm
    rw [if_neg hcompare, if_neg hname]

theorem mem_discarded {entry : String × DataFiles} :
    entry ∈ dir.discarded name ↔ entry.1 = name ∧ dir.dirs[name]? = some entry.2 := by
  obtain ⟨other, files⟩ := entry
  unfold discarded
  cases hdir : dir.dirs[name]? with
  | none => simp
  | some found => simp [eq_comm]

end ObjectDir

end Fs3

/-! ## Deleting a version on a drive

`DeleteVersion` loads the journal, lets it work out what becomes of the version,
moves a data directory that nobody needs any more to the trash, and writes the
journal back. When no version is left the whole directory goes.
-/

namespace Fs3

open Foundation

/-- The object directory after a call, what the call moved to the trash, and
its error. -/
structure DeleteOutcome where
  dir : ObjectDir
  trash : Trash := []
  err : Option StorageErr := none

/-- The directory of an object as the trash keeps it: the files beside the
metadata file, and the subdirectories. -/
def ObjectDir.contents (dir : ObjectDir) : Trash := ("", dir.files) :: dir.dirs.toList

namespace XlStorage

variable (s : XlStorage)

def deleteNotFound (fi : FileInfo) : StorageErr :=
  if fi.versionID ≠ "" then .errFileVersionNotFound else .errFileNotFound

/-- `xlStorage.WriteMetadata`. -/
def writeMetadata (dir : ObjectDir) (fi : FileInfo) : DeleteOutcome :=
  let z := match dir.xlMeta with
    | some (.journal z) => z
    | _ => {}
  match z.addVersion s.uuid fi with
  | .error err => { dir, err := some err }
  | .ok z' =>
    if z'.data.validate then { dir := { dir with xlMeta := some (.journal z') } }
    else { dir, err := some .errFileCorrupt }

def commitDelete (dir : ObjectDir) (z : XlMetaV2) (trash : Trash) (lastVersion : Bool) :
    DeleteOutcome :=
  if lastVersion then { dir := {}, trash := trash ++ dir.contents }
  else if z.data.validate then { dir := { dir with xlMeta := some (.journal z) }, trash }
  else { dir, trash, err := some .errFileCorrupt }

/-- The rest of a delete, once the journal has dropped the version: the inline
data and the data directory go first. -/
def finishDelete (dir : ObjectDir) (fi : FileInfo) (z : XlMetaV2) (dataDir : String)
    (lastVersion : Bool) : DeleteOutcome :=
  if dataDir = "" then commitDelete dir z [] lastVersion
  else
    let versionID := if fi.versionID = "" then nullVersionID else fi.versionID
    commitDelete (dir.withoutDir dataDir)
      { z with data := z.data.remove [versionID, dataDir] } (dir.discarded dataDir) lastVersion

/-- `xlStorage.DeleteVersion`; `forceDelMarker` writes a delete marker where
there is no object at all. -/
def deleteVersion (dir : ObjectDir) (fi : FileInfo) (forceDelMarker : Bool) : DeleteOutcome :=
  match dir.xlMeta with
  | none =>
    if fi.deleted && forceDelMarker then s.writeMetadata dir fi
    else { dir, err := some (deleteNotFound fi) }
  | some .empty => { dir, err := some (deleteNotFound fi) }
  | some (.legacy _) => { dir := {}, trash := dir.contents }
  | some (.journal z) =>
    match z.deleteVersion s.uuid s.clock fi with
    | .error err => { dir, err := some err }
    | .ok (z', dataDir, lastVersion) => finishDelete dir fi z' dataDir lastVersion

/-! ## What a successful call did -/

variable {s} {dir : ObjectDir} {fi : FileInfo} {forceDelMarker : Bool}

/-- What a successful delete leaves of an object. -/
inductive Deleted (s : XlStorage) (dir : ObjectDir) (fi : FileInfo) (forceDelMarker : Bool) :
    ObjectDir → Prop
  | forced (z : XlMetaV2) (hmeta : dir.xlMeta = none) (hdeleted : fi.deleted = true)
      (hforce : forceDelMarker = true) (hadd : ({} : XlMetaV2).addVersion s.uuid fi = .ok z) :
      Deleted s dir fi forceDelMarker { dir with xlMeta := some (.journal z) }
  | legacy (m : XlMetaV1Object) (hmeta : dir.xlMeta = some (.legacy m)) :
      Deleted s dir fi forceDelMarker {}
  | last (z z' : XlMetaV2) (dataDir : String) (hmeta : dir.xlMeta = some (.journal z))
      (hdelete : z.deleteVersion s.uuid s.clock fi = .ok (z', dataDir, true)) :
      Deleted s dir fi forceDelMarker {}
  | freed (z z' : XlMetaV2) (dataDir versionID : String)
      (hmeta : dir.xlMeta = some (.journal z)) (hdir : dataDir ≠ "")
      (hdelete : z.deleteVersion s.uuid s.clock fi = .ok (z', dataDir, false)) :
      Deleted s dir fi forceDelMarker
        { dir.withoutDir dataDir with
          xlMeta := some (.journal { z' with data := z'.data.remove [versionID, dataDir] }) }
  | kept (z z' : XlMetaV2) (hmeta : dir.xlMeta = some (.journal z))
      (hdelete : z.deleteVersion s.uuid s.clock fi = .ok (z', "", false)) :
      Deleted s dir fi forceDelMarker { dir with xlMeta := some (.journal z') }

theorem exists_of_writeMetadata (hmeta : dir.xlMeta = none)
    (hok : (s.writeMetadata dir fi).err = none) :
    ∃ z, ({} : XlMetaV2).addVersion s.uuid fi = .ok z ∧
      (s.writeMetadata dir fi).dir = { dir with xlMeta := some (.journal z) } := by
  unfold writeMetadata at hok ⊢
  rw [hmeta] at hok ⊢
  simp only at hok ⊢
  cases hadd : ({} : XlMetaV2).addVersion s.uuid fi with
  | error err =>
    rw [hadd] at hok
    cases hok
  | ok z =>
    simp only [hadd] at hok ⊢
    split at hok
    next hvalidate =>
      rw [if_pos hvalidate]
      exact ⟨z, rfl, rfl⟩
    · cases hok

theorem commitDelete_dir {z : XlMetaV2} {trash : Trash} {lastVersion : Bool}
    (hok : (commitDelete dir z trash lastVersion).err = none) :
    (commitDelete dir z trash lastVersion).dir =
      if lastVersion then {} else { dir with xlMeta := some (.journal z) } := by
  unfold commitDelete at hok ⊢
  cases lastVersion with
  | true => rfl
  | false =>
    simp only [Bool.false_eq_true, if_false] at hok ⊢
    split at hok
    next hvalidate => rw [if_pos hvalidate]
    · cases hok

theorem finishDelete_deleted {z z' : XlMetaV2} {dataDir : String} {lastVersion : Bool}
    (hmeta : dir.xlMeta = some (.journal z))
    (hdelete : z.deleteVersion s.uuid s.clock fi = .ok (z', dataDir, lastVersion))
    (hok : (finishDelete dir fi z' dataDir lastVersion).err = none) :
    Deleted s dir fi forceDelMarker (finishDelete dir fi z' dataDir lastVersion).dir := by
  unfold finishDelete at hok ⊢
  split at hok
  next hempty =>
    rw [if_pos hempty, commitDelete_dir hok]
    cases lastVersion with
    | true => exact .last z z' dataDir hmeta hdelete
    | false => exact .kept z z' hmeta (hempty ▸ hdelete)
  next hdir =>
    rw [if_neg hdir, commitDelete_dir hok]
    cases lastVersion with
    | true => exact .last z z' dataDir hmeta hdelete
    | false => exact .freed z z' dataDir _ hmeta hdir hdelete

theorem deleteVersion_deleted (hok : (s.deleteVersion dir fi forceDelMarker).err = none) :
    Deleted s dir fi forceDelMarker (s.deleteVersion dir fi forceDelMarker).dir := by
  unfold deleteVersion at hok ⊢
  cases hmeta : dir.xlMeta with
  | none =>
    rw [hmeta] at hok
    simp only at hok ⊢
    split at hok
    next hforced =>
      rw [if_pos hforced]
      rw [Bool.and_eq_true] at hforced
      obtain ⟨z, hadd, hdir⟩ := exists_of_writeMetadata hmeta hok
      rw [hdir]
      exact .forced z hmeta hforced.1 hforced.2 hadd
    · cases hok
  | some file =>
    rw [hmeta] at hok
    cases file with
    | empty => cases hok
    | legacy m => exact .legacy m hmeta
    | journal z =>
      simp only at hok ⊢
      cases hdelete : z.deleteVersion s.uuid s.clock fi with
      | error err =>
        rw [hdelete] at hok
        cases hok
      | ok result =>
        rw [hdelete] at hok
        exact finishDelete_deleted hmeta hdelete hok

end XlStorage

end Fs3
