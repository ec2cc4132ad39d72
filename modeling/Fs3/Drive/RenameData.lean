import Fs3.Drive.ObjectDir
import Fs3.Journal.Record

/-! # Moving a version into place

`RenameData` adds a version to the journal of the destination and moves its data directory there
from a temporary one. -/

namespace Fs3

open Foundation

/-- The two object directories after a call, what the call moved to the trash,
and its error. -/
structure RenameOutcome where
  src : ObjectDir
  dst : ObjectDir
  trash : Trash := []
  err : Option StorageErr := none

def FileInfo.movesDataDir (fi : FileInfo) : Bool :=
  fi.dataDir != "" && fi.data.length == 0 && decide (0 < fi.size)

namespace ObjectDir

def preserveLegacy (dir : ObjectDir) : ObjectDir :=
  { dir with
    xlJson := none
    files := ∅
    dirs := dir.dirs.insert legacyDataDir (dir.dirs.getD legacyDataDir ∅ ∪ dir.files) }

def undoLegacy (dir : ObjectDir) (legacyPreserved : Bool) : ObjectDir :=
  if legacyPreserved then dir.withoutDir legacyDataDir else dir

end ObjectDir

namespace XlStorage

variable (s : XlStorage)

/-- `renameLegacyMetadata`, for an object without an `xl.meta`. -/
def renameLegacyMetadata (dir : ObjectDir) : ObjectDir :=
  if dir.xlMeta = none ∧ s.formatLegacy = true then
    { dir with xlMeta := dir.xlJson.map .legacy, xlJson := none }
  else dir

/-- Whether an object without metadata stands in the way of its children: its
first entry is neither a data directory nor the legacy one. -/
def isParentOfObjects (dir : ObjectDir) : Bool :=
  match s.firstEntry dir with
  | none => false
  | some (entry, _) => entry != legacyDataDir && (s.uuid.parse entry).isNone

/-- The journal of the destination, and whether legacy parts have to be moved. -/
def loadJournal (dir : ObjectDir) : Except StorageErr (XlMetaV2 × Bool) :=
  match dir.xlMeta with
  | some (.journal z) => .ok (z, false)
  | some (.legacy m) =>
    match ({} : XlMetaV2).addLegacy m with
    | .error _ => .error .errFileCorrupt
    | .ok z => .ok (z, true)
  | _ =>
    match s.firstEntry dir with
    | some (entry, false) => .ok ({}, s.formatLegacy && hasPrefix entry "part.")
    | _ => .ok ({}, false)

/-- The data directory that a version without an id leaves behind: the one of
the null version, when no other version shares it. -/
def oldDataDir (z : XlMetaV2) (fi : FileInfo) : Option String :=
  if fi.versionID = "" then
    match z.toFileInfo s.uuid "" "" s.sorter nullVersionID with
    | .error _ => none
    | .ok ofi =>
      if ofi.deleted = false ∧
          z.sharedDataDirCountStr s.uuid s.clock nullVersionID ofi.dataDir = 0 then
        some ofi.dataDir
      else none
  else none

def withoutOldData (z : XlMetaV2) (oldDir : Option String) : XlMetaV2 :=
  match oldDir with
  | none => z
  | some dataDir => { z with data := z.data.remove [nullVersionID, dataDir] }

def commitMeta (src dst : ObjectDir) (trash : Trash) (z : XlMetaV2) (oldDir : Option String) :
    RenameOutcome :=
  let dst := { dst with xlMeta := some (.journal z) }
  let src := { src with xlMeta := none }
  match oldDir with
  | none => { src, dst, trash }
  | some dataDir => { src, dst := dst.withoutDir dataDir, trash := trash ++ dst.discarded dataDir }

def commitData (src dst : ObjectDir) (z : XlMetaV2) (fi : FileInfo) (legacyPreserved : Bool)
    (oldDir : Option String) : RenameOutcome :=
  if fi.dataDir = "" then { src, dst := { dst with xlMeta := some (.journal z) } }
  else
    let src := { src with xlMeta := some (.journal z) }
    if fi.movesDataDir then
      let trash := dst.discarded fi.dataDir
      let dst := dst.withoutDir fi.dataDir
      match src.dirs[fi.dataDir]? with
      | none =>
        { src, dst := dst.undoLegacy legacyPreserved, trash, err := some .errFileNotFound }
      | some files =>
        commitMeta (src.withoutDir fi.dataDir)
          { dst with dirs := dst.dirs.insert fi.dataDir files } trash z oldDir
    else commitMeta src dst [] z oldDir

/-- `xlStorage.RenameData`. -/
def renameData (src dst : ObjectDir) (fi : FileInfo) : RenameOutcome :=
  let dst := s.renameLegacyMetadata dst
  if dst.xlMeta = none ∧ s.isParentOfObjects dst = true then
    { src, dst, err := some .errFileParentIsFile }
  else
    match s.loadJournal dst with
    | .error err => { src, dst, err := some err }
    | .ok (z, legacyPreserved) =>
      let dst := if legacyPreserved then dst.preserveLegacy else dst
      let oldDir := s.oldDataDir z fi
      match (withoutOldData z oldDir).addVersion s.uuid fi with
      | .error err => { src, dst := dst.undoLegacy legacyPreserved, err := some err }
      | .ok z' =>
        if z'.data.validate then commitData src dst z' fi legacyPreserved oldDir
        else { src, dst := dst.undoLegacy legacyPreserved, err := some .errFileCorrupt }

/-- The journal a call starts from, and the destination once legacy parts have
been moved. -/
def openJournal (dst : ObjectDir) : Except StorageErr (XlMetaV2 × ObjectDir) :=
  let dst := s.renameLegacyMetadata dst
  (s.loadJournal dst).map fun loaded =>
    (loaded.1, if loaded.2 then dst.preserveLegacy else dst)

/-! ## What a successful call did -/

variable {s} {src dst : ObjectDir} {fi : FileInfo}

/-- The contents of a directory when the data is in place and before the
replaced directory is moved away. -/
def installedDir (src dst : ObjectDir) (fi : FileInfo) (name : String) : Option DataFiles :=
  if fi.movesDataDir = true ∧ name = fi.dataDir then src.dirs[name]? else dst.dirs[name]?

theorem commitMeta_dirs (src dst : ObjectDir) (trash : Trash) (z : XlMetaV2)
    (oldDir : Option String) (name : String) :
    (commitMeta src dst trash z oldDir).dst.dirs[name]? =
      if oldDir = some name then none else dst.dirs[name]? := by
  cases oldDir with
  | none => simp [commitMeta]
  | some dataDir =>
    rw [commitMeta, ObjectDir.getElem?_withoutDir]
    simp [eq_comm]

theorem mem_commitMeta_trash {src dst : ObjectDir} {trash : Trash} {z : XlMetaV2}
    {oldDir : Option String} {entry : String × DataFiles} :
    entry ∈ (commitMeta src dst trash z oldDir).trash ↔
      entry ∈ trash ∨ oldDir = some entry.1 ∧ dst.dirs[entry.1]? = some entry.2 := by
  cases oldDir with
  | none => simp [commitMeta]
  | some dataDir =>
    rw [commitMeta, List.mem_append, ObjectDir.mem_discarded]
    constructor
    · rintro (htrash | ⟨rfl, hfiles⟩)
      · exact Or.inl htrash
      · exact Or.inr ⟨rfl, hfiles⟩
    · rintro (htrash | ⟨hname, hfiles⟩)
      · exact Or.inl htrash
      · rw [Option.some.injEq] at hname
        exact Or.inr ⟨hname.symm, by rw [hname]; exact hfiles⟩

/-- The result of a committed transaction. -/
structure Committed (src dst : ObjectDir) (z : XlMetaV2) (fi : FileInfo) (oldDir : Option String)
    (outcome : RenameOutcome) : Prop where
  xlMeta : outcome.dst.xlMeta = some (.journal z)
  moved : fi.movesDataDir = true → ∃ files, src.dirs[fi.dataDir]? = some files
  dirs : ∀ name, outcome.dst.dirs[name]? =
    if fi.dataDir ≠ "" ∧ oldDir = some name then none else installedDir src dst fi name
  trash : ∀ entry, entry ∈ outcome.trash ↔
    (fi.movesDataDir = true ∧ entry.1 = fi.dataDir ∧ dst.dirs[entry.1]? = some entry.2) ∨
      (fi.dataDir ≠ "" ∧ oldDir = some entry.1 ∧
        installedDir src dst fi entry.1 = some entry.2)

theorem dataDir_ne_empty_of_movesDataDir (hmoves : fi.movesDataDir = true) : fi.dataDir ≠ "" := by
  simp only [FileInfo.movesDataDir, Bool.and_eq_true, bne_iff_ne] at hmoves
  exact hmoves.1.1

theorem getElem?_moved (dst : ObjectDir) (files : DataFiles) (dataDir name : String) :
    ((dst.withoutDir dataDir).dirs.insert dataDir files)[name]? =
      if name = dataDir then some files else dst.dirs[name]? := by
  rw [Std.ExtTreeMap.getElem?_insert, ObjectDir.getElem?_withoutDir]
  by_cases hname : name = dataDir
  · subst name
    simp
  · have hcompare : compare dataDir name ≠ .eq := fun heq =>
      hname (Std.LawfulEqOrd.eq_of_compare heq).symm
    rw [if_neg hcompare, if_neg hname, if_neg hname]

theorem committed_of_commitData {z : XlMetaV2} {legacyPreserved : Bool} {oldDir : Option String}
    (hok : (commitData src dst z fi legacyPreserved oldDir).err = none) :
    Committed src dst z fi oldDir (commitData src dst z fi legacyPreserved oldDir) := by
  unfold commitData at hok ⊢
  split at hok
  next hempty =>
    rw [if_pos hempty]
    have hmoves : ¬ fi.movesDataDir = true := fun hmoves =>
      dataDir_ne_empty_of_movesDataDir hmoves hempty
    exact
      { xlMeta := rfl
        moved := fun h => absurd h hmoves
        dirs := fun name => by simp [hempty, installedDir, hmoves]
        trash := fun entry => by simp [hempty, hmoves] }
  next hne =>
    rw [if_neg hne]
    split at hok
    next hmoves =>
      rw [if_pos hmoves]
      simp only at hok ⊢
      split at hok
      · cases hok
      next files hfiles =>
        have hinstalled : ∀ name, installedDir src dst fi name =
            ((dst.withoutDir fi.dataDir).dirs.insert fi.dataDir files)[name]? := by
          intro name
          rw [getElem?_moved, installedDir]
          by_cases hname : name = fi.dataDir
          · rw [if_pos ⟨hmoves, hname⟩, if_pos hname, hname, hfiles]
          · rw [if_neg fun h => hname h.2, if_neg hname]
        exact
          { xlMeta := by cases oldDir <;> rfl
            moved := fun _ => ⟨files, hfiles⟩
            dirs := fun name => by
              rw [commitMeta_dirs, hinstalled]
              simp [hne]
            trash := fun entry => by
              rw [mem_commitMeta_trash, ObjectDir.mem_discarded, hinstalled]
              constructor
              · rintro (⟨hname, hdir⟩ | hold)
                · exact Or.inl ⟨hmoves, hname, by rw [hname]; exact hdir⟩
                · exact Or.inr ⟨hne, hold⟩
              · rintro (⟨_, hname, hdir⟩ | hold)
                · exact Or.inl ⟨hname, by rw [← hname]; exact hdir⟩
                · exact Or.inr hold.2 }
    next hmoves =>
      simp only
      rw [if_neg hmoves]
      have hinstalled : ∀ name, installedDir src dst fi name = dst.dirs[name]? := fun name =>
        if_neg fun h => hmoves h.1
      exact
        { xlMeta := by cases oldDir <;> rfl
          moved := fun h => absurd h hmoves
          dirs := fun name => by
            rw [commitMeta_dirs, hinstalled]
            simp [hne]
          trash := fun entry => by
            rw [mem_commitMeta_trash, hinstalled]
            simp [hmoves, hne] }

theorem renameData_cases (hok : (s.renameData src dst fi).err = none) :
    ∃ z dst' z', s.openJournal dst = .ok (z, dst') ∧
      (withoutOldData z (s.oldDataDir z fi)).addVersion s.uuid fi = .ok z' ∧
      Committed src dst' z' fi (s.oldDataDir z fi) (s.renameData src dst fi) := by
  unfold renameData at hok ⊢
  simp only at hok ⊢
  split at hok
  · cases hok
  next hparent =>
    rw [if_neg hparent]
    split at hok
    · cases hok
    next z legacyPreserved hload =>
      split at hok
      · cases hok
      next z' hadd =>
        split at hok
        next hvalidate =>
          simp only [if_pos hvalidate]
          refine ⟨z, _, z', ?_, hadd, committed_of_commitData hok⟩
          rw [openJournal, hload]
          rfl
        · cases hok

end XlStorage

end Fs3

/-! ## What moving a version into place promises

After a successful `RenameData` the journal names the data directory of the new
version, the directory holds what the source held, and no directory a version
still needs has gone to the trash. The directory that is purged and the one
that is installed are worked out apart from each other, and the promise holds
exactly when they do not meet.
-/

namespace Fs3

open Foundation XlMetaV2

def XlMetaV2Version.dataDirText (uuid : UuidPackage) (version : XlMetaV2Version) : String :=
  (version.fileInfo uuid "" "").dataDir

def XlMetaV2Version.refersTo (uuid : UuidPackage) (clock : Clock) (name : String) :
    XlMetaV2Version → Bool
  | objectType object => object.usesDataDir clock && uuid.print object.dataDir == name
  | legacyType object => object.dataDir == name
  | _ => false

theorem XlMetaV2Version.fileInfo_dataDir (uuid : UuidPackage) (volume path : String)
    (version : XlMetaV2Version) :
    (version.fileInfo uuid volume path).dataDir = version.dataDirText uuid := by
  cases version <;> rfl

/-- The versions once `fi` is added: the new one, and the old ones but the one
that it replaces. -/
def FileInfo.nextVersions (fi : FileInfo) (uv dd : UUID) (versions : List XlMetaV2Version) :
    List XlMetaV2Version :=
  fi.toVersion uv dd :: versions.eraseP (XlMetaV2Version.answersTo uv (normalizeID fi.versionID))

theorem PutCase.mem_iff {uv : UUID} {versionID : String} {ventry version : XlMetaV2Version}
    {versions versions' : List XlMetaV2Version}
    (hcase : PutCase uv versionID ventry versions versions') :
    version ∈ versions' ↔
      version ∈ ventry :: versions.eraseP (XlMetaV2Version.answersTo uv versionID) := by
  cases hcase with
  | replace before old after hversions hbefore hold =>
    have hnot : ∀ other ∈ before, ¬ other.answersTo uv versionID = true := fun other hmem => by
      simp [hbefore other hmem]
    rw [hversions, List.eraseP_append_right _ hnot, List.eraseP_cons_of_pos hold]
    simp only [List.mem_append, List.mem_cons]
    tauto
  | append hnone =>
    have hnot : ∀ other ∈ versions, ¬ other.answersTo uv versionID = true := fun other hmem => by
      simp [hnone other hmem]
    rw [List.eraseP_of_forall_not hnot]
    simp only [List.mem_append, List.mem_cons, List.not_mem_nil, or_false]
    tauto

namespace XlStorage

/-- What a successful `RenameData` promises. An id that is left out stands for
the null version. -/
structure RenameContract (s : XlStorage) (src : ObjectDir) (fi : FileInfo)
    (outcome : RenameOutcome) : Prop where
  named : ∀ z, outcome.dst.xlMeta = some (.journal z) → ∀ volume path sorter,
    ∃ got, z.toFileInfo s.uuid volume path sorter (normalizeID fi.versionID) = .ok got ∧
      got.dataDir = fi.dataDir
  installed : fi.movesDataDir = true →
    outcome.dst.dirs[fi.dataDir]? = src.dirs[fi.dataDir]?
  inlined : ∀ z, outcome.dst.xlMeta = some (.journal z) → fi.isInlined = true →
    z.data.find (normalizeID fi.versionID) = some fi.data
  kept : ∀ z, outcome.dst.xlMeta = some (.journal z) → ∀ version ∈ z.versions,
    ∀ entry ∈ outcome.trash, version.refersTo s.uuid s.clock entry.1 = true →
      (outcome.dst.dirs[entry.1]?).isSome = true

/-- `name` is the directory of the null version that a version without an id
replaces, and no other version is counted as sharing it. -/
def ReplacedDir (s : XlStorage) (z : XlMetaV2) (fi : FileInfo) (name : String) : Prop :=
  fi.versionID = "" ∧ ∃ ofi,
    z.toFileInfo s.uuid "" "" s.sorter nullVersionID = .ok ofi ∧ ofi.deleted = false ∧
      ofi.dataDir = name ∧ z.sharedDataDirCountStr s.uuid s.clock nullVersionID name = 0

/-- When the promise is kept, for a journal and a destination to start from. -/
structure RenameSafe (s : XlStorage) (z : XlMetaV2) (dst : ObjectDir) (fi : FileInfo)
    (uv dd : UUID) : Prop where
  readable : ∀ version ∈ fi.nextVersions uv dd z.versions, version.valid = true
  named : ∀ version ∈ fi.nextVersions uv dd z.versions,
    version.answersTo uv (normalizeID fi.versionID) = true →
    (∀ other ∈ fi.nextVersions uv dd z.versions,
      other.answersTo uv (normalizeID fi.versionID) = true → version.modTime ≤ other.modTime) →
    version.dataDirText s.uuid = fi.dataDir
  apart : fi.movesDataDir = true → ¬ s.ReplacedDir z fi fi.dataDir
  unreferenced : fi.dataDir ≠ "" → ∀ name, s.ReplacedDir z fi name →
    (dst.dirs[name]?).isSome = true →
    ∀ version ∈ fi.nextVersions uv dd z.versions, version.refersTo s.uuid s.clock name = false

variable {s : XlStorage} {src dst : ObjectDir} {fi : FileInfo} {z z' : XlMetaV2} {uv dd : UUID}
variable {outcome : RenameOutcome}

@[simp]
theorem withoutOldData_versions (z : XlMetaV2) (oldDir : Option String) :
    (withoutOldData z oldDir).versions = z.versions := by
  cases oldDir <;> rfl

theorem eq_of_xlMeta_eq {other : XlMetaV2} (h : outcome.dst.xlMeta = some (.journal z))
    (h' : outcome.dst.xlMeta = some (.journal other)) : z = other := by
  rw [h] at h'
  exact MetaFile.journal.inj (Option.some.inj h')

theorem oldDataDir_eq_some_iff {name : String} :
    s.oldDataDir z fi = some name ↔ s.ReplacedDir z fi name := by
  unfold oldDataDir ReplacedDir
  by_cases hempty : fi.versionID = ""
  · rw [if_pos hempty]
    cases hnull : z.toFileInfo s.uuid "" "" s.sorter nullVersionID with
    | error err => simp
    | ok ofi =>
      simp only [Option.ite_none_right_eq_some, Option.some.injEq, Except.ok.injEq]
      constructor
      · rintro ⟨⟨hdeleted, hcount⟩, rfl⟩
        exact ⟨hempty, ofi, rfl, hdeleted, rfl, hcount⟩
      · rintro ⟨_, _, rfl, hdeleted, rfl, hcount⟩
        exact ⟨⟨hdeleted, hcount⟩, rfl⟩
  · simp [hempty]

theorem oldest_iff (hmem : ∀ version, version ∈ z'.versions ↔
    version ∈ fi.nextVersions uv dd z.versions) {version : XlMetaV2Version} {versionID : String} :
    z'.Oldest uv versionID version ↔
      version ∈ fi.nextVersions uv dd z.versions ∧ version.answersTo uv versionID = true ∧
        ∀ other ∈ fi.nextVersions uv dd z.versions,
          other.answersTo uv versionID = true → version.modTime ≤ other.modTime := by
  simp only [Oldest, hmem]

section

variable (hcommit : Committed src dst z' fi (s.oldDataDir z fi) outcome)
  (hparse : parseVersionID s.uuid fi.versionID = some uv)
  (hmem : ∀ version, version ∈ z'.versions ↔ version ∈ fi.nextVersions uv dd z.versions)
include hcommit hparse hmem

theorem contract_of_safe
    (hdata : fi.isInlined = true → z'.data.find (normalizeID fi.versionID) = some fi.data)
    (hsafe : s.RenameSafe z dst fi uv dd) : s.RenameContract src fi outcome where
  named := by
    intro other hjournal volume path sorter
    obtain rfl := eq_of_xlMeta_eq hcommit.xlMeta hjournal
    have hvalid : z'.AllValid := fun version hversion =>
      hsafe.readable version ((hmem version).mp hversion)
    have hnew : fi.toVersion uv dd ∈ z'.versions := (hmem _).mpr List.mem_cons_self
    obtain ⟨version, holdest, hrecord⟩ := exists_record volume path sorter hvalid
      ((parseVersionID_normalizeID s.uuid fi.versionID).trans hparse)
      (normalizeID_ne_empty fi.versionID) ⟨_, hnew, by simp⟩
    unfold record at hrecord
    cases hgot : z'.toFileInfo s.uuid volume path sorter (normalizeID fi.versionID) with
    | error err => rw [hgot] at hrecord; cases hrecord
    | ok got =>
      rw [hgot] at hrecord
      obtain ⟨hin, hanswers, hleast⟩ := (oldest_iff hmem).mp holdest
      have hstatic : got.static = version.fileInfo s.uuid volume path := Except.ok.inj hrecord
      refine ⟨got, rfl, ?_⟩
      calc got.dataDir = got.static.dataDir := rfl
        _ = version.dataDirText s.uuid := by rw [hstatic, version.fileInfo_dataDir]
        _ = fi.dataDir := hsafe.named version hin hanswers hleast
  installed := by
    intro hmoves
    rw [hcommit.dirs, if_neg fun h => hsafe.apart hmoves (oldDataDir_eq_some_iff.mp h.2),
      installedDir, if_pos ⟨hmoves, rfl⟩]
  inlined := by
    intro other hjournal hinlined
    obtain rfl := eq_of_xlMeta_eq hcommit.xlMeta hjournal
    exact hdata hinlined
  kept := by
    intro other hjournal version hversion entry hentry hrefers
    obtain rfl := eq_of_xlMeta_eq hcommit.xlMeta hjournal
    rcases (hcommit.trash entry).mp hentry with ⟨hmoves, hname, _⟩ | ⟨hne, hold, hfiles⟩
    · obtain ⟨files, hfiles⟩ := hcommit.moved hmoves
      rw [hcommit.dirs, if_neg fun h =>
          hsafe.apart hmoves (hname ▸ oldDataDir_eq_some_iff.mp h.2), installedDir,
        if_pos ⟨hmoves, hname⟩, hname, hfiles]
      rfl
    · rw [oldDataDir_eq_some_iff] at hold
      have hapart : ¬ (fi.movesDataDir = true ∧ entry.1 = fi.dataDir) := fun h =>
        hsafe.apart h.1 (h.2 ▸ hold)
      rw [installedDir, if_neg hapart] at hfiles
      have hnone := hsafe.unreferenced hne entry.1 hold (by rw [hfiles]; rfl) version
        ((hmem version).mp hversion)
      rw [hnone] at hrefers
      cases hrefers

theorem safe_of_contract (hcontract : s.RenameContract src fi outcome) :
    s.RenameSafe z dst fi uv dd := by
  have hvalid : z'.AllValid := by
    obtain ⟨got, hgot, _⟩ := hcontract.named z' hcommit.xlMeta "" "" (.stable _)
    exact allValid_of_toFileInfo hgot
  have hapart : fi.movesDataDir = true → ¬ s.ReplacedDir z fi fi.dataDir := by
    intro hmoves hold
    rw [← oldDataDir_eq_some_iff] at hold
    obtain ⟨files, hfiles⟩ := hcommit.moved hmoves
    have hinstalled := hcontract.installed hmoves
    rw [hcommit.dirs, if_pos ⟨dataDir_ne_empty_of_movesDataDir hmoves, hold⟩, hfiles] at hinstalled
    cases hinstalled
  exact
    { readable := fun version hversion => hvalid version ((hmem version).mpr hversion)
      named := by
        intro version hin hanswers hleast
        have hrecord := exists_sorter_record "" "" hvalid
          ((parseVersionID_normalizeID s.uuid fi.versionID).trans hparse)
          (normalizeID_ne_empty fi.versionID) ((oldest_iff hmem).mpr ⟨hin, hanswers, hleast⟩)
        obtain ⟨got, hgot, hdir⟩ := hcontract.named z' hcommit.xlMeta "" ""
          (DescendingSort.putLast _ version)
        rw [record, hgot] at hrecord
        have hstatic : got.static = version.fileInfo s.uuid "" "" := Except.ok.inj hrecord
        calc version.dataDirText s.uuid = got.static.dataDir := by rw [hstatic]; rfl
          _ = fi.dataDir := hdir
      apart := hapart
      unreferenced := by
        intro hne name hold hthere version hversion
        by_contra hrefers
        rw [Bool.not_eq_false] at hrefers
        obtain ⟨files, hfiles⟩ := Option.isSome_iff_exists.mp hthere
        have hname : ¬ (fi.movesDataDir = true ∧ name = fi.dataDir) := fun h =>
          hapart h.1 (h.2 ▸ hold)
        rw [← oldDataDir_eq_some_iff] at hold
        have hentry : (name, files) ∈ outcome.trash :=
          (hcommit.trash _).mpr
            (Or.inr ⟨hne, hold, by rw [installedDir, if_neg hname]; exact hfiles⟩)
        have hkept := hcontract.kept z' hcommit.xlMeta version ((hmem version).mpr hversion)
          (name, files) hentry hrefers
        rw [hcommit.dirs, if_pos ⟨hne, hold⟩] at hkept
        cases hkept }

end

/-- A successful `RenameData` keeps its promise exactly when the replaced null
version does not leave behind a directory that is still needed, the new one
included, and the id has one meaning in the new journal. -/
theorem renameData_contract_iff (s : XlStorage) (src dst : ObjectDir) (fi : FileInfo)
    (hok : (s.renameData src dst fi).err = none) :
    s.RenameContract src fi (s.renameData src dst fi) ↔
      ∃ z dst' uv dd, s.openJournal dst = .ok (z, dst') ∧
        parseVersionID s.uuid fi.versionID = some uv ∧
        parseDataDir s.uuid fi.dataDir = some dd ∧ s.RenameSafe z dst' fi uv dd := by
  obtain ⟨z, dst', z', hopen, hadd, hcommit⟩ := renameData_cases hok
  obtain ⟨uv, dd, hparse, hdir, _, hdata, hcase⟩ := addVersion_cases hadd
  rw [withoutOldData_versions] at hcase
  have hmem : ∀ version, version ∈ z'.versions ↔ version ∈ fi.nextVersions uv dd z.versions :=
    fun version => hcase.mem_iff
  constructor
  · intro hcontract
    exact ⟨z, dst', uv, dd, hopen, hparse, hdir, safe_of_contract hcommit hparse hmem hcontract⟩
  · rintro ⟨z₁, dst₁, uv₁, dd₁, hopen₁, hparse₁, hdir₁, hsafe⟩
    obtain ⟨rfl, rfl⟩ := Prod.mk.inj (Except.ok.inj (hopen.symm.trans hopen₁))
    obtain rfl := Option.some.inj (hparse.symm.trans hparse₁)
    obtain rfl := Option.some.inj (hdir.symm.trans hdir₁)
    refine contract_of_safe hcommit hparse hmem (fun hinlined => ?_) hsafe
    rw [hdata, if_pos hinlined, XlMetaInlineData.find_replace, if_pos rfl]

/-- A drive formatted for `xl.meta`. -/
def plainDrive : XlStorage where
  uuid := .google
  clock := ⟨(0 : Int), fun _ => none⟩
  sorter := DescendingSort.stable _
  formatLegacy := false
  firstEntry := fun _ => none

def nullVersion : FileInfo where
  dataDir := UuidPackage.google.print 7
  modTime := (1 : Int)
  size := 3
  parts := [{ number := 1, size := 3, actualSize := 3 }]
  erasure := { dataBlocks := 2, parityBlocks := 2, index := 1, distribution := [1, 2, 3, 4] }

def shardDir : ObjectDir where
  dirs := (∅ : Std.ExtTreeMap String DataFiles).insert (UuidPackage.google.print 7)
    ((∅ : DataFiles).insert "part.1" [0, 1, 2])

def nullVersionDir : ObjectDir :=
  { shardDir with xlMeta := some (.journal { versions := [nullVersion.toVersion 0 7] }) }

/-- Writing a null version to a drive without the object keeps the promise. -/
theorem nullVersion_first_write :
    plainDrive.RenameContract shardDir nullVersion
      (plainDrive.renameData shardDir {} nullVersion) := by
  refine (renameData_contract_iff plainDrive shardDir {} nullVersion rfl).mpr
    ⟨{}, {}, 0, 7, rfl, rfl, rfl, ?_⟩
  exact
    { readable := by decide
      named := fun version hmem _ _ => by rw [List.mem_singleton.mp hmem]; rfl
      apart := fun _ hold => by cases oldDataDir_eq_some_iff.mpr hold
      unreferenced := fun _ name hold => by cases oldDataDir_eq_some_iff.mpr hold }

/-- Healing the null version on a drive that has it succeeds and leaves the
journal naming a directory that is in the trash. -/
theorem nullVersion_heal_lost :
    (plainDrive.renameData shardDir nullVersionDir nullVersion).err = none ∧
      (plainDrive.renameData shardDir nullVersionDir nullVersion).dst.dirs[nullVersion.dataDir]? =
        none ∧
      ¬ plainDrive.RenameContract shardDir nullVersion
        (plainDrive.renameData shardDir nullVersionDir nullVersion) := by
  have hlost : (plainDrive.renameData shardDir nullVersionDir nullVersion).dst.dirs[
      nullVersion.dataDir]? = none := by decide
  refine ⟨by decide, hlost, fun hcontract => ?_⟩
  have hinstalled := hcontract.installed (by decide)
  rw [hlost] at hinstalled
  exact absurd hinstalled (by decide)

end XlStorage

end Fs3
