import Fs3.Drive.RenameData
import Fs3.Erasure.DeleteObject

/-! # The marker a delete leaves

After a delete without an id the latest version should be a delete marker, with a new id where
versions are kept and with the null id where they no longer are, and every other version should
still be there. -/

namespace Fs3

open Foundation XlMetaV2

/-- A version as a drive holds it: what a lookup reads of it, its inline data,
and the files of its data directory. -/
structure HeldVersion where
  info : FileInfo
  data : Bytes
  files : Option DataFiles

def XlMetaV2.inlineData (z : XlMetaV2) (fi : FileInfo) : Bytes :=
  let data := (z.data.find (normalizeID fi.versionID)).getD []
  if data = [] then (z.data.find fi.dataDir).getD [] else data

namespace XlStorage

variable (s : XlStorage) (volume path : String)

/-- Look a version up on a drive. An `xl.json` is one version, whatever its id. -/
def heldVersion (sorter : DescendingSort XlMetaV2Version.modTime) (dir : ObjectDir)
    (versionID : String) : Except StorageErr HeldVersion :=
  match (s.renameLegacyMetadata dir).xlMeta with
  | some (.journal z) =>
    (z.record s.uuid volume path sorter versionID).map fun fi =>
      { info := fi, data := z.inlineData fi, files := dir.dirs[fi.dataDir]? }
  | some (.legacy m) =>
    (m.toFileInfo volume path).map fun fi =>
      { info := { fi with isLatest := true, xlV1 := true }, data := [], files := some dir.files }
  | _ => .error (if versionID ≠ "" then .errFileVersionNotFound else .errFileNotFound)

def Holds (dir : ObjectDir) (versionID : String) (held : HeldVersion) : Prop :=
  ∃ sorter, s.heldVersion volume path sorter dir versionID = .ok held

/-- A delete has left a delete marker of an id as the latest version, and it has
left the versions of all other ids as they were. -/
structure MarksDeleted (before after : ObjectDir) (uv : UUID) : Prop where
  marked : ∃ z, after.xlMeta = some (.journal z) ∧ z.ReadsAsMarker s.uuid volume path uv
  others : ∀ versionID, versionID ≠ "" → parseVersionID s.uuid versionID ≠ some uv →
    ∀ held, s.Holds volume path before versionID held → s.Holds volume path after versionID held

variable {s volume path} {dir after : ObjectDir} {fi : FileInfo} {forceDelMarker : Bool}
variable {uv : UUID} {z z' : XlMetaV2}

theorem renameLegacyMetadata_of_some {file : MetaFile} (hmeta : dir.xlMeta = some file) :
    s.renameLegacyMetadata dir = dir :=
  if_neg fun h => by simp [hmeta] at h

theorem holds_of_agreeExcept (hmeta : dir.xlMeta = some (.journal z))
    (hmeta' : after.xlMeta = some (.journal z')) (hvalid : z'.AllValid)
    (hagree : AgreeExcept uv z.versions z'.versions) (hdata : z'.data = z.data)
    (hdirs : after.dirs = dir.dirs) {versionID : String} (hne : versionID ≠ "")
    (huuid : parseVersionID s.uuid versionID ≠ some uv) {held : HeldVersion}
    (hheld : s.Holds volume path dir versionID held) :
    s.Holds volume path after versionID held := by
  obtain ⟨sorter, hheld⟩ := hheld
  simp only [heldVersion, renameLegacyMetadata_of_some hmeta, hmeta] at hheld
  cases hrecord : z.record s.uuid volume path sorter versionID with
  | error err =>
    rw [hrecord] at hheld
    cases hheld
  | ok fi =>
    obtain ⟨sorter', hrecord'⟩ := exists_record_of_agreeExcept hvalid hne hagree huuid hrecord
    refine ⟨sorter', ?_⟩
    simp only [heldVersion, renameLegacyMetadata_of_some hmeta', hmeta', hrecord', inlineData,
      hdata, hdirs]
    rw [hrecord] at hheld
    exact hheld

/-- Nothing but versions of the deleted id is new. -/
theorem Deleted.mem_of_uuid_ne (hdone : s.Deleted dir fi forceDelMarker after)
    (hparse : parseVersionID s.uuid fi.versionID = some uv)
    (hjournal : after.xlMeta = some (.journal z')) {version : XlMetaV2Version}
    (hmem : version ∈ z'.versions) (hvalid : version ≠ .invalid) (hne : version.uuid ≠ uv) :
    ∃ z, dir.xlMeta = some (.journal z) ∧ version ∈ z.versions := by
  cases hdone with
  | forced z hmeta hdeleted hforce hadd =>
    cases hjournal
    obtain ⟨uv', dd, hparse', -, -, -, hcase⟩ := addVersion_cases hadd
    rw [hparse] at hparse'
    cases hparse'
    have hnew : version = fi.toVersion uv dd := by
      generalize z'.versions = versions at hcase hmem
      cases hcase with
      | replace before old after hversions hbefore hold =>
        exact absurd hversions (by simp)
      | append hnone => simpa using hmem
    rw [hnew, FileInfo.toVersion_uuid] at hne
    exact absurd rfl hne
  | legacy | last => cases hjournal
  | freed z z'' dataDir versionID hmeta _ hdelete | kept z z'' hmeta hdelete =>
    cases hjournal
    obtain ⟨uv', freed, hparse', -, -, hcase, -⟩ := deleteVersion_cases hdelete
    rw [hparse] at hparse'
    cases hparse'
    exact ⟨z, hmeta, (hcase.agreeExcept version hvalid hne).mp hmem⟩

theorem MarksDeleted.exists_mem (hmarks : s.MarksDeleted volume path dir after uv) :
    ∃ z marker, after.xlMeta = some (.journal z) ∧ .deleteType marker ∈ z.versions ∧
      marker.versionID = uv := by
  obtain ⟨z, hmeta, hreads⟩ := hmarks.marked
  obtain ⟨before, marker, rest, hversions, huuid⟩ := hreads.latestMarker.exists_split
  exact ⟨z, marker, hmeta, by simp [hversions], huuid⟩

/-! ## Where versions are kept -/

/-- When a delete under a new id leaves its marker as the latest version: the
journal is not one of an older kind, the delete is later than every version,
and where there is no journal there is no older object either. -/
structure KeepsVersions (s : XlStorage) (dir : ObjectDir) (modTime : Time) : Prop where
  notLegacy : ∀ m, dir.xlMeta ≠ some (.legacy m)
  later : ∀ z, dir.xlMeta = some (.journal z) → ∀ version ∈ z.versions, version.modTime < modTime
  nothing : dir.xlMeta = none → ∀ m, (s.renameLegacyMetadata dir).xlMeta = some (.legacy m) →
    m.valid = false

theorem deleteEntry_time (hdeleted : fi.deleted = true)
    (hentry : (fi.deleteEntry uv).valid = true) :
    ∃ marker : XlMetaV2DeleteMarker, fi.deleteEntry uv = .deleteType marker ∧
      marker.versionID = uv ∧ (XlMetaV2Version.deleteType marker).valid = true ∧
        Time.ofUnixNano marker.modTime = fi.modTime := by
  rw [FileInfo.deleteEntry, if_pos hdeleted] at hentry ⊢
  exact ⟨_, rfl, rfl, hentry, Time.unixNano_of_pos (of_decide_eq_true hentry)⟩

theorem renameLegacyMetadata_of_none (hmeta : dir.xlMeta = none) :
    (s.renameLegacyMetadata dir).xlMeta = none ∨
      ∃ m, (s.renameLegacyMetadata dir).xlMeta = some (.legacy m) := by
  unfold renameLegacyMetadata
  split
  · cases dir.xlJson with
    | none => exact Or.inl rfl
    | some m => exact Or.inr ⟨m, rfl⟩
  · exact Or.inl hmeta

/-- A forced delete marker is the only version, unless an older object is in
sight. -/
theorem forced_marksDeleted_iff (hmeta : dir.xlMeta = none) (hdeleted : fi.deleted = true)
    (hadd : ({} : XlMetaV2).addVersion s.uuid fi = .ok z)
    (hparse : parseVersionID s.uuid fi.versionID = some uv) (hne : uv ≠ 0) :
    s.MarksDeleted volume path dir { dir with xlMeta := some (.journal z) } uv ↔
      s.KeepsVersions dir fi.modTime := by
  obtain ⟨uv', dd, hparse', -, hvalid, -, hcase⟩ := addVersion_cases hadd
  rw [hparse] at hparse'
  cases hparse'
  have hversions : z.versions = [] ++ [fi.toVersion uv dd] := by
    generalize z.versions = versions at hcase
    cases hcase with
    | replace before old after hversions hbefore hold => exact absurd hversions (by simp)
    | append hnone => rfl
  have hentry : ∃ marker : XlMetaV2DeleteMarker, fi.toVersion uv dd = .deleteType marker ∧
      marker.versionID = uv := by
    rw [FileInfo.toVersion, if_pos hdeleted]
    exact ⟨_, rfl, rfl⟩
  obtain ⟨marker, hmarker, huuid⟩ := hentry
  rw [hmarker] at hversions hvalid
  have hlatest : z.LatestMarker uv := by
    have hnothing : ∀ version ∈ ({} : XlMetaV2).versions, version.uuid ≠ uv := by simp
    rw [latestMarker_append huuid hversions hvalid hnothing]
    simp
  constructor
  · rintro ⟨-, hothers⟩
    refine ⟨by simp [hmeta], by simp [hmeta], fun _ m hlegacy => ?_⟩
    by_contra hm
    rw [Bool.not_eq_false] at hm
    have hbefore : ∃ held,
        s.heldVersion volume path (.stable _) dir nullVersionID = .ok held := by
      rw [heldVersion, hlegacy]
      simp only [XlMetaV1Object.toFileInfo, if_pos hm]
      exact ⟨_, rfl⟩
    obtain ⟨held, hbefore⟩ := hbefore
    obtain ⟨sorter, hheld⟩ := hothers nullVersionID (by decide)
      (fun heq => hne (Option.some.inj heq).symm) held ⟨_, hbefore⟩
    rw [heldVersion, renameLegacyMetadata_of_some rfl] at hheld
    simp only [record] at hheld
    rw [toFileInfo_of_none hlatest.allValid (fun version hmem => ?_) (parseVersionID_null _)
      (by decide)] at hheld
    · cases hheld
    · rw [hversions, List.nil_append, List.mem_singleton] at hmem
      rw [hmem]
      exact beq_eq_false_iff_ne.mpr (huuid ▸ hne)
  · intro hkeeps
    refine ⟨⟨z, rfl, hlatest.readsAsMarker⟩, fun versionID _ _ held hheld => ?_⟩
    obtain ⟨sorter, hheld⟩ := hheld
    unfold heldVersion at hheld
    obtain hnone | ⟨m, hlegacy⟩ := @renameLegacyMetadata_of_none s _ hmeta
    · rw [hnone] at hheld
      cases hheld
    · have hm := hkeeps.nothing hmeta m hlegacy
      rw [hlegacy] at hheld
      simp only [XlMetaV1Object.toFileInfo, hm] at hheld
      cases hheld

/-- A delete under an id that no version has. -/
theorem Deleted.marksDeleted_iff (hdone : s.Deleted dir fi forceDelMarker after)
    (hparse : parseVersionID s.uuid fi.versionID = some uv) (hne : uv ≠ 0)
    (hdeleted : fi.deleted = true)
    (hunused : ∀ z, dir.xlMeta = some (.journal z) → ∀ version ∈ z.versions, version.uuid ≠ uv) :
    s.MarksDeleted volume path dir after uv ↔ s.KeepsVersions dir fi.modTime := by
  cases hdone with
  | forced z hmeta hdel hforce hadd =>
    exact forced_marksDeleted_iff hmeta hdeleted hadd hparse hne
  | legacy m hmeta =>
    constructor
    · rintro ⟨⟨z, hjournal, -⟩, -⟩
      cases hjournal
    · exact fun hkeeps => absurd hmeta (hkeeps.notLegacy m)
  | last z z' dataDir hmeta hdelete =>
    obtain ⟨-, -, -, hlast, -⟩ :=
      deleteVersion_of_unused hdelete hparse hdeleted (hunused z hmeta)
    cases hlast
  | freed z z' dataDir versionID hmeta hdir hdelete =>
    obtain ⟨-, -, hempty, -⟩ :=
      deleteVersion_of_unused hdelete hparse hdeleted (hunused z hmeta)
    exact absurd hempty hdir
  | kept z z' hmeta hdelete =>
    obtain ⟨hvalid, rfl, -, -, hentry⟩ :=
      deleteVersion_of_unused hdelete hparse hdeleted (hunused z hmeta)
    obtain ⟨marker, hmarker, huuid, hmarkerValid, htime⟩ := deleteEntry_time hdeleted hentry
    have hlatest : ({ z with versions := z.versions ++ [fi.deleteEntry uv] } :
        XlMetaV2).LatestMarker uv ↔ ∀ version ∈ z.versions,
          version.valid = true ∧ version.modTime < fi.modTime := by
      rw [hmarker, latestMarker_append huuid rfl hmarkerValid (hunused z hmeta), htime]
    constructor
    · rintro ⟨⟨z', hjournal, hreads⟩, -⟩
      cases hjournal
      refine ⟨by simp [hmeta], fun z' hmeta' version hmem => ?_, by simp [hmeta]⟩
      rw [hmeta] at hmeta'
      cases hmeta'
      exact (hlatest.mp hreads.latestMarker version hmem).2
    · intro hkeeps
      have hmarked := hlatest.mpr fun version hmem =>
        ⟨hvalid version hmem, hkeeps.later z hmeta version hmem⟩
      refine ⟨⟨_, rfl, hmarked.readsAsMarker⟩, fun versionID hne huuid held hheld => ?_⟩
      have hagree : AgreeExcept uv z.versions (z.versions ++ [fi.deleteEntry uv]) := by
        refine agreeExcept_append fun version hmem hvalid => ?_
        rw [List.mem_singleton.mp hmem] at hvalid ⊢
        exact deleteEntry_uuid hvalid
      refine holds_of_agreeExcept hmeta ?_ hmarked.allValid hagree rfl ?_ hne huuid hheld
      · rfl
      · rfl

/-! ## Where versions are suspended -/

/-- When a delete that adds no marker leaves one as the latest version: the
marker is there already, and the delete only marks it or drops another one in
front of it. -/
def HasMarker (dir : ObjectDir) (fi : FileInfo) (uv : UUID) : Prop :=
  ∃ z, dir.xlMeta = some (.journal z) ∧
    if fi.updateVersion then z.LatestMarker uv
    else ¬ (fi.markDeleted = true ∧ fi.versionPurgeStatus ≠ purgeComplete) ∧
      z.LatestMarkerBehind uv

/-- A delete that adds no marker. -/
theorem Deleted.marksDeleted_iff_hasMarker (hdone : s.Deleted dir fi forceDelMarker after)
    (hparse : parseVersionID s.uuid fi.versionID = some uv) (hdeleted : fi.deleted = false) :
    s.MarksDeleted volume path dir after uv ↔ HasMarker dir fi uv := by
  cases hdone with
  | forced z hmeta hdel hforce hadd =>
    rw [hdeleted] at hdel
    cases hdel
  | legacy m hmeta =>
    constructor
    · rintro ⟨⟨z, hjournal, -⟩, -⟩
      cases hjournal
    · rintro ⟨z, hjournal, -⟩
      rw [hmeta] at hjournal
      cases hjournal
  | last z z' dataDir hmeta hdelete =>
    constructor
    · rintro ⟨⟨z, hjournal, -⟩, -⟩
      cases hjournal
    · rintro ⟨z₀, hjournal, hhas⟩
      rw [hmeta] at hjournal
      cases hjournal
      obtain ⟨uv', freed, hparse', -, -, hcase, -, hlast⟩ := deleteVersion_cases hdelete
      rw [hparse] at hparse'
      cases hparse'
      obtain ⟨before, marker, rest, hversions, -⟩ :=
        ((hcase.latestMarker_iff hdeleted).mpr hhas).exists_split
      rw [hversions] at hlast
      simp at hlast
  | freed z z' dataDir versionID hmeta hdir hdelete =>
    obtain ⟨uv', freed, hparse', -, -, hcase, hfreed, -⟩ := deleteVersion_cases hdelete
    rw [hparse] at hparse'
    cases hparse'
    have hnot : ¬ z'.LatestMarker uv := by
      cases freed with
      | none => exact absurd hfreed hdir
      | some object => exact hcase.not_latestMarker_of_freed hdeleted
    constructor
    · rintro ⟨⟨z₀, hjournal, hreads⟩, -⟩
      cases hjournal
      exact absurd ⟨hreads.latestMarker.allValid, hreads.latestMarker.marker⟩ hnot
    · rintro ⟨z₀, hjournal, hhas⟩
      rw [hmeta] at hjournal
      cases hjournal
      exact absurd ((hcase.latestMarker_iff hdeleted).mpr hhas) hnot
  | kept z z' hmeta hdelete =>
    obtain ⟨uv', freed, hparse', -, hdata, hcase, -⟩ := deleteVersion_cases hdelete
    rw [hparse] at hparse'
    cases hparse'
    constructor
    · rintro ⟨⟨z₀, hjournal, hreads⟩, -⟩
      cases hjournal
      exact ⟨z, hmeta, (hcase.latestMarker_iff hdeleted).mp hreads.latestMarker⟩
    · rintro ⟨z₀, hjournal, hhas⟩
      rw [hmeta] at hjournal
      cases hjournal
      have hlatest := (hcase.latestMarker_iff hdeleted).mpr hhas
      refine ⟨⟨z', rfl, hlatest.readsAsMarker⟩, fun versionID hne huuid held hheld => ?_⟩
      refine holds_of_agreeExcept hmeta ?_ hlatest.allValid hcase.agreeExcept hdata ?_ hne huuid
        hheld
      · rfl
      · rfl

end XlStorage

def Unused (uv : UUID) (disks : List (Option ObjectDir)) : Prop :=
  ∀ dir, some dir ∈ disks → ∀ z, dir.xlMeta = some (.journal z) →
    ∀ version ∈ z.versions, version.uuid ≠ uv

/-- Every drive that has applied a delete holds its marker, under one new id
where versions are kept and under the null id where they are suspended. -/
def LeavesMarkers (s : XlStorage) (volume path : String) (opts : DeleteOptions)
    (disks : List (Option ObjectDir)) (outcome : DeleteObjectOutcome) : Prop :=
  ∃ uv, (if opts.versioned then uv ≠ 0 ∧ Unused uv disks else uv = 0) ∧
    ∀ (i : Nat) (before : ObjectDir) (applied : DeleteOutcome), disks[i]? = some (some before) →
      outcome.drives[i]? = some (some applied) → applied.err = none →
        s.MarksDeleted volume path before applied.dir uv

namespace ErasureObjects

variable (er : ErasureObjects)

def deleteTime (opts : DeleteOptions) (call : DeleteCall) : Time :=
  if opts.mTime.isZero then call.now else opts.mTime

/-- Whether a delete in a bucket with suspended versions only sets the statuses
of the null version. -/
def SetsStatus (opts : DeleteOptions) (found : Bool) : Prop :=
  if opts.versionPurgeStatus = "" then
    found = true ∧ (opts.deleteMarkerReplicationStatus = "REPLICA" ∨
      opts.deleteMarkerReplicationStatus = "")
  else opts.versionPurgeStatus ≠ purgeComplete

/-- Whether such a delete drops the null version and puts nothing in its place. -/
def OnlyDrops (opts : DeleteOptions) (found : Bool) : Prop :=
  opts.versionPurgeStatus = purgeComplete ∨ opts.versionPurgeStatus = "" ∧ found = false

def MarkerSafe (s : XlStorage) (opts : DeleteOptions) (call : DeleteCall) (dir : ObjectDir) :
    Prop :=
  let found := (er.getObjectInfo opts call.look).1.isSome
  if opts.versioned then found = true ∧ s.KeepsVersions dir (deleteTime opts call)
  else ∃ z, dir.xlMeta = some (.journal z) ∧
    (SetsStatus opts found ∧ z.LatestMarker 0 ∨ OnlyDrops opts found ∧ z.LatestMarkerBehind 0)

variable {er} {s : XlStorage} {disks : List (Option ObjectDir)} {opts : DeleteOptions}
variable {call : DeleteCall} {volume path : String}

theorem markDelete_eq_isSome (hversion : opts.versionID = "")
    (hversioning : opts.versioning ≠ .unversioned) :
    markDelete opts (er.getObjectInfo opts call.look).1 =
      (er.getObjectInfo opts call.look).1.isSome := by
  have hid : ∀ fi : FileInfo, ((fi.toObjectInfo opts.versioning).versionID != "") = true := by
    intro fi
    unfold FileInfo.toObjectInfo
    split
    · rfl
    next hnot =>
      rw [bne_iff_ne]
      exact fun hempty => hnot ⟨hversioning, hempty⟩
  rw [markDelete, if_neg (by simp [hversion])]
  unfold getObjectInfo
  cases call.look with
  | error err => rfl
  | ok answers =>
    simp only
    cases er.getObjectFileInfo opts answers with
    | error err => rfl
    | ok fi =>
      have hfi := hid fi
      simp only
      split
      · exact hfi
      · split
        · split
          · exact hfi
          · exact hfi
        · exact hfi

section

variable (uuid : UuidPackage) (hversion : opts.versionID = "")
include uuid hversion

theorem parse_deleteRequest (hversioned : opts.versioned = true) {goi : Option ObjectInfo}
    (hmark : markDelete opts goi = true) :
    parseVersionID uuid (deleteRequest uuid opts call goi).versionID = some call.fresh := by
  have hid : (deleteRequest uuid opts call goi).versionID = uuid.print call.fresh := by
    change requestID uuid opts goi call.fresh = _
    rw [requestID, if_pos (by simp [marksVersion, hmark, hversioned, hversion])]
  rw [hid, parseVersionID, if_neg, uuid.parse_print]
  rintro (hempty | hnull)
  · exact uuid.print_ne_empty _ hempty
  · exact uuid.print_ne_null _ hnull

theorem parse_deleteRequest_null {goi : Option ObjectInfo}
    (hmark : (markDelete opts goi && opts.versioned) = false) :
    parseVersionID uuid (deleteRequest uuid opts call goi).versionID = some 0 := by
  have hid : (deleteRequest uuid opts call goi).versionID = "" := by
    change requestID uuid opts goi call.fresh = _
    unfold requestID
    split
    next hfresh =>
      simp only [marksVersion, Bool.and_eq_true] at hfresh
      rw [hfresh.1.1.1, hfresh.1.2] at hmark
      cases hmark
    · split
      · rfl
      · exact hversion
  rw [hid, parseVersionID_empty]

theorem deleteRequest_deleted (goi : Option ObjectInfo) :
    (deleteRequest uuid opts call goi).deleted = opts.versioned :=
  if_neg fun h => h.1 hversion

theorem updateVersion_iff (hversioned : opts.versioned = false) {goi : Option ObjectInfo}
    (hmark : markDelete opts goi = goi.isSome) :
    (deleteRequest uuid opts call goi).updateVersion = true ↔ SetsStatus opts goi.isSome := by
  have hdeleted := @deleteRequest_deleted opts call uuid hversion goi
  rw [hversioned] at hdeleted
  have hmarked : (deleteRequest uuid opts call goi).markDeleted = goi.isSome := hmark
  have hpurge : (deleteRequest uuid opts call goi).versionPurgeStatus =
    opts.versionPurgeStatus := rfl
  have hstatus : (deleteRequest uuid opts call goi).deleteMarkerReplicationStatus =
    opts.deleteMarkerReplicationStatus := rfl
  rw [FileInfo.updateVersion, hdeleted, hmarked, hpurge, hstatus]
  unfold SetsStatus
  by_cases hempty : opts.versionPurgeStatus = ""
  · rw [if_pos hempty]
    split
    next hplain => simp [hplain.2]
    next hreplica =>
      have hnot : ¬ (opts.deleteMarkerReplicationStatus = "REPLICA" ∨
          opts.deleteMarkerReplicationStatus = "") := fun h => hreplica ⟨hempty, h⟩
      simp [hempty, hnot]
  · rw [if_neg hempty, if_neg fun h => hempty h.1]
    simp [hempty]

/-- The two ways a delete that adds no marker can leave one. -/
theorem hasMarker_iff (hversioned : opts.versioned = false) {goi : Option ObjectInfo}
    (hmark : markDelete opts goi = goi.isSome) {dir : ObjectDir} :
    XlStorage.HasMarker dir (deleteRequest uuid opts call goi) 0 ↔
      ∃ z, dir.xlMeta = some (.journal z) ∧
        (SetsStatus opts goi.isSome ∧ z.LatestMarker 0 ∨
          OnlyDrops opts goi.isSome ∧ z.LatestMarkerBehind 0) := by
  have hupdate := @updateVersion_iff opts call uuid hversion hversioned goi hmark
  have hkeeps : ¬ SetsStatus opts goi.isSome →
      (¬ (goi.isSome = true ∧ opts.versionPurgeStatus ≠ purgeComplete) ↔
        OnlyDrops opts goi.isSome) := by
    intro hnot
    have hplain : opts.versionPurgeStatus ≠ purgeComplete → opts.versionPurgeStatus = "" := by
      intro hcomplete
      by_contra hempty
      exact hnot (by rw [SetsStatus, if_neg hempty]; exact hcomplete)
    unfold OnlyDrops
    cases goi.isSome with
    | true => simp
    | false =>
      simp only [Bool.false_eq_true, false_and, not_false_eq_true, true_iff, and_true]
      exact or_iff_not_imp_left.mpr hplain
  have hdrops : OnlyDrops opts goi.isSome → ¬ SetsStatus opts goi.isSome := by
    rintro (hcomplete | ⟨hempty, hnone⟩) hsets
    · rw [SetsStatus, hcomplete, if_neg (by decide)] at hsets
      exact hsets rfl
    · rw [SetsStatus, if_pos hempty, hnone] at hsets
      cases hsets.1
  have hmarked : (deleteRequest uuid opts call goi).markDeleted = goi.isSome := hmark
  have hpurge : (deleteRequest uuid opts call goi).versionPurgeStatus =
    opts.versionPurgeStatus := rfl
  unfold XlStorage.HasMarker
  refine exists_congr fun z => and_congr_right fun _ => ?_
  split
  next hyes =>
    have hsets := hupdate.mp hyes
    constructor
    · exact fun hlatest => Or.inl ⟨hsets, hlatest⟩
    · rintro (⟨-, hlatest⟩ | ⟨honly, -⟩)
      · exact hlatest
      · exact absurd hsets (hdrops honly)
  next hno =>
    have hsets : ¬ SetsStatus opts goi.isSome := fun h => hno (hupdate.mpr h)
    rw [hmarked, hpurge, hkeeps hsets]
    constructor
    · exact Or.inr
    · rintro (⟨h, -⟩ | hbehind)
      · exact absurd h hsets
      · exact hbehind

end

/-- A delete without an id leaves its marker on a drive exactly when the drive
is in one of the states that it is made for. -/
theorem leavesMarkers_iff (hversion : opts.versionID = "") (hfront : opts.deletePrefix = false)
    (hversioning : opts.versioning ≠ .unversioned) (hfresh : call.fresh ≠ 0)
    (hunused : Unused call.fresh disks) (hok : (er.deleteObject s disks opts call).err = none) :
    LeavesMarkers s volume path opts disks (er.deleteObject s disks opts call) ↔
      ∀ (i : Nat) (before : ObjectDir) (applied : DeleteOutcome), disks[i]? = some (some before) →
        (er.deleteObject s disks opts call).drives[i]? = some (some applied) →
          applied.err = none → er.MarkerSafe s opts call before := by
  have hdrives := er.drives_of_deleteObject hfront hok
  have hmark := @markDelete_eq_isSome er opts call hversion hversioning
  unfold MarkerSafe
  generalize (er.getObjectInfo opts call.look).1 = goi at hdrives hmark ⊢
  have hdone : ∀ (i : Nat) (before : ObjectDir) (applied : DeleteOutcome),
      disks[i]? = some (some before) →
      (er.deleteObject s disks opts call).drives[i]? = some (some applied) → applied.err = none →
        s.Deleted before (deleteRequest s.uuid opts call goi) opts.deleteMarker applied.dir := by
    intro i before applied hdisk hdrive happlied
    rw [hdrives, List.getElem?_map, hdisk] at hdrive
    cases hdrive
    exact XlStorage.deleteVersion_deleted happlied
  have hdeleted := @deleteRequest_deleted opts call s.uuid hversion goi
  cases hversioned : opts.versioned with
  | false =>
    rw [hversioned] at hdeleted
    have hparse := @parse_deleteRequest_null opts call s.uuid hversion goi (by simp [hversioned])
    have hmarker := @hasMarker_iff opts call s.uuid hversion hversioned goi hmark
    simp only [LeavesMarkers, hversioned, Bool.false_eq_true, if_false]
    constructor
    · rintro ⟨uv, rfl, hall⟩ i before applied hdisk hdrive happlied
      have hdrive' := hdone i before applied hdisk hdrive happlied
      exact hmarker.mp ((hdrive'.marksDeleted_iff_hasMarker hparse hdeleted).mp
        (hall i before applied hdisk hdrive happlied))
    · refine fun hall => ⟨0, rfl, fun i before applied hdisk hdrive happlied => ?_⟩
      have hdrive' := hdone i before applied hdisk hdrive happlied
      exact (hdrive'.marksDeleted_iff_hasMarker hparse hdeleted).mpr
        (hmarker.mpr (hall i before applied hdisk hdrive happlied))
  | true =>
    rw [hversioned] at hdeleted
    simp only [LeavesMarkers, hversioned, if_true]
    cases hfound : goi.isSome with
    | true =>
      have hparse := @parse_deleteRequest opts call s.uuid hversion hversioned goi
        (hmark.trans hfound)
      have hdrive : ∀ (i : Nat) (before : ObjectDir) (applied : DeleteOutcome),
          disks[i]? = some (some before) →
          (er.deleteObject s disks opts call).drives[i]? = some (some applied) →
          applied.err = none →
            (s.MarksDeleted volume path before applied.dir call.fresh ↔
              s.KeepsVersions before (deleteTime opts call)) :=
        fun i before applied hdisk hdrive happlied =>
          (hdone i before applied hdisk hdrive happlied).marksDeleted_iff hparse hfresh
            hdeleted (hunused before (List.mem_of_getElem? hdisk))
      constructor
      · rintro ⟨uv, ⟨hne, hfreshUv⟩, hall⟩ i before applied hdisk hdrive' happlied
        have hmarks := hall i before applied hdisk hdrive' happlied
        obtain ⟨z', marker, hjournal, hmem, hid⟩ := hmarks.exists_mem
        obtain rfl : uv = call.fresh := by
          by_contra hother
          obtain ⟨z, hmeta, hin⟩ :=
            (hdone i before applied hdisk hdrive' happlied).mem_of_uuid_ne
            hparse hjournal hmem (by simp) fun heq => hother (hid.symm.trans heq)
          exact hfreshUv before (List.mem_of_getElem? hdisk) z hmeta _ hin hid
        exact ⟨rfl, (hdrive i before applied hdisk hdrive' happlied).mp hmarks⟩
      · refine fun hall => ⟨call.fresh, ⟨hfresh, hunused⟩,
          fun i before applied hdisk hdrive' happlied => ?_⟩
        exact (hdrive i before applied hdisk hdrive' happlied).mpr
          (hall i before applied hdisk hdrive' happlied).2
    | false =>
      have hparse := @parse_deleteRequest_null opts call s.uuid hversion goi
        (by rw [hmark, hfound]; rfl)
      constructor
      · rintro ⟨uv, ⟨hne, hfreshUv⟩, hall⟩ i before applied hdisk hdrive' happlied
        have hmarks := hall i before applied hdisk hdrive' happlied
        obtain ⟨z', marker, hjournal, hmem, hid⟩ := hmarks.exists_mem
        obtain ⟨z, hmeta, hin⟩ := (hdone i before applied hdisk hdrive' happlied).mem_of_uuid_ne
          hparse hjournal hmem (by simp) fun heq => hne (hid.symm.trans heq)
        exact (hfreshUv before (List.mem_of_getElem? hdisk) z hmeta _ hin hid).elim
      · refine fun hall => ⟨call.fresh, ⟨hfresh, hunused⟩,
          fun i before applied hdisk hdrive' happlied => ?_⟩
        cases (hall i before applied hdisk hdrive' happlied).1

def plainSet : ErasureObjects where
  clock := epochClock
  orders := ⟨.visitFirst 1, .visitFirst "", .visitFirst none, .visitFirst ""⟩
  hash := ⟨fun _ => "hash", fun _ => by decide⟩
  sCfg := {}
  defaultParityCount := 2

def foundCall : DeleteCall where
  object := "object"
  look := .ok (List.replicate 4 (.ok XlStorage.nullVersion))
  now := (2 : Int)
  fresh := 9

def nullVersionDisks : List (Option ObjectDir) := List.replicate 4 (some XlStorage.nullVersionDir)

theorem eq_nullVersionDir {i : Nat} {before : ObjectDir}
    (hdisk : nullVersionDisks[i]? = some (some before)) : before = XlStorage.nullVersionDir :=
  Option.some.inj (List.eq_of_mem_replicate (List.mem_of_getElem? hdisk))

/-- Where versions are kept, the null version gets a delete marker over it. -/
theorem nullVersion_marked :
    LeavesMarkers XlStorage.plainDrive "" "" { versioning := .enabled } nullVersionDisks
      (plainSet.deleteObject XlStorage.plainDrive nullVersionDisks { versioning := .enabled }
        foundCall) := by
  refine (@leavesMarkers_iff plainSet XlStorage.plainDrive nullVersionDisks
    { versioning := .enabled } foundCall "" "" rfl rfl (by decide) (by decide) ?_
    (by decide)).mpr ?_
  · intro dir hmem z hmeta version hversion
    rw [Option.some.inj (List.eq_of_mem_replicate hmem)] at hmeta
    cases hmeta
    rw [List.mem_singleton.mp hversion]
    decide
  · intro i before applied hdisk _ _
    rw [eq_nullVersionDir hdisk]
    have hkeeps : XlStorage.plainDrive.KeepsVersions XlStorage.nullVersionDir (2 : Int) :=
      { notLegacy := fun m hmeta => by cases hmeta
        later := fun z hmeta version hversion => by
          cases hmeta
          rw [List.mem_singleton.mp hversion]
          decide
        nothing := fun hmeta => by cases hmeta }
    exact ⟨by decide, hkeeps⟩

/-- Where versions are suspended, a delete of a null version succeeds on all
drives and leaves no delete marker: the object can still be read. -/
theorem nullVersion_unmarked :
    (plainSet.deleteObject XlStorage.plainDrive nullVersionDisks { versioning := .suspended }
        foundCall).err = none ∧
      ¬ LeavesMarkers XlStorage.plainDrive "" "" { versioning := .suspended } nullVersionDisks
        (plainSet.deleteObject XlStorage.plainDrive nullVersionDisks { versioning := .suspended }
          foundCall) := by
  have hok : (plainSet.deleteObject XlStorage.plainDrive nullVersionDisks
      { versioning := .suspended } foundCall).err = none := by decide
  refine ⟨hok, ?_⟩
  rintro ⟨uv, rfl, hall⟩
  have hdrives := plainSet.drives_of_deleteObject rfl hok
  have hmarks := hall 0 XlStorage.nullVersionDir _ rfl (by rw [hdrives]; rfl) (by decide)
  have hdone := @XlStorage.deleteVersion_deleted XlStorage.plainDrive XlStorage.nullVersionDir
    (deleteRequest .google { versioning := .suspended } foundCall
      (plainSet.getObjectInfo { versioning := .suspended } foundCall.look).1) false (by decide)
  obtain ⟨z, hmeta, hhas⟩ := (hdone.marksDeleted_iff_hasMarker rfl rfl).mp hmarks
  cases hmeta
  rw [if_pos (by decide)] at hhas
  have hobject := hhas.not_isObjectOf List.mem_cons_self
  cases hobject

end ErasureObjects

end Fs3
