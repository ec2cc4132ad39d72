import Fs3.Drive.ObjectDir
import Fs3.Journal.ListVersions

/-! # A journal that can be listed after a delete

A delete keeps every entry of a journal readable, and leaves no journal without entries on the
drive, unless it exchanges a delete marker for an entry with no type. -/

namespace Fs3

open Foundation

/-- A request that exchanges a delete marker for an entry with no type. -/
structure FileInfo.MarksBare (fi : FileInfo) : Prop where
  markDeleted : fi.markDeleted = true
  not_deleted : fi.deleted = false
  versionPurgeStatus : fi.versionPurgeStatus = ""
  ne_empty : fi.deleteMarkerReplicationStatus ≠ ""
  ne_replica : fi.deleteMarkerReplicationStatus ≠ "REPLICA"

theorem FileInfo.marksBare_iff {fi : FileInfo} :
    fi.MarksBare ↔ fi.deleted = false ∧ fi.updateVersion = false ∧ fi.markDeleted = true ∧
      fi.versionPurgeStatus ≠ purgeComplete := by
  constructor
  · rintro ⟨hmark, hdeleted, hpurge, hempty, hreplica⟩
    refine ⟨hdeleted, ?_, hmark, by rw [hpurge]; decide⟩
    rw [FileInfo.updateVersion, if_neg fun h => h.2.elim hreplica hempty, hdeleted, hpurge]
    rfl
  · rintro ⟨hdeleted, hupdate, hmark, hpurge⟩
    rw [FileInfo.updateVersion] at hupdate
    split at hupdate
    next =>
      rw [hmark] at hupdate
      cases hupdate
    next hstatus =>
      have hempty : fi.versionPurgeStatus = "" := by
        simpa [hdeleted, hpurge] using hupdate
      exact ⟨hmark, hdeleted, hempty, fun h => hstatus ⟨hempty, Or.inr h⟩,
        fun h => hstatus ⟨hempty, Or.inl h⟩⟩

theorem FileInfo.valid_of_mem_keptObject {fi : FileInfo} {object : XlMetaV2Object}
    {version : XlMetaV2Version} (hvalid : (XlMetaV2Version.objectType object).valid = true)
    (hmem : version ∈ fi.keptObject object) : version.valid = true := by
  rw [FileInfo.keptObject] at hmem
  split at hmem
  · rw [List.mem_singleton.mp hmem]
    exact hvalid
  · split at hmem
    · rw [List.mem_singleton.mp hmem]
      exact hvalid
    · cases hmem

section Journals

variable {fi : FileInfo} {uv : UUID} {versions versions' : List XlMetaV2Version}
variable {freed : Option XlMetaV2Object}

/-- A delete keeps every entry readable, but for a delete marker that is
exchanged for an entry with no type. -/
theorem DeleteCase.allValid (hcase : DeleteCase fi uv versions versions' freed)
    (hvalid : ∀ version ∈ versions, version.valid = true)
    (hentry : fi.deleted = true → (fi.deleteEntry uv).valid = true)
    (hbare : fi.MarksBare → ∀ version ∈ versions, version.isMarkerOf uv = false) :
    ∀ version ∈ versions', version.valid = true := by
  intro version hmem
  cases hcase with
  | markMarker before marker after hversions hbefore huuid hupdate =>
    rw [hversions] at hvalid
    have hmarker := hvalid (.deleteType marker) (by simp)
    have hmarked : (XlMetaV2Version.deleteType (marker.mark fi)).valid = true := hmarker
    exact forall_mem_replaced hvalid hmarked version hmem
  | markObject before object after hversions hbefore huuid hupdate =>
    rw [hversions] at hvalid
    have hobject := hvalid (.objectType object) (by simp)
    have hmarked : (XlMetaV2Version.objectType (object.mark fi)).valid = true := hobject
    exact forall_mem_replaced hvalid hmarked version hmem
  | dropMarker before marker after hversions hbefore huuid hupdate =>
    rw [hversions] at hvalid
    rw [← List.append_assoc] at hmem
    rcases List.mem_append.mp hmem with hold | hadded
    · exact hvalid version
        ((List.Sublist.append_left (List.sublist_cons_self _ _) _).subset hold)
    · split at hadded
      next hmark =>
        rw [List.mem_singleton.mp hadded]
        cases hdeleted : fi.deleted with
        | true => exact hentry hdeleted
        | false =>
          have hmarker := hbare (FileInfo.marksBare_iff.mpr ⟨hdeleted, hupdate, hmark⟩)
            (.deleteType marker) (by simp [hversions])
          simp [XlMetaV2Version.isMarkerOf, huuid] at hmarker
      next => cases hadded
  | dropObject before object after hversions hmarkers hbefore huuid hupdate =>
    rw [hversions] at hvalid
    have hobject := hvalid (.objectType object) (by simp)
    rcases List.mem_append.mp hmem with h | h
    · exact hvalid version (List.mem_append_left _ h)
    · rw [appendEntry] at h
      have hrest : version ∈ fi.keptObject object ++ after → version.valid = true := by
        intro hmem
        rcases List.mem_append.mp hmem with hkept | hafter
        · exact FileInfo.valid_of_mem_keptObject hobject hkept
        · exact hvalid version (List.mem_append_right _ (List.mem_cons_of_mem _ hafter))
      split at h
      next hdeleted =>
        rcases List.mem_append.mp h with h | h
        · exact hrest h
        · rw [List.mem_singleton.mp h]
          exact hentry hdeleted
      next => exact hrest h
  | addMarker hversions hdeleted =>
    rcases List.mem_append.mp hmem with h | h
    · exact hvalid version h
    · rw [List.mem_singleton.mp h]
      exact hentry hdeleted

end Journals

namespace XlMetaV2

variable {uuid : UuidPackage} {z z' : XlMetaV2} {fi : FileInfo}

/-- A journal that a listing reads to the end. -/
structure Listable (z : XlMetaV2) : Prop where
  allValid : z.AllValid
  ne_nil : z.versions ≠ []
  lists : ∀ uuid volume path sorter, ∃ listed modTime,
    z.listVersions uuid volume path sorter = .ok (listed, modTime) ∧
      listed.length = z.versions.length

theorem listable_of_valid (hvalid : z.AllValid) (hne : z.versions ≠ []) : z.Listable := by
  refine ⟨hvalid, hne, fun uuid volume path sorter => ?_⟩
  have hlength : (numberVersions (sorter.sort (z.versions.map
      (XlMetaV2Version.fileInfo uuid volume path)))).length = z.versions.length := by
    rw [numberVersions, List.length_mapIdx, sorter.length_sort, List.length_map]
  rw [listVersions, convertVersions_of_valid hvalid]
  dsimp only
  cases hlisted : numberVersions (sorter.sort (z.versions.map
      (XlMetaV2Version.fileInfo uuid volume path))) with
  | nil =>
    rw [hlisted] at hlength
    exact absurd (List.length_eq_zero_iff.mp hlength.symm) hne
  | cons latest rest => exact ⟨_, _, rfl, hlisted ▸ hlength⟩

/-- A request that exchanges a delete marker leaves an entry with no type. -/
theorem exists_deleteVersion_bare (clock : Clock) (hvalid : z.AllValid) (hbare : fi.MarksBare)
    {uv : UUID}
    (hparse : parseVersionID uuid fi.versionID = some uv)
    (hmarker : ∃ version ∈ z.versions, version.isMarkerOf uv = true) :
    ∃ z' dataDir lastVersion, z.deleteVersion uuid clock fi = .ok (z', dataDir, lastVersion) ∧
      ¬ z'.AllValid := by
  obtain ⟨hdeleted, hupdate, hmark, hpurge⟩ := FileInfo.marksBare_iff.mp hbare
  obtain ⟨marked, hmem, hkind⟩ := hmarker
  obtain ⟨⟨z', dataDir, lastVersion⟩, hok⟩ := deleteVersion_isOk clock hvalid hparse
    (fun h => absurd h (by rw [hdeleted]; decide))
    (Or.inr ⟨marked, hmem, by rw [XlMetaV2Version.isNewerOf, hkind]; rfl⟩)
  refine ⟨z', dataDir, lastVersion, hok, fun hvalid' => ?_⟩
  obtain ⟨uv', freed, hparse', -, -, hcase, -, -⟩ := deleteVersion_cases hok
  obtain rfl : uv = uv' := Option.some.inj (hparse.symm.trans hparse')
  generalize hversions' : z'.versions = versions' at hcase
  cases hcase with
  | markMarker _ _ _ _ _ _ hupdate' | markObject _ _ _ _ _ _ hupdate' =>
    rw [hupdate] at hupdate'
    cases hupdate'
  | dropMarker before marker after hversions hbefore huuid _ =>
    rw [if_pos ⟨hmark, hpurge⟩] at hversions'
    have hentry := hvalid' (fi.deleteEntry uv) (by rw [hversions']; simp)
    rw [FileInfo.deleteEntry, if_neg (by rw [hdeleted]; decide)] at hentry
    cases hentry
  | dropObject before object after hversions hmarkers hbefore huuid _ =>
    rw [hmarkers marked hmem] at hkind
    cases hkind
  | addMarker hversions hdeleted' =>
    rw [hdeleted] at hdeleted'
    cases hdeleted'

end XlMetaV2

namespace XlStorage

variable {s : XlStorage} {dir : ObjectDir} {fi : FileInfo} {forceDelMarker : Bool}

/-- What a delete promises: every entry of the journal can be read again, and a
journal that is written back is one that a listing reads to the end. -/
structure StaysListable (s : XlStorage) (dir : ObjectDir) (fi : FileInfo)
    (forceDelMarker : Bool) : Prop where
  valid : ∀ z z' dataDir lastVersion, dir.xlMeta = some (.journal z) →
    z.deleteVersion s.uuid s.clock fi = .ok (z', dataDir, lastVersion) → z'.AllValid
  written : ∀ z', (s.deleteVersion dir fi forceDelMarker).err = none →
    (s.deleteVersion dir fi forceDelMarker).dir.xlMeta = some (.journal z') → z'.Listable

/-- A drive whose journal holds the delete marker that a request exchanges for
an entry with no type. -/
def LosesType (s : XlStorage) (dir : ObjectDir) (fi : FileInfo) : Prop :=
  fi.MarksBare ∧ ∃ z uv, dir.xlMeta = some (.journal z) ∧
    parseVersionID s.uuid fi.versionID = some uv ∧
    ∃ version ∈ z.versions, version.isMarkerOf uv = true

/-- From a drive with a readable journal a delete keeps its promise exactly when
it exchanges no delete marker for an entry with no type. -/
theorem staysListable_iff
    (hvalid : ∀ z, dir.xlMeta = some (.journal z) → z.AllValid) :
    StaysListable s dir fi forceDelMarker ↔ ¬ LosesType s dir fi := by
  constructor
  · rintro hpromise ⟨hbare, z, uv, hmeta, hparse, hmarker⟩
    obtain ⟨z', dataDir, lastVersion, hok, hinvalid⟩ :=
      XlMetaV2.exists_deleteVersion_bare s.clock (hvalid z hmeta) hbare hparse hmarker
    exact hinvalid (hpromise.valid z z' dataDir lastVersion hmeta hok)
  · intro hkeeps
    have hjournal : ∀ z z' dataDir lastVersion, dir.xlMeta = some (.journal z) →
        z.deleteVersion s.uuid s.clock fi = .ok (z', dataDir, lastVersion) →
        z'.AllValid ∧ (lastVersion = false → z'.versions ≠ []) := by
      intro z z' dataDir lastVersion hmeta hok
      obtain ⟨uv, freed, hparse, hentry, -, hcase, -, hlast⟩ := XlMetaV2.deleteVersion_cases hok
      refine ⟨hcase.allValid (hvalid z hmeta) hentry fun hbare version hmem => ?_, ?_⟩
      · by_contra hmarker
        exact hkeeps ⟨hbare, z, uv, hmeta, hparse, version, hmem, by simpa using hmarker⟩
      · rintro hkept hnil
        rw [hlast, hnil] at hkept
        cases hkept
    refine ⟨fun z z' dataDir lastVersion hmeta hok => (hjournal _ _ _ _ hmeta hok).1, ?_⟩
    intro z' herr hmeta'
    have hdeleted := deleteVersion_deleted herr
    generalize (s.deleteVersion dir fi forceDelMarker).dir = dir' at hdeleted hmeta'
    cases hdeleted with
    | forced z hmeta hdeleted hforce hadd =>
      cases hmeta'
      obtain ⟨uv, dd, -, -, hentry, -, hcase⟩ := XlMetaV2.addVersion_cases hadd
      generalize hversions' : z'.versions = versions' at hcase
      cases hcase with
      | replace before old after hversions hbefore hold => simp at hversions
      | append hnone =>
        rw [List.nil_append] at hversions'
        refine XlMetaV2.listable_of_valid (fun version hmem => ?_) ?_
        · rw [hversions', List.mem_singleton] at hmem
          rw [hmem]
          exact hentry
        · rw [hversions']
          exact List.cons_ne_nil _ _
    | legacy m hmeta => cases hmeta'
    | last z z'' dataDir hmeta hdelete => cases hmeta'
    | freed z z'' _ _ hmeta _ hdelete | kept z z'' hmeta hdelete =>
      cases hmeta'
      obtain ⟨hall, hne⟩ := hjournal _ _ _ _ hmeta hdelete
      exact XlMetaV2.listable_of_valid hall (hne rfl)

def markerDrive : XlStorage where
  uuid := .google
  clock := ⟨(0 : Int), fun _ => none⟩
  sorter := DescendingSort.stable _
  formatLegacy := false
  firstEntry := fun _ => none

def markerDir : ObjectDir where
  xlMeta := some (.journal { versions := [.deleteType
    { versionID := 0, modTime := 1, metaSys := ∅ }] })

def pendingMark : FileInfo where
  markDeleted := true
  deleteMarkerReplicationStatus := "PENDING"

theorem markerDir_valid : ∀ z, markerDir.xlMeta = some (.journal z) → z.AllValid := by
  rintro z ⟨⟩
  decide

/-- The drive keeps a journal whose only entry has no type. -/
theorem markerDir_not_staysListable :
    (∀ z, markerDir.xlMeta = some (.journal z) → z.AllValid) ∧
      ¬ StaysListable markerDrive markerDir pendingMark false := by
  refine ⟨markerDir_valid, fun hpromise => ?_⟩
  have hlistable := hpromise.written _ rfl rfl
  exact absurd (hlistable.allValid .invalid (List.mem_singleton.mpr rfl)) (by decide)

/-- The same request with a purge status that is complete drops the marker. -/
theorem markerDir_staysListable :
    StaysListable markerDrive markerDir
      { pendingMark with versionPurgeStatus := purgeComplete } false := by
  refine (staysListable_iff markerDir_valid).mpr ?_
  rintro ⟨hbare, -⟩
  exact absurd hbare.versionPurgeStatus (by decide)

end XlStorage

end Fs3
