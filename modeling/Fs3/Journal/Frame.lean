import Fs3.Journal.Delete

/-! # What an operation leaves alone

Every operation of the journal works on the versions of one uuid. Where one id is held by several
versions of the same modification time a lookup depends on how the sort breaks ties; `Determinate`
excludes that. -/

namespace Fs3

open Foundation

namespace XlMetaV2Version

variable {uuid : UuidPackage} {uv : UUID} {versionID : String}
variable {version : XlMetaV2Version}

theorem uuid_eq_of_answersTo (hparse : parseVersionID uuid versionID = some uv)
    (hanswers : version.answersTo uv versionID = true) : version.uuid = uv := by
  cases version with
  | invalid => cases hanswers
  | objectType object => exact beq_iff_eq.mp hanswers
  | deleteType marker => exact beq_iff_eq.mp hanswers
  | legacyType object =>
    rw [answersTo_legacy.mp hanswers, parseVersionID_null] at hparse
    exact Option.some.inj hparse

theorem valid_of_answersTo (hanswers : version.answersTo uv versionID = true) :
    version ≠ invalid := by
  rintro rfl
  cases hanswers

theorem isNewerOf_iff :
    version.isNewerOf uv = true ↔
      version ≠ invalid ∧ version.isLegacy = false ∧ version.uuid = uv := by
  cases version <;>
    simp [isNewerOf, isMarkerOf, isObjectOf, isLegacy, XlMetaV2Version.uuid]

theorem answersTo_of_isNewerOf (hnewer : version.isNewerOf uv = true) :
    version.answersTo uv versionID = true := by
  cases version with
  | invalid => cases hnewer
  | legacyType => cases hnewer
  | objectType object => simpa [isNewerOf, isMarkerOf, isObjectOf, answersTo] using hnewer
  | deleteType marker => simpa [isNewerOf, isMarkerOf, isObjectOf, answersTo] using hnewer

end XlMetaV2Version

namespace XlMetaV2

variable {uuid : UuidPackage} {volume path : String} {clock : Clock}
variable {sorter : DescendingSort XlMetaV2Version.modTime}
variable {z z' : XlMetaV2} {fi : FileInfo} {uv : UUID}

def AgreeExcept (uv : UUID) (versions versions' : List XlMetaV2Version) : Prop :=
  ∀ version, version ≠ .invalid → version.uuid ≠ uv →
    (version ∈ versions' ↔ version ∈ versions)

theorem agreeExcept_of_middle (before old new after : List XlMetaV2Version)
    (hold : ∀ version ∈ old, version ≠ .invalid → version.uuid = uv)
    (hnew : ∀ version ∈ new, version ≠ .invalid → version.uuid = uv) :
    AgreeExcept uv (before ++ (old ++ after)) (before ++ (new ++ after)) := by
  intro version hvalid huuid
  have hold' : version ∉ old := fun hmem => huuid (hold version hmem hvalid)
  have hnew' : version ∉ new := fun hmem => huuid (hnew version hmem hvalid)
  simp only [List.mem_append, hold', hnew', false_or]

theorem AgreeExcept.trans {versions₁ versions₂ versions₃ : List XlMetaV2Version}
    (hfirst : AgreeExcept uv versions₁ versions₂) (hsecond : AgreeExcept uv versions₂ versions₃) :
    AgreeExcept uv versions₁ versions₃ := fun version hvalid huuid =>
  (hsecond version hvalid huuid).trans (hfirst version hvalid huuid)

theorem agreeExcept_append {versions new : List XlMetaV2Version}
    (hnew : ∀ version ∈ new, version ≠ .invalid → version.uuid = uv) :
    AgreeExcept uv versions (versions ++ new) := by
  have h := agreeExcept_of_middle versions [] new []
    (fun version hmem => by cases hmem) hnew
  simpa using h

def Determinate (uuid : UuidPackage) (volume path : String) (z : XlMetaV2) (uv : UUID)
    (versionID : String) : Prop :=
  ∀ first second, z.Oldest uv versionID first → z.Oldest uv versionID second →
    first.fileInfo uuid volume path = second.fileInfo uuid volume path

theorem determinate_of_unique {versionID : String}
    (hunique : ∀ first ∈ z.versions, ∀ second ∈ z.versions, first.answersTo uv versionID = true →
      second.answersTo uv versionID = true → first = second) :
    z.Determinate uuid volume path uv versionID := by
  intro first second hfirst hsecond
  rw [hunique first hfirst.1 second hsecond.1 hfirst.2.1 hsecond.2.1]

theorem oldest_congr {versionID : String} (hparse : parseVersionID uuid versionID = some uv)
    {uv' : UUID} (hagree : AgreeExcept uv' z.versions z'.versions) (hne : uv ≠ uv')
    {version : XlMetaV2Version} :
    z'.Oldest uv versionID version ↔ z.Oldest uv versionID version := by
  have hmem : ∀ other : XlMetaV2Version, other.answersTo uv versionID = true →
      (other ∈ z'.versions ↔ other ∈ z.versions) := fun other hanswers =>
    hagree other (XlMetaV2Version.valid_of_answersTo hanswers)
      (by rwa [XlMetaV2Version.uuid_eq_of_answersTo hparse hanswers])
  constructor
  · rintro ⟨hin, hanswers, hleast⟩
    exact ⟨(hmem version hanswers).mp hin, hanswers, fun other hother hanswers' =>
      hleast other ((hmem other hanswers').mpr hother) hanswers'⟩
  · rintro ⟨hin, hanswers, hleast⟩
    exact ⟨(hmem version hanswers).mpr hin, hanswers, fun other hother hanswers' =>
      hleast other ((hmem other hanswers').mp hother) hanswers'⟩

/-- A determinate id of another uuid reads the same in both journals. -/
theorem record_congr {versionID : String} (hvalid : z.AllValid) (hvalid' : z'.AllValid)
    (hne : versionID ≠ "") (hagree : AgreeExcept uv z.versions z'.versions)
    (huuid : parseVersionID uuid versionID ≠ some uv)
    (hdeterminate : ∀ uv', parseVersionID uuid versionID = some uv' →
      z.Determinate uuid volume path uv' versionID) :
    z'.record uuid volume path sorter versionID = z.record uuid volume path sorter versionID := by
  cases hparse : parseVersionID uuid versionID with
  | none =>
    rw [record, record, toFileInfo_of_parse_none hparse, toFileInfo_of_parse_none hparse]
  | some uv' =>
    have hother : uv' ≠ uv := fun heq => huuid (by rw [hparse, heq])
    by_cases hsome : ∃ version ∈ z.versions, version.answersTo uv' versionID = true
    · obtain ⟨version, holdest, hrecord⟩ := exists_record volume path sorter
        hvalid hparse hne hsome
      have holdest' := (oldest_congr hparse hagree hother).mpr holdest
      obtain ⟨version', hfound, hrecord'⟩ := exists_record volume path sorter
        hvalid' hparse hne ⟨version, holdest'.1, holdest'.2.1⟩
      rw [hrecord, hrecord', hdeterminate uv' hparse version' version
        ((oldest_congr hparse hagree hother).mp hfound) holdest]
    · have hnone : ∀ version ∈ z.versions, version.answersTo uv' versionID = false := by
        intro version hmem
        by_contra hanswers
        exact hsome ⟨version, hmem, by simpa using hanswers⟩
      have hnone' : ∀ version ∈ z'.versions, version.answersTo uv' versionID = false := by
        intro version hmem
        by_contra hanswers
        rw [Bool.not_eq_false] at hanswers
        refine hsome ⟨version, ?_, hanswers⟩
        exact (hagree version (XlMetaV2Version.valid_of_answersTo hanswers)
          (by rwa [XlMetaV2Version.uuid_eq_of_answersTo hparse hanswers])).mp hmem
      rw [record, record, toFileInfo_of_none hvalid hnone hparse hne,
        toFileInfo_of_none hvalid' hnone' hparse hne]

/-- What a lookup has read of another uuid, it can read from both journals. -/
theorem exists_record_of_agreeExcept {versionID : String} (hvalid' : z'.AllValid)
    (hne : versionID ≠ "") (hagree : AgreeExcept uv z.versions z'.versions)
    (huuid : parseVersionID uuid versionID ≠ some uv)
    (hrecord : z.record uuid volume path sorter versionID = .ok fi) :
    ∃ sorter', z'.record uuid volume path sorter' versionID = .ok fi := by
  have hok : ∃ got, z.toFileInfo uuid volume path sorter versionID = .ok got := by
    unfold record at hrecord
    cases hgot : z.toFileInfo uuid volume path sorter versionID with
    | error err =>
      rw [hgot] at hrecord
      cases hrecord
    | ok got => exact ⟨got, rfl⟩
  obtain ⟨got, hgot⟩ := hok
  have hvalid := allValid_of_toFileInfo hgot
  cases hparse : parseVersionID uuid versionID with
  | none =>
    rw [toFileInfo_of_parse_none hparse] at hgot
    cases hgot
  | some uv' =>
    have hother : uv' ≠ uv := fun heq => huuid (by rw [hparse, heq])
    have hsome : ∃ version ∈ z.versions, version.answersTo uv' versionID = true := by
      by_contra hnone
      rw [toFileInfo_of_none hvalid (fun version hmem => ?_) hparse hne] at hgot
      · cases hgot
      · by_contra hanswers
        rw [Bool.not_eq_false] at hanswers
        exact hnone ⟨version, hmem, hanswers⟩
    obtain ⟨version, holdest, hfound⟩ := exists_record volume path sorter hvalid hparse hne hsome
    rw [hrecord] at hfound
    cases hfound
    exact ⟨_, exists_sorter_record volume path hvalid' hparse hne
      ((oldest_congr hparse hagree hother).mpr holdest)⟩

/-! ## The operations -/

theorem deleteEntry_uuid (hne : fi.deleteEntry uv ≠ .invalid) : (fi.deleteEntry uv).uuid = uv := by
  cases hdeleted : fi.deleted with
  | true => simp [FileInfo.deleteEntry, hdeleted, XlMetaV2Version.uuid]
  | false => simp [FileInfo.deleteEntry, hdeleted] at hne

theorem keptObject_uuid {object : XlMetaV2Object} {version : XlMetaV2Version}
    (hmem : version ∈ fi.keptObject object) : version.uuid = object.versionID := by
  unfold FileInfo.keptObject at hmem
  split at hmem
  · rw [List.mem_singleton.mp hmem]
    rfl
  · split at hmem
    · rw [List.mem_singleton.mp hmem]
      rfl
    · cases hmem

theorem appendEntry_eq (versions : List XlMetaV2Version) :
    appendEntry fi uv versions =
      versions ++ (if fi.deleted then [fi.deleteEntry uv] else []) := by
  unfold appendEntry
  split
  · rfl
  · rw [List.append_nil]

end XlMetaV2

open XlMetaV2

/-- A delete leaves the versions of other uuids alone. -/
theorem DeleteCase.agreeExcept {fi : FileInfo} {uv : UUID}
    {versions versions' : List XlMetaV2Version} {freed : Option XlMetaV2Object}
    (hcase : DeleteCase fi uv versions versions' freed) : AgreeExcept uv versions versions' := by
  have hentry : ∀ version ∈ [fi.deleteEntry uv], version ≠ .invalid → version.uuid = uv := by
    intro version hmem hvalid
    rw [List.mem_singleton.mp hmem] at hvalid ⊢
    exact deleteEntry_uuid hvalid
  cases hcase with
  | markMarker before _ after hversions _ huuid _
  | markObject before _ after hversions _ huuid _ =>
    rw [hversions]
    exact agreeExcept_of_middle before [_] [_] after
      (fun version hmem _ => by rw [List.mem_singleton.mp hmem]; exact huuid)
      (fun version hmem _ => by rw [List.mem_singleton.mp hmem]; exact huuid)
  | dropMarker before marker after hversions hbefore huuid hupdate =>
    rw [hversions, ← List.append_assoc]
    have hdrop : AgreeExcept uv (before ++ .deleteType marker :: after) (before ++ after) :=
      agreeExcept_of_middle before [_] [] after
        (fun version hmem _ => by rw [List.mem_singleton.mp hmem]; exact huuid)
        (fun version hmem _ => by cases hmem)
    refine hdrop.trans (agreeExcept_append fun version hmem hvalid => ?_)
    split at hmem
    · exact hentry version hmem hvalid
    · cases hmem
  | dropObject before object after hversions hmarkers hbefore huuid hupdate =>
    rw [hversions, appendEntry_eq, ← List.append_assoc]
    have hdrop : AgreeExcept uv (before ++ .objectType object :: after)
        (before ++ (fi.keptObject object ++ after)) :=
      agreeExcept_of_middle before [_] _ after
        (fun version hmem _ => by rw [List.mem_singleton.mp hmem]; exact huuid)
        (fun version hmem _ => (keptObject_uuid hmem).trans huuid)
    refine hdrop.trans (agreeExcept_append fun version hmem hvalid => ?_)
    split at hmem
    · exact hentry version hmem hvalid
    · cases hmem
  | addMarker hversions hdeleted => exact agreeExcept_append hentry

theorem PutCase.agreeExcept {uuid : UuidPackage} {uv : UUID} {versionID : String}
    {ventry : XlMetaV2Version} {versions versions' : List XlMetaV2Version}
    (hcase : PutCase uv versionID ventry versions versions')
    (hparse : parseVersionID uuid versionID = some uv) (huuid : ventry.uuid = uv) :
    AgreeExcept uv versions versions' := by
  cases hcase with
  | replace before old after hversions hbefore hold =>
    rw [hversions]
    exact agreeExcept_of_middle before [_] [_] after
      (fun version hmem _ => by
        rw [List.mem_singleton.mp hmem]
        exact XlMetaV2Version.uuid_eq_of_answersTo hparse hold)
      (fun version hmem _ => by rw [List.mem_singleton.mp hmem]; exact huuid)
  | append hnone =>
    exact agreeExcept_append fun version hmem _ => by
      rw [List.mem_singleton.mp hmem]
      exact huuid

end Fs3

/-! ## Deleting one version and nothing else

A plain delete names a version and neither marks it nor puts a delete marker in
its place. It compares ids by uuid only, so a legacy object, which is found by
the text `null`, is out of its reach.
-/

namespace Fs3

open Foundation

/-- A request that only removes the version it names. -/
structure FileInfo.PlainDelete (fi : FileInfo) : Prop where
  deleted : fi.deleted = false
  markDeleted : fi.markDeleted = false
  deleteMarkerReplicationStatus : fi.deleteMarkerReplicationStatus = ""
  versionPurgeStatus : fi.versionPurgeStatus = ""
  expireRestored : fi.expireRestored = false
  transitionStatus : fi.transitionStatus ≠ transitionComplete

namespace FileInfo.PlainDelete

variable {fi : FileInfo}

theorem updateVersion (hplain : fi.PlainDelete) : fi.updateVersion = false := by
  rw [FileInfo.updateVersion, if_pos ⟨hplain.versionPurgeStatus,
    Or.inr hplain.deleteMarkerReplicationStatus⟩, hplain.markDeleted]

theorem keptObject (hplain : fi.PlainDelete) (object : XlMetaV2Object) :
    fi.keptObject object = [] := by
  simp [FileInfo.keptObject, hplain.expireRestored, hplain.transitionStatus]

end FileInfo.PlainDelete

theorem DeleteCase.of_plain {fi : FileInfo} {uv : UUID} {versions versions' : List XlMetaV2Version}
    {freed : Option XlMetaV2Object} (hplain : fi.PlainDelete)
    (hcase : DeleteCase fi uv versions versions' freed) :
    ∃ before version after, versions = before ++ version :: after ∧
      version.isNewerOf uv = true ∧ versions' = before ++ after := by
  cases hcase with
  | markMarker _ _ _ _ _ _ hupdate | markObject _ _ _ _ _ _ hupdate =>
    rw [hplain.updateVersion] at hupdate
    cases hupdate
  | dropMarker before marker after hversions hbefore huuid hupdate =>
    refine ⟨before, .deleteType marker, after, hversions, ?_, ?_⟩
    · simp [XlMetaV2Version.isNewerOf, XlMetaV2Version.isMarkerOf, huuid]
    · simp [hplain.markDeleted]
  | dropObject before object after hversions hmarkers hbefore huuid hupdate =>
    refine ⟨before, .objectType object, after, hversions, ?_, ?_⟩
    · simp [XlMetaV2Version.isNewerOf, XlMetaV2Version.isObjectOf, huuid]
    · rw [hplain.keptObject, List.nil_append, appendEntry, hplain.deleted]
      rfl
  | addMarker hversions hdeleted =>
    rw [hplain.deleted] at hdeleted
    cases hdeleted

namespace XlMetaV2

variable {uuid : UuidPackage} {clock : Clock} {volume path : String} {z : XlMetaV2} {fi : FileInfo}

/-- The delete succeeds, its id is not found afterwards, and every id of another
version reads the same record as before. -/
def DeletesCleanly (uuid : UuidPackage) (clock : Clock) (volume path : String)
    (sorter : DescendingSort XlMetaV2Version.modTime) (z : XlMetaV2) (fi : FileInfo) : Prop :=
  ∃ z' dataDir lastVersion, z.deleteVersion uuid clock fi = .ok (z', dataDir, lastVersion) ∧
    z'.toFileInfo uuid volume path sorter fi.versionID = .error (notFound fi.versionID) ∧
    ∀ other, other ≠ "" → parseVersionID uuid other ≠ parseVersionID uuid fi.versionID →
      z'.record uuid volume path sorter other = z.record uuid volume path sorter other

/-- The id names exactly one version, and that version is not a legacy object. -/
def NamesOneNewer (uuid : UuidPackage) (z : XlMetaV2) (versionID : String) : Prop :=
  ∃ uv version, parseVersionID uuid versionID = some uv ∧
    z.versions.filter (names uv versionID) = [version] ∧ version.isNewerOf uv = true

theorem plainDelete_cases (hplain : fi.PlainDelete) {z' : XlMetaV2} {dataDir : String}
    {lastVersion : Bool} (h : z.deleteVersion uuid clock fi = .ok (z', dataDir, lastVersion)) :
    ∃ uv before version after, parseVersionID uuid fi.versionID = some uv ∧
      z.versions = before ++ version :: after ∧ version.isNewerOf uv = true ∧
      z'.versions = before ++ after ∧ AgreeExcept uv z.versions z'.versions := by
  obtain ⟨uv, freed, hparse, _, _, hcase, _, _⟩ := deleteVersion_cases h
  obtain ⟨before, version, after, hversions, hnewer, hversions'⟩ := hcase.of_plain hplain
  exact ⟨uv, before, version, after, hparse, hversions, hnewer, hversions', hcase.agreeExcept⟩

theorem allValid_of_removed {z' : XlMetaV2} {before after : List XlMetaV2Version}
    {version : XlMetaV2Version} (hvalid : z.AllValid)
    (hversions : z.versions = before ++ version :: after)
    (hversions' : z'.versions = before ++ after) : z'.AllValid := by
  intro other hmem
  rw [hversions', List.mem_append] at hmem
  apply hvalid
  rw [hversions, List.mem_append, List.mem_cons]
  tauto

theorem names_of_isNewerOf {uv : UUID} {versionID : String} {version : XlMetaV2Version}
    (hnewer : version.isNewerOf uv = true) : names uv versionID version = true := by
  rw [names, XlMetaV2Version.answersTo_of_isNewerOf hnewer, Bool.or_true]

/-- Taking out the only version an id names leaves the id without one. -/
theorem deletesCleanly_of_namesOneNewer (hvalid : z.AllValid) (hplain : fi.PlainDelete)
    (hnames : z.NamesOneNewer uuid fi.versionID)
    (hdeterminate : ∀ other uv, other ≠ "" → parseVersionID uuid other = some uv →
      parseVersionID uuid fi.versionID ≠ some uv → z.Determinate uuid volume path uv other)
    (sorter : DescendingSort XlMetaV2Version.modTime) :
    z.DeletesCleanly uuid clock volume path sorter fi := by
  obtain ⟨uv, only, hparse, hfilter, honly⟩ := hnames
  have hmem : only ∈ z.versions := by
    have hin : only ∈ z.versions.filter (names uv fi.versionID) := by simp [hfilter]
    exact (List.mem_filter.mp hin).1
  obtain ⟨⟨z', dataDir, lastVersion⟩, hdelete⟩ := deleteVersion_isOk clock hvalid hparse
    (by simp [hplain.deleted]) (Or.inr ⟨only, hmem, honly⟩)
  obtain ⟨uv', before, version, after, hparse', hversions, hnewer, hversions', hagree⟩ :=
    plainDelete_cases hplain hdelete
  obtain rfl : uv = uv' := Option.some.inj (hparse.symm.trans hparse')
  have hvalid' := allValid_of_removed hvalid hversions hversions'
  refine ⟨z', dataDir, lastVersion, hdelete, ?_, ?_⟩
  · rw [toFileInfo_eq_notFound_iff hvalid' hparse, hversions']
    rw [hversions, List.filter_append, List.filter_cons_of_pos (names_of_isNewerOf hnewer)]
      at hfilter
    have hrest := congrArg List.length hfilter
    simp only [List.length_append, List.length_cons, List.length_nil] at hrest
    have hbefore := List.length_eq_zero_iff.mp (by omega :
      (before.filter (names uv fi.versionID)).length = 0)
    have hafter := List.length_eq_zero_iff.mp (by omega :
      (after.filter (names uv fi.versionID)).length = 0)
    intro other hother
    rcases List.mem_append.mp hother with hother | hother
    · simpa using List.filter_eq_nil_iff.mp hbefore other hother
    · simpa using List.filter_eq_nil_iff.mp hafter other hother
  · intro other hne hother
    rw [hparse] at hother
    exact record_congr hvalid hvalid' hne hagree hother fun uv' hparse' =>
      hdeterminate other uv' hne hparse' fun heq => hother (hparse'.trans (heq.symm.trans hparse))

theorem namesOneNewer_of_deletesCleanly (hvalid : z.AllValid) (hplain : fi.PlainDelete)
    {sorter : DescendingSort XlMetaV2Version.modTime}
    (hclean : z.DeletesCleanly uuid clock volume path sorter fi) :
    z.NamesOneNewer uuid fi.versionID := by
  obtain ⟨z', dataDir, lastVersion, hdelete, hnotFound, _⟩ := hclean
  obtain ⟨uv, before, version, after, hparse, hversions, hnewer, hversions', _⟩ :=
    plainDelete_cases hplain hdelete
  have hvalid' := allValid_of_removed hvalid hversions hversions'
  rw [toFileInfo_eq_notFound_iff hvalid' hparse, hversions'] at hnotFound
  have hnone : (before ++ after).filter (names uv fi.versionID) = [] :=
    List.filter_eq_nil_iff.mpr fun other hother => by simp [hnotFound other hother]
  rw [List.filter_append, List.append_eq_nil_iff] at hnone
  refine ⟨uv, version, hparse, ?_, hnewer⟩
  rw [hversions, List.filter_append, List.filter_cons_of_pos (names_of_isNewerOf hnewer),
    hnone.1, hnone.2, List.nil_append]

/-- Where an id is not determinate, a sort that breaks ties differently before
and after the delete reads two records. -/
theorem determinate_of_deletesCleanly (hvalid : z.AllValid) (hplain : fi.PlainDelete)
    (hclean : ∀ sorter, z.DeletesCleanly uuid clock volume path sorter fi) {other : String}
    {uv' : UUID} (hne : other ≠ "") (hparse' : parseVersionID uuid other = some uv')
    (hother : parseVersionID uuid fi.versionID ≠ some uv') :
    z.Determinate uuid volume path uv' other := by
  intro first second hfirst hsecond
  obtain ⟨z', dataDir, lastVersion, hdelete, _, hsame⟩ := hclean
    (DescendingSort.twoFaced (.putLast _ first) (.putLast _ second) z.versions)
  obtain ⟨uv, before, version, after, hparse, hversions, _, hversions', hagree⟩ :=
    plainDelete_cases hplain hdelete
  have hvalid' := allValid_of_removed hvalid hversions hversions'
  have huuid : uv' ≠ uv := fun heq => hother (by rw [hparse, heq])
  have hlength : z'.versions ≠ z.versions := by
    intro heq
    have hlengths := congrArg List.length heq
    rw [hversions, hversions'] at hlengths
    simp at hlengths
  have hbefore : z.record uuid volume path
      (DescendingSort.twoFaced (.putLast _ first) (.putLast _ second) z.versions) other =
      .ok (first.fileInfo uuid volume path) := by
    obtain ⟨index, hlast⟩ := DescendingSort.putLast_lastMatch hfirst.1 hfirst.2.1 hfirst.2.2
    exact record_of_lastMatch hvalid hparse' hne (by rwa [DescendingSort.twoFaced_sort_self])
  have hafter : z'.record uuid volume path
      (DescendingSort.twoFaced (.putLast _ first) (.putLast _ second) z.versions) other =
      .ok (second.fileInfo uuid volume path) := by
    have hsecond' := (oldest_congr hparse' hagree huuid).mpr hsecond
    obtain ⟨index, hlast⟩ := DescendingSort.putLast_lastMatch hsecond'.1 hsecond'.2.1 hsecond'.2.2
    exact record_of_lastMatch hvalid' hparse' hne
      (by rwa [DescendingSort.twoFaced_sort_of_ne _ _ hlength])
  have hrecords := hsame other hne (by rw [hparse', hparse]; simpa using huuid)
  rw [hbefore, hafter] at hrecords
  exact (Except.ok.inj hrecords).symm

/-- A plain delete removes its version and nothing else exactly when its id
names one version, of a newer kind, and no other id depends on how the sort of
a lookup breaks ties. -/
theorem plainDelete_deletesCleanly_iff (uuid : UuidPackage) (clock : Clock) (volume path : String)
    (z : XlMetaV2) (fi : FileInfo) (hvalid : z.AllValid) (hplain : fi.PlainDelete) :
    (∀ sorter, z.DeletesCleanly uuid clock volume path sorter fi) ↔
      z.NamesOneNewer uuid fi.versionID ∧
        ∀ other uv, other ≠ "" → parseVersionID uuid other = some uv →
          parseVersionID uuid fi.versionID ≠ some uv →
            z.Determinate uuid volume path uv other := by
  constructor
  · intro hclean
    exact ⟨namesOneNewer_of_deletesCleanly hvalid hplain (hclean (.stable _)),
      fun other uv hne hparse hother =>
        determinate_of_deletesCleanly hvalid hplain hclean hne hparse hother⟩
  · rintro ⟨hnames, hdeterminate⟩ sorter
    exact deletesCleanly_of_namesOneNewer hvalid hplain hnames hdeterminate sorter

def nullMarkerOnly : XlMetaV2 where
  versions := [.deleteType { versionID := 0, modTime := 1, metaSys := ∅ }]

/-- The null delete marker of a journal that holds nothing else can be deleted. -/
theorem nullMarkerOnly_deletesCleanly :
    nullMarkerOnly.AllValid ∧ ∀ sorter, nullMarkerOnly.DeletesCleanly .google
      ⟨(0 : Int), fun _ => none⟩ "bucket" "object" sorter { versionID := "null" } := by
  have hvalid : nullMarkerOnly.AllValid := by decide
  refine ⟨hvalid, (plainDelete_deletesCleanly_iff _ _ _ _ nullMarkerOnly { versionID := "null" }
    hvalid ⟨rfl, rfl, rfl, rfl, rfl, by decide⟩).mpr ⟨⟨0, _, rfl, by rfl, by rfl⟩, ?_⟩⟩
  intro other uv _ _ huuid first second hfirst _
  have hmem := List.mem_singleton.mp hfirst.1
  have hanswers := hfirst.2.1
  rw [hmem] at hanswers
  exact absurd (congrArg some (beq_iff_eq.mp hanswers)) huuid

/-- The journal of an object found as `xl.json`. -/
def legacyOnly : XlMetaV2 where
  versions := [.legacyType
    { version := "1.0.1"
      format := "xl"
      erasure := { dataBlocks := 2, parityBlocks := 2 }
      versionID := nullVersionID
      dataDir := legacyDataDir
      versionID_eq := rfl
      dataDir_eq := rfl }]

/-- A lookup of `null` finds the legacy object, and its plain delete reports
that there is no such version. -/
theorem legacyOnly_not_deletable :
    legacyOnly.AllValid ∧ ({ versionID := "null" } : FileInfo).PlainDelete ∧
      (∀ sorter, ∃ info,
        legacyOnly.toFileInfo .google "bucket" "object" sorter "null" = .ok info) ∧
      legacyOnly.deleteVersion .google ⟨(0 : Int), fun _ => none⟩ { versionID := "null" } =
        .error .errFileVersionNotFound ∧
      ∀ sorter, ¬ legacyOnly.DeletesCleanly .google ⟨(0 : Int), fun _ => none⟩ "bucket" "object"
        sorter { versionID := "null" } := by
  have hvalid : legacyOnly.AllValid := by decide
  have hdelete : legacyOnly.deleteVersion .google ⟨(0 : Int), fun _ => none⟩
      { versionID := "null" } = .error .errFileVersionNotFound := rfl
  refine ⟨hvalid, ⟨rfl, rfl, rfl, rfl, rfl, by decide⟩, fun sorter => ?_, hdelete, ?_⟩
  · exact (exists_toFileInfo_iff _ _ sorter hvalid (by decide)).mpr
      ⟨0, rfl, _, List.mem_cons_self, rfl⟩
  · rintro sorter ⟨z', dataDir, lastVersion, hok, _⟩
    rw [hdelete] at hok
    cases hok

end XlMetaV2

end Fs3
