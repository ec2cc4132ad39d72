import Fs3.Journal.Frame

/-! # Delete markers that are the latest version

A lookup without an id reads the version that the sort puts first. -/

namespace Fs3

open Foundation

theorem uuidText_injective (uuid : UuidPackage) : Function.Injective (uuidText uuid) := by
  intro u v heq
  have hparse := parseVersionID_uuidText uuid u
  rw [heq, parseVersionID_uuidText] at hparse
  exact (Option.some.inj hparse).symm

variable {version : XlMetaV2Version}

theorem XlMetaV2Version.exists_marker_of_deleted {uuid : UuidPackage} {volume path : String}
    (hdeleted : (version.fileInfo uuid volume path).deleted = true) :
    ∃ marker, version = .deleteType marker := by
  cases version with
  | invalid | objectType | legacyType => cases hdeleted
  | deleteType marker => exact ⟨marker, rfl⟩

namespace XlMetaV2

variable (uuid : UuidPackage) (volume path : String) (z : XlMetaV2) (uv : UUID)

/-- The journal has one version of an id, and every lookup without an id reads it, and
reads a delete marker. -/
structure ReadsAsMarker : Prop where
  only : (z.versions.filter fun version => version.uuid == uv).length = 1
  latest : ∀ sorter, ∃ fi, z.toFileInfo uuid volume path sorter "" = .ok fi ∧
    fi.deleted = true ∧ fi.versionID = uuidText uuid uv

/-- The only version of an id is a delete marker, and every other version is older. -/
structure LatestMarker : Prop where
  allValid : z.AllValid
  marker : ∃ marker, (z.versions.filter fun version => version.uuid == uv) = [.deleteType marker] ∧
    ∀ version ∈ z.versions, version.uuid ≠ uv → version.modTime < Time.ofUnixNano marker.modTime

variable {uuid volume path z uv}

theorem latest_of_toFileInfo {sorter : DescendingSort XlMetaV2Version.modTime} {fi : FileInfo}
    (hok : z.toFileInfo uuid volume path sorter "" = .ok fi) :
    ∃ latest rest, sorter.sort z.versions = latest :: rest ∧
      fi.static = latest.fileInfo uuid volume path := by
  have hvalid := allValid_of_toFileInfo hok
  have hne : z.versions ≠ [] := by
    intro hnil
    rw [toFileInfo_empty_of_nil hnil] at hok
    cases hok
  obtain ⟨latest, -, hhead, -, hrecord⟩ := exists_latest uuid volume path sorter hvalid hne
  obtain ⟨rest, hsort⟩ := List.head?_eq_some_iff.mp hhead
  rw [record, hok] at hrecord
  exact ⟨latest, rest, hsort, Except.ok.inj hrecord⟩

theorem LatestMarker.readsAsMarker (hlatest : z.LatestMarker uv) :
    z.ReadsAsMarker uuid volume path uv := by
  obtain ⟨hvalid, marker, hfilter, holder⟩ := hlatest
  have hmarker : XlMetaV2Version.deleteType marker ∈ z.versions ∧
      (XlMetaV2Version.deleteType marker).uuid = uv := by
    have hmem : XlMetaV2Version.deleteType marker ∈
        z.versions.filter fun version => version.uuid == uv := by
      rw [hfilter]
      exact List.mem_singleton_self _
    exact ⟨(List.mem_filter.mp hmem).1, beq_iff_eq.mp (List.mem_filter.mp hmem).2⟩
  refine ⟨by rw [hfilter]; rfl, fun sorter => ?_⟩
  obtain ⟨latest, hmem, -, hmax, hrecord⟩ := exists_latest uuid volume path sorter hvalid
    (List.ne_nil_of_mem hmarker.1)
  have huuid : latest.uuid = uv := by
    by_contra hne
    exact absurd (hmax _ hmarker.1) (not_le_of_gt (holder latest hmem hne))
  have hin : latest ∈ z.versions.filter fun version => version.uuid == uv :=
    List.mem_filter.mpr ⟨hmem, beq_iff_eq.mpr huuid⟩
  rw [hfilter, List.mem_singleton] at hin
  rw [hin, record] at hrecord
  cases hok : z.toFileInfo uuid volume path sorter "" with
  | error err =>
    rw [hok] at hrecord
    cases hrecord
  | ok fi =>
    rw [hok] at hrecord
    have hstatic : fi.static = (XlMetaV2Version.deleteType marker).fileInfo uuid volume path :=
      Except.ok.inj hrecord
    refine ⟨fi, rfl, ?_, ?_⟩
    · exact congrArg FileInfo.deleted hstatic
    · rw [← hmarker.2]
      exact congrArg FileInfo.versionID hstatic

theorem ReadsAsMarker.latestMarker (hreads : z.ReadsAsMarker uuid volume path uv) :
    z.LatestMarker uv := by
  obtain ⟨only, honly⟩ := List.length_eq_one_iff.mp hreads.only
  have hfirst : ∀ sorter : DescendingSort XlMetaV2Version.modTime,
      ∃ marker rest, sorter.sort z.versions = only :: rest ∧ only = .deleteType marker := by
    intro sorter
    obtain ⟨fi, hok, hdeleted, hid⟩ := hreads.latest sorter
    obtain ⟨latest, rest, hsort, hstatic⟩ := latest_of_toFileInfo hok
    obtain ⟨marker, rfl⟩ : ∃ marker, latest = .deleteType marker := by
      apply XlMetaV2Version.exists_marker_of_deleted
      rw [← hstatic]
      exact hdeleted
    have huuid : (XlMetaV2Version.deleteType marker).uuid = uv := by
      apply uuidText_injective uuid
      rw [← hid]
      exact (congrArg FileInfo.versionID hstatic).symm
    have hin : XlMetaV2Version.deleteType marker ∈
        z.versions.filter fun version => version.uuid == uv := by
      refine List.mem_filter.mpr ⟨?_, beq_iff_eq.mpr huuid⟩
      rw [← sorter.mem_sort, hsort]
      exact List.mem_cons_self
    rw [honly, List.mem_singleton] at hin
    exact ⟨marker, rest, hin ▸ hsort, hin.symm⟩
  obtain ⟨marker, -, -, rfl⟩ := hfirst (.stable _)
  obtain ⟨fi, hok, -⟩ := hreads.latest (.stable _)
  refine ⟨allValid_of_toFileInfo hok, marker, honly, fun version hmem huuid => ?_⟩
  by_contra holder
  obtain ⟨-, rest, hsort, -⟩ := hfirst (.putLast _ (.deleteType marker))
  have hmarker : (XlMetaV2Version.deleteType marker).uuid = uv := by
    have hin : XlMetaV2Version.deleteType marker ∈
        z.versions.filter fun version => version.uuid == uv := by
      rw [honly]
      exact List.mem_singleton_self _
    exact beq_iff_eq.mp (List.mem_filter.mp hin).2
  have hne : version ≠ .deleteType marker := fun heq => huuid (heq ▸ hmarker)
  exact DescendingSort.putLast_head_ne hsort hmem hne (not_lt.mp holder) rfl

end XlMetaV2

/-! ## What a delete leaves -/

namespace XlMetaV2

variable {uuid : UuidPackage} {clock : Clock} {z z' : XlMetaV2} {fi : FileInfo} {uv : UUID}

/-- There are two delete markers of an id, and without the first of them the
second one is the latest version. -/
def LatestMarkerBehind (z : XlMetaV2) (uv : UUID) : Prop :=
  ∃ first second : XlMetaV2DeleteMarker,
    (z.versions.filter fun version => version.uuid == uv) =
        [.deleteType first, .deleteType second] ∧
      (XlMetaV2Version.deleteType second).valid = true ∧
      ∀ version ∈ z.versions, version.uuid ≠ uv →
        version.valid = true ∧ version.modTime < Time.ofUnixNano second.modTime

variable {before after : List XlMetaV2Version}

theorem filter_split (huuid : version.uuid = uv) :
    ((before ++ version :: after).filter fun version => version.uuid == uv) =
      (before.filter fun version => version.uuid == uv) ++
        version :: after.filter fun version => version.uuid == uv := by
  rw [List.filter_append]
  congr 1
  exact List.filter_cons_of_pos (beq_iff_eq.mpr huuid)

variable {marker : XlMetaV2DeleteMarker}

theorem isMarkerOf_of_mem_filter {versions : List XlMetaV2Version}
    (hmem : .deleteType marker ∈ versions.filter fun version => version.uuid == uv) :
    .deleteType marker ∈ versions ∧ (XlMetaV2Version.deleteType marker).isMarkerOf uv = true :=
  ⟨(List.mem_filter.mp hmem).1, (List.mem_filter.mp hmem).2⟩

theorem deleteType_notMem_keptObject {object : XlMetaV2Object} :
    .deleteType marker ∉ fi.keptObject object := by
  unfold FileInfo.keptObject
  split
  · simp
  · split <;> simp

theorem allValid_of_deleteVersion {result : XlMetaV2 × String × Bool}
    (hdelete : z.deleteVersion uuid clock fi = .ok result)
    (hparse : parseVersionID uuid fi.versionID = some uv)
    (hnone : ∀ version ∈ z.versions, version.isNewerOf uv = false) : z.AllValid := by
  have hne := deleteID_ne_null fi.versionID
  simp only [deleteVersion, parseVersionID_deleteID, hparse] at hdelete
  split at hdelete
  · cases hdelete
  · split at hdelete
    · cases hdelete
    next hfirst =>
      obtain ⟨before, version, after, splice, hversions, -, -, hedit, -⟩ :=
        exists_of_editFirst_some hfirst
      have hnewer := hnone version (hversions ▸ List.mem_append_right _ List.mem_cons_self)
      rw [XlMetaV2Version.isNewerOf, Bool.or_eq_false_iff] at hnewer
      rw [(markOrDrop_eq_none hne).mpr ⟨hnewer.1, fun _ => hnewer.2⟩] at hedit
      cases hedit
    next hfirst =>
      exact fun version hmem => (valid_of_editFirst_none hfirst version hmem).1

/-- A delete marker of a new id is added at the end. -/
theorem deleteVersion_of_unused {dataDir : String} {lastVersion : Bool}
    (hdelete : z.deleteVersion uuid clock fi = .ok (z', dataDir, lastVersion))
    (hparse : parseVersionID uuid fi.versionID = some uv) (hdeleted : fi.deleted = true)
    (hunused : ∀ version ∈ z.versions, version.uuid ≠ uv) :
    z.AllValid ∧ z' = { z with versions := z.versions ++ [fi.deleteEntry uv] } ∧
      dataDir = "" ∧ lastVersion = false ∧ (fi.deleteEntry uv).valid = true := by
  have hnone : ∀ version ∈ z.versions, version.isNewerOf uv = false := by
    intro version hmem
    by_contra hnewer
    rw [Bool.not_eq_false] at hnewer
    exact hunused version hmem (XlMetaV2Version.isNewerOf_iff.mp hnewer).2.2
  have hvalid := allValid_of_deleteVersion hdelete hparse hnone
  obtain ⟨uv', freed, hparse', hentry, hdata, hcase, rfl, rfl⟩ := deleteVersion_cases hdelete
  rw [hparse] at hparse'
  cases hparse'
  obtain ⟨versions, data⟩ := z'
  simp only at hcase hdata
  have hnewer : ∀ version, version ∈ z.versions → version.isNewerOf uv = true → False := by
    intro version hmem heq
    rw [hnone version hmem] at heq
    cases heq
  cases hcase with
  | markMarker _ marker _ hversions _ huuid _ | dropMarker _ marker _ hversions _ huuid _ =>
    exact (hnewer (.deleteType marker) (by simp [hversions])
      (by simp [XlMetaV2Version.isNewerOf, XlMetaV2Version.isMarkerOf, huuid])).elim
  | markObject _ object _ hversions _ huuid _ | dropObject _ object _ hversions _ _ huuid _ =>
    exact (hnewer (.objectType object) (by simp [hversions])
      (by simp [XlMetaV2Version.isNewerOf, XlMetaV2Version.isObjectOf, huuid])).elim
  | addMarker hversions hadd =>
    rw [hdata]
    exact ⟨hvalid, rfl, rfl, by simp, hentry hdeleted⟩

/-- The journal around one of the delete markers of an id. -/
theorem latestMarker_iff_of_split (huuid : marker.versionID = uv)
    (hversions : z.versions = before ++ .deleteType marker :: after) :
    z.LatestMarker uv ↔ (XlMetaV2Version.deleteType marker).valid = true ∧
      ∀ version ∈ before ++ after, version.uuid ≠ uv ∧ version.valid = true ∧
        version.modTime < Time.ofUnixNano marker.modTime := by
  have hfilter : (z.versions.filter fun version => version.uuid == uv) =
      (before.filter fun version => version.uuid == uv) ++
        .deleteType marker :: after.filter fun version => version.uuid == uv := by
    rw [hversions]
    exact filter_split huuid
  constructor
  · rintro ⟨hvalid, marker', hsingle, holder⟩
    rw [hfilter] at hsingle
    have hnone : (before.filter fun version => version.uuid == uv) = [] ∧
        (after.filter fun version => version.uuid == uv) = [] := by
      have hlength := congrArg List.length hsingle
      simp only [List.length_append, List.length_cons, List.length_nil] at hlength
      exact ⟨List.eq_nil_of_length_eq_zero (by omega), List.eq_nil_of_length_eq_zero (by omega)⟩
    rw [hnone.1, hnone.2] at hsingle
    cases hsingle
    refine ⟨hvalid _ (by simp [hversions]), fun version hmem => ?_⟩
    have hin : version ∈ z.versions := by
      rw [hversions]
      exact (List.Sublist.append_left (List.sublist_cons_self _ _) _).subset hmem
    have hne : version.uuid ≠ uv := by
      intro heq
      rcases List.mem_append.mp hmem with hbefore | hafter
      · exact List.filter_eq_nil_iff.mp hnone.1 version hbefore (beq_iff_eq.mpr heq)
      · exact List.filter_eq_nil_iff.mp hnone.2 version hafter (beq_iff_eq.mpr heq)
    exact ⟨hne, hvalid version hin, holder version hin hne⟩
  · rintro ⟨hmarker, hothers⟩
    have hmem : ∀ version ∈ z.versions, version = .deleteType marker ∨
        version ∈ before ++ after := by
      intro version hin
      rw [hversions, List.mem_append, List.mem_cons] at hin
      rw [List.mem_append]
      tauto
    refine ⟨fun version hin => ?_, marker, ?_, fun version hin hne => ?_⟩
    · rcases hmem version hin with rfl | hother
      · exact hmarker
      · exact (hothers version hother).2.1
    · rw [hfilter, List.filter_eq_nil_iff.mpr, List.filter_eq_nil_iff.mpr, List.nil_append]
      · exact fun version hin heq =>
          (hothers version (List.mem_append_right _ hin)).1 (beq_iff_eq.mp heq)
      · exact fun version hin heq =>
          (hothers version (List.mem_append_left _ hin)).1 (beq_iff_eq.mp heq)
    · rcases hmem version hin with rfl | hother
      · exact absurd huuid hne
      · exact (hothers version hother).2.2

theorem LatestMarker.exists_split (hlatest : z.LatestMarker uv) :
    ∃ before marker after, z.versions = before ++ .deleteType marker :: after ∧
      marker.versionID = uv := by
  obtain ⟨-, marker, hfilter, -⟩ := hlatest
  have hin : XlMetaV2Version.deleteType marker ∈
      z.versions.filter fun version => version.uuid == uv := by
    rw [hfilter]
    exact List.mem_singleton_self _
  obtain ⟨hmem, huuid⟩ := List.mem_filter.mp hin
  obtain ⟨before, after, hversions⟩ := List.append_of_mem hmem
  exact ⟨before, marker, after, hversions, beq_iff_eq.mp huuid⟩

theorem LatestMarker.not_isObjectOf (hlatest : z.LatestMarker uv) (hmem : version ∈ z.versions) :
    version.isObjectOf uv = false := by
  obtain ⟨before, marker, after, hversions, huuid⟩ := hlatest.exists_split
  obtain ⟨-, hothers⟩ := (latestMarker_iff_of_split huuid hversions).mp hlatest
  rw [hversions, List.mem_append, List.mem_cons] at hmem
  have hcase : version = .deleteType marker ∨ version ∈ before ++ after := by
    rw [List.mem_append]
    tauto
  rcases hcase with rfl | hother
  · rfl
  · cases version with
    | invalid | deleteType | legacyType => rfl
    | objectType object => exact beq_eq_false_iff_ne.mpr (hothers _ hother).1

theorem latestMarker_append (huuid : marker.versionID = uv)
    (hversions : z'.versions = z.versions ++ [.deleteType marker])
    (hmarker : (XlMetaV2Version.deleteType marker).valid = true)
    (hunused : ∀ version ∈ z.versions, version.uuid ≠ uv) :
    z'.LatestMarker uv ↔ ∀ version ∈ z.versions,
      version.valid = true ∧ version.modTime < Time.ofUnixNano marker.modTime := by
  rw [latestMarker_iff_of_split huuid hversions, List.append_nil]
  constructor
  · rintro ⟨-, hothers⟩ version hmem
    exact (hothers version hmem).2
  · exact fun hothers => ⟨hmarker, fun version hmem => ⟨hunused version hmem, hothers version hmem⟩⟩

theorem latestMarker_mark (huuid : marker.versionID = uv)
    (hversions : z.versions = before ++ .deleteType marker :: after)
    (hversions' : z'.versions = before ++ .deleteType (marker.mark fi) :: after) :
    z'.LatestMarker uv ↔ z.LatestMarker uv := by
  have hmark : (marker.mark fi).versionID = uv := huuid
  rw [latestMarker_iff_of_split hmark hversions', latestMarker_iff_of_split huuid hversions]
  exact Iff.rfl

/-- Dropping the first delete marker of an id uncovers the second. -/
theorem latestMarker_drop (huuid : marker.versionID = uv)
    (hbefore : ∀ version ∈ before, version.isMarkerOf uv = false)
    (hversions : z.versions = before ++ .deleteType marker :: after)
    (hversions' : z'.versions = before ++ after) :
    z'.LatestMarker uv ↔ z.LatestMarkerBehind uv := by
  have hsplit : ∀ {l : List XlMetaV2Version} {first : XlMetaV2DeleteMarker}
      {rest : List XlMetaV2Version}, (before.filter fun version => version.uuid == uv) ++ l =
        .deleteType first :: rest → (before.filter fun version => version.uuid == uv) = [] := by
    intro l first rest heq
    cases hfilter : before.filter fun version => version.uuid == uv with
    | nil => rfl
    | cons head tail =>
      rw [hfilter] at heq
      cases heq
      have hmem : XlMetaV2Version.deleteType first ∈
          before.filter fun version => version.uuid == uv := by
        rw [hfilter]
        exact List.mem_cons_self
      obtain ⟨hin, hmarker⟩ := isMarkerOf_of_mem_filter hmem
      rw [hbefore _ hin] at hmarker
      cases hmarker
  have hfilter : (z.versions.filter fun version => version.uuid == uv) =
      (before.filter fun version => version.uuid == uv) ++
        .deleteType marker :: after.filter fun version => version.uuid == uv := by
    rw [hversions]
    exact filter_split huuid
  have hfilter' : (z'.versions.filter fun version => version.uuid == uv) =
      (before.filter fun version => version.uuid == uv) ++
        after.filter fun version => version.uuid == uv := by
    rw [hversions', List.filter_append]
  have hmem : ∀ version, version.uuid ≠ uv → (version ∈ z'.versions ↔ version ∈ z.versions) := by
    intro version hne
    have hother : version ≠ .deleteType marker := fun heq => hne (heq ▸ huuid)
    simp [hversions, hversions', hother]
  constructor
  · rintro ⟨hvalid, second, hsingle, holder⟩
    rw [hfilter'] at hsingle
    have hnil := hsplit hsingle
    rw [hnil, List.nil_append] at hsingle
    refine ⟨marker, second, ?_, ?_, fun version hin hne => ?_⟩
    · rw [hfilter, hnil, hsingle, List.nil_append]
    · have hsecond : XlMetaV2Version.deleteType second ∈ after := by
        have hin : XlMetaV2Version.deleteType second ∈
            after.filter fun version => version.uuid == uv := by
          rw [hsingle]
          exact List.mem_singleton_self _
        exact (List.mem_filter.mp hin).1
      exact hvalid _ (by rw [hversions']; exact List.mem_append_right _ hsecond)
    · have hin' := (hmem version hne).mpr hin
      exact ⟨hvalid version hin', holder version hin' hne⟩
  · rintro ⟨first, second, hpair, hsecond, hothers⟩
    rw [hfilter] at hpair
    have hnil := hsplit hpair
    rw [hnil, List.nil_append] at hpair
    have hafter : (after.filter fun version => version.uuid == uv) = [.deleteType second] :=
      (List.cons.inj hpair).2
    have hlast : (z'.versions.filter fun version => version.uuid == uv) =
        [.deleteType second] := by
      rw [hfilter', hnil, hafter, List.nil_append]
    refine ⟨fun version hin => ?_, second, hlast, fun version hin hne => ?_⟩
    · by_cases hne : version.uuid = uv
      · have hin' : version ∈ z'.versions.filter fun version => version.uuid == uv :=
          List.mem_filter.mpr ⟨hin, beq_iff_eq.mpr hne⟩
        rw [hlast, List.mem_singleton] at hin'
        rw [hin']
        exact hsecond
      · exact (hothers version ((hmem version hne).mp hin) hne).1
    · exact (hothers version ((hmem version hne).mp hin) hne).2

end XlMetaV2

open XlMetaV2

theorem DeleteCase.not_latestMarker_of_freed {fi : FileInfo} {uv : UUID} {z' : XlMetaV2}
    {versions : List XlMetaV2Version} {object : XlMetaV2Object}
    (hcase : DeleteCase fi uv versions z'.versions (some object)) (hdeleted : fi.deleted = false) :
    ¬ z'.LatestMarker uv := by
  intro hlatest
  obtain ⟨front, marker, rest, hsplit, hid⟩ := hlatest.exists_split
  have hmem : XlMetaV2Version.deleteType marker ∈ z'.versions := by
    rw [hsplit]
    exact List.mem_append_right _ List.mem_cons_self
  generalize z'.versions = versions' at hcase hmem
  cases hcase with
  | dropObject before object after hversions hmarkers hbefore huuid hupdate =>
    have hin : XlMetaV2Version.deleteType marker ∈ versions := by
      rw [appendEntry_eq, if_neg (by simp [hdeleted]), List.append_nil, List.mem_append,
        List.mem_append] at hmem
      rw [hversions, List.mem_append, List.mem_cons]
      rcases hmem with hbefore | hkept | hafter
      · exact Or.inl hbefore
      · exact absurd hkept deleteType_notMem_keptObject
      · exact Or.inr (Or.inr hafter)
    have hmarker := hmarkers _ hin
    simp [XlMetaV2Version.isMarkerOf, hid] at hmarker

/-- When a delete that adds no marker leaves one that is the latest version: it
only marks the one that is there, or drops a marker in front of it. -/
theorem DeleteCase.latestMarker_iff {fi : FileInfo} {uv : UUID} {z z' : XlMetaV2}
    {freed : Option XlMetaV2Object} (hcase : DeleteCase fi uv z.versions z'.versions freed)
    (hdeleted : fi.deleted = false) :
    z'.LatestMarker uv ↔
      if fi.updateVersion then z.LatestMarker uv
      else ¬ (fi.markDeleted = true ∧ fi.versionPurgeStatus ≠ purgeComplete) ∧
        z.LatestMarkerBehind uv := by
  have hfreed : ∀ object, freed = some object → ¬ z'.LatestMarker uv := fun object heq =>
    DeleteCase.not_latestMarker_of_freed (heq ▸ hcase) hdeleted
  generalize hversions' : z'.versions = versions' at hcase
  cases hcase with
  | markMarker before marker after hversions hbefore huuid hupdate =>
    rw [if_pos hupdate]
    exact latestMarker_mark huuid hversions hversions'
  | markObject before object after hversions hbefore huuid hupdate =>
    rw [if_pos hupdate]
    constructor
    · intro hlatest
      have hobject := hlatest.not_isObjectOf
        (hversions' ▸ List.mem_append_right _ List.mem_cons_self)
      simp [XlMetaV2Version.isObjectOf, XlMetaV2Object.mark, huuid] at hobject
    · intro hlatest
      have hobject := hlatest.not_isObjectOf
        (hversions ▸ List.mem_append_right _ List.mem_cons_self)
      simp [XlMetaV2Version.isObjectOf, huuid] at hobject
  | dropMarker before marker after hversions hbefore huuid hupdate =>
    rw [if_neg (by simp [hupdate])]
    split at hversions'
    next hmark =>
      -- The entry that comes in its place has no type.
      have hentry : fi.deleteEntry uv = .invalid := by simp [FileInfo.deleteEntry, hdeleted]
      constructor
      · intro hlatest
        have hvalid := hlatest.allValid .invalid (by simp [hversions', hentry])
        cases hvalid
      · exact fun hbehind => absurd hmark hbehind.1
    next hmark =>
      rw [List.append_nil] at hversions'
      rw [latestMarker_drop huuid hbefore hversions hversions']
      exact ⟨fun hbehind => ⟨hmark, hbehind⟩, And.right⟩
  | dropObject before object after hversions hmarkers hbefore huuid hupdate =>
    rw [if_neg (by simp [hupdate])]
    constructor
    · intro hlatest
      exact absurd hlatest (hfreed object rfl)
    · rintro ⟨-, first, second, hpair, -⟩
      have hmem : XlMetaV2Version.deleteType first ∈
          z.versions.filter fun version => version.uuid == uv := by
        rw [hpair]
        exact List.mem_cons_self
      obtain ⟨hin, hmarker⟩ := isMarkerOf_of_mem_filter hmem
      rw [hmarkers _ hin] at hmarker
      cases hmarker
  | addMarker hversions hadd =>
    rw [hdeleted] at hadd
    cases hadd

end Fs3
