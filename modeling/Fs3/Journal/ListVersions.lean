import Fs3.Journal.Frame

/-! # Listing the versions of an object

A listing converts all versions, sorts what it has converted and fills in the fields that depend on
the neighbours. -/

namespace Fs3

open Foundation

def numberVersions (versions : List FileInfo) : List FileInfo :=
  versions.mapIdx fun i fi =>
    { fi with
      isLatest := fi.isLatest || i == 0
      numVersions := versions.length
      successorModTime :=
        if 0 < i then versions[i - 1]?.elim Time.zero FileInfo.modTime else fi.successorModTime }

namespace XlMetaV2

variable (uuid : UuidPackage) (volume path : String)

def convertVersions : List XlMetaV2Version → Except StorageErr (List FileInfo)
  | [] => .ok []
  | version :: rest =>
    if version.valid then
      match version.toFileInfo uuid volume path with
      | .error err => .error err
      | .ok fi => (convertVersions rest).map (fi :: ·)
    else .error .errFileCorrupt

/-- `xlMetaV2.ListVersions`. -/
def listVersions (z : XlMetaV2) (sorter : DescendingSort FileInfo.modTime) :
    Except StorageErr (List FileInfo × Time) :=
  match convertVersions uuid volume path z.versions with
  | .error err => .error err
  | .ok versions =>
    match numberVersions (sorter.sort versions) with
    | [] => .error (.unexpected "index out of range [0] with length 0")
    | latest :: rest => .ok (latest :: rest, latest.modTime)

/-- The two ways to read versions agree, where each listed version is looked up
under the id that `lookupID` takes for it. -/
structure ReadsAgree (z : XlMetaV2) (listSorter : DescendingSort FileInfo.modTime)
    (sorter : DescendingSort XlMetaV2Version.modTime) (lookupID : FileInfo → String)
    (listed : List FileInfo) : Prop where
  ok : ∃ modTime, z.listVersions uuid volume path listSorter = .ok (listed, modTime)
  lookup : ∀ fi ∈ listed, z.toFileInfo uuid volume path sorter (lookupID fi) = .ok fi
  latest : ∃ latest rest, listed = latest :: rest ∧
    z.toFileInfo uuid volume path sorter "" = .ok latest ∧ latest.isLatest = true ∧
      ∀ fi ∈ rest, fi.isLatest = false
  descending : listed.Pairwise fun fi fi' => fi'.modTime < fi.modTime
  once : (listed.map FileInfo.static).Perm
    (z.versions.map (XlMetaV2Version.fileInfo uuid volume path))

variable {uuid volume path} {z : XlMetaV2}

theorem convertVersions_of_valid {versions : List XlMetaV2Version}
    (hvalid : ∀ version ∈ versions, version.valid = true) :
    convertVersions uuid volume path versions =
      .ok (versions.map (XlMetaV2Version.fileInfo uuid volume path)) := by
  induction versions with
  | nil => rfl
  | cons version rest ih =>
    have hversion := hvalid version List.mem_cons_self
    rw [convertVersions, if_pos hversion,
      XlMetaV2Version.toFileInfo_of_valid uuid volume path hversion,
      ih fun other hmem => hvalid other (List.mem_cons_of_mem _ hmem)]
    rfl

theorem answersTo_normalizeID {version : XlMetaV2Version} (hvalid : version.valid = true) :
    parseVersionID uuid (normalizeID (version.fileInfo uuid volume path).versionID) =
        some version.uuid ∧
      version.answersTo version.uuid
        (normalizeID (version.fileInfo uuid volume path).versionID) = true := by
  cases version with
  | invalid => cases hvalid
  | objectType object =>
    refine ⟨?_, beq_iff_eq.mpr rfl⟩
    rw [parseVersionID_normalizeID]
    exact parseVersionID_uuidText uuid object.versionID
  | deleteType marker =>
    refine ⟨?_, beq_iff_eq.mpr rfl⟩
    rw [parseVersionID_normalizeID]
    exact parseVersionID_uuidText uuid marker.versionID
  | legacyType object =>
    have hnull : normalizeID ((XlMetaV2Version.legacyType object).fileInfo
        uuid volume path).versionID = nullVersionID := by
      change normalizeID object.versionID = nullVersionID
      rw [object.versionID_eq]
      rfl
    rw [hnull, XlMetaV2Version.answersTo_legacy]
    exact ⟨parseVersionID_null uuid, rfl⟩

theorem parseVersionID_fileInfo {version : XlMetaV2Version} (hvalid : version.valid = true) :
    parseVersionID uuid (version.fileInfo uuid volume path).versionID = some version.uuid := by
  rw [← parseVersionID_normalizeID]
  exact (answersTo_normalizeID hvalid).1

theorem fileInfo_isLatest (version : XlMetaV2Version) :
    (version.fileInfo uuid volume path).isLatest = false := by
  cases version <;> rfl

theorem fileInfo_successorModTime (version : XlMetaV2Version) :
    (version.fileInfo uuid volume path).successorModTime = Time.zero := by
  cases version <;> rfl

theorem map_static_numberVersions (versions : List FileInfo) :
    (numberVersions versions).map FileInfo.static = versions.map FileInfo.static := by
  apply List.ext_getElem?
  intro i
  rw [numberVersions, List.getElem?_map, List.getElem?_mapIdx, List.getElem?_map, Option.map_map]
  rfl

/-- Every version of a readable journal is listed once, the newest ones first. -/
theorem listVersions_of_wellFormed (sorter : DescendingSort FileInfo.modTime)
    (hwell : z.WellFormed) (hne : z.versions ≠ []) :
    ∃ listed modTime, z.listVersions uuid volume path sorter = .ok (listed, modTime) ∧
      listed ≠ [] ∧
      (listed.map FileInfo.static).Perm
        (z.versions.map (XlMetaV2Version.fileInfo uuid volume path)) ∧
      listed.Pairwise fun fi fi' => fi'.modTime ≤ fi.modTime := by
  have hstatic := map_static_numberVersions
    (sorter.sort (z.versions.map (XlMetaV2Version.fileInfo uuid volume path)))
  have hperm : ((numberVersions (sorter.sort (z.versions.map
      (XlMetaV2Version.fileInfo uuid volume path)))).map FileInfo.static).Perm
        (z.versions.map (XlMetaV2Version.fileInfo uuid volume path)) := by
    rw [hstatic]
    refine ((sorter.perm _).map _).trans (List.Perm.of_eq ?_)
    rw [List.map_map]
    exact List.map_congr_left fun version _ => version.static_fileInfo uuid volume path
  have htimes : (numberVersions (sorter.sort (z.versions.map
      (XlMetaV2Version.fileInfo uuid volume path)))).Pairwise
        fun fi fi' => fi'.modTime ≤ fi.modTime := by
    have hsorted : ((sorter.sort (z.versions.map
        (XlMetaV2Version.fileInfo uuid volume path))).map FileInfo.static).Pairwise
          fun fi fi' => fi'.modTime ≤ fi.modTime := List.pairwise_map.mpr
        (sorter.descending (z.versions.map (XlMetaV2Version.fileInfo uuid volume path)))
    rw [← hstatic] at hsorted
    exact List.pairwise_map.mp hsorted
  rw [listVersions, convertVersions_of_valid hwell.allValid]
  cases hlisted : numberVersions (sorter.sort (z.versions.map
      (XlMetaV2Version.fileInfo uuid volume path))) with
  | nil =>
    rw [hlisted] at hperm
    exact absurd (List.map_eq_nil_iff.mp hperm.nil_eq.symm) hne
  | cons latest rest =>
    rw [hlisted] at hperm htimes
    simp only [hlisted]
    exact ⟨_, _, rfl, List.cons_ne_nil _ _, hperm, htimes⟩

def listedAt (uuid : UuidPackage) (volume path : String) (ordered : List XlMetaV2Version)
    (i : Nat) (version : XlMetaV2Version) : FileInfo :=
  { version.fileInfo uuid volume path with
    isLatest := i == 0
    numVersions := ordered.length
    successorModTime :=
      if 0 < i then ordered[i - 1]?.elim Time.zero XlMetaV2Version.modTime else Time.zero }

theorem getElem?_numberVersions (ordered : List XlMetaV2Version) (i : Nat) :
    (numberVersions (ordered.map (XlMetaV2Version.fileInfo uuid volume path)))[i]? =
      ordered[i]?.map (listedAt uuid volume path ordered i) := by
  have hsuccessor : (ordered.map (XlMetaV2Version.fileInfo uuid volume path))[i - 1]?.elim
      Time.zero FileInfo.modTime = ordered[i - 1]?.elim Time.zero XlMetaV2Version.modTime := by
    rw [List.getElem?_map]
    cases ordered[i - 1]? with
    | none => rfl
    | some other => exact other.fileInfo_modTime uuid volume path
  have hversion : (ordered.map (XlMetaV2Version.fileInfo uuid volume path))[i]? =
      ordered[i]?.map (XlMetaV2Version.fileInfo uuid volume path) := List.getElem?_map
  rw [numberVersions, List.getElem?_mapIdx, hversion]
  cases ordered[i]? with
  | none => rfl
  | some version =>
    simp only [Option.map_some, listedAt, fileInfo_isLatest, Bool.false_or, List.length_map,
      hsuccessor, fileInfo_successorModTime]

theorem toFileInfo_of_position {sorter : DescendingSort XlMetaV2Version.modTime}
    (hwell : z.WellFormed) {i : Nat} {version : XlMetaV2Version}
    (hi : (sorter.sort z.versions)[i]? = some version) :
    z.toFileInfo uuid volume path sorter
        (normalizeID (version.fileInfo uuid volume path).versionID) =
      .ok (listedAt uuid volume path (sorter.sort z.versions) i version) := by
  have hmem : ∀ {j : Nat} {other : XlMetaV2Version}, (sorter.sort z.versions)[j]? = some other →
      other ∈ z.versions := fun hj => sorter.mem_sort.mp (List.mem_of_getElem? hj)
  have hvalid := hwell.allValid version (hmem hi)
  obtain ⟨hparse, hanswers⟩ := @answersTo_normalizeID uuid volume path version hvalid
  have hnodup : (sorter.sort z.versions).Nodup :=
    (sorter.perm z.versions).nodup_iff.mpr hwell.nodup.of_map
  have hlast : lastMatch (XlMetaV2Version.answersTo version.uuid
      (normalizeID (version.fileInfo uuid volume path).versionID)) (sorter.sort z.versions) =
        some (version, i) := by
    refine lastMatch_of_unique hi hanswers fun j other hj hother => ?_
    have huuid := XlMetaV2Version.uuid_eq_of_answersTo hparse hother
    have hsame := List.inj_on_of_nodup_map hwell.nodup (hmem hj) (hmem hi) huuid
    obtain ⟨hlt, -⟩ := List.getElem?_eq_some_iff.mp hj
    exact (List.getElem?_inj hlt hnodup).mp (by rw [hj, hi, hsame])
  rw [toFileInfo, hparse]
  simp only [allValid_iff.mpr hwell.allValid, if_true, if_neg (normalizeID_ne_empty _), hlast,
    XlMetaV2Version.toFileInfo_of_valid uuid volume path hvalid, Except.map]
  simp only [listedAt, sorter.length_sort, fileInfo_successorModTime]

/-- Where no two versions have an id or a modification time in common, a listing
shows what the lookups read. -/
theorem readsAgree_of_distinct (uuid : UuidPackage) (volume path : String) (z : XlMetaV2)
    (listSorter : DescendingSort FileInfo.modTime)
    (sorter : DescendingSort XlMetaV2Version.modTime) (hwell : z.WellFormed)
    (hne : z.versions ≠ []) (hdistinct : (z.versions.map XlMetaV2Version.modTime).Nodup) :
    ∃ listed, z.ReadsAgree uuid volume path listSorter sorter
      (fun fi => normalizeID fi.versionID) listed := by
  have hvalid := hwell.allValid
  have hsorted := sorter.sort_map listSorter
    (XlMetaV2Version.fileInfo_modTime uuid volume path) hdistinct
  have hentry := @getElem?_numberVersions uuid volume path (sorter.sort z.versions)
  have hlist : ∀ latest rest,
      numberVersions ((sorter.sort z.versions).map (XlMetaV2Version.fileInfo uuid volume path)) =
          latest :: rest →
        z.listVersions uuid volume path listSorter = .ok (latest :: rest, latest.modTime) := by
    intro latest rest hnumbered
    rw [listVersions, convertVersions_of_valid hvalid]
    simp only [hsorted, hnumbered]
  generalize hlisted : numberVersions
    ((sorter.sort z.versions).map (XlMetaV2Version.fileInfo uuid volume path)) = listed
    at hlist hentry
  have hmap : ∀ {γ : Type} (f : FileInfo → γ) (g : XlMetaV2Version → γ),
      (∀ i version, f (listedAt uuid volume path (sorter.sort z.versions) i version) = g version) →
        listed.map f = (sorter.sort z.versions).map g := by
    intro γ f g hfg
    apply List.ext_getElem?
    intro i
    rw [List.getElem?_map, List.getElem?_map, hentry, Option.map_map]
    congr 1
    funext version
    exact hfg i version
  have hposition : ∀ {i : Nat} {fi : FileInfo}, listed[i]? = some fi →
      ∃ version, (sorter.sort z.versions)[i]? = some version ∧
        fi = listedAt uuid volume path (sorter.sort z.versions) i version := by
    intro i fi hi
    rw [hentry, Option.map_eq_some_iff] at hi
    obtain ⟨version, hversion, rfl⟩ := hi
    exact ⟨version, hversion, rfl⟩
  cases listed with
  | nil =>
    have hempty := hmap (fun _ => ()) (fun _ => ()) fun _ _ => rfl
    have hlength := congrArg List.length hempty
    rw [List.length_map, List.length_map, sorter.length_sort] at hlength
    exact absurd (List.length_eq_zero_iff.mp hlength.symm) hne
  | cons latest rest =>
    refine ⟨latest :: rest, ⟨_, hlist latest rest rfl⟩, fun fi hmem => ?_, ?_, ?_, ?_⟩
    · obtain ⟨i, hi⟩ := List.mem_iff_getElem?.mp hmem
      obtain ⟨version, hversion, rfl⟩ := hposition hi
      exact toFileInfo_of_position hwell hversion
    · obtain ⟨version, hversion, hlatest⟩ := @hposition 0 latest rfl
      refine ⟨latest, rest, rfl, ?_, ?_, fun fi hmem => ?_⟩
      · obtain ⟨others, hsort⟩ := List.head?_eq_some_iff.mp (List.head?_eq_getElem? ▸ hversion)
        rw [toFileInfo, parseVersionID_empty]
        simp only [allValid_iff.mpr hvalid, if_true, hsort,
          XlMetaV2Version.toFileInfo_of_valid uuid volume path
            (hvalid version (sorter.mem_sort.mp (List.mem_of_getElem? hversion))), Except.map]
        rw [hlatest]
        simp only [listedAt, hsort]
        rw [version.fileInfo_static]
        rfl
      · rw [hlatest]
        rfl
      · obtain ⟨i, hi⟩ := List.mem_iff_getElem?.mp hmem
        have hi' : (latest :: rest)[i + 1]? = some fi := hi
        obtain ⟨_, -, rfl⟩ := hposition hi'
        rfl
    · have htimes := hmap FileInfo.modTime XlMetaV2Version.modTime fun _ version =>
        version.fileInfo_modTime uuid volume path
      have hstrict : ((sorter.sort z.versions).map XlMetaV2Version.modTime).Pairwise
          fun time time' => time' < time :=
        List.pairwise_map.mpr (sorter.sort_strict hdistinct)
      rw [← htimes] at hstrict
      exact List.pairwise_map.mp hstrict
    · rw [hmap FileInfo.static (XlMetaV2Version.fileInfo uuid volume path) fun _ version =>
        version.static_fileInfo uuid volume path]
      exact (sorter.perm z.versions).map _

def markerAt (uv : UUID) (modTime : Int) : XlMetaV2Version := .deleteType ⟨uv, modTime, ∅⟩

def olderNull : XlMetaV2 := { versions := [markerAt 0 1, markerAt 5 2] }

def sameID : XlMetaV2 := { versions := [markerAt 5 1, markerAt 5 2] }

theorem olderNull_readsAgree :
    ∃ listed, olderNull.ReadsAgree .google "" "" (.stable _) (.stable _)
      (fun fi => normalizeID fi.versionID) listed :=
  readsAgree_of_distinct .google "" "" olderNull (.stable _) (.stable _)
    ⟨by decide, by decide⟩ (by decide) (by decide)

/-- Looked up under the id that it is listed with, the null version reads as the
latest one, and of two versions under one id the newer one reads as the older. -/
theorem reads_disagree :
    (olderNull.AllValid ∧ olderNull.versions ≠ [] ∧
      (olderNull.versions.map XlMetaV2Version.modTime).Nodup ∧
      ¬ ∃ listed, olderNull.ReadsAgree .google "" "" (.stable _) (.stable _)
        FileInfo.versionID listed) ∧
    (sameID.AllValid ∧ sameID.versions ≠ [] ∧
      (sameID.versions.map XlMetaV2Version.modTime).Nodup ∧
      ¬ ∃ listed, sameID.ReadsAgree .google "" "" (.stable _) (.stable _)
        FileInfo.versionID listed) := by
  refine ⟨⟨by decide, by decide, by decide, ?_⟩, by decide, by decide, by decide, ?_⟩
  · rintro ⟨listed, ⟨modTime, hok⟩, hlookup, -⟩
    cases hok
    have hnull := hlookup _ (List.mem_cons_of_mem _ List.mem_cons_self)
    revert hnull
    decide
  · rintro ⟨listed, ⟨modTime, hok⟩, hlookup, -⟩
    cases hok
    have hnewer := hlookup _ List.mem_cons_self
    revert hnewer
    decide

end XlMetaV2

end Fs3
