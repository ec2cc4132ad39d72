import Fs3.ObjectLock.Handlers
import Fs3.ObjectLock.Versions

/-! # What the requests do to the versions of an object

Every handler that changes an object works on one id: it puts a version there, sets keys of the
version that is there, or deletes it. -/

namespace Fs3

open Foundation

/-- An object without its metadata: the contents that its version was written with. -/
def XlMetaV2Object.content (object : XlMetaV2Object) : XlMetaV2Object :=
  { object with metaSys := ∅, metaUser := ∅ }

namespace ObjectLayer

variable {ol : ObjectLayer} {z z' : XlMetaV2} {object : XlMetaV2Object}
variable {name versionID : String} {fi : FileInfo} {fresh : UUID}

/-- A change of one object that leaves the versions of all ids but one alone. -/
structure ActsOn (uv : UUID) (z z' : XlMetaV2) : Prop where
  sound : z'.Sound
  others : ∀ object, z.Holds object → object.versionID ≠ uv → z'.Holds object

/-- The id a version gets that is put or deleted: the requested one, or a new one. -/
def chosenID (ol : ObjectLayer) (versionID : String) (fresh : UUID) : Option UUID :=
  if versionID = "" then some fresh else parseVersionID ol.uuid versionID

theorem parseVersionID_print (uuid : UuidPackage) (uv : UUID) :
    parseVersionID uuid (uuid.print uv) = some uv := by
  rw [parseVersionID, if_neg, uuid.parse_print]
  rintro (hempty | hnull)
  · exact uuid.print_ne_empty uv hempty
  · exact uuid.print_ne_null uv hnull

theorem putObject_actsOn (hsound : z.Sound) (hput : ol.putObject z versionID fi fresh = .ok z') :
    ∃ uv, ol.chosenID versionID fresh = some uv ∧ ActsOn uv z z' := by
  obtain ⟨hsound', uv, hparse, hagree⟩ := XlMetaV2.sound_of_addVersion hsound hput
  refine ⟨uv, ?_, hsound', fun object hholds hne => hholds.of_agreeExcept hagree hne⟩
  rw [← hparse, chosenID]
  dsimp only
  split
  · exact (parseVersionID_print ol.uuid fresh).symm
  · rfl

/-! ## Updates of metadata -/

/-- An update of one object, in its place, that keeps its modification time. -/
structure Updates (object : XlMetaV2Object) (fi : FileInfo) (z z' : XlMetaV2) : Prop where
  exists_split : ∃ before after, z.versions = before ++ .objectType object :: after ∧
    z'.versions = before ++ .objectType (object.update fi) :: after
  modTime : fi.modTime = Time.zero ∨ fi.modTime = Time.ofUnixNano object.modTime

namespace Updates

section

variable (hupdates : Updates object fi z z')
include hupdates

theorem modTime_eq : (object.update fi).modTime = object.modTime := by
  simp only [XlMetaV2Object.update]
  split
  · rfl
  next hne =>
    rcases hupdates.modTime with hzero | hsame
    · exact absurd hzero hne
    · rw [hsame] at hne ⊢
      rw [Time.unixNano, if_neg hne]
      rfl

theorem content_eq : (object.update fi).content = object.content := by
  have hmodTime := hupdates.modTime_eq
  simp only [XlMetaV2Object.content, XlMetaV2Object.update] at hmodTime ⊢
  rw [hmodTime]

theorem mem : .objectType object ∈ z.versions := by
  obtain ⟨before, after, hversions, -⟩ := hupdates.exists_split
  rw [hversions]
  exact List.mem_append_right _ List.mem_cons_self

theorem mem_update : .objectType (object.update fi) ∈ z'.versions := by
  obtain ⟨before, after, -, hversions⟩ := hupdates.exists_split
  rw [hversions]
  exact List.mem_append_right _ List.mem_cons_self

theorem eq_or_mem {version : XlMetaV2Version} (hmem : version ∈ z'.versions) :
    version = .objectType (object.update fi) ∨ version ∈ z.versions := by
  obtain ⟨before, after, hversions, hresult⟩ := hupdates.exists_split
  rw [hresult] at hmem
  rw [hversions]
  simp only [List.mem_append, List.mem_cons] at hmem ⊢
  tauto

theorem sound (hsound : z.Sound) : z'.Sound := by
  obtain ⟨before, after, hversions, hresult⟩ := hupdates.exists_split
  refine hsound.replace hversions hresult rfl ?_ rfl
  have hvalid := hsound.allValid _ hupdates.mem
  simp only [XlMetaV2Version.valid] at hvalid ⊢
  rw [hupdates.modTime_eq]
  exact hvalid

theorem unmarked (hholds : z.Holds object) : z'.Holds (object.update fi) := by
  refine ⟨hupdates.mem_update,
    (XlMetaV2Object.headerValue_union fun key value hvalue => ?_).trans hholds.unmarked⟩
  rw [getElem?_filter_key] at hvalue
  split at hvalue
  next hreserved => exact not_equals_versionPurgeStatusKey hreserved
  next => cases hvalue

theorem actsOn (hsound : z.Sound) : ActsOn object.versionID z z' := by
  refine ⟨hupdates.sound hsound, fun other hholds hother => ⟨?_, hholds.unmarked⟩⟩
  obtain ⟨before, after, hversions, hresult⟩ := hupdates.exists_split
  have hin := hholds.mem
  rw [hversions, List.mem_append, List.mem_cons] at hin
  rw [hresult]
  rcases hin with hin | heq | hin
  · exact List.mem_append_left _ hin
  · exact absurd (congrArg XlMetaV2Version.uuid heq) hother
  · exact List.mem_append_right _ (List.mem_cons_of_mem _ hin)

end

end Updates

/-- An update of what was read works on the version that was read. -/
theorem updates_of_updateObjectVersion {read : FileInfo} (hsound : z.Sound)
    (hok : z.toFileInfo ol.uuid ol.bucket name ol.sorter versionID = .ok read)
    (hdeleted : read.deleted = false) (hupdate : z.updateObjectVersion ol.uuid fi = .ok z')
    (hid : versionID ≠ "" → parseVersionID ol.uuid fi.versionID =
      parseVersionID ol.uuid versionID)
    (hlatest : versionID = "" → fi.versionID = read.versionID)
    (hmodTime : fi.modTime = Time.zero ∨ fi.modTime = read.modTime) :
    ∃ object, Updates object fi z z' ∧ read.metadata = object.metadata ∧
      (versionID ≠ "" → parseVersionID ol.uuid versionID = some object.versionID) ∧
      (versionID = "" → ∀ other ∈ z.versions,
        other.modTime ≤ (XlMetaV2Version.objectType object).modTime) := by
  obtain ⟨uv, before, stored, after, hparse, hversions, rfl, rfl⟩ :=
    XlMetaV2.updateObjectVersion_cases hupdate
  obtain ⟨found, hfound, hstatic, hnamed, hnewest⟩ := XlMetaV2.exists_of_toFileInfo hok
  obtain ⟨object, rfl⟩ := hsound.exists_object hfound
    ((congrArg FileInfo.deleted hstatic).symm.trans hdeleted)
  have hmem : .objectType stored ∈ z.versions := by
    rw [hversions]
    exact List.mem_append_right _ List.mem_cons_self
  have hsame : object.versionID = stored.versionID := by
    by_cases hempty : versionID = ""
    · have htext : read.versionID = uuidText ol.uuid object.versionID :=
        congrArg FileInfo.versionID hstatic
      rw [hlatest hempty, htext, parseVersionID_uuidText] at hparse
      exact Option.some.inj hparse
    · obtain ⟨uv, hparse', hanswers⟩ := hnamed hempty
      rw [hid hempty, hparse'] at hparse
      exact ((hsound.answersTo_iff hfound).mp hanswers).trans (Option.some.inj hparse)
  obtain rfl := XlMetaV2Version.objectType.inj (hsound.eq_of_uuid hfound hmem hsame)
  refine ⟨object, ⟨⟨before, after, hversions, rfl⟩, ?_⟩, congrArg FileInfo.metadata hstatic,
    fun hne => (hid hne).symm.trans hparse, hnewest⟩
  rcases hmodTime with hzero | hread
  · exact Or.inl hzero
  · exact Or.inr (hread.trans (congrArg FileInfo.modTime hstatic))

theorem putObjectMetadata_cases {userDefined : Metadata} (hsound : z.Sound) (hne : versionID ≠ "")
    (hput : ol.putObjectMetadata z name versionID Time.zero userDefined = .ok z') :
    ∃ object fi, Updates object fi z z' ∧ fi.metadata = object.metadata ∪ userDefined ∧
      parseVersionID ol.uuid versionID = some object.versionID := by
  unfold putObjectMetadata at hput
  split at hput
  · cases hput
  next read hok =>
    split at hput
    · cases hput
    next hdeleted =>
      obtain ⟨object, hupdates, hmetadata, hparse, -⟩ :=
        updates_of_updateObjectVersion hsound hok (by simpa using hdeleted) hput (fun _ => rfl)
          (fun hempty => absurd hempty hne) (Or.inl rfl)
      exact ⟨object, _, hupdates, by rw [hmetadata], hparse hne⟩

theorem putObjectTags_cases {tags : String} {userDefined : Metadata} (hsound : z.Sound)
    (hput : ol.putObjectTags z name versionID tags userDefined = .ok z') :
    ∃ object fi, Updates object fi z z' ∧
      fi.metadata = object.metadata.insert amzObjectTagging tags ∪ userDefined ∧
      (versionID ≠ "" → parseVersionID ol.uuid versionID = some object.versionID) ∧
      (versionID = "" → ∀ other ∈ z.versions,
        other.modTime ≤ (XlMetaV2Version.objectType object).modTime) := by
  unfold putObjectTags at hput
  split at hput
  · cases hput
  next read hok =>
    split at hput
    · cases hput
    next hdeleted =>
      have hobject : read.deleted = false := by simpa using hdeleted
      have hread : versionID ≠ "" → parseVersionID ol.uuid read.versionID =
          parseVersionID ol.uuid versionID := by
        intro hne
        obtain ⟨found, hfound, hstatic, hnamed, -⟩ := XlMetaV2.exists_of_toFileInfo hok
        obtain ⟨uv, hparse, hanswers⟩ := hnamed hne
        obtain ⟨object, rfl⟩ := hsound.exists_object hfound
          ((congrArg FileInfo.deleted hstatic).symm.trans hobject)
        have htext : read.versionID = uuidText ol.uuid object.versionID :=
          congrArg FileInfo.versionID hstatic
        rw [htext, parseVersionID_uuidText, hparse, ← (hsound.answersTo_iff hfound).mp hanswers]
        rfl
      obtain ⟨object, hupdates, hmetadata, hparse, hnewest⟩ :=
        updates_of_updateObjectVersion hsound hok hobject hput hread (fun _ => rfl) (Or.inr rfl)
      exact ⟨object, _, hupdates, by rw [hmetadata], hparse, hnewest⟩

theorem putObjectMetadata_actsOn {userDefined : Metadata} (hsound : z.Sound)
    (hne : versionID ≠ "")
    (hput : ol.putObjectMetadata z name versionID Time.zero userDefined = .ok z') :
    ∃ uv, parseVersionID ol.uuid versionID = some uv ∧ ActsOn uv z z' ∧
      ∀ object, z.Holds object → object.versionID = uv →
        ∃ object', z'.Holds object' ∧ object'.content = object.content ∧
          ∀ key, isUserKey key = true →
            object'.metadata[key]? = userDefined[key]?.or object.metadata[key]? := by
  obtain ⟨stored, fi, hupdates, hmetadata, hparse⟩ := putObjectMetadata_cases hsound hne hput
  refine ⟨stored.versionID, hparse, hupdates.actsOn hsound, fun object hholds hid => ?_⟩
  obtain rfl : object = stored := XlMetaV2Version.objectType.inj
    (hsound.eq_of_uuid hholds.mem hupdates.mem hid)
  refine ⟨_, hupdates.unmarked hholds, hupdates.content_eq, fun key huser => ?_⟩
  rw [XlMetaV2Object.getElem?_metadata_update huser, hmetadata, Std.ExtTreeMap.getElem?_union]
  cases userDefined[key]? with
  | none => cases object.metadata[key]? <;> rfl
  | some value => rfl

/-! ## Deletes -/

theorem toObjectInfo_versionID_ne (fi : FileInfo) : (toObjectInfo fi).versionID ≠ "" := by
  simp only [toObjectInfo, FileInfo.toObjectInfo]
  split
  · decide
  next hne => exact fun hempty => hne ⟨by decide, hempty⟩

theorem getObjectInfo_latest (hsound : z.Sound) (hne : z.versions ≠ []) (deleteMarker : Bool) :
    ∃ info : LockedObjectInfo, (ol.getObjectInfo z name "" deleteMarker).1 = some info ∧
      info.versionID ≠ "" := by
  obtain ⟨latest, -, -, -, hrecord⟩ :=
    XlMetaV2.exists_latest ol.uuid ol.bucket name ol.sorter hsound.allValid hne
  unfold XlMetaV2.record at hrecord
  cases hok : z.toFileInfo ol.uuid ol.bucket name ol.sorter "" with
  | error err =>
    rw [hok] at hrecord
    cases hrecord
  | ok fi =>
    refine ⟨toObjectInfo fi, ?_, toObjectInfo_versionID_ne fi⟩
    rw [getObjectInfo, hok]
    dsimp only
    repeat' split <;> try rfl

open ErasureObjects in
theorem parse_requestID {opts : DeleteOptions} {goi : Option ObjectInfo}
    (hversioned : opts.versioning = .enabled)
    (hfound : opts.versionID = "" → ∃ info, goi = some info ∧ info.versionID ≠ "") :
    parseVersionID ol.uuid (requestID ol.uuid opts goi fresh) =
      ol.chosenID opts.versionID fresh := by
  have hon : opts.versioned = true := by rw [DeleteOptions.versioned, hversioned]; rfl
  rw [chosenID]
  split
  next hempty =>
    obtain ⟨info, rfl, hne⟩ := hfound hempty
    have hmarks : marksVersion opts (some info) = true := by
      simp [marksVersion, markDelete, hempty, hne, hon]
    rw [requestID, hmarks, hon, hempty]
    exact parseVersionID_print ol.uuid fresh
  next hne =>
    have hid : (opts.versionID == "") = false := beq_eq_false_iff_ne.mpr hne
    rw [requestID, hon, hid]
    simp

open ErasureObjects in
theorem deleteRequest_marks {opts : DeleteOptions} {call : DeleteCall} {goi : Option ObjectInfo}
    (hversioned : opts.versioning = .enabled)
    (hstatus : opts.versionID ≠ "" → opts.deleteMarkerReplicationStatus = "" ∨
      opts.deleteMarkerReplicationStatus = "REPLICA")
    (hupdate : (deleteRequest ol.uuid opts call goi).updateVersion = false)
    (hmarked : (deleteRequest ol.uuid opts call goi).markDeleted = true)
    (hpurge : (deleteRequest ol.uuid opts call goi).versionPurgeStatus ≠ purgeComplete) :
    (deleteRequest ol.uuid opts call goi).deleted = true := by
  have hon : opts.versioned = true := by rw [DeleteOptions.versioned, hversioned]; rfl
  simp only [deleteRequest] at hmarked hpurge ⊢
  rw [deleteMarker]
  split
  next hnamed =>
    obtain ⟨hne, hany⟩ := hnamed
    have hsome : goi.isSome = true := by
      cases goi with
      | none => cases hany
      | some info => rfl
    -- A version that is there is marked only where its purge is pending.
    have hpending : opts.versionPurgeStatus ≠ "" := by
      intro hempty
      rcases hstatus hne with hnone | hreplica
      · simp [markDelete, hne, hempty, hnone] at hmarked
      · simp [markDelete, hne, hsome, hreplica] at hmarked
    rw [FileInfo.updateVersion] at hupdate
    simp [deleteRequest, hpending, hpurge] at hupdate
  next => exact hon

/-- A delete that reaches the drives works on the id of its request. -/
theorem deleteVersion_actsOn {force : Bool} (hsound : z.Sound)
    (hmarks : fi.updateVersion = false → fi.markDeleted = true →
      fi.versionPurgeStatus ≠ purgeComplete → fi.deleted = true)
    (hexpire : fi.expireRestored = false) (htransition : fi.transitionStatus = "") :
    ol.deleteVersion z fi force = z ∨
      ∃ uv, parseVersionID ol.uuid fi.versionID = some uv ∧
        ActsOn uv z (ol.deleteVersion z fi force) := by
  rw [deleteVersion]
  split
  next hempty =>
    have hnil : z.versions = [] := List.isEmpty_iff.mp hempty
    split
    · cases hadd : z.addVersion ol.uuid fi with
      | error err => exact Or.inl rfl
      | ok z' =>
        obtain ⟨hsound', uv, hparse, -⟩ := XlMetaV2.sound_of_addVersion hsound hadd
        refine Or.inr ⟨uv, hparse, hsound', fun object hholds => ?_⟩
        have hmem := hholds.mem
        rw [hnil] at hmem
        cases hmem
    · exact Or.inl rfl
  next =>
    split
    · exact Or.inl rfl
    next z' dataDir lastVersion hdelete =>
      obtain ⟨uv, freed, hparse, hentry, -, hcase, -, rfl⟩ :=
        XlMetaV2.deleteVersion_cases hdelete
      have hsound' := XlMetaV2.sound_of_deleteCase hsound
        ⟨hentry, hmarks, hexpire, htransition⟩ hcase
      have hothers : ∀ object, z.Holds object → object.versionID ≠ uv → z'.Holds object :=
        fun object hholds hne => hholds.of_agreeExcept hcase.agreeExcept hne
      refine Or.inr ⟨uv, hparse, ?_⟩
      split
      next hlast =>
        refine ⟨XlMetaV2.sound_nil, fun object hholds hne => ?_⟩
        have hmem := (hothers object hholds hne).mem
        rw [List.isEmpty_iff.mp hlast] at hmem
        cases hmem
      next => exact ⟨hsound', hothers⟩

/-- A delete works on the version that its id names, or on a new delete marker. -/
theorem deleteObject_actsOn {opts : DeleteOptions} {now : Time} (hsound : z.Sound)
    (hversioned : opts.versioning = .enabled)
    (hstatus : opts.versionID ≠ "" → opts.deleteMarkerReplicationStatus = "" ∨
      opts.deleteMarkerReplicationStatus = "REPLICA")
    (hexpire : opts.expireRestored = false) (htransition : opts.transitionStatus = "") :
    ol.deleteObject z name opts now fresh = z ∨
      ∃ uv, ol.chosenID opts.versionID fresh = some uv ∧
        ActsOn uv z (ol.deleteObject z name opts now fresh) := by
  have hacts : ∀ goi, ∀ force,
      let fi := ErasureObjects.deleteRequest ol.uuid opts
        { object := name, look := .ok [], now, fresh } goi
      ol.deleteVersion z fi force = z ∨ ∃ uv, parseVersionID ol.uuid fi.versionID = some uv ∧
        ActsOn uv z (ol.deleteVersion z fi force) := by
    intro goi force
    exact deleteVersion_actsOn hsound (deleteRequest_marks hversioned hstatus) hexpire htransition
  rw [deleteObject]
  dsimp only
  split
  · exact Or.inl rfl
  next hlook =>
    rcases hacts _ opts.deleteMarker with hsame | ⟨uv, hparse, hact⟩
    · exact Or.inl hsame
    by_cases hnone : opts.versionID = "" ∧ z.versions = []
    · -- The id of the request is empty as well, but nothing is there that it could name.
      refine Or.inr ⟨fresh, by rw [chosenID, if_pos hnone.1], hact.sound, fun object hholds => ?_⟩
      have hmem := hholds.mem
      rw [hnone.2] at hmem
      cases hmem
    · refine Or.inr ⟨uv, ?_, hact⟩
      rw [← hparse]
      refine (parse_requestID hversioned fun hempty => ?_).symm
      rw [hempty]
      obtain ⟨info, hinfo, hne⟩ := @getObjectInfo_latest ol z name hsound
        (fun hnil => hnone ⟨hempty, hnil⟩) opts.deleteMarker
      exact ⟨info.toObjectInfo, by rw [hinfo]; rfl, hne⟩

end ObjectLayer

end Fs3
