import Fs3.ObjectLock.ObjectLayer

/-! # What the object layer does to one version

A lookup finds the one version that an id names. -/

namespace Fs3

open Foundation

def isUserKey (key : String) : Bool := !isReserved key && !isUnencryptedContent key

/-- Whether a key of the user's is one that `cleanMetadata` does not remove. -/
def isPlainKey (key : String) : Bool :=
  isUserKey key && !cleanedKeys.contains key && key != amzStorageClass

theorem isUserKey_of_isPlainKey {key : String} (hplain : isPlainKey key = true) :
    isUserKey key = true := by
  simp only [isPlainKey, Bool.and_eq_true] at hplain
  exact hplain.1.1

theorem getElem?_cleanMetadata {key : String} (metadata : Metadata)
    (hplain : isPlainKey key = true) : (cleanMetadata metadata)[key]? = metadata[key]? := by
  simp only [isPlainKey, Bool.and_eq_true, bne_iff_ne, Bool.not_eq_true'] at hplain
  rw [cleanMetadata, getElem?_filter_key, if_pos (by rw [hplain.1.2]; rfl)]
  split
  · rw [Std.ExtTreeMap.getElem?_erase, if_neg fun h =>
      hplain.2 (Std.LawfulEqOrd.eq_of_compare h).symm]
  · rfl

theorem getElem?_insert_ne {key other : String} (metadata : Metadata) (value : String)
    (hne : other ≠ key) : (metadata.insert key value)[other]? = metadata[other]? := by
  rw [Std.ExtTreeMap.getElem?_insert, if_neg fun h => hne (Std.LawfulEqOrd.eq_of_compare h).symm]

namespace XlMetaV2Object

variable {object : XlMetaV2Object} {fi : FileInfo} {key : String}

theorem getElem?_metadata (huser : isUserKey key = true) :
    object.metadata[key]? = object.metaUser[key]? := by
  simp only [isUserKey, Bool.and_eq_true, Bool.not_eq_true'] at huser
  rw [metadata, Std.ExtTreeMap.getElem?_union, getElem?_filter_key, getElem?_filter_key,
    ← isUnencryptedContent, huser.1, huser.2]
  simp

theorem getElem?_metadata_update (huser : isUserKey key = true) :
    (object.update fi).metadata[key]? = fi.metadata[key]?.or object.metadata[key]? := by
  have hreserved : isReserved key = false := by
    simp only [isUserKey, Bool.and_eq_true, Bool.not_eq_true'] at huser
    exact huser.1
  rw [getElem?_metadata huser, getElem?_metadata huser, update, Std.ExtTreeMap.getElem?_union,
    getElem?_filter_key, hreserved]
  simp

theorem headerValue_union {metaSys added : Metadata}
    (hnone : ∀ other value, added[other]? = some value → equals other [key] = false) :
    headerValue (metaSys ∪ added) key = headerValue metaSys key := by
  have hmem : ∀ entry : String × String, equals entry.1 [key] = true →
      (entry ∈ (metaSys ∪ added).toList ↔ entry ∈ metaSys.toList) := by
    intro entry hentry
    rw [Std.ExtTreeMap.mem_toList_iff_getElem?_eq_some,
      Std.ExtTreeMap.mem_toList_iff_getElem?_eq_some, Std.ExtTreeMap.getElem?_union]
    cases hadded : added[entry.1]? with
    | none => rfl
    | some value =>
      rw [hnone _ _ hadded] at hentry
      cases hentry
  have hsorted : ∀ metadata : Metadata, (metadata.toList.filter fun entry =>
      equals entry.1 [key]).Pairwise fun first second => compare first.1 second.1 = .lt :=
    fun metadata => Std.ExtTreeMap.ordered_keys_toList.filter _
  have heq : ((metaSys ∪ added).toList.filter fun entry => equals entry.1 [key]) =
      metaSys.toList.filter fun entry => equals entry.1 [key] := by
    have hperm : ((metaSys ∪ added).toList.filter fun entry => equals entry.1 [key]).Perm
        (metaSys.toList.filter fun entry => equals entry.1 [key]) := by
      rw [List.perm_ext_iff_of_nodup]
      · intro entry
        rw [List.mem_filter, List.mem_filter]
        exact and_congr_left fun hentry => hmem entry hentry
      · exact (hsorted _).imp fun hlt heq => by simp [heq] at hlt
      · exact (hsorted _).imp fun hlt heq => by simp [heq] at hlt
    refine hperm.eq_of_pairwise (fun first second _ _ hlt hgt => ?_) (hsorted _) (hsorted _)
    rw [Std.OrientedCmp.gt_of_lt hlt] at hgt
    cases hgt
  rw [headerValue, headerValue, heq]

end XlMetaV2Object

/-! ## Lookups -/

namespace XlMetaV2

variable {uuid : UuidPackage} {volume path versionID : String} {z z' : XlMetaV2}
variable {sorter : DescendingSort XlMetaV2Version.modTime} {fi : FileInfo} {uv : UUID}

theorem exists_of_toFileInfo (hok : z.toFileInfo uuid volume path sorter versionID = .ok fi) :
    ∃ version ∈ z.versions, fi.static = version.fileInfo uuid volume path ∧
      (versionID ≠ "" → ∃ uv, parseVersionID uuid versionID = some uv ∧
        version.answersTo uv versionID = true) ∧
      (versionID = "" → ∀ other ∈ z.versions, other.modTime ≤ version.modTime) := by
  have hrecord : z.record uuid volume path sorter versionID = .ok fi.static := by
    rw [record, hok]
    rfl
  by_cases hne : versionID = ""
  · subst hne
    obtain ⟨latest, rest, hsort, hlatest⟩ := latest_of_toFileInfo hok
    refine ⟨latest, ?_, hlatest, fun h => absurd rfl h, fun _ => sorter.key_le_head hsort⟩
    rw [← sorter.mem_sort, hsort]
    exact List.mem_cons_self
  · have hvalid := allValid_of_toFileInfo hok
    obtain ⟨uv, hparse, hsome⟩ :=
      (exists_toFileInfo_iff volume path sorter hvalid hne).mp ⟨fi, hok⟩
    obtain ⟨version, holdest, hfound⟩ := exists_record volume path sorter hvalid hparse hne hsome
    rw [hrecord] at hfound
    exact ⟨version, holdest.1, Except.ok.inj hfound, fun _ => ⟨uv, hparse, holdest.2.1⟩,
      fun hempty => absurd hempty hne⟩

theorem Sound.exists_toFileInfo (hsound : z.Sound) {version : XlMetaV2Version}
    (hmem : version ∈ z.versions) (hne : versionID ≠ "")
    (hparse : parseVersionID uuid versionID = some version.uuid) :
    ∃ fi, z.toFileInfo uuid volume path sorter versionID = .ok fi ∧
      fi.static = version.fileInfo uuid volume path := by
  have hanswers : version.answersTo version.uuid versionID = true :=
    (hsound.answersTo_iff hmem).mpr rfl
  obtain ⟨fi, hok⟩ := (exists_toFileInfo_iff volume path sorter hsound.allValid hne).mpr
    ⟨version.uuid, hparse, version, hmem, hanswers⟩
  obtain ⟨found, hfound, hstatic, hnamed, -⟩ := exists_of_toFileInfo hok
  obtain ⟨uv, hparse', hanswers'⟩ := hnamed hne
  rw [hparse] at hparse'
  have huuid := (hsound.answersTo_iff hfound).mp hanswers'
  rw [← Option.some.inj hparse'] at huuid
  rw [hsound.eq_of_uuid hfound hmem huuid] at hstatic
  exact ⟨fi, hok, hstatic⟩

theorem Sound.exists_object (hsound : z.Sound) {version : XlMetaV2Version}
    (hmem : version ∈ z.versions) (hdeleted : (version.fileInfo uuid volume path).deleted = false) :
    ∃ object, version = .objectType object := by
  cases version with
  | invalid => exact absurd (hsound.allValid _ hmem) (by decide)
  | objectType object => exact ⟨object, rfl⟩
  | deleteType => cases hdeleted
  | legacyType => cases hsound.notLegacy _ hmem

end XlMetaV2

namespace ObjectLayer

variable {ol : ObjectLayer} {z z' : XlMetaV2} {object : XlMetaV2Object}
variable {name versionID : String} {deleteMarker : Bool} {info : LockedObjectInfo}

/-- What the object layer says about one object of a journal. -/
structure Describes (ol : ObjectLayer) (object : XlMetaV2Object) (info : LockedObjectInfo) :
    Prop where
  userDefined : info.userDefined = cleanMetadata object.metadata
  deleteMarker : info.deleteMarker = false
  versionID : info.versionID =
    if uuidText ol.uuid object.versionID = "" then nullVersionID
    else uuidText ol.uuid object.versionID

theorem Describes.versionID_ne (hdescribes : ol.Describes object info) : info.versionID ≠ "" := by
  rw [hdescribes.versionID]
  split
  · decide
  next hne => exact hne

theorem Describes.parse (hdescribes : ol.Describes object info) :
    parseVersionID ol.uuid info.versionID = some object.versionID := by
  have hparse := parseVersionID_uuidText ol.uuid object.versionID
  rw [hdescribes.versionID]
  split
  next hempty =>
    rw [hempty, parseVersionID_empty] at hparse
    exact hparse
  next => exact hparse

theorem describes_toObjectInfo {fi : FileInfo}
    (hstatic : fi.static = (XlMetaV2Version.objectType object).fileInfo ol.uuid ol.bucket name) :
    ol.Describes object (toObjectInfo fi) := by
  have hmetadata : fi.metadata = object.metadata := congrArg FileInfo.metadata hstatic
  have hdeleted : fi.deleted = false := congrArg FileInfo.deleted hstatic
  have hid : fi.versionID = uuidText ol.uuid object.versionID :=
    congrArg FileInfo.versionID hstatic
  refine ⟨congrArg cleanMetadata hmetadata, hdeleted, ?_⟩
  simp [toObjectInfo, FileInfo.toObjectInfo, hid]

theorem getObjectInfo_of_holds (hsound : z.Sound) (hholds : z.Holds object) (hne : versionID ≠ "")
    (hparse : parseVersionID ol.uuid versionID = some object.versionID) :
    ∃ info, ol.getObjectInfo z name versionID deleteMarker = (some info, none) ∧
      ol.Describes object info := by
  obtain ⟨fi, hok, hstatic⟩ :=
    @XlMetaV2.Sound.exists_toFileInfo ol.uuid ol.bucket name versionID z ol.sorter hsound _
      hholds.mem hne hparse
  have hpurge : fi.versionPurgeStatus = "" :=
    (congrArg FileInfo.versionPurgeStatus hstatic).trans hholds.unmarked
  have hdeleted : fi.deleted = false := congrArg FileInfo.deleted hstatic
  refine ⟨toObjectInfo fi, ?_, describes_toObjectInfo hstatic⟩
  rw [getObjectInfo, hok]
  dsimp only
  rw [if_neg (not_not_intro hpurge), if_neg (by simp [hdeleted])]

theorem holds_of_getObjectInfo (hsound : z.Sound)
    (hinfo : ol.getObjectInfo z name versionID deleteMarker = (some info, none)) :
    ∃ object, z.Holds object ∧ ol.Describes object info ∧
      (versionID ≠ "" → parseVersionID ol.uuid versionID = some object.versionID) ∧
      (versionID = "" → ∀ other ∈ z.versions,
        other.modTime ≤ (XlMetaV2Version.objectType object).modTime) := by
  unfold getObjectInfo at hinfo
  split at hinfo
  · cases hinfo
  next fi hok =>
    split at hinfo
    · cases hinfo
    next hpurge =>
      split at hinfo
      · split at hinfo <;> cases hinfo
      next hdeleted =>
        obtain ⟨version, hmem, hstatic, hnamed, hnewest⟩ := XlMetaV2.exists_of_toFileInfo hok
        obtain ⟨object, rfl⟩ := hsound.exists_object hmem
          ((congrArg FileInfo.deleted hstatic).symm.trans (Bool.not_eq_true _ ▸ hdeleted))
        obtain rfl := Option.some.inj (Prod.mk.inj hinfo).1
        refine ⟨object, ⟨hmem, ?_⟩, describes_toObjectInfo hstatic, fun hne => ?_, hnewest⟩
        · exact (congrArg FileInfo.versionPurgeStatus hstatic).symm.trans (not_not.mp hpurge)
        · obtain ⟨uv, hparse, hanswers⟩ := hnamed hne
          rw [hparse, ← (hsound.answersTo_iff hmem).mp hanswers]
          rfl

end ObjectLayer

/-! ## Operations keep a journal sound -/

namespace XlMetaV2

variable {uuid : UuidPackage} {clock : Clock} {z z' : XlMetaV2} {fi : FileInfo} {uv : UUID}
variable {object : XlMetaV2Object} {before after : List XlMetaV2Version}

theorem Sound.replace (hsound : z.Sound) {old new : XlMetaV2Version}
    (hversions : z.versions = before ++ old :: after)
    (hresult : z'.versions = before ++ new :: after) (huuid : new.uuid = old.uuid)
    (hvalid : new.valid = true) (hlegacy : new.isLegacy = false) : z'.Sound := by
  have hmem : ∀ version ∈ z'.versions, version = new ∨ version ∈ z.versions := by
    intro version hversion
    rw [hresult] at hversion
    rw [hversions]
    simp only [List.mem_append, List.mem_cons] at hversion ⊢
    tauto
  have hnodup := hsound.nodup
  rw [hversions, List.map_append, List.map_cons] at hnodup
  refine ⟨⟨fun version hversion => ?_, ?_⟩, fun version hversion => ?_⟩
  · rcases hmem version hversion with rfl | hversion
    · exact hvalid
    · exact hsound.allValid version hversion
  · rw [hresult, List.map_append, List.map_cons, huuid]
    exact hnodup
  · rcases hmem version hversion with rfl | hversion
    · exact hlegacy
    · exact hsound.notLegacy version hversion

theorem Sound.remove (hsound : z.Sound) {old : XlMetaV2Version}
    (hversions : z.versions = before ++ old :: after)
    (hresult : z'.versions = before ++ after) : z'.Sound := by
  have hsub : z'.versions.Sublist z.versions := by
    rw [hresult, hversions]
    exact List.Sublist.append_left (List.sublist_cons_self old after) before
  exact ⟨⟨fun version hversion => hsound.allValid version (hsub.subset hversion),
    (hsub.map _).nodup hsound.nodup⟩,
    fun version hversion => hsound.notLegacy version (hsub.subset hversion)⟩

theorem Sound.append (hsound : z.Sound) {new : XlMetaV2Version}
    (hunused : ∀ version ∈ z.versions, version.uuid ≠ new.uuid) (hvalid : new.valid = true)
    (hlegacy : new.isLegacy = false) (hresult : z'.versions = z.versions ++ [new]) :
    z'.Sound := by
  have hmem : ∀ version ∈ z'.versions, version = new ∨ version ∈ z.versions := by
    intro version hversion
    rw [hresult, List.mem_append, List.mem_singleton] at hversion
    exact hversion.symm
  refine ⟨⟨fun version hversion => ?_, ?_⟩, fun version hversion => ?_⟩
  · rcases hmem version hversion with rfl | hversion
    · exact hvalid
    · exact hsound.allValid version hversion
  · rw [hresult, List.map_append, List.map_singleton, List.nodup_append]
    refine ⟨hsound.nodup, List.nodup_singleton _, ?_⟩
    intro id hid other hother
    obtain ⟨version, hversion, rfl⟩ := List.mem_map.mp hid
    rw [List.mem_singleton.mp hother]
    exact hunused version hversion
  · rcases hmem version hversion with rfl | hversion
    · exact hlegacy
    · exact hsound.notLegacy version hversion

theorem Sound.unused_of_split (hsound : z.Sound) {old : XlMetaV2Version}
    (hversions : z.versions = before ++ old :: after) :
    ∀ version ∈ before ++ after, version.uuid ≠ old.uuid := by
  have hnodup := hsound.nodup
  rw [hversions, List.map_append, List.map_cons, List.nodup_middle, List.nodup_cons,
    ← List.map_append] at hnodup
  intro version hversion heq
  exact hnodup.1 (List.mem_map.mpr ⟨version, hversion, heq⟩)

theorem Holds.of_agreeExcept (hholds : z.Holds object)
    (hagree : AgreeExcept uv z.versions z'.versions) (hne : object.versionID ≠ uv) :
    z'.Holds object where
  mem := (hagree (.objectType object) (by simp) hne).mpr hholds.mem
  unmarked := hholds.unmarked

theorem sound_of_addVersion (hsound : z.Sound) (hadd : z.addVersion uuid fi = .ok z') :
    z'.Sound ∧ ∃ uv, parseVersionID uuid fi.versionID = some uv ∧
      AgreeExcept uv z.versions z'.versions := by
  obtain ⟨uv, dd, hparse, -, hvalid, -, hcase⟩ := addVersion_cases hadd
  have hnormal : parseVersionID uuid (normalizeID fi.versionID) = some uv :=
    (parseVersionID_normalizeID uuid fi.versionID).trans hparse
  refine ⟨?_, uv, hparse, hcase.agreeExcept hnormal (fi.toVersion_uuid uv dd)⟩
  generalize hresult : z'.versions = result at hcase
  cases hcase with
  | replace before old after hversions hbefore hold =>
    have hmem : old ∈ z.versions := by
      rw [hversions]
      exact List.mem_append_right _ List.mem_cons_self
    refine hsound.replace hversions hresult ?_ hvalid (fi.toVersion_isLegacy uv dd)
    rw [(hsound.answersTo_iff hmem).mp hold, fi.toVersion_uuid]
  | append hnone =>
    refine hsound.append (fun version hversion heq => ?_) hvalid (fi.toVersion_isLegacy uv dd)
      hresult
    have hanswers := hnone version hversion
    rw [fi.toVersion_uuid] at heq
    rw [(hsound.answersTo_iff hversion).mpr heq] at hanswers
    cases hanswers

/-- What a request of a delete has to be for the journal to stay sound: a marker
that it adds can be read, it adds one where it marks and drops, and it leaves
nothing of an object that it drops. -/
structure KeepsSound (fi : FileInfo) (uv : UUID) : Prop where
  entry : fi.deleted = true → (fi.deleteEntry uv).valid = true
  marks : fi.updateVersion = false → fi.markDeleted = true →
    fi.versionPurgeStatus ≠ purgeComplete → fi.deleted = true
  expireRestored : fi.expireRestored = false
  transitionStatus : fi.transitionStatus = ""

theorem deleteEntry_isLegacy : (fi.deleteEntry uv).isLegacy = false := by
  unfold FileInfo.deleteEntry
  split <;> rfl

theorem KeepsSound.deleteEntry_uuid (hkeeps : KeepsSound fi uv) (hdeleted : fi.deleted = true) :
    (fi.deleteEntry uv).uuid = uv := by
  apply XlMetaV2.deleteEntry_uuid
  intro hinvalid
  have hvalid := hkeeps.entry hdeleted
  rw [hinvalid] at hvalid
  cases hvalid

theorem KeepsSound.drop (hkeeps : KeepsSound fi uv) (hsound : z.Sound) {old : XlMetaV2Version}
    (hversions : z.versions = before ++ old :: after) (huuid : old.uuid = uv)
    (adds : Bool) (hadds : adds = true → fi.deleted = true)
    (hresult : z'.versions = before ++ after ++ if adds then [fi.deleteEntry uv] else []) :
    z'.Sound := by
  have hremoved : XlMetaV2.Sound { versions := before ++ after } := hsound.remove hversions rfl
  cases adds with
  | false => exact hsound.remove hversions (hresult.trans (List.append_nil _))
  | true =>
    have hdeleted := hadds rfl
    refine hremoved.append (fun version hversion => ?_) (hkeeps.entry hdeleted)
      deleteEntry_isLegacy hresult
    rw [hkeeps.deleteEntry_uuid hdeleted, ← huuid]
    exact hsound.unused_of_split hversions version hversion

theorem sound_of_deleteCase (hsound : z.Sound) (hkeeps : KeepsSound fi uv)
    {freed : Option XlMetaV2Object} (hcase : DeleteCase fi uv z.versions z'.versions freed) :
    z'.Sound := by
  have hvalid : ∀ version ∈ z.versions, version.valid = true := hsound.allValid
  generalize hresult : z'.versions = result at hcase
  cases hcase with
  | markMarker before marker after hversions hbefore huuid hupdate =>
    have hmarked : (XlMetaV2Version.deleteType (marker.mark fi)).valid = true :=
      hvalid (.deleteType marker) (hversions ▸ List.mem_append_right _ List.mem_cons_self)
    exact hsound.replace hversions hresult rfl hmarked rfl
  | markObject before object after hversions hbefore huuid hupdate =>
    have hmarked : (XlMetaV2Version.objectType (object.mark fi)).valid = true :=
      hvalid (.objectType object) (hversions ▸ List.mem_append_right _ List.mem_cons_self)
    exact hsound.replace hversions hresult rfl hmarked rfl
  | dropMarker before marker after hversions hbefore huuid hupdate =>
    refine hkeeps.drop hsound hversions huuid
      (decide (fi.markDeleted = true ∧ fi.versionPurgeStatus ≠ purgeComplete)) ?_ ?_
    · intro hmark
      rw [decide_eq_true_iff] at hmark
      exact hkeeps.marks hupdate hmark.1 hmark.2
    · rw [hresult, List.append_assoc]
      simp only [decide_eq_true_eq]
  | dropObject before object after hversions hmarkers hbefore huuid hupdate =>
    have hkept : fi.keptObject object = [] := by
      rw [FileInfo.keptObject, hkeeps.expireRestored, hkeeps.transitionStatus]
      rfl
    refine hkeeps.drop hsound hversions huuid fi.deleted (fun hadds => hadds) ?_
    rw [hresult, hkept, List.nil_append, appendEntry_eq, List.append_assoc]
  | addMarker hversions hdeleted =>
    refine hsound.append (fun version hversion heq => ?_) (hkeeps.entry hdeleted)
      deleteEntry_isLegacy hresult
    rw [hkeeps.deleteEntry_uuid hdeleted] at heq
    have hnewer := hversions version hversion
    rw [XlMetaV2Version.isNewerOf_iff.mpr ⟨?_, hsound.notLegacy version hversion, heq⟩] at hnewer
    · cases hnewer
    · rintro rfl
      cases hvalid _ hversion

end XlMetaV2

end Fs3
