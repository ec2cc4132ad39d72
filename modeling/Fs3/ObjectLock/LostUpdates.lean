import Fs3.Journal.SharedDataDir
import Fs3.ObjectLock.MetadataRequests
import Fs3.ObjectLock.Worm

/-! # Lost updates

Requests on the metadata of one version, in any interleaving of their steps. -/

namespace Fs3

open Foundation

namespace MetadataRequest

def documentKeys : MetadataRequest → List String
  | retention _ _ => [lockModeKey, retainUntilDateKey]
  | legalHold _ _ => [legalHoldKey]
  | tags _ _ => [amzObjectTagging]

def ownKeys (replicate : Bool) (request : MetadataRequest) : List String :=
  request.documentKeys ++ if replicate then [amzBucketReplicationStatus] else []

def replicates (mustReplicate : Request → LockedObjectInfo → Bool) (request : MetadataRequest)
    (objInfo : LockedObjectInfo) : Bool :=
  mustReplicate request.request (request.intended objInfo)

/-- What a request writes back of what it has read, before it sets its keys. -/
def writtenBack (objInfo : LockedObjectInfo) : MetadataRequest → Metadata
  | tags _ _ => ∅
  | _ => objInfo.userDefined

/-- What a request has read is still good: it would be let pass again, replication
would decide alike, and what it writes back of other keys is still there. -/
def Fresh (ol : ObjectLayer) (mustReplicate : Request → LockedObjectInfo → Bool) (z : XlMetaV2)
    (request : MetadataRequest) (seen : LockedObjectInfo) : Prop :=
  ∃ now, request.look ol z = .ok now ∧
    request.replicates mustReplicate now = request.replicates mustReplicate seen ∧
    ∀ key value, key ∉ request.ownKeys (request.replicates mustReplicate seen) →
      (request.writtenBack seen)[key]? = some value → now.userDefined[key]? = some value

def system {ι : Type*} (ol : ObjectLayer) (mustReplicate : Request → LockedObjectInfo → Bool)
    (requests : ι → MetadataRequest) : TwoSteps XlMetaV2 ι LockedObjectInfo where
  look i z := ((requests i).look ol z).toOption
  store i seen z := ((requests i).store ol mustReplicate seen z).toOption.getD z

/-- A version is the one that a request is about: it is named, or newer than all others. -/
structure AimsAt (ol : ObjectLayer) (z : XlMetaV2) (object : XlMetaV2Object) (r : Request) :
    Prop where
  named : r.vid ≠ "" → parseVersionID ol.uuid r.vid = some object.versionID
  newest : r.vid = "" → ∀ other ∈ z.versions, other.uuid ≠ object.versionID →
    other.modTime < (XlMetaV2Version.objectType object).modTime

/-- All requests are about the version of one id. -/
structure OneVersion {ι : Type*} (ol : ObjectLayer) (requests : ι → MetadataRequest) (uv : UUID)
    (z : XlMetaV2) : Prop where
  sound : z.Sound
  exists_object : ∃ object, z.Holds object ∧ object.versionID = uv ∧
    ∀ i, AimsAt ol z object (requests i).request

/-- What clients may expect of concurrent requests: the effect of a serial order,
and no key of the user's changed by a request that is about other keys. -/
structure Isolated {ι : Type*} [DecidableEq ι] (ol : ObjectLayer)
    (mustReplicate : Request → LockedObjectInfo → Bool) (requests : ι → MetadataRequest)
    (uv : UUID) (z : XlMetaV2) (schedule : List ι) : Prop where
  serial : (system ol mustReplicate requests).Serial z
    (schedule.foldl (system ol mustReplicate requests).step (TwoSteps.start z))
  others : ∀ before i seen, before ++ [i] <+: schedule →
    (before.foldl (system ol mustReplicate requests).step (TwoSteps.start z)).phase i =
      .looked seen →
    ∀ object, (before.foldl (system ol mustReplicate requests).step
      (TwoSteps.start z)).shared.Holds object → object.versionID = uv →
      ∃ object', ((before ++ [i]).foldl (system ol mustReplicate requests).step
        (TwoSteps.start z)).shared.Holds object' ∧ object'.versionID = uv ∧
        ∀ key, isUserKey key = true →
          key ∉ (requests i).ownKeys ((requests i).replicates mustReplicate seen) →
          object'.metadata[key]? = object.metadata[key]?

variable {ι : Type*} {ol : ObjectLayer} {mustReplicate : Request → LockedObjectInfo → Bool}
variable {requests : ι → MetadataRequest} {uv : UUID} {z z' : XlMetaV2}
variable {object : XlMetaV2Object} {request : MetadataRequest} {r : Request}
variable {seen now objInfo : LockedObjectInfo}

theorem reads_of_readInfo (hsound : z.Sound) (hread : readInfo ol z r = .ok objInfo) :
    ∃ object, ol.Reads z r object ∧ ol.Describes object objInfo := by
  unfold readInfo at hread
  split at hread
  · cases hread
  next opts hopts =>
    split at hread
    · cases hread
    · cases hread
    next info hinfo =>
      obtain rfl := Except.ok.inj hread
      obtain ⟨object, hholds, hdescribes, hnamed, hnewest⟩ :=
        ObjectLayer.holds_of_getObjectInfo hsound hinfo
      rw [ObjectLayer.versionID_of_getOpts hopts] at hnamed hnewest
      exact ⟨object, ⟨hholds, hnamed, hnewest⟩, hdescribes⟩

theorem reads_of_look (hsound : z.Sound) (hlook : request.look ol z = .ok objInfo) :
    ∃ object, ol.Reads z request.request object ∧ ol.Describes object objInfo := by
  cases request with
  | retention r objRetention =>
    simp only [look] at hlook
    split at hlook
    · cases hlook
    split at hlook
    · cases hlook
    next info hcheck =>
      split at hlook
      · cases hlook
      obtain rfl := Except.ok.inj hlook
      obtain ⟨object, hreads, hdescribes, -⟩ :=
        ObjectLayer.enforceRetentionBypassForPut_cases hsound hcheck
      exact ⟨object, hreads, hdescribes⟩
  | legalHold r status =>
    simp only [look] at hlook
    split at hlook
    · cases hlook
    split at hlook
    · cases hlook
    next info hread =>
      split at hlook
      · cases hlook
      obtain rfl := Except.ok.inj hlook
      exact reads_of_readInfo hsound hread
  | tags r text =>
    simp only [look] at hlook
    split at hlook
    · cases hlook
    · exact reads_of_readInfo hsound hlook

theorem AimsAt.eq_of_newest (haims : AimsAt ol z object r) (hsound : z.Sound)
    (hholds : z.Holds object) {other : XlMetaV2Object} (hmem : .objectType other ∈ z.versions)
    (hnamed : r.vid ≠ "" → parseVersionID ol.uuid r.vid = some other.versionID)
    (hnewest : r.vid = "" → ∀ version ∈ z.versions,
      version.modTime ≤ (XlMetaV2Version.objectType other).modTime) : other = object := by
  refine XlMetaV2Version.objectType.inj (hsound.eq_of_uuid hmem hholds.mem ?_)
  by_cases hempty : r.vid = ""
  · by_contra hne
    exact absurd (haims.newest hempty _ hmem hne)
      (Int.not_lt.mpr (hnewest hempty _ hholds.mem))
  · exact Option.some.inj ((hnamed hempty).symm.trans (haims.named hempty))

theorem OneVersion.describes (hone : OneVersion ol requests uv z) {i : ι}
    (hlook : (requests i).look ol z = .ok objInfo) :
    ∃ object, z.Holds object ∧ object.versionID = uv ∧ ol.Describes object objInfo ∧
      ∀ i, AimsAt ol z object (requests i).request := by
  obtain ⟨object, hholds, hid, haims⟩ := hone.exists_object
  obtain ⟨other, hreads, hdescribes⟩ := reads_of_look hone.sound hlook
  obtain rfl := (haims i).eq_of_newest hone.sound hholds hreads.holds.mem hreads.named
    hreads.newest
  exact ⟨other, hholds, hid, hdescribes, haims⟩

/-! ## What a request writes -/

theorem getElem?_insert_congr {key other : String} {metadata metadata' : Metadata} (value : String)
    (hsame : other = key ∨ metadata[other]? = metadata'[other]?) :
    (metadata.insert key value)[other]? = (metadata'.insert key value)[other]? := by
  rw [Std.ExtTreeMap.getElem?_insert, Std.ExtTreeMap.getElem?_insert]
  split
  · rfl
  next hne =>
    refine hsame.resolve_left fun heq => hne ?_
    rw [heq]
    exact Std.ReflCmp.compare_self

theorem getElem?_edit {replicate : Bool} {key : String} (metadata : Metadata)
    (hkey : key ∉ request.ownKeys replicate) :
    (ObjectLayer.markReplicate replicate (request.edit metadata))[key]? = metadata[key]? := by
  rw [ownKeys, List.mem_append, not_or] at hkey
  obtain ⟨hown, hstatus⟩ := hkey
  have hmarked : (ObjectLayer.markReplicate replicate (request.edit metadata))[key]? =
      (request.edit metadata)[key]? := by
    rw [ObjectLayer.markReplicate]
    split
    next hreplicate =>
      rw [hreplicate, if_pos rfl, List.mem_singleton] at hstatus
      exact getElem?_insert_ne _ _ hstatus
    next => rfl
  rw [hmarked]
  cases request with
  | retention r objRetention =>
    rw [documentKeys, List.mem_cons, List.mem_singleton, not_or] at hown
    rw [edit, ObjectLayer.retentionMetadata]
    split
    all_goals rw [getElem?_insert_ne _ _ hown.2, getElem?_insert_ne _ _ hown.1]
  | legalHold r status =>
    rw [documentKeys, List.mem_singleton] at hown
    exact getElem?_insert_ne _ _ hown
  | tags r text => rfl

/-- A request's own keys get values that do not depend on what it has read. -/
theorem getElem?_edit_own {replicate : Bool} {key : String} (metadata metadata' : Metadata)
    (hkey : key ∈ request.ownKeys replicate)
    (hwrites : ∀ r text, request ≠ tags r text) :
    (ObjectLayer.markReplicate replicate (request.edit metadata))[key]? =
      (ObjectLayer.markReplicate replicate (request.edit metadata'))[key]? := by
  have hstatus : ∀ (edited edited' : Metadata), (replicate = true ∧
      key = amzBucketReplicationStatus ∨ edited[key]? = edited'[key]?) →
      (ObjectLayer.markReplicate replicate edited)[key]? =
        (ObjectLayer.markReplicate replicate edited')[key]? := by
    intro edited edited' hsame
    rw [ObjectLayer.markReplicate, ObjectLayer.markReplicate]
    split
    next => exact getElem?_insert_congr _ (hsame.imp_left And.right)
    next hno => exact hsame.resolve_left fun hyes => hno hyes.1
  apply hstatus
  rw [ownKeys, List.mem_append] at hkey
  rcases hkey with hown | hmarked
  · right
    cases request with
    | retention r objRetention =>
      rw [documentKeys, List.mem_cons, List.mem_singleton] at hown
      rw [edit, edit, ObjectLayer.retentionMetadata, ObjectLayer.retentionMetadata]
      split
      all_goals
        refine getElem?_insert_congr _ (hown.symm.imp_right fun hmode => ?_)
        exact getElem?_insert_congr _ (Or.inl hmode)
    | legalHold r status =>
      exact getElem?_insert_congr _ (Or.inl (List.mem_singleton.mp hown))
    | tags r text => exact absurd rfl (hwrites r text)
  · left
    split at hmarked
    next hreplicate => exact ⟨hreplicate, List.mem_singleton.mp hmarked⟩
    next => cases hmarked

theorem getElem?_of_cleanMetadata {key value : String} {metadata : Metadata}
    (hvalue : (cleanMetadata metadata)[key]? = some value) : metadata[key]? = some value := by
  rw [cleanMetadata, getElem?_filter_key] at hvalue
  split at hvalue
  · split at hvalue
    · rw [Std.ExtTreeMap.getElem?_erase] at hvalue
      split at hvalue
      · cases hvalue
      · exact hvalue
    · exact hvalue
  · cases hvalue

theorem union_edit {replicate : Bool} (hdescribes : ol.Describes object now)
    (hwrites : ∀ r text, request ≠ tags r text)
    (hkeys : ∀ key value, key ∉ request.ownKeys replicate →
      seen.userDefined[key]? = some value → now.userDefined[key]? = some value) :
    object.metadata ∪ ObjectLayer.markReplicate replicate (request.edit seen.userDefined) =
      object.metadata ∪ ObjectLayer.markReplicate replicate (request.edit now.userDefined) := by
  refine Std.ExtTreeMap.ext_getElem? fun {key} => ?_
  rw [Std.ExtTreeMap.getElem?_union, Std.ExtTreeMap.getElem?_union]
  by_cases hown : key ∈ request.ownKeys replicate
  · rw [getElem?_edit_own _ now.userDefined hown hwrites]
  · rw [getElem?_edit _ hown, getElem?_edit _ hown]
    have hnow : ∀ value, now.userDefined[key]? = some value →
        object.metadata[key]? = some value := by
      intro value hvalue
      rw [hdescribes.userDefined] at hvalue
      exact getElem?_of_cleanMetadata hvalue
    cases hseen : seen.userDefined[key]? with
    | none =>
      cases hvalue : now.userDefined[key]? with
      | none => rfl
      | some value => rw [hnow value hvalue]; rfl
    | some value => rw [hkeys key value hown hseen]

theorem writeBack_congr {metadata metadata' : Metadata} (hsound : z.Sound)
    (hholds : z.Holds object) (hdescribes : ol.Describes object now)
    (hid : seen.versionID = now.versionID)
    (hnamed : r.vid ≠ "" → parseVersionID ol.uuid r.vid = some object.versionID)
    (hunion : object.metadata ∪ metadata = object.metadata ∪ metadata') :
    ol.writeBack z r (writeOptions r) { seen with userDefined := metadata } =
      ol.writeBack z r (writeOptions r) { now with userDefined := metadata' } := by
  rw [ObjectLayer.writeBack, ObjectLayer.writeBack]
  dsimp only
  rw [hid]
  generalize hversion : (if (writeOptions r).versionID = "" then now.versionID
    else (writeOptions r).versionID) = versionID
  have hparse : versionID ≠ "" ∧ parseVersionID ol.uuid versionID = some object.versionID := by
    subst hversion
    split
    · exact ⟨hdescribes.versionID_ne, hdescribes.parse⟩
    next hne => exact ⟨hne, hnamed hne⟩
  obtain ⟨fi, hok, hstatic⟩ := @XlMetaV2.Sound.exists_toFileInfo ol.uuid ol.bucket r.object
    versionID z ol.sorter hsound _ hholds.mem hparse.1 hparse.2
  have hmetadata : fi.metadata = object.metadata := congrArg FileInfo.metadata hstatic
  rw [ObjectLayer.putObjectMetadata, ObjectLayer.putObjectMetadata, hok]
  dsimp only
  rw [hmetadata, hunion]

theorem OneVersion.store_eq {before : XlMetaV2} (hone : OneVersion ol requests uv z)
    (hbefore : OneVersion ol requests uv before) {i : ι}
    (hlook : (requests i).look ol before = .ok seen)
    (hfresh : Fresh ol mustReplicate z (requests i) seen) :
    (requests i).store ol mustReplicate seen z = (requests i).handle ol mustReplicate z := by
  obtain ⟨now, hnow, hdecides, hkeys⟩ := hfresh
  rw [handle, hnow]
  dsimp only
  obtain ⟨object, hholds, hid, hdescribes, haims⟩ := hone.describes hnow
  obtain ⟨object₀, -, hid₀, hdescribes₀, -⟩ := hbefore.describes hlook
  have hversion : seen.versionID = now.versionID := by
    rw [hdescribes.versionID, hdescribes₀.versionID, hid, hid₀]
  have hnamed := (haims i).named
  generalize requests i = request at *
  rw [replicates, replicates] at hdecides
  rw [replicates, ← hdecides] at hkeys
  cases request with
  | tags r text =>
    simp only [store]
    rw [hdecides]
  | retention r _ | legalHold r _ =>
    simp only [store]
    rw [← hdecides]
    exact writeBack_congr hone.sound hholds hdescribes hversion hnamed
      (union_edit hdescribes (fun _ _ => MetadataRequest.noConfusion) hkeys)

theorem updates_of_writeBack {metadata : Metadata} (hsound : z.Sound) (hholds : z.Holds object)
    (hdescribes : ol.Describes object now)
    (hnamed : r.vid ≠ "" → parseVersionID ol.uuid r.vid = some object.versionID)
    (hwrite : ol.writeBack z r (writeOptions r) { now with userDefined := metadata } = .ok z') :
    ∃ fi, ObjectLayer.Updates object fi z z' ∧ fi.metadata = object.metadata ∪ metadata := by
  rw [ObjectLayer.writeBack] at hwrite
  dsimp only at hwrite
  generalize hversion : (if (writeOptions r).versionID = "" then now.versionID
    else (writeOptions r).versionID) = versionID at hwrite
  have hparse : versionID ≠ "" ∧ parseVersionID ol.uuid versionID = some object.versionID := by
    subst hversion
    split
    · exact ⟨hdescribes.versionID_ne, hdescribes.parse⟩
    next hne => exact ⟨hne, hnamed hne⟩
  split at hwrite
  · cases hwrite
  next result hput =>
    obtain rfl := Except.ok.inj hwrite
    obtain ⟨stored, fi, hupdates, hmetadata, hstored⟩ :=
      ObjectLayer.putObjectMetadata_cases hsound hparse.1 hput
    obtain rfl : stored = object := XlMetaV2Version.objectType.inj (hsound.eq_of_uuid
      hupdates.mem hholds.mem (Option.some.inj (hstored.symm.trans hparse.2)))
    exact ⟨fi, hupdates, hmetadata⟩

/-- A write of what is read now updates the version, and of its metadata only what
is the request's own. -/
theorem OneVersion.store_cases (hone : OneVersion ol requests uv z) {i : ι}
    (hlook : (requests i).look ol z = .ok now)
    (hstore : (requests i).store ol mustReplicate now z = .ok z') :
    ∃ object fi, z.Holds object ∧ object.versionID = uv ∧
      (∀ i, AimsAt ol z object (requests i).request) ∧ ObjectLayer.Updates object fi z z' ∧
      ∀ key, key ∉ (requests i).ownKeys ((requests i).replicates mustReplicate now) →
        fi.metadata[key]? = object.metadata[key]? := by
  obtain ⟨object, hholds, hid, hdescribes, haims⟩ := hone.describes hlook
  have haim := haims i
  -- A key that is written back with its value is as it was.
  have hback : ∀ (written : Metadata) (key : String), key ∉ (requests i).ownKeys
      ((requests i).replicates mustReplicate now) →
      written[key]? = now.userDefined[key]? →
      (object.metadata ∪ written)[key]? = object.metadata[key]? := by
    intro written key hkey hsame
    rw [Std.ExtTreeMap.getElem?_union, hsame, hdescribes.userDefined]
    cases hvalue : (cleanMetadata object.metadata)[key]? with
    | none => cases object.metadata[key]? <;> rfl
    | some value => rw [getElem?_of_cleanMetadata hvalue]; rfl
  generalize hrequest : requests i = request at *
  cases request with
  | tags r text =>
    simp only [store] at hstore
    split at hstore
    · cases hstore
    next result hput =>
      obtain rfl := Except.ok.inj hstore
      obtain ⟨stored, fi, hupdates, hmetadata, hnamed, hnewest⟩ :=
        ObjectLayer.putObjectTags_cases hone.sound hput
      obtain rfl := haim.eq_of_newest hone.sound hholds hupdates.mem hnamed hnewest
      refine ⟨stored, fi, hholds, hid, haims, hupdates, fun key hkey => ?_⟩
      have hstatus := getElem?_edit ∅ hkey
      rw [ownKeys, List.mem_append, not_or, documentKeys, List.mem_singleton] at hkey
      rw [hmetadata, Std.ExtTreeMap.getElem?_union]
      simp only [edit, replicates] at hstatus
      rw [hstatus, getElem?_insert_ne _ _ hkey.1]
      cases stored.metadata[key]? <;> rfl
  | retention r _ | legalHold r _ =>
    simp only [store] at hstore
    obtain ⟨fi, hupdates, hmetadata⟩ :=
      updates_of_writeBack hone.sound hholds hdescribes haim.named hstore
    refine ⟨object, fi, hholds, hid, haims, hupdates, fun key hkey => ?_⟩
    rw [hmetadata]
    exact hback _ key hkey (getElem?_edit _ hkey)

theorem OneVersion.update {fi : FileInfo} (hone : OneVersion ol requests uv z)
    (hholds : z.Holds object) (hid : object.versionID = uv)
    (haims : ∀ i, AimsAt ol z object (requests i).request)
    (hupdates : ObjectLayer.Updates object fi z z') : OneVersion ol requests uv z' := by
  refine ⟨hupdates.sound hone.sound, object.update fi, hupdates.unmarked hholds, hid,
    fun i => ⟨(haims i).named, fun hempty other hmem hother => ?_⟩⟩
  simp only [XlMetaV2Version.modTime]
  rw [hupdates.modTime_eq]
  rcases hupdates.eq_or_mem hmem with rfl | hmem
  · exact absurd rfl hother
  · exact (haims i).newest hempty other hmem hother

theorem OneVersion.serve (hone : OneVersion ol requests uv z) (i : ι) :
    OneVersion ol requests uv ((system ol mustReplicate requests).serve z i) := by
  rw [TwoSteps.serve, system]
  dsimp only
  cases hlook : (requests i).look ol z with
  | error err => exact hone
  | ok now =>
    dsimp only [Except.toOption]
    cases hstore : (requests i).store ol mustReplicate now z with
    | error err => exact hone
    | ok z' =>
      obtain ⟨object, fi, hholds, hid, haims, hupdates, -⟩ := hone.store_cases hlook hstore
      exact hone.update hholds hid haims hupdates

theorem eq_ok_of_toOption {ε α : Type*} {result : Except ε α} {value : α}
    (hsome : result.toOption = some value) : result = .ok value := by
  cases result with
  | error err => cases hsome
  | ok found => rw [Option.some.inj hsome]

theorem OneVersion.system_store {before : XlMetaV2} (hone : OneVersion ol requests uv z)
    (hbefore : OneVersion ol requests uv before) {i : ι}
    (hlook : (system ol mustReplicate requests).look i before = some seen)
    (hfresh : Fresh ol mustReplicate z (requests i) seen) :
    (system ol mustReplicate requests).store i seen z =
      (system ol mustReplicate requests).serve z i := by
  have hsame := hone.store_eq hbefore (eq_ok_of_toOption hlook) hfresh
  obtain ⟨now, hnow, -⟩ := hfresh
  rw [handle, hnow] at hsame
  rw [TwoSteps.serve]
  simp only [system, hnow, Except.toOption]
  rw [hsame]

theorem OneVersion.system_others (hone : OneVersion ol requests uv z) {i : ι}
    (hfresh : Fresh ol mustReplicate z (requests i) seen)
    (hsame : (system ol mustReplicate requests).store i seen z =
      (system ol mustReplicate requests).serve z i)
    (hholds : z.Holds object) (hid : object.versionID = uv) :
    ∃ object', ((system ol mustReplicate requests).store i seen z).Holds object' ∧
      object'.versionID = uv ∧ ∀ key, isUserKey key = true →
        key ∉ (requests i).ownKeys ((requests i).replicates mustReplicate seen) →
        object'.metadata[key]? = object.metadata[key]? := by
  obtain ⟨now, hnow, hdecides, -⟩ := hfresh
  rw [hsame, TwoSteps.serve]
  simp only [system, hnow, Except.toOption]
  rw [← hdecides]
  cases hstore : (requests i).store ol mustReplicate now z with
  | error err => exact ⟨object, hholds, hid, fun _ _ _ => rfl⟩
  | ok z' =>
    obtain ⟨stored, fi, hstored, hstoredID, -, hupdates, hkeys⟩ := hone.store_cases hnow hstore
    obtain rfl : object = stored := XlMetaV2Version.objectType.inj
      (hone.sound.eq_of_uuid hholds.mem hstored.mem (hid.trans hstoredID.symm))
    refine ⟨_, hupdates.unmarked hholds, hid, fun key huser hkey => ?_⟩
    rw [XlMetaV2Object.getElem?_metadata_update huser, hkeys key hkey]
    cases object.metadata[key]? <;> rfl

variable [DecidableEq ι]

def AllFresh (ol : ObjectLayer) (mustReplicate : Request → LockedObjectInfo → Bool)
    (requests : ι → MetadataRequest) (z : XlMetaV2) (schedule : List ι) : Prop :=
  Guarded (system ol mustReplicate requests).step (fun st i => ∀ seen,
    st.phase i = .looked seen → Fresh ol mustReplicate st.shared (requests i) seen)
    (TwoSteps.start z) schedule

/-- Requests whose writes all find what they have read still good are like requests
one after the other. -/
theorem isolated_of_fresh (ol : ObjectLayer)
    (mustReplicate : Request → LockedObjectInfo → Bool) (requests : ι → MetadataRequest)
    (uv : UUID) (z : XlMetaV2) (schedule : List ι) (hone : OneVersion ol requests uv z)
    (hfresh : AllFresh ol mustReplicate requests z schedule) :
    Isolated ol mustReplicate requests uv z schedule := by
  have htracks := @TwoSteps.tracks_of_fresh _ _ _ (system ol mustReplicate requests)
    (OneVersion ol requests uv) (fun s i seen => Fresh ol mustReplicate s (requests i) seen) z _
    schedule (fun _ i hone => hone.serve i)
    (fun _ _ _ _ hone hbefore hlook hfresh => hone.system_store hbefore hlook hfresh) hfresh hone
  refine ⟨(htracks schedule List.prefix_rfl).serial,
    fun before i seen hfront hlooked object hholds hid => ?_⟩
  have hbefore := htracks before ((List.prefix_append before [i]).trans hfront)
  have hgood := hfresh before i hfront seen hlooked
  obtain ⟨earlier, hearlier, hlook⟩ := hbefore.seen i seen hlooked
  rw [List.foldl_concat, TwoSteps.step, hlooked]
  exact hbefore.shared.system_others hgood
    (hbefore.shared.system_store hearlier hlook hgood) hholds hid

/-! ## Two requests on one version -/

theorem fresh_of_look (hlook : request.look ol z = .ok seen) :
    Fresh ol mustReplicate z request seen := by
  refine ⟨seen, hlook, rfl, fun key value _ hvalue => ?_⟩
  cases request with
  | tags r text =>
    rw [writtenBack, Std.ExtTreeMap.getElem?_empty] at hvalue
    cases hvalue
  | retention r objRetention => exact hvalue
  | legalHold r status => exact hvalue

def versionWith (metadata : Metadata) : XlMetaV2 where
  versions := [.objectType { XlMetaV2.plainObject 7 1 with metaUser := metadata }]

def onVersion : Request where
  object := "report"
  versionID := UuidPackage.google.print 7
  now := LockEvent.newYear
  allowed := fun _ => true

def twoRequests : Bool → MetadataRequest
  | false => retention onVersion
      { mode := some .compliance, retainUntilDate := (1893456000000000000 : Int) }
  | true => legalHold onVersion .on

theorem oneVersion_versionWith (metadata : Metadata) :
    OneVersion LockEvent.lockedBucket twoRequests 7 (versionWith metadata) := by
  have hvid : onVersion.vid = UuidPackage.google.print 7 := by decide +kernel
  have honly : ∀ version ∈ (versionWith metadata).versions,
      version = .objectType { XlMetaV2.plainObject 7 1 with metaUser := metadata } := by
    intro version hmem
    exact List.mem_singleton.mp hmem
  refine ⟨⟨⟨fun version hmem => ?_, List.nodup_singleton _⟩, fun version hmem => ?_⟩, _,
    ⟨List.mem_singleton.mpr rfl, rfl⟩, rfl, fun i => ⟨fun _ => ?_, fun _ other hmem hne => ?_⟩⟩
  · rw [honly version hmem]
    rfl
  · rw [honly version hmem]
    rfl
  · have hrequest : (twoRequests i).request = onVersion := by cases i <;> rfl
    rw [hrequest, hvid]
    exact ObjectLayer.parseVersionID_print .google 7
  · rw [honly other hmem] at hne
    exact absurd rfl hne

def twoSystem : TwoSteps XlMetaV2 Bool LockedObjectInfo :=
  system LockEvent.lockedBucket (fun _ _ => false) twoRequests

def holdBetween : List Bool := [false, true, true, false]

/-- A version without a hold gets both. -/
theorem isolated_versionWith :
    Isolated LockEvent.lockedBucket (fun _ _ => false) twoRequests 7 (versionWith ∅)
      holdBetween := by
  refine isolated_of_fresh _ _ _ _ _ _ (oneVersion_versionWith ∅) ?_
  refine guarded_cons.mpr ⟨fun seen hlooked => ?_, guarded_cons.mpr ⟨fun seen hlooked => ?_,
    guarded_cons.mpr ⟨fun seen hlooked => ?_, guarded_cons.mpr ⟨fun seen hlooked => ?_,
      guarded_nil⟩⟩⟩⟩
  · cases hlooked
  · rw [TwoSteps.step_phase_of_ne (by decide)] at hlooked
    cases hlooked
  · obtain ⟨hlook, hshared⟩ := TwoSteps.look_of_step hlooked
    rw [hshared]
    exact fresh_of_look (eq_ok_of_toOption hlook)
  · -- Nothing is written back of a version without metadata.
    rw [TwoSteps.step_phase_of_ne (by decide), TwoSteps.step_phase_of_ne (by decide)] at hlooked
    obtain ⟨hlook, -⟩ := TwoSteps.look_of_step hlooked
    have hempty : ((twoRequests false).look LockEvent.lockedBucket (versionWith ∅)).toOption.map
        LockedObjectInfo.userDefined = some ∅ := by decide +kernel
    have hseen : (twoSystem.look false (versionWith ∅)).map LockedObjectInfo.userDefined =
        some seen.userDefined := congrArg (Option.map LockedObjectInfo.userDefined) hlook
    have hnone : seen.userDefined = ∅ := Option.some.inj (hseen.symm.trans hempty)
    have hpasses : ((twoRequests false).look LockEvent.lockedBucket
        (([false, true, true].foldl twoSystem.step
          (TwoSteps.start (versionWith ∅))).shared)).toOption.isSome = true := by
      decide +kernel
    obtain ⟨now, hnow⟩ := Option.isSome_iff_exists.mp hpasses
    refine ⟨now, eq_ok_of_toOption hnow, rfl, fun key value _ hvalue => ?_⟩
    rw [show (twoRequests false).writtenBack seen = seen.userDefined from rfl, hnone,
      Std.ExtTreeMap.getElem?_empty] at hvalue
    cases hvalue

def holds (z : XlMetaV2) : List (Option LegalHoldStatus) :=
  z.versions.map fun version =>
    match version with
    | .objectType object => object.legalHold
    | _ => none

/-- A version whose hold is off when the retention reads it is left without one. -/
theorem hold_lost :
    OneVersion LockEvent.lockedBucket twoRequests 7
      (versionWith ((∅ : Metadata).insert legalHoldKey "OFF")) ∧
    ¬ Isolated LockEvent.lockedBucket (fun _ _ => false) twoRequests 7
      (versionWith ((∅ : Metadata).insert legalHoldKey "OFF")) holdBetween := by
  refine ⟨oneVersion_versionWith _, fun hisolated => ?_⟩
  obtain ⟨order, hnodup, hdone, heffect⟩ := hisolated.serial
  obtain ⟨hended, hfinal⟩ : (∀ i, ((holdBetween.foldl twoSystem.step (TwoSteps.start
      (versionWith ((∅ : Metadata).insert legalHoldKey "OFF")))).phase i).isDone = true) ∧
      holds ((holdBetween.foldl twoSystem.step (TwoSteps.start
        (versionWith ((∅ : Metadata).insert legalHoldKey "OFF")))).shared) = [some .off] := by
    decide +kernel
  have hboth : ∀ i, i ∈ order := fun i => (hdone i).mpr (TwoSteps.Phase.eq_done (hended i))
  have horder : order ∈ [[false, true], [true, false]] := by
    have hperm : order.Perm [false, true] :=
      (List.perm_ext_iff_of_nodup hnodup (by decide)).mpr fun i =>
        iff_of_true (hboth i) (by cases i <;> decide)
    have htwo : ∀ first second : Bool, [first, second].Nodup →
        [first, second] ∈ [[false, true], [true, false]] := by decide
    obtain ⟨first, second, rfl⟩ := List.length_eq_two.mp hperm.length_eq
    exact htwo first second hnodup
  have hserial : ∀ order ∈ [[false, true], [true, false]], holds (order.foldl twoSystem.serve
      (versionWith ((∅ : Metadata).insert legalHoldKey "OFF"))) = [some .on] := by
    decide +kernel
  have hsame := congrArg holds heffect
  rw [show system LockEvent.lockedBucket (fun _ _ => false) twoRequests = twoSystem from rfl,
    hfinal, hserial order horder] at hsame
  exact absurd hsame (by decide)

end MetadataRequest

end Fs3
