import Fs3.Foundation.EditFirst
import Fs3.Journal.Lookup

/-! # Adding and updating versions

`addVersion` turns a `FileInfo` into a journal entry and puts it in the place of the first entry
that answers to its id, or at the end. -/

namespace Fs3

open Foundation

def normalizeID (versionID : String) : String :=
  if versionID = "" then nullVersionID else versionID

theorem normalizeID_ne_empty (versionID : String) : normalizeID versionID ≠ "" := by
  unfold normalizeID
  split
  · decide
  next hne => exact hne

theorem parseVersionID_normalizeID (uuid : UuidPackage) (versionID : String) :
    parseVersionID uuid (normalizeID versionID) = parseVersionID uuid versionID := by
  unfold normalizeID
  split
  next hempty => rw [hempty]; rfl
  next => rfl

def parseDataDir (uuid : UuidPackage) (dataDir : String) : Option UUID :=
  if dataDir = "" then some 0 else uuid.parse dataDir

def insertNonempty (metaSys : Metadata) (key value : String) : Metadata :=
  if value = "" then metaSys else metaSys.insert key value

theorem getElem?_insertNonempty (metaSys : Metadata) (key value other : String) :
    (insertNonempty metaSys key value)[other]? =
      if value ≠ "" ∧ other = key then some value else metaSys[other]? := by
  unfold insertNonempty
  by_cases hvalue : value = ""
  · rw [if_pos hvalue, if_neg fun h => h.1 hvalue]
  · by_cases hkey : other = key
    · subst other
      rw [if_neg hvalue, if_pos ⟨hvalue, rfl⟩, Std.ExtTreeMap.getElem?_insert_self]
    · rw [if_neg hvalue, if_neg fun h => hkey h.2, Std.ExtTreeMap.getElem?_insert,
        if_neg fun h => hkey (Std.LawfulEqOrd.eq_of_compare h).symm]

namespace FileInfo

/-- The system metadata of a new object: the reserved part of the metadata and
the transition fields over it. -/
def metaSys (fi : FileInfo) : Metadata :=
  let metaSys := fi.metadata.filter fun key _ => isReserved key
  let metaSys := insertNonempty metaSys transitionStatusKey fi.transitionStatus
  let metaSys := insertNonempty metaSys transitionedObjectNameKey fi.transitionedObjName
  let metaSys := insertNonempty metaSys transitionedVersionIDKey fi.transitionVersionID
  insertNonempty metaSys transitionTierKey fi.transitionTier

/-- The object a `FileInfo` is stored as. -/
def toObject (fi : FileInfo) (uv dd : UUID) : XlMetaV2Object where
  versionID := uv
  dataDir := dd
  size := fi.size
  modTime := fi.modTime.unixNano
  erasureAlgorithm := .reedSolomon
  erasureM := fi.erasure.dataBlocks
  erasureN := fi.erasure.parityBlocks
  erasureBlockSize := fi.erasure.blockSize
  erasureIndex := fi.erasure.index
  bitrotChecksumAlgo := .highwayHash
  erasureDist := fi.erasure.distribution.map UInt8.ofInt
  partNumbers := fi.parts.map ObjectPartInfo.number
  partETags := fi.parts.map ObjectPartInfo.eTag
  partSizes := fi.parts.map ObjectPartInfo.size
  partActualSizes := fi.parts.map ObjectPartInfo.actualSize
  metaSys := fi.metaSys
  metaUser := fi.metadata.filter fun key _ => !isReserved key

/-- The entry a `FileInfo` is stored as. -/
def toVersion (fi : FileInfo) (uv dd : UUID) : XlMetaV2Version :=
  if fi.deleted then
    .deleteType { versionID := uv, modTime := fi.modTime.unixNano, metaSys := ∅ }
  else .objectType (fi.toObject uv dd)

@[simp]
theorem toVersion_uuid (fi : FileInfo) (uv dd : UUID) : (fi.toVersion uv dd).uuid = uv := by
  unfold toVersion
  split <;> rfl

@[simp]
theorem toVersion_isLegacy (fi : FileInfo) (uv dd : UUID) :
    (fi.toVersion uv dd).isLegacy = false := by
  unfold toVersion
  split <;> rfl

@[simp]
theorem toVersion_answersTo (fi : FileInfo) (uv dd : UUID) (uv' : UUID) (versionID : String) :
    (fi.toVersion uv dd).answersTo uv' versionID = (uv == uv') := by
  unfold toVersion
  split <;> rfl

theorem toVersion_modTime {fi : FileInfo} {uv dd : UUID}
    (hvalid : (fi.toVersion uv dd).valid = true) : (fi.toVersion uv dd).modTime = fi.modTime := by
  have hpos : 0 < fi.modTime.unixNano := by
    unfold toVersion at hvalid
    split at hvalid
    · exact of_decide_eq_true hvalid
    · rw [XlMetaV2Version.valid, Bool.and_eq_true] at hvalid
      exact of_decide_eq_true hvalid.2
  have htime := Time.unixNano_of_pos hpos
  unfold toVersion
  split <;> exact htime

/-- Whether `addVersion` keeps the data in the journal file. -/
def isInlined (fi : FileInfo) : Bool :=
  !fi.deleted && (decide (0 < fi.data.length) || fi.size == 0)

end FileInfo

/-- The object of an update: new metadata over the old, and a new modification
time when the request has one. -/
def XlMetaV2Object.update (object : XlMetaV2Object) (fi : FileInfo) : XlMetaV2Object :=
  { object with
    metaSys := object.metaSys ∪ fi.metadata.filter fun key _ => isReserved key
    metaUser := object.metaUser ∪ fi.metadata.filter fun key _ => !isReserved key
    modTime := if fi.modTime = Time.zero then object.modTime else fi.modTime.unixNano }

namespace XlMetaV2

variable (uuid : UuidPackage)

/-- `xlMetaV2.AddLegacy`: the versions become the one legacy object. -/
def addLegacy (z : XlMetaV2) (m : XlMetaV1Object) : Except StorageErr XlMetaV2 :=
  if m.valid then
    .ok { z with
      versions := [.legacyType
        { m with
          versionID := nullVersionID
          dataDir := legacyDataDir
          versionID_eq := rfl
          dataDir_eq := rfl }] }
  else .error .errFileCorrupt

/-- The loop of `addVersion`: the first entry that answers is replaced. -/
def replaceVersion (uv : UUID) (versionID : String) (ventry : XlMetaV2Version) :
    List XlMetaV2Version → Except StorageErr (Option (Unit × List XlMetaV2Version)) :=
  editFirst XlMetaV2Version.valid .errFileCorrupt fun version =>
    if version.answersTo uv versionID then some (.ok ((), fun rest => ventry :: rest)) else none

/-- `xlMetaV2.AddVersion`. -/
def addVersion (z : XlMetaV2) (fi : FileInfo) : Except StorageErr XlMetaV2 :=
  let versionID := normalizeID fi.versionID
  match parseVersionID uuid versionID with
  | none => .error (.invalidUUID versionID)
  | some uv =>
    match parseDataDir uuid fi.dataDir with
    | none => .error (.invalidUUID fi.dataDir)
    | some dd =>
      let ventry := fi.toVersion uv dd
      let data := if fi.isInlined then z.data.replace versionID fi.data else z.data
      if ventry.valid then
        match replaceVersion uv versionID ventry z.versions with
        | .error err => .error err
        | .ok (some (_, versions)) => .ok { versions, data }
        | .ok none => .ok { versions := z.versions ++ [ventry], data }
      else .error (.unexpected "internal error: invalid version entry generated")

/-- What an update does at one entry: any delete marker it meets refuses it. -/
def updateEntry (uv : UUID) (versionID : String) (fi : FileInfo) :
    XlMetaV2Version →
      Option (Except StorageErr (Unit × (List XlMetaV2Version → List XlMetaV2Version)))
  | .legacyType object =>
    if object.versionID = versionID then some (.error .errMethodNotAllowed) else none
  | .objectType object =>
    if object.versionID = uv then
      some (.ok ((), fun rest => .objectType (object.update fi) :: rest))
    else none
  | .deleteType _ => some (.error .errMethodNotAllowed)
  | .invalid => none

/-- `xlMetaV2.UpdateObjectVersion`. -/
def updateObjectVersion (z : XlMetaV2) (fi : FileInfo) : Except StorageErr XlMetaV2 :=
  let versionID := normalizeID fi.versionID
  match parseVersionID uuid versionID with
  | none => .error (.invalidUUID versionID)
  | some uv =>
    match editFirst XlMetaV2Version.valid .errFileCorrupt (updateEntry uv versionID fi)
        z.versions with
    | .error err => .error err
    | .ok (some (_, versions)) => .ok { z with versions }
    | .ok none => .error .errFileVersionNotFound

end XlMetaV2

/-! ## What adding and updating can do -/

/-- The ways a version is put in its place in the journal. -/
inductive PutCase (uv : UUID) (versionID : String) (ventry : XlMetaV2Version)
    (versions : List XlMetaV2Version) : List XlMetaV2Version → Prop
  | replace (before : List XlMetaV2Version) (old : XlMetaV2Version)
      (after : List XlMetaV2Version) (hversions : versions = before ++ old :: after)
      (hbefore : ∀ version ∈ before, version.answersTo uv versionID = false)
      (hold : old.answersTo uv versionID = true) :
      PutCase uv versionID ventry versions (before ++ ventry :: after)
  | append (hnone : ∀ version ∈ versions, version.answersTo uv versionID = false) :
      PutCase uv versionID ventry versions (versions ++ [ventry])

namespace XlMetaV2

variable {uuid : UuidPackage} {z z' : XlMetaV2} {fi : FileInfo}

theorem putCase_of_replaceVersion_some {uv : UUID} {versionID : String} {ventry : XlMetaV2Version}
    {versions edited : List XlMetaV2Version}
    (h : replaceVersion uv versionID ventry versions = .ok (some ((), edited))) :
    PutCase uv versionID ventry versions edited := by
  obtain ⟨before, old, after, splice, hversions, hbefore, _, hedit, rfl⟩ :=
    exists_of_editFirst_some h
  split at hedit
  next hold =>
    cases hedit
    refine .replace before old after hversions (fun version hmem => ?_) hold
    by_contra hanswers
    have hpassed := (hbefore version hmem).2
    rw [if_pos (by simpa using hanswers)] at hpassed
    cases hpassed
  · cases hedit

theorem addVersion_cases (h : z.addVersion uuid fi = .ok z') :
    ∃ uv dd, parseVersionID uuid fi.versionID = some uv ∧
      parseDataDir uuid fi.dataDir = some dd ∧ (fi.toVersion uv dd).valid = true ∧
      z'.data = (if fi.isInlined then z.data.replace (normalizeID fi.versionID) fi.data
        else z.data) ∧
      PutCase uv (normalizeID fi.versionID) (fi.toVersion uv dd) z.versions z'.versions := by
  simp only [addVersion] at h
  rw [parseVersionID_normalizeID] at h
  split at h
  · cases h
  next uv hparse =>
    split at h
    · cases h
    next dd hdir =>
      split at h
      next hentry =>
        split at h
        · cases h
        next hreplace =>
          cases h
          exact ⟨uv, dd, hparse, hdir, hentry, rfl, putCase_of_replaceVersion_some hreplace⟩
        next hreplace =>
          cases h
          refine ⟨uv, dd, hparse, hdir, hentry, rfl, .append fun version hmem => ?_⟩
          have hpassed := (valid_of_editFirst_none hreplace version hmem).2
          by_contra hanswers
          rw [if_pos (by simpa using hanswers)] at hpassed
          cases hpassed
      · cases h

theorem updateObjectVersion_cases (h : z.updateObjectVersion uuid fi = .ok z') :
    ∃ uv before object after, parseVersionID uuid fi.versionID = some uv ∧
      z.versions = before ++ .objectType object :: after ∧ object.versionID = uv ∧
      z' = { z with versions := before ++ .objectType (object.update fi) :: after } := by
  simp only [updateObjectVersion] at h
  rw [parseVersionID_normalizeID] at h
  split at h
  · cases h
  next uv hparse =>
    split at h
    · cases h
    next hupdate =>
      cases h
      obtain ⟨before, version, after, splice, hversions, _, _, hedit, rfl⟩ :=
        exists_of_editFirst_some hupdate
      cases version with
      | invalid => cases hedit
      | deleteType => cases hedit
      | legacyType object =>
        rw [updateEntry] at hedit
        split at hedit <;> cases hedit
      | objectType object =>
        rw [updateEntry] at hedit
        split at hedit
        next huuid =>
          cases hedit
          exact ⟨uv, before, object, after, hparse, hversions, huuid, rfl⟩
        · cases hedit
    · cases h

end XlMetaV2

end Fs3

/-! ## Updating the version that an id names

An update looks for the version of its id and is refused when that is a delete
marker. The loop refuses at any delete marker it meets, so that the entries in
front of the version decide, and a legacy object is refused as well.
-/

namespace Fs3

open Foundation

namespace XlMetaV2Version

def isObject : XlMetaV2Version → Bool
  | objectType _ => true
  | _ => false

def isDeleteMarker : XlMetaV2Version → Bool
  | deleteType _ => true
  | _ => false

/-- An entry where an update does not go on: one that cannot be read, a delete
marker, or an entry of the requested id. -/
def stopsUpdate (uv : UUID) (versionID : String) (version : XlMetaV2Version) : Bool :=
  !version.valid || version.isDeleteMarker || version.answersTo uv versionID

end XlMetaV2Version

/-- An object with the metadata of a request over its own, each key on the side
where it belongs, and the time of the request if it has one. -/
structure XlMetaV2Object.Updated (object : XlMetaV2Object) (fi : FileInfo)
    (object' : XlMetaV2Object) : Prop where
  metaSys : ∀ key, object'.metaSys[key]? =
    if isReserved key then (fi.metadata[key]?).or object.metaSys[key]? else object.metaSys[key]?
  metaUser : ∀ key, object'.metaUser[key]? =
    if isReserved key then object.metaUser[key]? else (fi.metadata[key]?).or object.metaUser[key]?
  modTime : object'.modTime =
    if fi.modTime = Time.zero then object.modTime else fi.modTime.unixNano
  rest : { object' with
    metaSys := object.metaSys, metaUser := object.metaUser, modTime := object.modTime } = object

theorem getElem?_union_filter (old new : Metadata) (select : String → Bool) (key : String) :
    (old ∪ new.filter fun key _ => select key)[key]? =
      if select key then (new[key]?).or old[key]? else old[key]? := by
  rw [Std.ExtTreeMap.getElem?_union, Std.ExtTreeMap.getElem?_filter']
  cases new[key]? with
  | none => cases select key <;> rfl
  | some value => cases select key <;> simp

theorem XlMetaV2Object.updated_update (object : XlMetaV2Object) (fi : FileInfo) :
    object.Updated fi (object.update fi) where
  metaSys key := getElem?_union_filter object.metaSys fi.metadata isReserved key
  metaUser key := by
    rw [update, getElem?_union_filter object.metaUser fi.metadata (fun key => !isReserved key)]
    cases isReserved key <;> rfl
  modTime := rfl
  rest := rfl

open XlMetaV2Version

namespace XlMetaV2

variable (uuid : UuidPackage)

def namedVersion (z : XlMetaV2) (versionID : String) : Option XlMetaV2Version :=
  (parseVersionID uuid versionID).bind fun uv =>
    z.versions.find? (answersTo uv (normalizeID versionID))

def updateStop (z : XlMetaV2) (versionID : String) : Option XlMetaV2Version :=
  (parseVersionID uuid versionID).bind fun uv =>
    z.versions.find? (stopsUpdate uv (normalizeID versionID))

/-- One journal is another one with new metadata in the object that an id names. -/
def UpdatesOnly (z : XlMetaV2) (fi : FileInfo) (z' : XlMetaV2) : Prop :=
  ∃ before object object' after, z.versions = before ++ .objectType object :: after ∧
    parseVersionID uuid fi.versionID = some object.versionID ∧
    (∀ version ∈ before, version.answersTo object.versionID (normalizeID fi.versionID) = false) ∧
    object.Updated fi object' ∧
    z' = { z with versions := before ++ .objectType object' :: after }

/-- What an update promises: an object that is named is updated and nothing
else, and the method is not allowed exactly on a delete marker that is named. -/
structure UpdatesNamed (z : XlMetaV2) (fi : FileInfo) : Prop where
  updates : ∀ object, z.namedVersion uuid fi.versionID = some (.objectType object) →
    ∃ z', z.updateObjectVersion uuid fi = .ok z' ∧ z.UpdatesOnly uuid fi z'
  notAllowed_iff : z.updateObjectVersion uuid fi = .error .errMethodNotAllowed ↔
    ∃ marker, z.namedVersion uuid fi.versionID = some (.deleteType marker)

/-- The first entry that is unreadable, a delete marker or named is as the id
asks for: a readable object for an object, a readable delete marker for a delete
marker, and neither a readable delete marker nor a readable legacy object where
the id names a legacy object or nothing. -/
structure Unobstructed (z : XlMetaV2) (versionID : String) : Prop where
  object : (z.namedVersion uuid versionID).any isObject = true →
    (z.updateStop uuid versionID).any (fun version => version.valid && version.isObject) = true
  marker_iff : (z.updateStop uuid versionID).any (fun version => version.valid &&
      (version.isDeleteMarker || version.isLegacy)) = true ↔
    (z.namedVersion uuid versionID).any isDeleteMarker = true

variable {uuid} {z : XlMetaV2} {fi : FileInfo} {versionID : String}

theorem updateEntry_of_not_stops {uv : UUID} {version : XlMetaV2Version}
    (hpassed : version.stopsUpdate uv versionID = false) :
    version.valid = true ∧ updateEntry uv versionID fi version = none := by
  simp only [stopsUpdate, Bool.or_eq_false_iff, Bool.not_eq_false'] at hpassed
  obtain ⟨⟨hvalid, hmarker⟩, hanswers⟩ := hpassed
  refine ⟨hvalid, ?_⟩
  cases version with
  | invalid => cases hvalid
  | deleteType marker => cases hmarker
  | legacyType object => exact if_neg (by simpa [answersTo] using hanswers)
  | objectType object => exact if_neg (by simpa [answersTo] using hanswers)

theorem updateObjectVersion_of_stop {uv : UUID} {before after : List XlMetaV2Version}
    {version : XlMetaV2Version} (hparse : parseVersionID uuid fi.versionID = some uv)
    (hversions : z.versions = before ++ version :: after)
    (hbefore : ∀ other ∈ before, other.stopsUpdate uv (normalizeID fi.versionID) = false) :
    z.updateObjectVersion uuid fi =
      if version.valid then
        match updateEntry uv (normalizeID fi.versionID) fi version with
        | some (.error err) => .error err
        | some (.ok (_, splice)) => .ok { z with versions := before ++ splice after }
        | none => z.updateObjectVersion uuid fi
      else .error .errFileCorrupt := by
  have hpassed : ∀ other ∈ before, other.valid = true ∧
      updateEntry uv (normalizeID fi.versionID) fi other = none :=
    fun other hmem => updateEntry_of_not_stops (hbefore other hmem)
  split
  next hvalid =>
    split
    next err hedit =>
      simp only [updateObjectVersion, parseVersionID_normalizeID, hparse, hversions,
        editFirst_append _ hpassed, editFirst, if_pos hvalid, hedit, Except.map]
    next nothing splice hedit =>
      simp only [updateObjectVersion, parseVersionID_normalizeID, hparse, hversions,
        editFirst_eq_some hpassed hvalid hedit]
    next => rfl
  next hinvalid =>
    simp only [updateObjectVersion, parseVersionID_normalizeID, hparse, hversions,
      editFirst_append _ hpassed, editFirst, if_neg hinvalid, Except.map]

theorem exists_of_updateStop {version : XlMetaV2Version}
    (hstop : z.updateStop uuid versionID = some version) :
    ∃ uv before after, parseVersionID uuid versionID = some uv ∧
      z.versions = before ++ version :: after ∧
      version.stopsUpdate uv (normalizeID versionID) = true ∧
      ∀ other ∈ before, other.stopsUpdate uv (normalizeID versionID) = false := by
  obtain ⟨uv, hparse, hfind⟩ := Option.bind_eq_some_iff.mp hstop
  obtain ⟨hstops, before, after, hversions, hbefore⟩ := List.find?_eq_some_iff_append.mp hfind
  exact ⟨uv, before, after, hparse, hversions, hstops, fun other hmem => by
    simpa using hbefore other hmem⟩

theorem exists_updatesOnly_of_stop {object : XlMetaV2Object}
    (hstop : z.updateStop uuid fi.versionID = some (.objectType object))
    (hvalid : (objectType object).valid = true) :
    ∃ z', z.updateObjectVersion uuid fi = .ok z' ∧ z.UpdatesOnly uuid fi z' := by
  obtain ⟨uv, before, after, hparse, hversions, hstops, hbefore⟩ := exists_of_updateStop hstop
  have hid : object.versionID = uv := by
    simpa [stopsUpdate, hvalid, isDeleteMarker, answersTo] using hstops
  have hedit : updateEntry uv (normalizeID fi.versionID) fi (.objectType object) =
      some (.ok ((), fun rest => .objectType (object.update fi) :: rest)) := if_pos hid
  have hupdate := updateObjectVersion_of_stop hparse hversions hbefore
  rw [if_pos hvalid, hedit] at hupdate
  refine ⟨_, hupdate, before, object, object.update fi, after, hversions, hid ▸ hparse,
    fun version hmem => ?_, object.updated_update fi, rfl⟩
  have hpassed := hbefore version hmem
  rw [stopsUpdate, Bool.or_eq_false_iff] at hpassed
  rw [hid]
  exact hpassed.2

/-- The ways an update ends, by the entry where it stops. -/
inductive UpdateEnd (uuid : UuidPackage) (z : XlMetaV2) (fi : FileInfo) :
    Except StorageErr XlMetaV2 → Prop
  | missing (err : StorageErr) (hstop : z.updateStop uuid fi.versionID = none)
      (herr : err ≠ .errMethodNotAllowed) : UpdateEnd uuid z fi (.error err)
  | corrupt (version : XlMetaV2Version) (hstop : z.updateStop uuid fi.versionID = some version)
      (hinvalid : version.valid = false) : UpdateEnd uuid z fi (.error .errFileCorrupt)
  | refused (version : XlMetaV2Version) (hstop : z.updateStop uuid fi.versionID = some version)
      (hvalid : version.valid = true)
      (hkind : (version.isDeleteMarker || version.isLegacy) = true) :
      UpdateEnd uuid z fi (.error .errMethodNotAllowed)
  | updated (object : XlMetaV2Object) (z' : XlMetaV2)
      (hstop : z.updateStop uuid fi.versionID = some (.objectType object))
      (hvalid : (objectType object).valid = true) (honly : z.UpdatesOnly uuid fi z') :
      UpdateEnd uuid z fi (.ok z')

theorem updateEnd (uuid : UuidPackage) (z : XlMetaV2) (fi : FileInfo) :
    UpdateEnd uuid z fi (z.updateObjectVersion uuid fi) := by
  cases hstop : z.updateStop uuid fi.versionID with
  | none =>
    cases hparse : parseVersionID uuid fi.versionID with
    | none =>
      simp only [updateObjectVersion, parseVersionID_normalizeID, hparse]
      exact .missing _ hstop StorageErr.noConfusion
    | some uv =>
      have hnone := hstop
      rw [updateStop, hparse, Option.bind_some, List.find?_eq_none] at hnone
      have hpassed : ∀ version ∈ z.versions, version.valid = true ∧
          updateEntry uv (normalizeID fi.versionID) fi version = none :=
        fun version hmem => updateEntry_of_not_stops (by simpa using hnone version hmem)
      have hwalk := @editFirst_eq_none _ _ _ _ StorageErr.errFileCorrupt _ z.versions
        (fun version hmem => (hpassed version hmem).1)
        (fun version hmem => (hpassed version hmem).2)
      simp only [updateObjectVersion, parseVersionID_normalizeID, hparse, hwalk]
      exact .missing _ hstop StorageErr.noConfusion
  | some version =>
    obtain ⟨uv, before, after, hparse, hversions, hstops, hbefore⟩ := exists_of_updateStop hstop
    have hupdate := updateObjectVersion_of_stop hparse hversions hbefore
    cases hvalid : version.valid with
    | false =>
      rw [if_neg (by simp [hvalid])] at hupdate
      rw [hupdate]
      exact .corrupt version hstop hvalid
    | true =>
      rw [if_pos hvalid] at hupdate
      cases version with
      | invalid => cases hvalid
      | deleteType marker =>
        rw [show z.updateObjectVersion uuid fi = .error .errMethodNotAllowed from hupdate]
        exact .refused _ hstop hvalid rfl
      | objectType object =>
        obtain ⟨z', hok, honly⟩ := exists_updatesOnly_of_stop hstop hvalid
        rw [hok]
        exact .updated object z' hstop hvalid honly
      | legacyType object =>
        have hid : object.versionID = normalizeID fi.versionID := by
          simpa [stopsUpdate, hvalid, isDeleteMarker, answersTo] using hstops
        have hedit : updateEntry uv (normalizeID fi.versionID) fi (.legacyType object) =
            some (.error .errMethodNotAllowed) := if_pos hid
        rw [hedit] at hupdate
        rw [show z.updateObjectVersion uuid fi = .error .errMethodNotAllowed from hupdate]
        exact .refused _ hstop hvalid rfl

theorem notAllowed_iff_stop :
    z.updateObjectVersion uuid fi = .error .errMethodNotAllowed ↔
      (z.updateStop uuid fi.versionID).any (fun version => version.valid &&
        (version.isDeleteMarker || version.isLegacy)) = true := by
  have hend := updateEnd uuid z fi
  generalize z.updateObjectVersion uuid fi = result at hend
  cases hend with
  | missing err hstop herr =>
    rw [hstop]
    exact ⟨fun heq => absurd (Except.error.inj heq) herr, nofun⟩
  | corrupt version hstop hinvalid =>
    rw [hstop, Option.any_some, hinvalid]
    exact ⟨nofun, nofun⟩
  | refused version hstop hvalid hkind =>
    rw [hstop, Option.any_some, hvalid, hkind]
    exact ⟨fun _ => rfl, fun _ => rfl⟩
  | updated object z' hstop hvalid honly =>
    rw [hstop, Option.any_some]
    exact ⟨nofun, fun hkind => by simp [isDeleteMarker, isLegacy] at hkind⟩

theorem updateStop_of_ok {z' : XlMetaV2} (hok : z.updateObjectVersion uuid fi = .ok z') :
    (z.updateStop uuid fi.versionID).any (fun version => version.valid && version.isObject) =
      true := by
  have hend := updateEnd uuid z fi
  rw [hok] at hend
  cases hend with
  | updated object _ hstop hvalid honly =>
    rw [hstop, Option.any_some, hvalid]
    rfl

/-- An update keeps its promise exactly when nothing else stops it first: no
unreadable entry and no other delete marker is in front of what the id names. -/
theorem updatesNamed_iff (uuid : UuidPackage) (z : XlMetaV2) (fi : FileInfo) :
    z.UpdatesNamed uuid fi ↔ z.Unobstructed uuid fi.versionID := by
  have hmarker : (z.namedVersion uuid fi.versionID).any isDeleteMarker = true ↔
      ∃ marker, z.namedVersion uuid fi.versionID = some (.deleteType marker) := by
    cases z.namedVersion uuid fi.versionID with
    | none => exact ⟨nofun, nofun⟩
    | some version => cases version <;> simp [isDeleteMarker]
  constructor
  · intro hpromise
    constructor
    · intro hobject
      cases hnamed : z.namedVersion uuid fi.versionID with
      | none =>
        rw [hnamed] at hobject
        cases hobject
      | some version =>
        rw [hnamed, Option.any_some] at hobject
        cases version with
        | invalid | deleteType | legacyType => cases hobject
        | objectType object =>
          obtain ⟨z', hok, -⟩ := hpromise.updates object hnamed
          exact updateStop_of_ok hok
    · rw [← notAllowed_iff_stop, hpromise.notAllowed_iff, hmarker]
  · intro hfree
    constructor
    · intro object hnamed
      have hstop := hfree.object (by rw [hnamed]; rfl)
      cases hversion : z.updateStop uuid fi.versionID with
      | none =>
        rw [hversion] at hstop
        cases hstop
      | some version =>
        rw [hversion, Option.any_some, Bool.and_eq_true] at hstop
        cases version with
        | invalid | deleteType | legacyType => cases hstop.2
        | objectType stopped => exact exists_updatesOnly_of_stop hversion hstop.1
    · rw [notAllowed_iff_stop, hfree.marker_iff, hmarker]

/-- A delete marker, and an object of another id behind it. -/
def markerThenObject : XlMetaV2 where
  versions := [
    .deleteType { versionID := 1, modTime := 1, metaSys := ∅ },
    .objectType
      { versionID := 2, dataDir := 7, erasureAlgorithm := .reedSolomon, erasureM := 2
        erasureN := 2, erasureBlockSize := 1, erasureIndex := 1, erasureDist := [1, 2, 3, 4]
        bitrotChecksumAlgo := .highwayHash, partNumbers := [], partETags := [], partSizes := []
        partActualSizes := [], size := 0, modTime := 2, metaSys := ∅, metaUser := ∅ }]

/-- The metadata of the object cannot be updated, because the marker is met first. -/
theorem markerThenObject_not_updatesNamed :
    markerThenObject.AllValid ∧
      ¬ markerThenObject.UpdatesNamed .google { versionID := UuidPackage.google.print 2 } := by
  refine ⟨by decide, fun hpromise => ?_⟩
  obtain ⟨z', hok, -⟩ := hpromise.updates _ rfl
  cases hok

end XlMetaV2

end Fs3
