import Fs3.Journal.ListVersions

/-! # Reading inline data back

A read of a version looks its data up under the id the version has, and where there is none under
its data directory. -/

namespace Fs3

open Foundation

namespace XlMetaInlineData

def stored (x : XlMetaInlineData) (key : String) : Bytes := (x.find key).getD []

theorem stored_replace (x : XlMetaInlineData) (key other : String) (value : Bytes) :
    (x.replace key value).stored other = if other = key then value else x.stored other := by
  rw [stored, find_replace]
  split <;> rfl

def read (x : XlMetaInlineData) (key dataDir : String) : Bytes :=
  if (x.stored key).length = 0 then x.stored dataDir else x.stored key

theorem read_of_nil {x : XlMetaInlineData} {key dataDir : String} (hnil : x.stored key = []) :
    x.read key dataDir = x.stored dataDir := by
  rw [read, if_pos (by rw [hnil]; rfl)]

theorem read_of_ne_nil {x : XlMetaInlineData} {key dataDir : String}
    (hne : x.stored key ≠ []) : x.read key dataDir = x.stored key := by
  rw [read, if_neg fun hlength => hne (List.length_eq_zero_iff.mp hlength)]

end XlMetaInlineData

namespace XlMetaV2

variable (uuid : UuidPackage) (volume path : String)
variable (sorter : DescendingSort XlMetaV2Version.modTime)

/-- `getFileInfo` of metadata that loads as this journal. -/
def getFileInfo (z : XlMetaV2) (versionID : String) (data : Bool) : Except StorageErr FileInfo :=
  match z.toFileInfo uuid volume path sorter versionID with
  | .error err => .error err
  | .ok fi =>
    if data then .ok { fi with data := z.data.read (normalizeID fi.versionID) fi.dataDir }
    else .ok fi

/-- A lookup of an id may return a version: of the latest ones for the empty
id, and of the oldest ones that have the id for any other. -/
def MayRead (z : XlMetaV2) (versionID : String) (version : XlMetaV2Version) : Prop :=
  z.AllValid ∧
    if versionID = "" then
      version ∈ z.versions ∧ ∀ other ∈ z.versions, other.modTime ≤ version.modTime
    else ∃ uv, parseVersionID uuid versionID = some uv ∧ z.Oldest uv versionID version

end XlMetaV2

namespace XlMetaV2Version

variable (uuid : UuidPackage) (version : XlMetaV2Version)

def inlineKey : String := normalizeID (version.fileInfo uuid "" "").versionID

def inlineDir : String := (version.fileInfo uuid "" "").dataDir

theorem inlineKey_eq (volume path : String) :
    normalizeID (version.fileInfo uuid volume path).versionID = version.inlineKey uuid := by
  cases version <;> rfl

theorem inlineDir_eq (volume path : String) :
    (version.fileInfo uuid volume path).dataDir = version.inlineDir uuid := by
  cases version <;> rfl

end XlMetaV2Version

namespace XlMetaV2

variable {uuid : UuidPackage} {volume path : String}
variable {sorter : DescendingSort XlMetaV2Version.modTime}
variable {z z' : XlMetaV2} {versionID : String}

/-- What a read with data returns of the version that it finds. -/
structure ReadsInline (uuid : UuidPackage) (z : XlMetaV2) (version : XlMetaV2Version)
    (got : FileInfo) : Prop where
  versionID : parseVersionID uuid got.versionID = some version.uuid
  key : normalizeID got.versionID = version.inlineKey uuid
  dir : got.dataDir = version.inlineDir uuid
  data : got.data = z.data.read (version.inlineKey uuid) (version.inlineDir uuid)

theorem getFileInfo_of_record {version : XlMetaV2Version} (hvalid : version.valid = true)
    (hrecord : z.record uuid volume path sorter versionID =
      .ok (version.fileInfo uuid volume path)) :
    ∃ got, z.getFileInfo uuid volume path sorter versionID true = .ok got ∧
      z.ReadsInline uuid version got := by
  unfold record at hrecord
  unfold getFileInfo
  cases hlookup : z.toFileInfo uuid volume path sorter versionID with
  | error err =>
    rw [hlookup] at hrecord
    cases hrecord
  | ok fi =>
    rw [hlookup] at hrecord
    have hstatic : fi.static = version.fileInfo uuid volume path := Except.ok.inj hrecord
    have hid : fi.versionID = (version.fileInfo uuid volume path).versionID := by
      rw [← hstatic]
      rfl
    have hdir : fi.dataDir = (version.fileInfo uuid volume path).dataDir := by
      rw [← hstatic]
      rfl
    refine ⟨_, rfl, ?_, ?_, ?_, ?_⟩
    · exact (congrArg (parseVersionID uuid) hid).trans (parseVersionID_fileInfo hvalid)
    · exact (congrArg normalizeID hid).trans (version.inlineKey_eq uuid volume path)
    · exact hdir.trans (version.inlineDir_eq uuid volume path)
    · rw [← version.inlineKey_eq uuid volume path, ← version.inlineDir_eq uuid volume path,
        ← hid, ← hdir]

/-- A read that succeeds returns one of the versions it may return. -/
theorem exists_mayRead_of_getFileInfo {got : FileInfo}
    (hread : z.getFileInfo uuid volume path sorter versionID true = .ok got) :
    ∃ version, z.MayRead uuid versionID version ∧ z.ReadsInline uuid version got := by
  have hlookup : ∃ fi, z.toFileInfo uuid volume path sorter versionID = .ok fi := by
    unfold getFileInfo at hread
    split at hread
    next => cases hread
    next fi hlookup => exact ⟨fi, hlookup⟩
  obtain ⟨fi, hlookup⟩ := hlookup
  have hvalid := allValid_of_toFileInfo hlookup
  have hfound : ∃ version, z.MayRead uuid versionID version ∧
      z.record uuid volume path sorter versionID = .ok (version.fileInfo uuid volume path) := by
    by_cases hempty : versionID = ""
    · subst hempty
      have hne : z.versions ≠ [] := by
        intro hnil
        rw [toFileInfo_empty_of_nil hnil] at hlookup
        cases hlookup
      obtain ⟨latest, hmem, -, hnewest, hrecord⟩ :=
        exists_latest uuid volume path sorter hvalid hne
      exact ⟨latest, ⟨hvalid, by rw [if_pos rfl]; exact ⟨hmem, hnewest⟩⟩, hrecord⟩
    · obtain ⟨uv, hparse, hsome⟩ :=
        (exists_toFileInfo_iff volume path sorter hvalid hempty).mp ⟨fi, hlookup⟩
      obtain ⟨version, holdest, hrecord⟩ :=
        exists_record volume path sorter hvalid hparse hempty hsome
      exact ⟨version, ⟨hvalid, by rw [if_neg hempty]; exact ⟨uv, hparse, holdest⟩⟩, hrecord⟩
  obtain ⟨version, hmay, hrecord⟩ := hfound
  have hmem : version ∈ z.versions := by
    have hkind := hmay.2
    split at hkind
    · exact hkind.1
    · obtain ⟨uv, -, holdest⟩ := hkind
      exact holdest.1
  obtain ⟨got', hread', hinline⟩ := getFileInfo_of_record (hvalid version hmem) hrecord
  obtain rfl : got' = got := Except.ok.inj (hread'.symm.trans hread)
  exact ⟨version, hmay, hinline⟩

variable (volume path) in
theorem exists_getFileInfo_of_mayRead {version : XlMetaV2Version}
    (hmay : z.MayRead uuid versionID version) :
    ∃ sorter got, z.getFileInfo uuid volume path sorter versionID true = .ok got ∧
      z.ReadsInline uuid version got := by
  obtain ⟨hvalid, hkind⟩ := hmay
  split at hkind
  next hempty =>
    subst hempty
    obtain ⟨hmem, hnewest⟩ := hkind
    have hhead := DescendingSort.putFirst_head hmem hnewest
    obtain ⟨latest, -, hlatest, -, hrecord⟩ := exists_latest uuid volume path
      (DescendingSort.putFirst XlMetaV2Version.modTime version) hvalid (List.ne_nil_of_mem hmem)
    obtain rfl : version = latest := Option.some.inj (hhead.symm.trans hlatest)
    exact ⟨_, getFileInfo_of_record (hvalid version hmem) hrecord⟩
  next hne =>
    obtain ⟨uv, hparse, holdest⟩ := hkind
    exact ⟨_, getFileInfo_of_record (hvalid version holdest.1)
      (exists_sorter_record volume path hvalid hparse hne holdest)⟩

/-! ## The two stores after an added version -/

/-- Reads after a version was added: whichever id is asked for, the version of
the request has the data of the request if it is inlined and none otherwise, and
every other version has the data it had. -/
def ServesInline (uuid : UuidPackage) (z : XlMetaV2) (fi : FileInfo) (z' : XlMetaV2) : Prop :=
  ∀ volume path sorter versionID got,
    z'.getFileInfo uuid volume path sorter versionID true = .ok got →
      if parseVersionID uuid got.versionID = parseVersionID uuid fi.versionID then
        got.data = if fi.isInlined then fi.data else []
      else got.data = z.data.read (normalizeID got.versionID) got.dataDir

end XlMetaV2

/-- What the old data must be for the version of a request, which is read under a key or a
directory. -/
def FileInfo.OwnFits (fi : FileInfo) (data : XlMetaInlineData) (key dir : String) : Prop :=
  if fi.isInlined then
    if key = normalizeID fi.versionID then fi.data = [] → dir ≠ key → data.stored dir = []
    else if dir = normalizeID fi.versionID then data.stored key = [] ∨ data.stored key = fi.data
    else data.read key dir = fi.data
  else data.stored key = [] ∧ data.stored dir = []

/-- What must hold for another version: the id of inlined data is not the name
of its data directory, unless it has data of its own or the bytes are the same. -/
def FileInfo.OtherFits (fi : FileInfo) (data : XlMetaInlineData) (key dir : String) : Prop :=
  fi.isInlined = true → dir = normalizeID fi.versionID → data.stored key = [] →
    data.stored dir = fi.data

/-- Every version that may be read after the add finds the old data in order. -/
def FileInfo.InlineFits (fi : FileInfo) (uuid : UuidPackage) (z z' : XlMetaV2) : Prop :=
  ∀ versionID version, z'.MayRead uuid versionID version →
    if some version.uuid = parseVersionID uuid fi.versionID then
      fi.OwnFits z.data (version.inlineKey uuid) (version.inlineDir uuid)
    else fi.OtherFits z.data (version.inlineKey uuid) (version.inlineDir uuid)

variable {uuid : UuidPackage} {fi : FileInfo} {data : XlMetaInlineData} {key dir : String}

def FileInfo.addData (fi : FileInfo) (data : XlMetaInlineData) : XlMetaInlineData :=
  if fi.isInlined then data.replace (normalizeID fi.versionID) fi.data else data

theorem FileInfo.ownFits_iff :
    (fi.addData data).read key dir = (if fi.isInlined then fi.data else []) ↔
      fi.OwnFits data key dir := by
  unfold FileInfo.addData FileInfo.OwnFits
  split
  next =>
    have hstored := data.stored_replace (normalizeID fi.versionID)
    split
    next hkey =>
      have hself : (data.replace (normalizeID fi.versionID) fi.data).stored key = fi.data := by
        rw [hstored, if_pos hkey]
      by_cases hnil : fi.data = []
      · rw [XlMetaInlineData.read_of_nil (hself.trans hnil), hstored, hnil]
        by_cases hdir : dir = key
        · rw [if_pos (hdir.trans hkey)]
          exact ⟨fun _ _ hne => absurd hdir hne, fun _ => rfl⟩
        · rw [if_neg fun h => hdir (h.trans hkey.symm)]
          exact ⟨fun h _ _ => h, fun h => h rfl hdir⟩
      · rw [XlMetaInlineData.read_of_ne_nil (by rwa [hself]), hself]
        exact ⟨fun _ h => absurd h hnil, fun _ => rfl⟩
    next hkey =>
      have hother : (data.replace (normalizeID fi.versionID) fi.data).stored key =
          data.stored key := by
        rw [hstored, if_neg hkey]
      by_cases hnil : data.stored key = []
      · rw [XlMetaInlineData.read_of_nil (hother.trans hnil), XlMetaInlineData.read_of_nil hnil,
          hstored]
        split
        next => exact ⟨fun _ => Or.inl hnil, fun _ => rfl⟩
        next => exact Iff.rfl
      · rw [XlMetaInlineData.read_of_ne_nil (by rwa [hother]),
          XlMetaInlineData.read_of_ne_nil hnil, hother]
        split
        next => exact (or_iff_right hnil).symm
        next => exact Iff.rfl
  next =>
    by_cases hnil : data.stored key = []
    · rw [XlMetaInlineData.read_of_nil hnil, and_iff_right hnil]
    · rw [XlMetaInlineData.read_of_ne_nil hnil]
      exact ⟨fun h => absurd h hnil, fun h => absurd h.1 hnil⟩

theorem FileInfo.otherFits_iff (hkey : key ≠ normalizeID fi.versionID) :
    (fi.addData data).read key dir = data.read key dir ↔ fi.OtherFits data key dir := by
  unfold FileInfo.addData FileInfo.OtherFits
  split
  next hinlined =>
    have hstored := data.stored_replace (normalizeID fi.versionID)
    have hother : (data.replace (normalizeID fi.versionID) fi.data).stored key =
        data.stored key := by
      rw [hstored, if_neg hkey]
    by_cases hnil : data.stored key = []
    · rw [XlMetaInlineData.read_of_nil (hother.trans hnil), XlMetaInlineData.read_of_nil hnil,
        hstored]
      by_cases hdir : dir = normalizeID fi.versionID
      · rw [if_pos hdir]
        exact ⟨fun h _ _ _ => h.symm, fun h => (h hinlined hdir hnil).symm⟩
      · rw [if_neg hdir]
        exact ⟨fun _ _ h => absurd h hdir, fun _ => rfl⟩
    · rw [XlMetaInlineData.read_of_ne_nil (by rwa [hother]),
        XlMetaInlineData.read_of_ne_nil hnil]
      exact ⟨fun _ _ _ h => absurd h hnil, fun _ => hother⟩
  next hinlined => exact ⟨fun _ h => absurd h hinlined, fun _ => rfl⟩

namespace XlMetaV2

variable {z z' : XlMetaV2}

/-- After a version was added every read returns the data it should exactly when
the old data is in order for the versions that may be read. -/
theorem servesInline_iff (hadd : z.addVersion uuid fi = .ok z') :
    ServesInline uuid z fi z' ↔ fi.InlineFits uuid z z' := by
  obtain ⟨uv, dd, hparse, -, -, hdata, -⟩ := addVersion_cases hadd
  have hdata : z'.data = fi.addData z.data := hdata
  -- One version that a read returns decides both sides.
  have hversion : ∀ version got, z'.ReadsInline uuid version got →
      ((if parseVersionID uuid got.versionID = parseVersionID uuid fi.versionID then
          got.data = if fi.isInlined then fi.data else []
        else got.data = z.data.read (normalizeID got.versionID) got.dataDir) ↔
        if some version.uuid = parseVersionID uuid fi.versionID then
          fi.OwnFits z.data (version.inlineKey uuid) (version.inlineDir uuid)
        else fi.OtherFits z.data (version.inlineKey uuid) (version.inlineDir uuid)) := by
    intro version got hreads
    rw [hreads.versionID, hreads.data, hreads.key, hreads.dir, hdata]
    split
    next => exact FileInfo.ownFits_iff
    next hother =>
      refine FileInfo.otherFits_iff fun hkey => hother ?_
      rw [← hreads.key] at hkey
      rw [← hreads.versionID, ← parseVersionID_normalizeID, hkey, parseVersionID_normalizeID]
  constructor
  · intro hserves versionID version hmay
    obtain ⟨sorter, got, hread, hreads⟩ := exists_getFileInfo_of_mayRead "" "" hmay
    exact (hversion version got hreads).mp (hserves _ _ _ _ _ hread)
  · intro hfits volume path sorter versionID got hread
    obtain ⟨version, hmay, hreads⟩ := exists_mayRead_of_getFileInfo hread
    exact (hversion version got hreads).mpr (hfits versionID version hmay)

def smallVersion : FileInfo where
  modTime := (1 : Int)
  size := 1
  data := [0x61]
  erasure := { dataBlocks := 2, parityBlocks := 2, index := 1, distribution := [1, 2, 3, 4] }

def largeVersion : FileInfo :=
  { smallVersion with size := 5, data := [], modTime := (2 : Int) }

def smallJournal : XlMetaV2 where
  versions := [smallVersion.toVersion 0 0]
  data := [("null", [0x61])]

def largeJournal : XlMetaV2 where
  versions := [largeVersion.toVersion 0 0]
  data := [("null", [0x61])]

/-- The large version is read with the byte of the small one it has replaced. -/
theorem largeJournal_not_servesInline :
    ({} : XlMetaV2).addVersion .google smallVersion = .ok smallJournal ∧
      smallJournal.addVersion .google largeVersion = .ok largeJournal ∧
      ¬ ServesInline .google smallJournal largeVersion largeJournal := by
  refine ⟨rfl, rfl, fun hserves => ?_⟩
  have hread : ([0x61] : Bytes) = [] :=
    hserves "bucket" "object" (DescendingSort.stable _) "null" _ rfl
  cases hread

/-- The small version is read with its byte. -/
theorem smallJournal_servesInline :
    ServesInline .google {} smallVersion smallJournal := by
  refine (servesInline_iff rfl).mpr fun versionID version hmay => ?_
  have hmem : version ∈ smallJournal.versions := by
    have hkind := hmay.2
    split at hkind
    · exact hkind.1
    · obtain ⟨uv, -, holdest⟩ := hkind
      exact holdest.1
  rw [List.mem_singleton.mp hmem]
  have hown : smallVersion.OwnFits [] "null" (UuidPackage.google.print 0) :=
    fun hnil => absurd hnil (List.cons_ne_nil _ _)
  exact hown

end XlMetaV2

end Fs3
