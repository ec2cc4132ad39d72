import Fs3.Journal.Delete

/-! # What a failed call leaves

The operations change the journal where it lies, so a call that ends with an error has left the
journal as it was only if it had changed nothing by then. -/

namespace Fs3

open Foundation

/-- The three operations on the versions of an object. -/
inductive JournalChange where
  | addVersion (fi : FileInfo)
  | updateObjectVersion (fi : FileInfo)
  | deleteVersion (fi : FileInfo)

namespace XlMetaV2

variable (uuid : UuidPackage) (clock : Clock)

/-- What `addVersion` does at one entry. -/
def replaceEntry (uv : UUID) (versionID : String) (ventry version : XlMetaV2Version) :
    Option (Except StorageErr (Unit × (List XlMetaV2Version → List XlMetaV2Version))) :=
  if version.answersTo uv versionID then some (.ok ((), fun rest => ventry :: rest)) else none

/-- `AddVersion`: the journal as it is when the call returns, and its error. -/
def addVersionInPlace (z : XlMetaV2) (fi : FileInfo) : XlMetaV2 × Option StorageErr :=
  let versionID := normalizeID fi.versionID
  match parseVersionID uuid versionID with
  | none => (z, some (.invalidUUID versionID))
  | some uv =>
    match parseDataDir uuid fi.dataDir with
    | none => (z, some (.invalidUUID fi.dataDir))
    | some dd =>
      let ventry := fi.toVersion uv dd
      let z := if fi.isInlined then { z with data := z.data.replace versionID fi.data } else z
      if ventry.valid then
        match editInPlace XlMetaV2Version.valid .errFileCorrupt
            (replaceEntry uv versionID ventry) z.versions with
        | (versions, .error err) => ({ z with versions }, some err)
        | (versions, .ok (some _)) => ({ z with versions }, none)
        | (versions, .ok none) => ({ z with versions := versions ++ [ventry] }, none)
      else (z, some (.unexpected "internal error: invalid version entry generated"))

/-- `UpdateObjectVersion`: the journal when the call returns, and its error. -/
def updateObjectVersionInPlace (z : XlMetaV2) (fi : FileInfo) : XlMetaV2 × Option StorageErr :=
  let versionID := normalizeID fi.versionID
  match parseVersionID uuid versionID with
  | none => (z, some (.invalidUUID versionID))
  | some uv =>
    match editInPlace XlMetaV2Version.valid .errFileCorrupt (updateEntry uv versionID fi)
        z.versions with
    | (versions, .error err) => ({ z with versions }, some err)
    | (versions, .ok (some _)) => ({ z with versions }, none)
    | (versions, .ok none) => ({ z with versions }, some .errFileVersionNotFound)

/-- `DeleteVersion`: the journal when the call returns, and its error. -/
def deleteVersionInPlace (z : XlMetaV2) (fi : FileInfo) : XlMetaV2 × Option StorageErr :=
  let versionID := if fi.versionID = nullVersionID then "" else fi.versionID
  match parseVersionID uuid versionID with
  | none => (z, some .errFileVersionNotFound)
  | some uv =>
    if fi.deleted && !(fi.deleteEntry uv).valid then
      (z, some (.unexpected "internal error: invalid version entry generated"))
    else
      match editInPlace XlMetaV2Version.valid .errFileCorrupt (markOrDrop uv versionID fi)
          z.versions with
      | (versions, .error err) => ({ z with versions }, some err)
      | (versions, .ok (some _)) => ({ z with versions }, none)
      | (versions, .ok none) =>
        match editInPlace XlMetaV2Version.valid .errFileCorrupt (dropObject uv fi) versions with
        | (versions, .error err) => ({ z with versions }, some err)
        | (versions, .ok (some _)) => ({ z with versions }, none)
        | (versions, .ok none) =>
          if fi.deleted then ({ z with versions := versions ++ [fi.deleteEntry uv] }, none)
          else ({ z with versions }, some .errFileVersionNotFound)

def change (z : XlMetaV2) : JournalChange → XlMetaV2 × Option StorageErr
  | .addVersion fi => z.addVersionInPlace uuid fi
  | .updateObjectVersion fi => z.updateObjectVersionInPlace uuid fi
  | .deleteVersion fi => z.deleteVersionInPlace uuid fi

/-- A call that returns an error leaves the versions and the data as they were. -/
def KeptOnError (z : XlMetaV2) (call : JournalChange) : Prop :=
  ∀ err, (z.change uuid call).2 = some err → (z.change uuid call).1 = z

def readableUpTo (z : XlMetaV2) (uv : UUID) (versionID : String) : Bool :=
  (z.versions.find? fun version => !version.valid || version.answersTo uv versionID).all
    XlMetaV2Version.valid

end XlMetaV2

/-- A version with data is added only where its entry can be read and so can the
entries up to its place, or where the data is there already. -/
def JournalChange.Sound (uuid : UuidPackage) (z : XlMetaV2) : JournalChange → Prop
  | addVersion fi => fi.isInlined = true → ∀ uv dd, parseVersionID uuid fi.versionID = some uv →
      parseDataDir uuid fi.dataDir = some dd →
      (fi.toVersion uv dd).valid = true ∧ z.readableUpTo uv (normalizeID fi.versionID) = true ∨
        z.data.replace (normalizeID fi.versionID) fi.data = z.data
  | updateObjectVersion _ => True
  | deleteVersion _ => True

namespace XlMetaV2

variable {uuid : UuidPackage} {z : XlMetaV2} {fi : FileInfo}

/-! ## The operations of the journal -/

variable (uuid) in
def preparedData (z : XlMetaV2) (fi : FileInfo) : XlMetaInlineData :=
  match parseVersionID uuid fi.versionID, parseDataDir uuid fi.dataDir with
  | some _, some _ =>
    if fi.isInlined then z.data.replace (normalizeID fi.versionID) fi.data else z.data
  | _, _ => z.data

theorem addVersionInPlace_eq :
    z.addVersionInPlace uuid fi =
      match z.addVersion uuid fi with
      | .error err => ({ z with data := z.preparedData uuid fi }, some err)
      | .ok z' => (z', none) := by
  have hreplace : ∀ uv ventry, replaceVersion uv (normalizeID fi.versionID) ventry z.versions =
      editFirst XlMetaV2Version.valid StorageErr.errFileCorrupt
        (replaceEntry uv (normalizeID fi.versionID) ventry) z.versions := fun _ _ => rfl
  unfold addVersionInPlace addVersion preparedData
  dsimp only
  rw [parseVersionID_normalizeID]
  cases parseVersionID uuid fi.versionID with
  | none => rfl
  | some uv =>
    cases parseDataDir uuid fi.dataDir with
    | none => rfl
    | some dd =>
      dsimp only
      split
      next =>
        have hversions : (if fi.isInlined = true then ({ z with
            data := z.data.replace (normalizeID fi.versionID) fi.data } : XlMetaV2)
            else z).versions = z.versions := by
          split <;> rfl
        rw [hversions, editInPlace_eq, hreplace]
        cases editFirst XlMetaV2Version.valid StorageErr.errFileCorrupt
          (replaceEntry uv (normalizeID fi.versionID) (fi.toVersion uv dd)) z.versions with
        | error err => cases fi.isInlined <;> rfl
        | ok found => cases found <;> cases fi.isInlined <;> rfl
      next => cases fi.isInlined <;> rfl

theorem updateObjectVersionInPlace_eq :
    z.updateObjectVersionInPlace uuid fi =
      match z.updateObjectVersion uuid fi with
      | .error err => (z, some err)
      | .ok z' => (z', none) := by
  unfold updateObjectVersionInPlace updateObjectVersion
  dsimp only
  cases parseVersionID uuid (normalizeID fi.versionID) with
  | none => rfl
  | some uv =>
    dsimp only
    rw [editInPlace_eq]
    cases editFirst XlMetaV2Version.valid StorageErr.errFileCorrupt
      (updateEntry uv (normalizeID fi.versionID) fi) z.versions with
    | error err => rfl
    | ok found => cases found <;> rfl

theorem deleteVersionInPlace_eq (clock : Clock) :
    z.deleteVersionInPlace uuid fi =
      match z.deleteVersion uuid clock fi with
      | .error err => (z, some err)
      | .ok (z', _, _) => (z', none) := by
  unfold deleteVersionInPlace deleteVersion
  dsimp only
  cases parseVersionID uuid (if fi.versionID = nullVersionID then "" else fi.versionID) with
  | none => rfl
  | some uv =>
    dsimp only
    split
    next => rfl
    next =>
      rw [editInPlace_eq]
      cases editFirst XlMetaV2Version.valid StorageErr.errFileCorrupt
        (markOrDrop uv (if fi.versionID = nullVersionID then "" else fi.versionID) fi)
        z.versions with
      | error err => rfl
      | ok found =>
        cases found with
        | some found => rfl
        | none =>
          dsimp only
          rw [editInPlace_eq]
          cases editFirst XlMetaV2Version.valid StorageErr.errFileCorrupt
            (dropObject uv fi) z.versions with
          | error err => rfl
          | ok found =>
            cases found with
            | some found => rfl
            | none =>
              dsimp only
              cases fi.deleted <;> rfl

/-! ## Whether a call keeps its promise -/

/-- The walk of a new version fails exactly where it meets an unreadable entry. -/
theorem replaceVersion_isError_iff {uv : UUID} {versionID : String} {ventry : XlMetaV2Version}
    (versions : List XlMetaV2Version) :
    (∃ err, replaceVersion uv versionID ventry versions = .error err) ↔
      (versions.find? fun version => !version.valid || version.answersTo uv versionID).all
        XlMetaV2Version.valid = false := by
  unfold replaceVersion
  induction versions with
  | nil => exact ⟨fun ⟨_, hnil⟩ => (nomatch hnil), nofun⟩
  | cons version rest ih =>
    rw [editFirst, List.find?_cons]
    cases hvalid : version.valid with
    | false =>
      rw [if_neg Bool.false_ne_true]
      simp [hvalid]
    | true =>
      rw [if_pos rfl]
      cases hanswers : version.answersTo uv versionID with
      | true => simp [hvalid]
      | false =>
        rw [if_neg Bool.false_ne_true]
        simp only [Bool.not_true, Bool.or_self]
        rw [← ih]
        constructor
        · rintro ⟨err, herr⟩
          cases hrest : editFirst XlMetaV2Version.valid StorageErr.errFileCorrupt _ rest with
          | error err' => exact ⟨err', rfl⟩
          | ok found =>
            rw [hrest] at herr
            cases herr
        · rintro ⟨err, herr⟩
          rw [herr]
          exact ⟨err, rfl⟩

theorem addVersion_isError_iff {uv dd : UUID}
    (hparse : parseVersionID uuid fi.versionID = some uv)
    (hdir : parseDataDir uuid fi.dataDir = some dd) :
    (∃ err, z.addVersion uuid fi = .error err) ↔
      ¬ ((fi.toVersion uv dd).valid = true ∧
        z.readableUpTo uv (normalizeID fi.versionID) = true) := by
  have hwalk := @replaceVersion_isError_iff uv (normalizeID fi.versionID) (fi.toVersion uv dd)
    z.versions
  simp only [readableUpTo, addVersion, parseVersionID_normalizeID, hparse, hdir]
  split
  next hentry =>
    rw [and_iff_right hentry, Bool.not_eq_true, ← hwalk]
    cases replaceVersion uv (normalizeID fi.versionID) (fi.toVersion uv dd) z.versions with
    | error err => exact ⟨fun _ => ⟨err, rfl⟩, fun _ => ⟨err, rfl⟩⟩
    | ok found =>
      cases found with
      | none => simp
      | some found => simp
  next hentry => exact ⟨fun _ hvalid => hentry hvalid.1, fun _ => ⟨_, rfl⟩⟩

/-- A call that fails leaves the versions and the inline data as they were
exactly when it does not put data in place that it then refuses. -/
theorem keptOnError_iff_sound (uuid : UuidPackage) (z : XlMetaV2) (call : JournalChange) :
    z.KeptOnError uuid call ↔ call.Sound uuid z := by
  cases call with
  | updateObjectVersion fi =>
    refine ⟨fun _ => trivial, fun _ err herr => ?_⟩
    simp only [change, updateObjectVersionInPlace_eq] at herr ⊢
    split at herr
    next => rfl
    next => cases herr
  | deleteVersion fi =>
    refine ⟨fun _ => trivial, fun _ err herr => ?_⟩
    simp only [change, deleteVersionInPlace_eq ⟨Time.zero, fun _ => none⟩] at herr ⊢
    split at herr
    next => rfl
    next => cases herr
  | addVersion fi =>
    have hkept : z.KeptOnError uuid (.addVersion fi) ↔
        ((∃ err, z.addVersion uuid fi = .error err) →
          ({ z with data := z.preparedData uuid fi } : XlMetaV2) = z) := by
      unfold KeptOnError change
      simp only [addVersionInPlace_eq]
      cases z.addVersion uuid fi with
      | ok z' => exact ⟨fun _ ⟨_, hok⟩ => (nomatch hok), fun _ _ hok => (nomatch hok)⟩
      | error err => exact ⟨fun hall _ => hall err rfl, fun hsame _ _ => hsame ⟨err, rfl⟩⟩
    have hdata : ({ z with data := z.preparedData uuid fi } : XlMetaV2) = z ↔
        z.preparedData uuid fi = z.data :=
      ⟨fun heq => congrArg XlMetaV2.data heq, fun heq => by rw [heq]⟩
    rw [hkept, hdata, JournalChange.Sound]
    unfold preparedData
    cases hparse : parseVersionID uuid fi.versionID with
    | none => exact ⟨fun _ _ _ _ hnone => (nomatch hnone), fun _ _ => rfl⟩
    | some uv =>
      cases hdir : parseDataDir uuid fi.dataDir with
      | none => exact ⟨fun _ _ _ _ _ hnone => (nomatch hnone), fun _ _ => rfl⟩
      | some dd =>
        rw [addVersion_isError_iff hparse hdir]
        dsimp only
        constructor
        · rintro hsame hinlined _ _ ⟨⟩ ⟨⟩
          by_cases hsound : (fi.toVersion uv dd).valid = true ∧
              z.readableUpTo uv (normalizeID fi.versionID) = true
          · exact Or.inl hsound
          · have hsame := hsame hsound
            rw [if_pos hinlined] at hsame
            exact Or.inr hsame
        · intro hsound hfails
          split
          next hinlined => exact (hsound hinlined uv dd rfl rfl).resolve_left hfails
          next => rfl

def unusableVersion : FileInfo where
  modTime := (1 : Int)
  size := 1
  data := [0x61]

/-- The object is refused and its byte stays, here in an empty journal. -/
theorem not_keptOnError_unusableVersion :
    ¬ ({} : XlMetaV2).KeptOnError .google (.addVersion unusableVersion) := by
  intro hkept
  have hsame := hkept _ rfl
  exact absurd (congrArg XlMetaV2.data hsame) (by decide)

end XlMetaV2

end Fs3
