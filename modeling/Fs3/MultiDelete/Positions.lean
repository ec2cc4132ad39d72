import Fs3.Erasure.Quorum
import Fs3.Foundation.Slots
import Fs3.MultiDelete.Handler

/-! # The places of a bulk delete

`DeleteObjects` groups the request by pool, each pool groups its share by hashed set, and each set
asks every drive for the whole of its share. The two slices each level returns are one list of
pairs here. The range over `objSetMap` is in any order. -/

namespace Fs3.MultiDelete

open Foundation Listing

variable {σ ε : Type}

structure ObjectOptions where
  versionID : String := ""
  mtime : Time := Time.zero
  versioned : Bool := false
  versionSuspended : Bool := false

/-- The fields of `FileInfo` that a bulk delete fills. -/
structure VersionToDelete where
  name : Name
  versionID : String
  modTime : Time := Time.zero
  deleted : Bool := false
  deleteMarkerReplicationStatus : String
  versionPurgeStatus : String

structure Deleted extends DeletedObject where
  deleteMarkerMTime : Time := Time.zero

/-- A drive of a set. -/
structure Drive (σ : Type) where
  refuses : Option StorageErr
  state : σ

def getDefaultParityBlocks : Int → Int
  | 3 | 2 => 1
  | 4 | 5 => 2
  | 6 | 7 => 3
  | _ => 4

def getWriteQuorum (drive : Int) : Int :=
  let parity := getDefaultParityBlocks drive
  let quorum := drive - parity
  if quorum = parity then quorum + 1 else quorum

/-- A set of drives, with the clock and the fresh ids it draws for each object. -/
structure ErasureObjects (σ : Type) where
  storageDisks : List (Option (Drive σ))
  orders : MapOrders
  now : Nat → Time
  mustGetUUID : Nat → String

structure ErasureSets (σ : Type) where
  sets : Nat → ErasureObjects σ
  getHashedSetIndex : Name → Nat
  /-- The order in which a map with these keys is ranged over. -/
  ranged : List Nat → List Nat
  mem_ranged : ∀ keys key, key ∈ ranged keys ↔ key ∈ keys

inductive PoolLookup (ε : Type) (poolCount : Nat)
  | pool (idx : Fin poolCount)
  | objectNotFound (err : ε)
  | failed (err : ε)

/-- The deployment as one call finds it: the lookups and the lock come out as given. -/
structure ErasureServerPools (σ ε : Type) where
  opts : ObjectOptions
  deleteVersion : σ → VersionToDelete → Option StorageErr × σ
  toObjectErr : Option StorageErr → ObjectToDelete → Option ε
  poolCount : Nat
  serverPools : Fin poolCount → ErasureSets σ
  checkDelObjArgs : Name → Option ε
  /-- The answer to the lookup of the object at a place of the request. -/
  getPoolIdxExisting : Nat → Name → PoolLookup ε poolCount
  lockErr : Option ε

def versionOf (opts : ObjectOptions) (now : Time) (uuid : String) (object : ObjectToDelete) :
    VersionToDelete :=
  if object.versionID = "" ∧ (opts.versioned || opts.versionSuspended) then
    { name := object.objectName
      modTime := if opts.mtime.isZero then now else opts.mtime
      deleted := true
      deleteMarkerReplicationStatus := object.deleteMarkerReplicationStatus
      versionPurgeStatus := object.versionPurgeStatus
      versionID :=
        if opts.versioned then (if opts.versionID = "" then uuid else opts.versionID) else "" }
  else
    { name := object.objectName
      versionID := object.versionID
      deleteMarkerReplicationStatus := object.deleteMarkerReplicationStatus
      versionPurgeStatus := object.versionPurgeStatus }

def dobjectOf (version : VersionToDelete) : Deleted :=
  if version.deleted then
    { deleteMarker := version.deleted
      deleteMarkerVersionID := version.versionID
      deleteMarkerMTime := version.modTime
      deleteMarkerReplicationStatus := version.deleteMarkerReplicationStatus
      objectName := version.name
      versionPurgeStatus := version.versionPurgeStatus }
  else
    { objectName := version.name
      versionID := version.versionID
      versionPurgeStatus := version.versionPurgeStatus
      deleteMarkerReplicationStatus := version.deleteMarkerReplicationStatus }

/-- `xlStorage.DeleteVersions`: one version after the other. -/
def deleteVersions (deleteVersion : σ → VersionToDelete → Option StorageErr × σ) (state : σ) :
    List VersionToDelete → List (Option StorageErr)
  | [] => []
  | version :: rest =>
    let (err, state) := deleteVersion state version
    err :: deleteVersions deleteVersion state rest

def driveErrs (deleteVersion : σ → VersionToDelete → Option StorageErr × σ)
    (versions : List VersionToDelete) : Option (Drive σ) → List (Option StorageErr)
  | none => versions.map fun _ => some .errDiskNotFound
  | some ⟨some err, _⟩ => versions.map fun _ => some err
  | some ⟨none, state⟩ => deleteVersions deleteVersion state versions

namespace ErasureServerPools

variable (z : ErasureServerPools σ ε)

def versions (er : ErasureObjects σ) (objects : List ObjectToDelete) : List VersionToDelete :=
  objects.mapIdx fun i object => versionOf z.opts (er.now i) (er.mustGetUUID i) object

def reduced (er : ErasureObjects σ) (objects : List ObjectToDelete) (objIndex : Nat) :
    Option StorageErr :=
  let delObjErrs := er.storageDisks.map (driveErrs z.deleteVersion (z.versions er objects))
  let diskErrs := delObjErrs.map fun errs => errs.getD objIndex none
  reduceWriteQuorumErrs er.orders diskErrs objectOpIgnoredErrs
    (getWriteQuorum er.storageDisks.length)

/-- `erasureObjects.DeleteObjects`. -/
def setDeleteObjects (er : ErasureObjects σ) (objects : List ObjectToDelete) :
    List (Deleted × Option ε) :=
  (objects.zip (z.versions er objects)).mapIdx fun objIndex (object, version) =>
    (dobjectOf version, z.toObjectErr (z.reduced er objects objIndex) object)

def setOf (s : ErasureSets σ) (item : ObjectToDelete × Nat) : Option Nat :=
  some (s.getHashedSetIndex item.1.objectName)

/-- `erasureSets.DeleteObjects`. -/
def setsDeleteObjects (s : ErasureSets σ) (objects : List ObjectToDelete) :
    List (Deleted × Option ε) :=
  let keys := s.ranged (objects.map fun object => s.getHashedSetIndex object.objectName)
  let puts := groupPuts (setOf s) objects (fun idx => z.setDeleteObjects (s.sets idx)) keys
  (List.range objects.length).map (putAll (fun _ => ({}, none)) puts)

def poolOf (item : ObjectToDelete × Nat) : Option (Fin z.poolCount) :=
  match z.getPoolIdxExisting item.2 item.1.objectName with
  | .pool idx => some idx
  | _ => none

def lookupErr (objects : List ObjectToDelete) : Option ε :=
  objects.zipIdx.findSome? fun item =>
    match z.getPoolIdxExisting item.2 item.1.objectName with
    | .failed err => some err
    | _ => none

def derrs (item : ObjectToDelete × Nat) : Option ε :=
  match z.getPoolIdxExisting item.2 item.1.objectName with
  | .objectNotFound err => some err
  | _ => z.checkDelObjArgs item.1.objectName

def refused (objects : List ObjectToDelete) : Option ε :=
  if z.poolCount = 1 then z.lockErr else (z.lookupErr objects).or z.lockErr

def poolPuts (objects : List ObjectToDelete) : List (Nat × Deleted × Option ε) :=
  groupPuts z.poolOf objects (fun idx => z.setsDeleteObjects (z.serverPools idx))
    (List.finRange z.poolCount)

/-- `erasureServerPools.DeleteObjects`, on names as the drives have them. -/
def deleteEncoded (objects : List ObjectToDelete) : List (Deleted × Option ε) :=
  match z.refused objects with
  | some err => objects.map fun _ => ({}, some err)
  | none =>
    if h : z.poolCount = 1 then z.setsDeleteObjects (z.serverPools ⟨0, h.symm ▸ Nat.one_pos⟩) objects
    else
      objects.zipIdx.map fun item =>
        (putAll (fun _ => {}) ((z.poolPuts objects).map fun put => (put.1, put.2.1)) item.2,
          putAll (fun _ => z.derrs item)
            ((z.poolPuts objects).filterMap fun put => put.2.2.map fun err => (put.1, some err)) item.2)

def DeleteObjects (objects : List ObjectToDelete) : List (Deleted × Option ε) :=
  z.deleteEncoded (objects.map encoded)

/-- Place `k` of what a set is asked answers an object of the request: the
version made for it and what the drives say to that version. -/
def SetCarried (s : ErasureSets σ) (objects : List ObjectToDelete) (i : Nat)
    (object : ObjectToDelete) (answer : Deleted × Option ε) : Prop :=
  ∃ k, (grouped (setOf s) objects (s.getHashedSetIndex object.objectName))[k]? =
      some (object, i) ∧
    let er := s.sets (s.getHashedSetIndex object.objectName)
    let asked := batch (setOf s) objects (s.getHashedSetIndex object.objectName)
    answer = (dobjectOf (versionOf z.opts (er.now k) (er.mustGetUUID k) object),
      z.toObjectErr (z.reduced er asked k) object)

/-- What happened to the object at a place of the request, on its way through
its pool and its set. -/
def Carried (objects : List ObjectToDelete) (i : Nat) (object : ObjectToDelete)
    (answer : Deleted × Option ε) : Prop :=
  if h : z.poolCount = 1 then z.SetCarried (z.serverPools ⟨0, h.symm ▸ Nat.one_pos⟩) objects i object answer
  else ∃ idx j, (grouped z.poolOf objects idx)[j]? = some (object, i) ∧
    z.SetCarried (z.serverPools idx) (batch z.poolOf objects idx) j object answer

/-- The outcome of one object: refused with all others, in no pool, or carried out. -/
inductive Outcome (objects : List ObjectToDelete) (i : Nat) (object : ObjectToDelete) :
    Deleted × Option ε → Prop
  | refused {err : ε} (hrefused : z.refused objects = some err) :
    Outcome objects i object ({}, some err)
  | missing {err : ε} (hgoes : z.refused objects = none) (hmany : z.poolCount ≠ 1)
    (hmissing : z.getPoolIdxExisting i object.objectName = .objectNotFound err) :
    Outcome objects i object ({}, some err)
  | carried {answer : Deleted × Option ε} (hgoes : z.refused objects = none)
    (hcarried : z.Carried objects i object answer) : Outcome objects i object answer

def Describes (objects : List ObjectToDelete) (answers : List (Deleted × Option ε)) : Prop :=
  answers.length = objects.length ∧ ∀ i object, objects[i]? = some object →
    ∃ answer, z.Outcome objects i object answer ∧ answers[i]? = some answer

def NamesHold (objects : List ObjectToDelete) : Prop :=
  z.poolCount = 1 ∨ z.refused objects ≠ none ∨ ∀ (i : Nat) (object : ObjectToDelete) answer,
    objects[i]? = some object → z.checkDelObjArgs object.objectName ≠ none →
      z.Carried objects i object answer → answer.2 ≠ none

variable {z}

@[simp]
theorem length_setDeleteObjects (er : ErasureObjects σ) (objects : List ObjectToDelete) :
    (z.setDeleteObjects er objects).length = objects.length := by
  simp [setDeleteObjects, versions]

@[simp]
theorem length_setsDeleteObjects (s : ErasureSets σ) (objects : List ObjectToDelete) :
    (z.setsDeleteObjects s objects).length = objects.length := by
  simp [setsDeleteObjects]

variable {objects : List ObjectToDelete} {object : ObjectToDelete}

theorem setDeleteObjects_getElem? {er : ErasureObjects σ} {k : Nat}
    (hobject : objects[k]? = some object) :
    (z.setDeleteObjects er objects)[k]? =
      some (dobjectOf (versionOf z.opts (er.now k) (er.mustGetUUID k) object),
        z.toObjectErr (z.reduced er objects k) object) := by
  have hversion : (z.versions er objects)[k]? =
      some (versionOf z.opts (er.now k) (er.mustGetUUID k) object) := by
    simp [versions, List.getElem?_mapIdx, hobject]
  have hzip : (objects.zip (z.versions er objects))[k]? =
      some (object, versionOf z.opts (er.now k) (er.mustGetUUID k) object) :=
    List.getElem?_zip_eq_some.mpr ⟨hobject, hversion⟩
  rw [setDeleteObjects, List.getElem?_mapIdx, hzip]
  rfl

/-- A pool puts the answer to an object at its place. -/
theorem setsDeleteObjects_carried {s : ErasureSets σ} {objects : List ObjectToDelete} {i : Nat}
    {object : ObjectToDelete} (hobject : objects[i]? = some object) :
    ∃ answer, z.SetCarried s objects i object answer ∧
      (z.setsDeleteObjects s objects)[i]? = some answer := by
  have hkey : s.getHashedSetIndex object.objectName ∈
      s.ranged (objects.map fun object => s.getHashedSetIndex object.objectName) :=
    (s.mem_ranged _ _).mpr (List.mem_map_of_mem (List.mem_of_getElem? hobject))
  obtain ⟨k, answer, hplace, hanswer, hput, hall⟩ :=
    @groupPuts_spec _ _ _ _ (setOf s) objects (fun idx => z.setDeleteObjects (s.sets idx)) _ _ _ _
      (fun _ => length_setDeleteObjects _) hobject rfl hkey
  refine ⟨answer, ⟨k, hplace, ?_⟩, ?_⟩
  · have hat : (batch (setOf s) objects (s.getHashedSetIndex object.objectName))[k]? =
        some object := by
      rw [batch, List.getElem?_map, hplace]
      rfl
    exact Option.some.inj (hanswer.symm.trans (setDeleteObjects_getElem? hat))
  · have hlt := (List.getElem?_eq_some_iff.mp hobject).1
    rw [setsDeleteObjects, List.getElem?_map, List.getElem?_range hlt, Option.map_some,
      putAll_of_forall hput hall]

variable {answer answer' : Deleted × Option ε}

theorem SetCarried.unique {s : ErasureSets σ} {i : Nat}
    (hcarried : z.SetCarried s objects i object answer)
    (hcarried' : z.SetCarried s objects i object answer') : answer = answer' := by
  obtain ⟨k, hplace, hanswer⟩ := hcarried
  obtain ⟨k', hplace', hanswer'⟩ := hcarried'
  obtain rfl := grouped_place_unique hplace hplace'
  exact hanswer.trans hanswer'.symm

theorem Carried.unique {i : Nat} (hcarried : z.Carried objects i object answer)
    (hcarried' : z.Carried objects i object answer') : answer = answer' := by
  unfold Carried at hcarried hcarried'
  split at hcarried
  · rename_i hone
    rw [dif_pos hone] at hcarried'
    exact hcarried.unique hcarried'
  · rename_i hmany
    rw [dif_neg hmany] at hcarried'
    obtain ⟨idx, j, hplace, hset⟩ := hcarried
    obtain ⟨idx', j', hplace', hset'⟩ := hcarried'
    have hpool := (mem_grouped.mp (List.mem_of_getElem? hplace)).2
    have hpool' := (mem_grouped.mp (List.mem_of_getElem? hplace')).2
    obtain rfl := Option.some.inj (hpool.symm.trans hpool')
    obtain rfl := grouped_place_unique hplace hplace'
    exact hset.unique hset'

theorem not_carried_of_missing {i : Nat} {answer : Deleted × Option ε} {err : ε}
    (hmany : z.poolCount ≠ 1)
    (hmissing : z.getPoolIdxExisting i object.objectName = .objectNotFound err) :
    ¬ z.Carried objects i object answer := by
  intro hcarried
  rw [Carried, dif_neg hmany] at hcarried
  obtain ⟨idx, j, hplace, -⟩ := hcarried
  have hpool := (mem_grouped.mp (List.mem_of_getElem? hplace)).2
  simp only [poolOf, hmissing] at hpool
  cases hpool

theorem Outcome.eq_of_carried {i : Nat} (houtcome : z.Outcome objects i object answer')
    (hgoes : z.refused objects = none) (hcarried : z.Carried objects i object answer) :
    answer' = answer := by
  cases houtcome with
  | refused hrefused =>
    rw [hgoes] at hrefused
    cases hrefused
  | missing _ hmany hmissing => exact absurd hcarried (not_carried_of_missing hmany hmissing)
  | carried _ hcarried' => exact hcarried'.unique hcarried

/-- What several pools leave at a place: the answer of the pool, under the error
that was there before. -/
theorem deleteEncoded_many {i : Nat} (hgoes : z.refused objects = none) (hmany : z.poolCount ≠ 1)
    (hobject : objects[i]? = some object) :
    (∃ answer, z.Carried objects i object answer ∧ (z.deleteEncoded objects)[i]? =
      some (answer.1, answer.2.or (z.checkDelObjArgs object.objectName))) ∨
    ∃ err, z.getPoolIdxExisting i object.objectName = .objectNotFound err ∧
      (z.deleteEncoded objects)[i]? = some ({}, some err) := by
  have hitem : objects.zipIdx[i]? = some (object, i) := by
    rw [List.getElem?_zipIdx, hobject]
    simp
  rw [deleteEncoded, hgoes]
  simp only [dif_neg hmany, List.getElem?_map, hitem, Option.map_some]
  cases hlookup : z.getPoolIdxExisting i object.objectName with
  | pool idx =>
    have hpool : z.poolOf (object, i) = some idx := by simp only [poolOf, hlookup]
    obtain ⟨j, answer, hplace, hanswer, hput, hall⟩ :=
      @groupPuts_spec _ _ _ _ z.poolOf objects
        (fun idx => z.setsDeleteObjects (z.serverPools idx)) _ _ _ _
        (fun _ => length_setsDeleteObjects _) hobject hpool (List.mem_finRange idx)
    have hat : (batch z.poolOf objects idx)[j]? = some object := by
      rw [batch, List.getElem?_map, hplace]
      rfl
    obtain ⟨answer', hset, hanswer'⟩ :=
      @setsDeleteObjects_carried _ _ z (z.serverPools idx) _ _ _ hat
    obtain rfl := Option.some.inj (hanswer.symm.trans hanswer')
    refine Or.inl ⟨answer, ?_, ?_⟩
    · rw [Carried, dif_neg hmany]
      exact ⟨idx, j, hplace, hset⟩
    · congr 2
      · refine putAll_of_forall (List.mem_map.mpr ⟨_, hput, rfl⟩) fun put hmem heq => ?_
        obtain ⟨put', hmem', rfl⟩ := List.mem_map.mp hmem
        exact congrArg Prod.fst (hall put' hmem' heq)
      · cases herr : answer.2 with
        | some err =>
          rw [Option.some_or]
          refine putAll_of_forall (List.mem_filterMap.mpr ⟨_, hput, by rw [herr]; rfl⟩)
            fun put hmem heq => ?_
          obtain ⟨put', hmem', hsome⟩ := List.mem_filterMap.mp hmem
          obtain ⟨err', herr', rfl⟩ := Option.map_eq_some_iff.mp hsome
          rw [hall put' hmem' heq, herr] at herr'
          exact herr'.symm
        | none =>
          rw [putAll_of_ne, Option.none_or, derrs]
          · simp only [hlookup]
          · intro put hmem heq
            obtain ⟨put', hmem', hsome⟩ := List.mem_filterMap.mp hmem
            obtain ⟨err', herr', rfl⟩ := Option.map_eq_some_iff.mp hsome
            rw [hall put' hmem' heq, herr] at herr'
            cases herr'
  | objectNotFound err =>
    have hpool : z.poolOf (object, i) = none := by simp only [poolOf, hlookup]
    have hne := @groupPuts_ne _ _ _ _ z.poolOf objects
      (fun idx => z.setsDeleteObjects (z.serverPools idx)) (List.finRange z.poolCount) _ _
      hobject hpool
    refine Or.inr ⟨err, rfl, ?_⟩
    rw [putAll_of_ne, putAll_of_ne]
    · simp only [derrs, hlookup]
    · intro put hmem
      obtain ⟨put', hmem', hsome⟩ := List.mem_filterMap.mp hmem
      obtain ⟨err', -, rfl⟩ := Option.map_eq_some_iff.mp hsome
      exact hne put' hmem'
    · intro put hmem
      obtain ⟨put', hmem', rfl⟩ := List.mem_map.mp hmem
      exact hne put' hmem'
  | failed err =>
    -- a lookup that fails otherwise has refused the whole call
    have hfail : z.lookupErr objects ≠ none := by
      rw [lookupErr, Ne, List.findSome?_eq_none_iff]
      intro hnone
      have := hnone (object, i) (List.mem_of_getElem? hitem)
      simp only [hlookup] at this
      cases this
    rw [refused, if_neg hmany] at hgoes
    exact absurd (Option.or_eq_none_iff.mp hgoes).1 hfail

theorem length_deleteEncoded (objects : List ObjectToDelete) :
    (z.deleteEncoded objects).length = objects.length := by
  unfold deleteEncoded
  split
  · exact List.length_map _
  · split
    · exact length_setsDeleteObjects _ _
    · rw [List.length_map, List.length_zipIdx]

/-- Every place of the answer describes the object there, exactly when no object
with a refused name is deleted by its pool. -/
theorem deleteObjects_describes_iff (z : ErasureServerPools σ ε) (objects : List ObjectToDelete) :
    z.Describes (objects.map encoded) (z.DeleteObjects objects) ↔
      z.NamesHold (objects.map encoded) := by
  rw [DeleteObjects]
  generalize objects.map encoded = objects
  constructor
  · rintro ⟨-, hdescribes⟩
    by_cases hone : z.poolCount = 1
    · exact Or.inl hone
    refine Or.inr (or_iff_not_imp_left.mpr fun hgoes i object answer hobject hargs hcarried => ?_)
    replace hgoes := not_not.mp hgoes
    intro hok
    obtain ⟨answer', houtcome, hanswer'⟩ := hdescribes i object hobject
    obtain rfl := houtcome.eq_of_carried hgoes hcarried
    rcases deleteEncoded_many hgoes hone hobject with ⟨answer, hcarried', hat⟩ | ⟨err, hmiss, -⟩
    · obtain rfl := hcarried.unique hcarried'
      have hboth := congrArg Prod.snd (Option.some.inj (hat.symm.trans hanswer'))
      rw [hok, Option.none_or] at hboth
      exact hargs hboth
    · exact absurd hcarried (not_carried_of_missing hone hmiss)
  · intro hnames
    refine ⟨length_deleteEncoded objects, fun i object hobject => ?_⟩
    cases hgoes : z.refused objects with
    | some err =>
      refine ⟨_, .refused hgoes, ?_⟩
      rw [deleteEncoded, hgoes, List.getElem?_map, hobject]
      rfl
    | none =>
      by_cases hone : z.poolCount = 1
      · obtain ⟨answer, hset, hat⟩ :=
          @setsDeleteObjects_carried _ _ z (z.serverPools ⟨0, by omega⟩) _ _ _ hobject
        refine ⟨answer, .carried hgoes (by rw [Carried, dif_pos hone]; exact hset), ?_⟩
        rw [deleteEncoded, hgoes]
        simp only [dif_pos hone, hat]
      · have hhold := (hnames.resolve_left hone).resolve_left fun h => h hgoes
        rcases deleteEncoded_many hgoes hone hobject with ⟨answer, hcarried, hat⟩ | ⟨err, hmiss, hat⟩
        · refine ⟨answer, .carried hgoes hcarried, hat.trans ?_⟩
          cases hargs : z.checkDelObjArgs object.objectName with
          | none => rw [Option.or_none]
          | some err =>
            obtain ⟨err', herr'⟩ := Option.ne_none_iff_exists'.mp
              (hhold i object answer hobject (by rw [hargs]; exact nofun) hcarried)
            rw [herr', Option.some_or, ← herr']
        · exact ⟨_, .missing hgoes hone hmiss, hat⟩

/-- Two pools of one set each, the first of which finds every name, as a drive
does that cleans the path it is given. -/
def cleaning : ErasureServerPools Unit String where
  opts := {}
  deleteVersion _ _ := (none, ())
  toObjectErr err _ := err.map fun _ => "not deleted"
  poolCount := 2
  serverPools _ :=
    { sets _ :=
        { storageDisks := List.replicate 4 (some ⟨none, ()⟩)
          orders := ⟨.visitFirst 0, .visitFirst "", .visitFirst none, .visitFirst ""⟩
          now _ := Time.zero
          mustGetUUID _ := "" }
      getHashedSetIndex _ := 0
      ranged keys := keys
      mem_ranged _ _ := Iff.rfl }
  checkDelObjArgs name :=
    if (index "//".toList name).isSome then some "XMinioInvalidObjectName" else none
  getPoolIdxExisting _ _ := .pool 0
  lockErr := none

/-- A key with two slashes, which the first pool deletes as the key with one. -/
def twoSlashes : List ObjectToDelete := [{ objectName := "a//b".toList }]

/-- The object is deleted and its place says that its name is invalid. -/
theorem twoSlashes_misreported :
    ¬ cleaning.Describes (twoSlashes.map encoded) (cleaning.DeleteObjects twoSlashes) := by
  rintro ⟨-, hdescribes⟩
  obtain ⟨answer, houtcome, hanswer⟩ := hdescribes 0 _ rfl
  have hcarried : cleaning.Carried (twoSlashes.map encoded) 0 { objectName := "a//b".toList }
      ({ objectName := "a//b".toList }, none) := by
    rw [Carried, dif_neg (by decide)]
    have hreduced : none = cleaning.reduced ((cleaning.serverPools (0 : Fin 2)).sets 0)
        [{ objectName := "a//b".toList }] 0 := by decide
    exact ⟨(0 : Fin 2), 0, rfl, 0, rfl, congrArg (fun err =>
      (({ objectName := "a//b".toList } : Deleted), err.map fun _ => "not deleted")) hreduced⟩
  obtain rfl := houtcome.eq_of_carried rfl hcarried
  have herr : (cleaning.DeleteObjects twoSlashes)[0]?.map Prod.snd =
      some (some "XMinioInvalidObjectName") := by decide
  rw [hanswer] at herr
  cases herr

end ErasureServerPools

end Fs3.MultiDelete
