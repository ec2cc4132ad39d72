import Fs3.Drive.ReadableJournal
import Fs3.Foundation.Histories
import Fs3.Tier.Sweep

/-! # Remote objects that are still referred to

No entry of the tier deletion journal may name a remote object that a version of the bucket still
names. -/

namespace Fs3.Tier

open Foundation Listing MultiDelete

def Named (objects : Name → XlMetaV2) (remote : Remote) : Prop :=
  ∃ name object, XlMetaV2Version.objectType object ∈ (objects name).versions ∧
    object.remote = some remote

namespace TierBucket

def KeepsReferenced (s : TierBucket) : Prop := ∀ remote ∈ s.journal, ¬ Named s.objects remote

end TierBucket

/-! ## Deletes name nothing new -/

/-- Every object of the journals after was there before, and named the same. -/
def Leaves (objects objects' : Name → XlMetaV2) : Prop :=
  ∀ name, LeavesObjects (objects name).versions (objects' name).versions

namespace Leaves

variable {objects objects' objects'' : Name → XlMetaV2} {name : Name} {z : XlMetaV2}

theorem refl (objects : Name → XlMetaV2) : Leaves objects objects :=
  fun _ => .of_subset fun _ hmem => hmem

theorem trans (hfirst : Leaves objects objects') (hsecond : Leaves objects' objects'') :
    Leaves objects objects'' :=
  fun name => (hfirst name).trans (hsecond name)

theorem named (hleaves : Leaves objects objects') {remote : Remote}
    (hnamed : Named objects' remote) : Named objects remote := by
  obtain ⟨name, object, hmem, hremote⟩ := hnamed
  obtain ⟨old, hold, -, hsame⟩ := hleaves name object hmem
  exact ⟨name, old, hold, hsame.trans hremote⟩

theorem update (hleaves : LeavesObjects (objects name).versions z.versions) :
    Leaves objects (Function.update objects name z) :=
  (Function.forall_update_iff objects
    fun other z => LeavesObjects (objects other).versions z.versions).mpr
      ⟨hleaves, fun other _ => refl objects other⟩

theorem deletePrefix (objects : Name → XlMetaV2) (pre : Name) :
    Leaves objects (deletePrefix objects pre) := by
  intro name object hmem
  unfold Tier.deletePrefix at hmem
  split at hmem
  · cases hmem
  · exact ⟨object, hmem, rfl, rfl⟩

end Leaves

section Layer

variable {ol : ObjectLayer} {z z' : XlMetaV2} {fi : FileInfo} {uv : UUID} {force : Bool}

theorem deleteCase_of_deleteVersion (hne : z.versions ≠ [])
    (hdelete : deleteVersion ol z fi force = some z') :
    ∃ uv versions' freed, parseVersionID ol.uuid fi.versionID = some uv ∧
      (fi.deleted = true → (fi.deleteEntry uv).valid = true) ∧
      DeleteCase fi uv z.versions versions' freed ∧ z'.versions = versions' := by
  unfold deleteVersion at hdelete
  rw [if_neg (by simpa using hne)] at hdelete
  split at hdelete
  · cases hdelete
  next left dataDir lastVersion hok =>
    obtain ⟨uv, freed, hparse, hentry, -, hcase, -, hlast⟩ := XlMetaV2.deleteVersion_cases hok
    refine ⟨uv, left.versions, freed, hparse, hentry, hcase, ?_⟩
    cases hdelete
    split
    next hempty =>
      rw [hlast, List.isEmpty_iff] at hempty
      exact hempty.symm
    next => rfl

theorem leavesObjects_of_deleteVersion (hstatus : fi.transitionStatus ≠ transitionComplete)
    (hdelete : deleteVersion ol z fi force = some z') :
    LeavesObjects z.versions z'.versions := by
  by_cases hne : z.versions = []
  · unfold deleteVersion at hdelete
    rw [if_pos (by simp [hne])] at hdelete
    split at hdelete
    next hmarker =>
      -- A marker that is forced into a journal without versions is no object.
      have hadd : z.addVersion ol.uuid fi = .ok z' := by
        cases hresult : z.addVersion ol.uuid fi with
        | error err =>
          rw [hresult] at hdelete
          cases hdelete
        | ok added =>
          rw [hresult] at hdelete
          cases hdelete
          rfl
      obtain ⟨uv, dd, -, -, -, -, hcase⟩ := XlMetaV2.addVersion_cases hadd
      generalize z'.versions = versions' at hcase
      rw [hne] at hcase ⊢
      cases hcase with
      | replace before old after hversions => simp at hversions
      | append hnone =>
        intro object hmem
        rw [List.nil_append, List.mem_singleton] at hmem
        have hdeleted : fi.deleted = true := by
          rw [Bool.and_eq_true] at hmarker
          exact hmarker.1
        rw [FileInfo.toVersion, if_pos hdeleted] at hmem
        cases hmem
    next => cases hdelete
  · obtain ⟨uv, versions', freed, -, -, hcase, rfl⟩ := deleteCase_of_deleteVersion hne hdelete
    exact hcase.leavesObjects hstatus

theorem leaves_put {objects : Name → XlMetaV2} {name : Name}
    (hstatus : fi.transitionStatus ≠ transitionComplete) :
    Leaves objects (Function.update objects name
      ((deleteVersion ol (objects name) fi force).getD (objects name))) := by
  apply Leaves.update
  cases hdelete : deleteVersion ol (objects name) fi force with
  | none => exact .of_subset fun _ hmem => hmem
  | some z' => exact leavesObjects_of_deleteVersion hstatus hdelete

/-- A request takes a remote object's name away: it removes the version that it names, and
no other version of that id or with that name is there. -/
structure Takes (ol : ObjectLayer) (objects : Name → XlMetaV2) (name : Name) (fi : FileInfo)
    (remote : Remote) : Prop where
  removes : fi.updateVersion = false
  target : ∃ uv, parseVersionID ol.uuid fi.versionID = some uv ∧
    OneOf uv (objects name).versions ∧
    ∀ other object, XlMetaV2Version.objectType object ∈ (objects other).versions →
      object.remote = some remote → other = name ∧ object.versionID = uv

/-- The drives can carry out a request on a version that is there. -/
structure Succeeds (z : XlMetaV2) (fi : FileInfo) : Prop where
  readable : z.AllValid
  dated : fi.deleted = true → 0 < fi.modTime.unixNano

theorem Succeeds.entry (hsucceeds : Succeeds z fi) (hdeleted : fi.deleted = true) :
    (fi.deleteEntry uv).valid = true := by
  rw [FileInfo.deleteEntry, if_pos hdeleted]
  exact decide_eq_true (hsucceeds.dated hdeleted)

namespace Takes

variable {objects : Name → XlMetaV2} {name : Name} {remote : Remote}

theorem exists_deleteVersion (htakes : Takes ol objects name fi remote)
    (hsucceeds : Succeeds (objects name) fi) (hnamed : Named objects remote) :
    ∃ z', deleteVersion ol (objects name) fi force = some z' := by
  obtain ⟨uv, hparse, -, hsole⟩ := htakes.target
  obtain ⟨other, object, hmem, hremote⟩ := hnamed
  obtain ⟨rfl, hid⟩ := hsole other object hmem hremote
  obtain ⟨⟨left, dataDir, lastVersion⟩, hok⟩ := XlMetaV2.deleteVersion_isOk ol.clock
    hsucceeds.readable hparse hsucceeds.entry (Or.inr ⟨_, hmem, isNewerOf_objectType.mpr hid⟩)
  have hne : (objects other).versions ≠ [] := List.ne_nil_of_mem hmem
  unfold deleteVersion
  rw [if_neg (by simpa using hne), hok]
  exact ⟨_, rfl⟩

theorem not_named (htakes : Takes ol objects name fi remote) (hrestored : fi.expireRestored = false)
    (hstatus : fi.transitionStatus ≠ transitionComplete)
    (hdelete : deleteVersion ol (objects name) fi force = some z') :
    ¬ Named (Function.update objects name z') remote := by
  rintro ⟨other, object, hmem, hremote⟩
  obtain ⟨uv, hparse, hone, hsole⟩ := htakes.target
  have hleaves := Leaves.update (leavesObjects_of_deleteVersion hstatus hdelete)
  obtain ⟨old, hold, hid, hsame⟩ := hleaves other object hmem
  obtain ⟨rfl, huv⟩ := hsole other old hold (hsame.trans hremote)
  rw [Function.update_self] at hmem
  obtain ⟨uv', versions', freed, hparse', -, hcase, rfl⟩ :=
    deleteCase_of_deleteVersion (List.ne_nil_of_mem hold) hdelete
  cases hparse.symm.trans hparse'
  exact hcase.versionID_ne hone htakes.removes hrestored hstatus hmem (hid.symm.trans huv)

end Takes

end Layer

/-! ## One operation -/

section Operations

variable (ol : ObjectLayer) (objects : Name → XlMetaV2)

/-- What a request of `DeleteObjectHandler` has to be: where it sweeps, its delete takes the
name away. -/
def SingleDelete.Good (r : SingleDelete) : Prop :=
  r.refused ol objects = false → r.deletePrefix = false → ∀ remote,
    r.swept ol objects = some remote →
      Takes ol objects r.name
        (Tier.requestOf ol (objects r.name) r.name (r.deleteOpts ol objects) r.meets) remote

/-- What a request of `DeleteMultipleObjectsHandler` has to be: for each remote object that
it sweeps, one of its deletes goes through and takes the name away. -/
def MultipleDelete.Good (r : MultipleDelete) : Prop :=
  ∀ collected, r.server.collect r.request.objects = .ok collected →
    (r.asked.map Prod.fst).isPerm (collected.objectsToDelete.map Prod.fst) = true →
    ∀ object ∈ r.request.objects, r.hasSweeper object = true → ∀ remote,
      r.swept ol objects object = some remote → ∃ ask ∈ r.asked, r.carriesOut ask = true ∧
      Succeeds (objects (encodeDirObject ask.1.objectName)) (r.requestOf ask) ∧
      Takes ol objects (encodeDirObject ask.1.objectName) (r.requestOf ask) remote

/-- What the expiry of a transitioned version has to be: the delete that follows the entry
goes through and takes the name away, where it is there. -/
def Expiry.Good (e : Expiry) : Prop :=
  e.restored = false → e.addEntryFails = false → Named objects e.remote →
    stopsAt ol (objects e.object) e.object e.opts = none ∧ e.meets.fails = false ∧
      Succeeds (objects e.object) (Tier.requestOf ol (objects e.object) e.object e.opts e.meets) ∧
      Takes ol objects e.object (Tier.requestOf ol (objects e.object) e.object e.opts e.meets)
        e.remote

end Operations

variable {ol : ObjectLayer} {objects : Name → XlMetaV2}

theorem SingleDelete.deleteOpts_transitionStatus (r : SingleDelete) :
    (r.deleteOpts ol objects).transitionStatus = "" := by
  unfold SingleDelete.deleteOpts
  split <;> split <;> (try split) <;> rfl

theorem SingleDelete.deleteOpts_expireRestored (r : SingleDelete) :
    (r.deleteOpts ol objects).expireRestored = false := by
  unfold SingleDelete.deleteOpts
  split <;> split <;> (try split) <;> rfl

theorem ne_transitionComplete {status : String} (hempty : status = "") :
    status ≠ transitionComplete := by
  rw [hempty]
  decide

theorem leaves_deleteObject {name : Name} {opts : DeleteOptions} {meets : Meets}
    (hstatus : opts.transitionStatus = "") :
    Leaves objects (Function.update objects name
      ((deleteObject ol (objects name) name opts meets).getD (objects name))) := by
  unfold deleteObject
  split
  · exact Leaves.update (.of_subset fun _ hmem => hmem)
  · split
    · exact Leaves.update (.of_subset fun _ hmem => hmem)
    · exact leaves_put (ne_transitionComplete hstatus)

namespace MultipleDelete

variable (r : MultipleDelete) {ask : ObjectToDelete × MultiDelete.Server.Outcome}

theorem requestOf_transitionStatus : (r.requestOf ask).transitionStatus ≠ transitionComplete := by
  unfold MultipleDelete.requestOf
  split <;> exact ne_transitionComplete rfl

theorem requestOf_expireRestored : (r.requestOf ask).expireRestored = false := by
  unfold MultipleDelete.requestOf
  split <;> rfl

theorem requestOf_markDeleted : (r.requestOf ask).markDeleted = false := by
  unfold MultipleDelete.requestOf
  split <;> rfl

theorem leaves_deleteOne : Leaves objects (r.deleteOne ol objects ask) := by
  unfold MultipleDelete.deleteOne
  split
  · exact leaves_put r.requestOf_transitionStatus
  · exact .refl objects

theorem leaves_foldl (asked : List (ObjectToDelete × MultiDelete.Server.Outcome)) :
    Leaves objects (asked.foldl (r.deleteOne ol) objects) := by
  induction asked generalizing objects with
  | nil => exact .refl objects
  | cons first rest ih => exact r.leaves_deleteOne.trans ih

theorem deleteOne_keeps (ask : ObjectToDelete × MultiDelete.Server.Outcome) {name : Name}
    (hvalid : (objects name).AllValid) {uv : UUID}
    (hone : OneOf uv (objects name).versions) :
    (r.deleteOne ol objects ask name).AllValid ∧
      OneOf uv (r.deleteOne ol objects ask name).versions := by
  unfold MultipleDelete.deleteOne
  split
  · by_cases hname : name = encodeDirObject ask.1.objectName
    · subst hname
      rw [Function.update_self]
      cases hdelete : deleteVersion ol (objects (encodeDirObject ask.1.objectName))
          (r.requestOf ask) false with
      | none => exact ⟨hvalid, hone⟩
      | some z' =>
        by_cases hne : (objects (encodeDirObject ask.1.objectName)).versions = []
        · -- Nothing is forced into a journal without versions here.
          unfold deleteVersion at hdelete
          rw [if_pos (by simp [hne]), Bool.and_false] at hdelete
          cases hdelete
        · obtain ⟨uv', versions', freed, -, hentry, hcase, rfl⟩ :=
            deleteCase_of_deleteVersion hne hdelete
          have hunmarked : (r.requestOf ask).Unmarked uv' :=
            { markDeleted := r.requestOf_markDeleted
              expireRestored := r.requestOf_expireRestored
              transitionStatus := r.requestOf_transitionStatus
              entry := hentry }
          refine ⟨hcase.allValid hvalid hentry fun hbare => ?_, hcase.oneOf hunmarked hone⟩
          cases hbare.markDeleted.symm.trans hunmarked.markDeleted
    · rw [Function.update_of_ne hname]
      exact ⟨hvalid, hone⟩
  · exact ⟨hvalid, hone⟩

theorem not_named_foldl {asked : List (ObjectToDelete × MultiDelete.Server.Outcome)}
    (hmem : ask ∈ asked) (hcarried : r.carriesOut ask = true) {remote : Remote}
    (hsucceeds : Succeeds (objects (encodeDirObject ask.1.objectName)) (r.requestOf ask))
    (htakes : Takes ol objects (encodeDirObject ask.1.objectName) (r.requestOf ask) remote) :
    ¬ Named (asked.foldl (r.deleteOne ol) objects) remote := by
  induction asked generalizing objects with
  | nil => cases hmem
  | cons first rest ih =>
    rcases List.mem_cons.mp hmem with rfl | hrest
    · refine fun hnamed => ?_
      have hafter := (r.leaves_foldl rest).named hnamed
      have hbefore := r.leaves_deleteOne.named hafter
      obtain ⟨z', hdelete⟩ := htakes.exists_deleteVersion hsucceeds hbefore
      refine htakes.not_named r.requestOf_expireRestored r.requestOf_transitionStatus hdelete ?_
      rw [MultipleDelete.deleteOne, if_pos hcarried, hdelete] at hafter
      exact hafter
    · obtain ⟨uv, hparse, hone, hsole⟩ := htakes.target
      obtain ⟨hvalid', hone'⟩ := r.deleteOne_keeps first hsucceeds.readable hone
      refine ih hrest ⟨hvalid', hsucceeds.dated⟩ ⟨htakes.removes, uv, hparse, hone', ?_⟩
      intro other object hobject hremote
      obtain ⟨old, hold, hid, hsame⟩ := r.leaves_deleteOne other object hobject
      obtain ⟨hname, huv⟩ := hsole other old hold (hsame.trans hremote)
      exact ⟨hname, hid.symm.trans huv⟩

end MultipleDelete

/-! ## Runs -/

namespace TierBucket

variable {s : TierBucket}

/-- What an operation has to be: it journals nothing that it leaves a name of. -/
def Good (ol : ObjectLayer) (s : TierBucket) : BucketOp → Prop
  | .delete r => r.Good ol s.objects
  | .deleteMultiple r => r.Good ol s.objects
  | .expireTransitioned e => e.Good ol s.objects
  | .expireNonTransitioned _ => True

theorem KeepsReferenced.of_leaves {s' : TierBucket} (hkeeps : s.KeepsReferenced)
    (hleaves : Leaves s.objects s'.objects)
    (hnew : ∀ remote ∈ s'.journal, remote ∈ s.journal ∨ ¬ Named s'.objects remote) :
    s'.KeepsReferenced := by
  intro remote hmem
  rcases hnew remote hmem with hold | hgone
  · exact fun hnamed => hkeeps remote hold (hleaves.named hnamed)
  · exact hgone

theorem keepsReferenced_delete {r : SingleDelete} (hkeeps : s.KeepsReferenced)
    (hgood : r.Good ol s.objects) : (s.deleteObjectHandler ol r).KeepsReferenced := by
  unfold deleteObjectHandler
  split
  · exact hkeeps
  next hrefused =>
    split
    · split
      · exact hkeeps
      · exact hkeeps.of_leaves (Leaves.deletePrefix s.objects r.object) fun _ hmem => Or.inl hmem
    next hfront =>
      split
      · exact hkeeps
      next z' hdelete =>
        have hleaves : Leaves s.objects (Function.update s.objects r.name
            ((deleteObject ol (s.objects r.name) r.name (r.deleteOpts ol s.objects) r.meets).getD
              (s.objects r.name))) := leaves_deleteObject r.deleteOpts_transitionStatus
        rw [hdelete] at hleaves
        refine hkeeps.of_leaves hleaves fun remote hmem => ?_
        rcases List.mem_append.mp hmem with hold | hswept
        · exact Or.inl hold
        · refine Or.inr ?_
          rw [Option.mem_toList] at hswept
          have htakes := hgood (Bool.not_eq_true _ ▸ hrefused) (Bool.not_eq_true _ ▸ hfront)
            remote hswept
          unfold deleteObject at hdelete
          split at hdelete
          · cases hdelete
          · split at hdelete
            · cases hdelete
            · exact htakes.not_named r.deleteOpts_expireRestored
                (ne_transitionComplete r.deleteOpts_transitionStatus) hdelete

theorem keepsReferenced_deleteMultiple {r : MultipleDelete} (hkeeps : s.KeepsReferenced)
    (hgood : r.Good ol s.objects) : (s.deleteMultipleObjectsHandler ol r).KeepsReferenced := by
  unfold deleteMultipleObjectsHandler
  split
  · exact hkeeps
  next collected hcollect =>
    split
    next hperm =>
      refine hkeeps.of_leaves (r.leaves_foldl r.asked) fun remote hmem => ?_
      rcases List.mem_append.mp hmem with hold | hswept
      · exact Or.inl hold
      · obtain ⟨object, hobject, hremote⟩ := List.mem_filterMap.mp hswept
        obtain ⟨hrequest, hsweeper⟩ := List.mem_filter.mp hobject
        obtain ⟨ask, hask, hcarried, hsucceeds, htakes⟩ :=
          hgood collected hcollect hperm object hrequest hsweeper remote hremote
        exact Or.inr (r.not_named_foldl hask hcarried hsucceeds htakes)
    next => exact hkeeps

theorem keepsReferenced_expireTransitioned {e : Expiry} (hkeeps : s.KeepsReferenced)
    (hgood : e.Good ol s.objects) : (s.expireTransitionedObject ol e).KeepsReferenced := by
  unfold expireTransitionedObject
  split
  · exact hkeeps.of_leaves (leaves_deleteObject rfl) fun _ hmem => Or.inl hmem
  next hrestored =>
    split
    · exact hkeeps
    next hadded =>
      refine hkeeps.of_leaves (leaves_deleteObject rfl) fun remote hmem => ?_
      rcases List.mem_append.mp hmem with hold | hentry
      · exact Or.inl hold
      · rw [List.mem_singleton] at hentry
        subst hentry
        refine Or.inr fun hnamed => ?_
        have hbefore := (leaves_deleteObject rfl).named hnamed
        rw [Bool.not_eq_true] at hrestored hadded
        obtain ⟨hstops, hfails, hsucceeds, htakes⟩ := hgood hrestored hadded hbefore
        obtain ⟨z', hdelete⟩ := htakes.exists_deleteVersion hsucceeds hbefore
        refine htakes.not_named hrestored (ne_transitionComplete rfl) hdelete ?_
        have hdeleted : deleteObject ol (s.objects e.object) e.object e.opts e.meets = some z' := by
          rw [deleteObject, hstops, hfails]
          exact hdelete
        rw [put, hdeleted] at hnamed
        exact hnamed

theorem keepsReferenced_step {op : BucketOp} (hkeeps : s.KeepsReferenced) (hgood : s.Good ol op) :
    (s.step ol op).KeepsReferenced := by
  cases op with
  | delete r => exact keepsReferenced_delete hkeeps hgood
  | deleteMultiple r => exact keepsReferenced_deleteMultiple hkeeps hgood
  | expireTransitioned e => exact keepsReferenced_expireTransitioned hkeeps hgood
  | expireNonTransitioned e =>
    exact hkeeps.of_leaves (leaves_deleteObject rfl) fun _ hmem => Or.inl hmem

/-- Along a run whose operations take away the names of what they journal, no remote object
that is still referred to is in the tier deletion journal. -/
theorem keepsReferenced_of_good (ol : ObjectLayer) (start : TierBucket)
    (hstart : start.KeepsReferenced) (ops : List BucketOp)
    (hgood : Guarded (step ol) (Good ol) start ops) :
    Always (step ol) KeepsReferenced start ops :=
  hgood.always (fun _ _ hkeeps hop => keepsReferenced_step hkeeps hop) hstart

end TierBucket

/-! ## A run and a refused request -/

def tieredLayer : ObjectLayer where
  bucket := "bucket"
  uuid := .google
  clock := { now := (0 : Int), parseHTTPTime := fun _ => none }
  sorter := .stable _

def coldObject : Remote where
  objName := "bucket/data"
  versionID := ""
  tierName := "COLD"

def transitionedObject : XlMetaV2Object where
  versionID := 0
  dataDir := 1
  erasureAlgorithm := .reedSolomon
  erasureM := 1
  erasureN := 1
  erasureBlockSize := 1
  erasureIndex := 1
  erasureDist := [1, 2]
  bitrotChecksumAlgo := .highwayHash
  partNumbers := []
  partETags := []
  partSizes := []
  partActualSizes := []
  size := 0
  modTime := 1
  metaSys := (((∅ : Metadata).insert transitionStatusKey transitionComplete).insert
    transitionedObjectNameKey coldObject.objName).insert transitionTierKey coldObject.tierName
  metaUser := ∅

def tieredBucket : TierBucket where
  objects := fun name =>
    if name = ['a'] then { versions := [.objectType transitionedObject] } else {}

namespace TierBucket

theorem mem_tieredBucket {name : Name} {object : XlMetaV2Object}
    (hmem : .objectType object ∈ (tieredBucket.objects name).versions) :
    name = ['a'] ∧ object = transitionedObject := by
  unfold tieredBucket at hmem
  simp only at hmem
  split at hmem
  next hname =>
    cases List.mem_singleton.mp hmem
    exact ⟨hname, rfl⟩
  next => cases hmem

def expiry : Expiry where
  object := ['a']
  remote := coldObject
  versionID := nullVersionID
  versioned := true
  meets := { now := (1 : Int), fresh := 2 }

/-- Once its time has come the version goes, and its object is swept. -/
theorem keepsReferenced_expiry :
    Always (step tieredLayer) KeepsReferenced tieredBucket [.expireTransitioned expiry] := by
  refine keepsReferenced_of_good tieredLayer tieredBucket (fun _ hmem => nomatch hmem) _
    (guarded_cons.mpr ⟨fun _ _ _ => ⟨?_, rfl, ⟨?_, ?_⟩, ?_, 0, ?_, ?_, ?_⟩, guarded_nil⟩)
  · decide +kernel
  · decide +kernel
  · intro hdeleted
    exact absurd hdeleted (by decide +kernel)
  · decide +kernel
  · decide +kernel
  · exact (by decide +kernel :
      (tieredBucket.objects ['a']).versions.countP (XlMetaV2Version.isNewerOf 0) ≤ 1)
  · intro other object hmem _
    obtain ⟨rfl, rfl⟩ := mem_tieredBucket hmem
    exact ⟨rfl, rfl⟩

def lockedServer : MultiDelete.Server where
  checkRequestAuthType := fun _ _ => none
  uuid := .google
  replicateDeletes := false
  checkReplicateDelete := fun _ _ => false
  hasLockEnabled := true
  enforceRetentionBypassForDelete := fun _ _ => some (.other ⟨"AccessDenied", "", by decide⟩)
  versioned := true
  versionSuspended := false
  singlePool := true
  checkDelObjArgs := fun _ => none
  getPoolIdxExisting := fun _ => .pool 0
  lockErr := none

def refusedRequest : MultipleDelete where
  server := lockedServer
  request := { objects := [{ objectName := ['a'], versionID := nullVersionID }] }
  asked := []
  now := (1 : Int)

/-- Retention refuses to delete the version, and the object that it names is swept. -/
theorem not_keepsReferenced_refused :
    tieredBucket.KeepsReferenced ∧
      ¬ Always (step tieredLayer) KeepsReferenced tieredBucket
          [.deleteMultiple refusedRequest] := by
  refine ⟨fun _ hmem => (nomatch hmem), fun halways => ?_⟩
  have hjournal : (tieredBucket.step tieredLayer (.deleteMultiple refusedRequest)).journal =
      [coldObject] := by
    decide +kernel
  refine halways _ List.prefix_rfl coldObject ?_ ⟨['a'], transitionedObject, ?_, ?_⟩
  · exact hjournal ▸ List.mem_singleton_self coldObject
  · exact (by decide +kernel : (.objectType transitionedObject) ∈
      ((tieredBucket.step tieredLayer (.deleteMultiple refusedRequest)).objects ['a']).versions)
  · decide +kernel

end TierBucket

end Fs3.Tier
