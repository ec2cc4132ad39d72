import Fs3.Foundation.EditFirst
import Fs3.Scheduler.Job

/-! # The documents of volume backups and rebuilds

Plans, backup tasks and rebuild tasks are three JSON documents in LevelDB. -/

namespace Fs3.Volume

open Foundation Scheduler

/-- What the status of a plan can say. -/
inductive PlanStatus where
  | enabled
  | disabled
  | deleted
  deriving DecidableEq

/-- `VolumeBackupJobPlan`, without a status in its zero value. -/
structure VolumeBackupJobPlan where
  backupPlanId : Int := 0
  backupPlanName : String := ""
  backupInterval : String := ""
  minerRegion : String := ""
  price : String := ""
  duration : String := ""
  verifiedDeal : Bool := false
  fastRetrieval : Bool := false
  status : Option PlanStatus := none
  lastBackupOn : String := ""
  createdOn : String := ""
  updatedOn : String := ""
  deriving DecidableEq

/-- `VolumeBackupJobPlans`. -/
structure VolumeBackupJobPlans where
  volumeBackupJobPlans : List VolumeBackupJobPlan := []
  volumeBackupJobPlansCounts : Int := 0
  deriving DecidableEq

/-- `BackupPlanTaskInfo`. -/
structure BackupPlanTaskInfo where
  dealInfo : List Deal := []
  duration : String := ""
  deriving DecidableEq

/-- `VolumeBackupPlanTask`. -/
structure VolumeBackupPlanTask where
  data : BackupPlanTaskInfo := {}
  createdOn : String := ""
  updatedOn : String := ""
  backupTaskId : Int := 0
  status : JobStatus := .unset
  deriving DecidableEq

/-- `VolumeBackupPlan`, the backup tasks of a plan. -/
structure VolumeBackupPlan where
  backupPlanName : String := ""
  backupPlanId : Int := 0
  backupPlanTasks : List VolumeBackupPlanTask := []
  backupPlanTasksCounts : Int := 0
  deriving DecidableEq

/-- `VolumeBackupTasks`. -/
structure VolumeBackupTasks where
  volumeBackupPlans : List VolumeBackupPlan := []
  volumeBackupTasksCounts : Int := 0
  volumeBackupPlansCounts : Int := 0
  completedVolumeBackupTasksCounts : Int := 0
  inProcessVolumeBackupTasksCounts : Int := 0
  failedVolumeBackupTasksCounts : Int := 0
  deriving DecidableEq

/-- `VolumeRebuildTask`. -/
structure VolumeRebuildTask where
  rebuildTaskID : Int := 0
  createdOn : String
  updatedOn : String
  minerId : String
  dealCid : String
  payloadCid : String
  backupTaskId : Int
  status : JobStatus
  deriving DecidableEq

/-- `VolumeRebuildJobs`. -/
structure VolumeRebuildJobs where
  volumeRebuildTasks : List VolumeRebuildTask := []
  volumeRebuildTasksCounts : Int := 0
  completedVolumeRebuildTasksCounts : Int := 0
  inProcessVolumeRebuildTasksCounts : Int := 0
  failedVolumeRebuildTasksCounts : Int := 0
  deriving DecidableEq

/-- The keys of the database that these operations use. -/
structure LevelDb where
  plans : Option VolumeBackupJobPlans := none
  backups : Option VolumeBackupTasks := none
  rebuilds : Option VolumeRebuildJobs := none
  deriving DecidableEq

/-- Why an operation does not succeed: a missing key, the empty text that stands
for one where it is not asked for, and an index that is out of range. -/
inductive DocumentErr where
  | keyNotInLevelDb
  | unexpectedEndOfJSON
  | indexOutOfRange
  deriving DecidableEq, Repr

/-- `AddVolumeBackupPlanRequest`. -/
structure AddVolumeBackupPlanRequest where
  backupPlanName : String
  backupInterval : String
  minerRegion : String
  price : String
  duration : String
  verifiedDeal : Bool
  fastRetrieval : Bool

def AddVolumeBackupPlanRequest.toPlan (request : AddVolumeBackupPlanRequest) (id : Int)
    (timestamp : String) : VolumeBackupJobPlan where
  backupPlanId := id
  backupPlanName := request.backupPlanName
  backupInterval := request.backupInterval
  minerRegion := request.minerRegion
  price := request.price
  duration := request.duration
  verifiedDeal := request.verifiedDeal
  fastRetrieval := request.fastRetrieval
  status := some .enabled
  createdOn := timestamp
  updatedOn := timestamp

namespace LevelDb

variable (db : LevelDb)

/-- `BackupVolumeAddPlan`. -/
def backupVolumeAddPlan (request : AddVolumeBackupPlanRequest) (timestamp : String) : LevelDb :=
  match db.plans with
  | some data =>
    let newVolumeBackupJobPlan :=
      request.toPlan (data.volumeBackupJobPlansCounts + 1) timestamp
    { db with
      plans := some
        { volumeBackupJobPlans := data.volumeBackupJobPlans ++ [newVolumeBackupJobPlan]
          volumeBackupJobPlansCounts := data.volumeBackupJobPlansCounts + 1 } }
  | none =>
    { db with
      plans := some
        { volumeBackupJobPlans := [request.toPlan 1 timestamp]
          volumeBackupJobPlansCounts := 1 } }

/-- The task that `BackupAddJob` adds. -/
def newTask (backupPlan : VolumeBackupJobPlan) (id : Int) (timestamp : String) :
    VolumeBackupPlanTask where
  data := { duration := backupPlan.duration }
  createdOn := timestamp
  updatedOn := timestamp
  backupTaskId := id
  status := .created

def newGroup (backupPlan : VolumeBackupJobPlan) (task : VolumeBackupPlanTask) :
    VolumeBackupPlan where
  backupPlanName := backupPlan.backupPlanName
  backupPlanId := backupPlan.backupPlanId
  backupPlanTasks := [task]
  backupPlanTasksCounts := 1

def addTask (task : VolumeBackupPlanTask) (group : VolumeBackupPlan) : VolumeBackupPlan :=
  { group with
    backupPlanTasksCounts := group.backupPlanTasksCounts + 1
    backupPlanTasks := group.backupPlanTasks ++ [task] }

/-- The backup tasks with one more, of a plan that has tasks or of a new one. -/
def addBackup (backupPlan : VolumeBackupJobPlan) (timestamp : String) :
    Option VolumeBackupTasks → VolumeBackupTasks
  | some data =>
    let task := newTask backupPlan (data.volumeBackupTasksCounts + 1) timestamp
    match replaceFirst (fun group => group.backupPlanId == backupPlan.backupPlanId)
        (fun group => some (addTask task group)) data.volumeBackupPlans with
    | some groups =>
      { data with
        volumeBackupPlans := groups
        volumeBackupTasksCounts := data.volumeBackupTasksCounts + 1
        inProcessVolumeBackupTasksCounts := data.inProcessVolumeBackupTasksCounts + 1 }
    | none =>
      { data with
        volumeBackupPlans := data.volumeBackupPlans ++ [newGroup backupPlan task]
        volumeBackupPlansCounts := data.volumeBackupPlansCounts + 1
        volumeBackupTasksCounts := data.volumeBackupTasksCounts + 1
        inProcessVolumeBackupTasksCounts := data.inProcessVolumeBackupTasksCounts + 1 }
  | none =>
    { volumeBackupPlans := [newGroup backupPlan (newTask backupPlan 1 timestamp)]
      volumeBackupTasksCounts := 1
      volumeBackupPlansCounts := 1
      completedVolumeBackupTasksCounts := 0
      inProcessVolumeBackupTasksCounts := 1
      failedVolumeBackupTasksCounts := 0 }

/-- `BackupAddJob`. -/
def backupAddJob (backupPlanId : Int) (timestamp : String) : Except DocumentErr LevelDb :=
  match db.plans with
  | none => .error .keyNotInLevelDb
  | some data =>
    let named := fun plan : VolumeBackupJobPlan => plan.backupPlanId == backupPlanId
    let backupPlan := (data.volumeBackupJobPlans.find? named).getD {}
    let plans := (replaceFirst named (fun plan => some { plan with lastBackupOn := timestamp })
      data.volumeBackupJobPlans).getD data.volumeBackupJobPlans
    .ok { db with
      plans := some { data with volumeBackupJobPlans := plans }
      backups := some (addBackup backupPlan timestamp db.backups) }

def withDeals (tasks : List Deal) (timestamp : String) (task : VolumeBackupPlanTask) :
    VolumeBackupPlanTask :=
  { task with
    data := { task.data with dealInfo := tasks }
    status := .running
    updatedOn := timestamp }

/-- `SaveBackupTaskToDb`. -/
def saveBackupTaskToDb (tasks : List Deal) (backupPlanId backupTaskId : Int)
    (timestamp : String) : Except DocumentErr LevelDb :=
  match db.backups with
  | none => .error .unexpectedEndOfJSON
  | some data =>
    let saved := replaceFirst (fun group => group.backupPlanId == backupPlanId)
      (fun group =>
        (replaceFirst (fun task => task.backupTaskId == backupTaskId)
          (fun task => some (withDeals tasks timestamp task)) group.backupPlanTasks).map
          fun backupPlanTasks => { group with backupPlanTasks })
      data.volumeBackupPlans
    match saved with
    | none => .error .indexOutOfRange
    | some volumeBackupPlans =>
      .ok { db with backups := some { data with volumeBackupPlans } }

/-- The task that `RebuildAddJob` finds: the first of its id in the last plan that
has one. -/
def findTask (groups : List VolumeBackupPlan) (backupPlanId backupTaskId : Int) :
    VolumeBackupPlanTask :=
  groups.foldl (fun backupTask group =>
    if group.backupPlanId = backupPlanId then
      (group.backupPlanTasks.find? fun task => task.backupTaskId == backupTaskId).getD backupTask
    else backupTask) {}

/-- `RebuildAddJob`. -/
def rebuildAddJob (backupPlanId backupTaskId : Int) (timestamp : String) :
    Except DocumentErr LevelDb :=
  match db.backups with
  | none => .error .unexpectedEndOfJSON
  | some data =>
    let backupTask := findTask data.volumeBackupPlans backupPlanId backupTaskId
    match backupTask.data.dealInfo with
    | [] => .error .indexOutOfRange
    | deal :: _ =>
      let newVolumeRebuildTask : VolumeRebuildTask :=
        { createdOn := timestamp
          updatedOn := timestamp
          minerId := deal.minerId
          dealCid := deal.dealCid
          payloadCid := deal.payloadCid
          backupTaskId := backupTask.backupTaskId
          status := .created }
      match db.rebuilds with
      | some data =>
        let id := data.volumeRebuildTasksCounts + 1
        .ok { db with
          rebuilds := some { data with
            volumeRebuildTasks := data.volumeRebuildTasks ++
              [{ newVolumeRebuildTask with rebuildTaskID := id }]
            volumeRebuildTasksCounts := data.volumeRebuildTasksCounts + 1
            inProcessVolumeRebuildTasksCounts :=
              data.inProcessVolumeRebuildTasksCounts + 1 } }
      | none =>
        .ok { db with
          rebuilds := some
            { volumeRebuildTasks := [{ newVolumeRebuildTask with rebuildTaskID := 1 }]
              volumeRebuildTasksCounts := 1
              inProcessVolumeRebuildTasksCounts := 1 } }

/-- One turn of the loop of `RebuildVolume`. -/
def completeTask (volumeRebuildTaskId : Int) (timestamp : String) (data : VolumeRebuildJobs)
    (task : VolumeRebuildTask) : VolumeRebuildJobs :=
  if task.rebuildTaskID = volumeRebuildTaskId then
    { data with
      volumeRebuildTasks := data.volumeRebuildTasks ++
        [{ task with updatedOn := timestamp, status := .completed }]
      inProcessVolumeRebuildTasksCounts := data.inProcessVolumeRebuildTasksCounts - 1
      completedVolumeRebuildTasksCounts := data.completedVolumeRebuildTasksCounts + 1 }
  else { data with volumeRebuildTasks := data.volumeRebuildTasks ++ [task] }

/-- `RebuildVolume`, once the volume has been retrieved. -/
def rebuildVolume (volumeRebuildTaskId : Int) (timestamp : String) :
    Except DocumentErr LevelDb :=
  match db.rebuilds with
  | none => .error .unexpectedEndOfJSON
  | some data =>
    .ok { db with
      rebuilds := some (data.volumeRebuildTasks.foldl
        (completeTask volumeRebuildTaskId timestamp) { data with volumeRebuildTasks := [] }) }

end LevelDb

end Fs3.Volume

/-! ## What volume documents should say

The counters of a document count its lists, the ids in a list are distinct, and
every task leads to what it is a task of.
-/

namespace Fs3.Volume

open Foundation Scheduler

def isInProcess (status : JobStatus) : Bool := status == .created || status == .running

/-- The counters of a list of tasks, each the number of the tasks that it counts
and so never negative. -/
structure Tallied (statuses : List JobStatus) (total inProcess completed failed : Int) :
    Prop where
  total : total = statuses.length
  inProcess : inProcess = statuses.countP isInProcess
  completed : completed = statuses.count .completed
  failed : failed = statuses.count .failed

namespace LevelDb

def planDoc (db : LevelDb) : VolumeBackupJobPlans := db.plans.getD {}

def backupDoc (db : LevelDb) : VolumeBackupTasks := db.backups.getD {}

def rebuildDoc (db : LevelDb) : VolumeRebuildJobs := db.rebuilds.getD {}

end LevelDb

def VolumeBackupTasks.tasks (data : VolumeBackupTasks) : List VolumeBackupPlanTask :=
  data.volumeBackupPlans.flatMap VolumeBackupPlan.backupPlanTasks

/-- What the documents should say: counters that count, ids that are distinct, and
references that lead somewhere. -/
structure Consistent (db : LevelDb) : Prop where
  plansCounted : db.planDoc.volumeBackupJobPlansCounts = db.planDoc.volumeBackupJobPlans.length
  plansDistinct : (db.planDoc.volumeBackupJobPlans.map VolumeBackupJobPlan.backupPlanId).Nodup
  groupsCounted : db.backupDoc.volumeBackupPlansCounts = db.backupDoc.volumeBackupPlans.length
  groupsDistinct : (db.backupDoc.volumeBackupPlans.map VolumeBackupPlan.backupPlanId).Nodup
  groupCounted : ∀ group ∈ db.backupDoc.volumeBackupPlans,
    group.backupPlanTasksCounts = group.backupPlanTasks.length
  tasksCounted : Tallied (db.backupDoc.tasks.map VolumeBackupPlanTask.status)
    db.backupDoc.volumeBackupTasksCounts db.backupDoc.inProcessVolumeBackupTasksCounts
    db.backupDoc.completedVolumeBackupTasksCounts db.backupDoc.failedVolumeBackupTasksCounts
  tasksDistinct : (db.backupDoc.tasks.map VolumeBackupPlanTask.backupTaskId).Nodup
  planOfTask : ∀ group ∈ db.backupDoc.volumeBackupPlans,
    ∃ plan ∈ db.planDoc.volumeBackupJobPlans, plan.backupPlanId = group.backupPlanId
  rebuildsCounted : Tallied (db.rebuildDoc.volumeRebuildTasks.map VolumeRebuildTask.status)
    db.rebuildDoc.volumeRebuildTasksCounts db.rebuildDoc.inProcessVolumeRebuildTasksCounts
    db.rebuildDoc.completedVolumeRebuildTasksCounts db.rebuildDoc.failedVolumeRebuildTasksCounts
  rebuildsDistinct : (db.rebuildDoc.volumeRebuildTasks.map VolumeRebuildTask.rebuildTaskID).Nodup
  taskOfRebuild : ∀ rebuild ∈ db.rebuildDoc.volumeRebuildTasks,
    ∃ task ∈ db.backupDoc.tasks, task.backupTaskId = rebuild.backupTaskId

/-! ## Lists of tasks -/

theorem ne_of_isInProcess {status : JobStatus} (hstatus : isInProcess status = true) :
    status ≠ .completed ∧ status ≠ .failed := by
  constructor <;> rintro rfl <;> cases hstatus

namespace Tallied

variable {statuses statuses' before after : List JobStatus} {status status' : JobStatus}
variable {total inProcess completed failed : Int}

theorem created (htallied : Tallied statuses total inProcess completed failed)
    (hperm : statuses'.Perm (.created :: statuses)) :
    Tallied statuses' (total + 1) (inProcess + 1) completed failed where
  total := by rw [hperm.length_eq, htallied.total]; rfl
  inProcess := by rw [hperm.countP_eq, htallied.inProcess]; simp [isInProcess]
  completed := by rw [hperm.count_eq, htallied.completed]; simp
  failed := by rw [hperm.count_eq, htallied.failed]; simp

section

variable (htallied : Tallied statuses total inProcess completed failed)
  (hstatuses : statuses = before ++ status :: after)
include htallied hstatuses

theorem replace (hold : isInProcess status = true) (hnew : isInProcess status' = true) :
    Tallied (before ++ status' :: after) total inProcess completed failed := by
  obtain ⟨hcompleted, hfailed⟩ := ne_of_isInProcess hold
  obtain ⟨hcompleted', hfailed'⟩ := ne_of_isInProcess hnew
  subst hstatuses
  refine ⟨by simpa using htallied.total, ?_, ?_, ?_⟩
  · simpa [hold, hnew] using htallied.inProcess
  · simpa [List.count_cons, hcompleted, hcompleted'] using htallied.completed
  · simpa [List.count_cons, hfailed, hfailed'] using htallied.failed

theorem complete (hold : isInProcess status = true) :
    Tallied (before ++ .completed :: after) total (inProcess - 1) (completed + 1) failed := by
  obtain ⟨hnotCompleted, hnotFailed⟩ := ne_of_isInProcess hold
  subst hstatuses
  refine ⟨by simpa using htallied.total, ?_, ?_, ?_⟩
  · have hcount := htallied.inProcess
    have hended : isInProcess .completed = false := rfl
    rw [List.countP_append, List.countP_cons] at hcount ⊢
    simp only [hold, hended, if_true, Bool.false_eq_true, if_false] at hcount ⊢
    omega
  · have hcount := htallied.completed
    rw [List.count_append, List.count_cons_self]
    rw [List.count_append, List.count_cons_of_ne hnotCompleted] at hcount
    omega
  · simpa [List.count_cons, hnotFailed] using htallied.failed

theorem not_complete (hold : isInProcess status = false) {total' completed' failed' : Int} :
    ¬ Tallied (before ++ .completed :: after) total' (inProcess - 1) completed' failed' := by
  intro htallied'
  have hcount := htallied.inProcess
  have hcount' := htallied'.inProcess
  have hended : isInProcess .completed = false := rfl
  rw [hstatuses, List.countP_append, List.countP_cons, hold] at hcount
  rw [List.countP_append, List.countP_cons, hended] at hcount'
  omega

end

end Tallied

/-- Ids that are numbers from one up to a counter. -/
structure Numbered (ids : List Int) (count : Int) : Prop where
  nodup : ids.Nodup
  bounds : ∀ id ∈ ids, 1 ≤ id ∧ id ≤ count

theorem Numbered.next {ids ids' : List Int} {count : Int} (hnumbered : Numbered ids count)
    (hcount : 0 ≤ count) (hperm : ids'.Perm ((count + 1) :: ids)) : Numbered ids' (count + 1) := by
  refine ⟨hperm.nodup_iff.mpr (List.nodup_cons.mpr ⟨fun hmem => ?_, hnumbered.nodup⟩),
    fun id hid => ?_⟩
  · have hle := (hnumbered.bounds _ hmem).2
    omega
  · rcases List.mem_cons.mp (hperm.mem_iff.mp hid) with rfl | hid
    · omega
    · have hbounds := hnumbered.bounds id hid
      omega

theorem tallied_nil : Tallied [] 0 0 0 0 := ⟨rfl, rfl, rfl, rfl⟩

theorem numbered_nil : Numbered [] 0 := by
  refine ⟨List.nodup_nil, fun id hid => ?_⟩
  cases hid

end Fs3.Volume
