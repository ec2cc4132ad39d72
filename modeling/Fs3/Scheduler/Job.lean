import Fs3.Foundation.Table

/-! # Backup plans and jobs

The rows that the backup schedulers and the web handlers share: a plan says how often a volume is
backed up, and every backup is a job of its plan. -/

namespace Fs3.Scheduler

/-- The columns of `PsqlVolumeBackupPlan` that the schedulers read or write. -/
structure Plan where
  id : Nat
  name : String
  interval : String
  duration : String
  lastBackupOn : String
  createdOn : String
  deriving DecidableEq

/-- What a status column can say. -/
inductive JobStatus where
  | unset
  | created
  | running
  | completed
  | failed
  deriving DecidableEq

/-- `PsqlVolumeBackupJob`. -/
structure Job where
  id : Nat
  name : String
  uuid : String
  sourceFileName : String
  minerId : String
  dealCid : String
  payloadCid : String
  fileSourceUrl : String
  md5 : String
  startEpoch : Int
  pieceCid : String
  fileSize : Int
  cost : String
  duration : String
  status : JobStatus
  createdOn : String
  updatedOn : String
  volumeBackupPlanID : Nat
  deriving DecidableEq

/-- `subcommand.Deal`. -/
structure Deal where
  uuid : String
  sourceFileName : String
  minerId : String
  dealCid : String
  payloadCid : String
  fileSourceUrl : String
  md5 : String
  startEpoch : Int
  pieceCid : String
  fileSize : Int
  cost : String
  deriving DecidableEq

/-- `VolumeBackupRequest`. -/
structure VolumeBackupRequest where
  backupTaskId : Nat
  backupPlanId : Nat
  backupPlanName : String
  deriving DecidableEq

instance : Foundation.Keyed Job where
  key := Job.id
  withKey id job := { job with id := id }
  key_withKey _ _ := rfl

def Plan.zero : Plan := ⟨0, "", "", "", "", ""⟩

namespace Job

def zero : Job := ⟨0, "", "", "", "", "", "", "", "", 0, "", 0, "", "", .unset, "", "", 0⟩

def ofPlan (plan : Plan) (timestamp : String) : Job :=
  { zero with
    name := plan.name
    volumeBackupPlanID := plan.id
    duration := plan.duration
    createdOn := timestamp
    updatedOn := timestamp
    status := .created }

/-- The job as `SaveBackupTaskToDb` saves it for a deal. -/
def withDeal (job : Job) (deal : Deal) (timestamp : String) : Job :=
  { job with
    status := .running
    updatedOn := timestamp
    uuid := deal.uuid
    sourceFileName := deal.sourceFileName
    minerId := deal.minerId
    dealCid := deal.dealCid
    payloadCid := deal.payloadCid
    fileSourceUrl := deal.fileSourceUrl
    md5 := deal.md5
    startEpoch := deal.startEpoch
    pieceCid := deal.pieceCid
    fileSize := deal.fileSize
    cost := deal.cost }

@[simp]
theorem withDeal_id (job : Job) (deal : Deal) (timestamp : String) :
    (job.withDeal deal timestamp).id = job.id := rfl

@[simp]
theorem withDeal_volumeBackupPlanID (job : Job) (deal : Deal) (timestamp : String) :
    (job.withDeal deal timestamp).volumeBackupPlanID = job.volumeBackupPlanID := rfl

@[simp]
theorem key_eq (job : Job) : Foundation.Keyed.key job = job.id := rfl

end Job

end Fs3.Scheduler
