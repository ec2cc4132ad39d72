import Fs3.Foundation.Histories
import Fs3.Scheduler.Job

/-! # Overlapping runs of the backup scheduler

`cron` starts a run every two minutes, in a goroutine of its own, whether or not the last one is
done. Every call to the database is one step; the runs and the requests take their steps in any
order. -/

namespace Fs3.Scheduler

open Foundation

variable {τ δ : Type*}

/-- Where a run of `BackupVolumeScheduler` or a call of `PsqlBackupAddJob` is. -/
inductive Phase where
  | idle
  /-- In `AddBackupVolumeJobs`, before the next plan. -/
  | adding (plansId : List Nat) (requests : List VolumeBackupRequest)
  | creating (plan : Plan) (plansId : List Nat) (requests : List VolumeBackupRequest)
  /-- The job of a plan has been inserted under this id. -/
  | querying (plan : Plan) (job : Nat) (plansId : List Nat) (requests : List VolumeBackupRequest)
  /-- In `BackupVolumeJobs`, before the next request. -/
  | backing (requests : List VolumeBackupRequest)
  /-- In `SaveBackupTaskToDb`, before the next deal of a request that has been sent. -/
  | recording (request : VolumeBackupRequest) (deals : List Deal)
      (requests : List VolumeBackupRequest)
  /-- The job of a request has been read. -/
  | saving (request : VolumeBackupRequest) (job : Job) (deal : Deal) (deals : List Deal)
      (requests : List VolumeBackupRequest)
  /-- In `PsqlBackupAddJob`, with the plan of the call. -/
  | calling (plan : Plan)
  | answering
  | done

namespace Phase

def requests : Phase → List VolumeBackupRequest
  | .adding _ requests => requests
  | .creating _ _ requests => requests
  | .querying _ _ _ requests => requests
  | .backing requests => requests
  | .recording request _ requests => request :: requests
  | .saving request _ _ _ requests => request :: requests
  | _ => []

/-- The plan whose job has been inserted, with the id of that job, while the run
has not asked for the id. -/
def querying? : Phase → Option (Plan × Nat)
  | .querying plan job _ _ => some (plan, job)
  | _ => none

/-- The request that is about to be recorded, with the row that was read for it. -/
def saving? : Phase → Option (VolumeBackupRequest × Job)
  | .saving request job _ _ _ => some (request, job)
  | _ => none

end Phase

/-- The jobs, and what everyone is doing. -/
structure System (τ δ : Type*) where
  db : δ
  phase : τ → Phase
  /-- The requests that were made, each with the job that was inserted for it. -/
  made : List (VolumeBackupRequest × Nat)
  /-- The requests that were recorded, each with the row that was written. -/
  recorded : List (VolumeBackupRequest × Nat)

/-- What one step can be. -/
inductive Act where
  | starts (plansId : List Nat)
  | finds (plan : Plan)
  | findFails
  | inserts (timestamp : String)
  | insertFails
  | queries
  | queryFails
  | sends (deals : List Deal)
  | reads
  | readFails
  | saves (timestamp : String)
  | saveFails
  | goesOn
  | stops

namespace System

def start (db : δ) : System τ δ := ⟨db, fun _ => .idle, [], []⟩

variable [DecidableEq τ]

def turn (w : System τ δ) (t : τ) (phase : Phase) : System τ δ :=
  { w with phase := Function.update w.phase t phase }

@[simp]
theorem turn_self (w : System τ δ) (t : τ) (phase : Phase) :
    (w.turn t phase).phase t = phase := by
  simp only [turn, Function.update_self]

theorem turn_of_ne (w : System τ δ) {t u : τ} (hne : u ≠ t) (phase : Phase) :
    (w.turn t phase).phase u = w.phase u := by
  simp only [turn, Function.update_of_ne hne]

end System

variable [DecidableEq τ] (jobs : Table δ Job)

def savedKey (db : δ) (job : Job) : Nat := if job.id = 0 then (jobs.create db job).2 else job.id

/-- The step of one run or call. -/
inductive Step (w : System τ δ) (t : τ) : Act → System τ δ → Prop where
  | starts (plansId : List Nat) (hphase : w.phase t = .idle) :
      Step w t (.starts plansId) (w.turn t (.adding plansId []))
  | finds (plan : Plan) {plansId : List Nat} {requests : List VolumeBackupRequest}
      (hphase : w.phase t = .adding (plan.id :: plansId) requests) :
      Step w t (.finds plan) (w.turn t (.creating plan plansId requests))
  | findFails {id : Nat} {plansId : List Nat} {requests : List VolumeBackupRequest}
      (hphase : w.phase t = .adding (id :: plansId) requests) :
      Step w t .findFails (w.turn t (.adding plansId requests))
  | inserts (timestamp : String) {plan : Plan} {plansId : List Nat}
      {requests : List VolumeBackupRequest}
      (hphase : w.phase t = .creating plan plansId requests) :
      Step w t (.inserts timestamp)
        { w.turn t (.querying plan (jobs.create w.db (.ofPlan plan timestamp)).2 plansId
            requests) with
          db := (jobs.create w.db (.ofPlan plan timestamp)).1 }
  | insertFails {plan : Plan} {plansId : List Nat} {requests : List VolumeBackupRequest}
      (hphase : w.phase t = .creating plan plansId requests) :
      Step w t .insertFails (w.turn t (.adding plansId requests))
  | queries {plan : Plan} {own : Nat} {plansId : List Nat} {requests : List VolumeBackupRequest}
      {job : Job} (hphase : w.phase t = .querying plan own plansId requests)
      (hlast : jobs.last w.db = some job) :
      Step w t .queries
        { w.turn t (.adding plansId (requests ++ [⟨job.id, plan.id, plan.name⟩])) with
          made := w.made ++ [(⟨job.id, plan.id, plan.name⟩, own)] }
  | queryFails {plan : Plan} {own : Nat} {plansId : List Nat}
      {requests : List VolumeBackupRequest}
      (hphase : w.phase t = .querying plan own plansId requests) :
      Step w t .queryFails (w.turn t (.adding plansId requests))
  | added {requests : List VolumeBackupRequest} (hphase : w.phase t = .adding [] requests) :
      Step w t .goesOn (w.turn t (.backing requests))
  | sends (deals : List Deal) {request : VolumeBackupRequest}
      {requests : List VolumeBackupRequest} (hphase : w.phase t = .backing (request :: requests)) :
      Step w t (.sends deals) (w.turn t (.recording request deals requests))
  | reads {request : VolumeBackupRequest} {job : Job} {deal : Deal} {deals : List Deal}
      {requests : List VolumeBackupRequest}
      (hphase : w.phase t = .recording request (deal :: deals) requests)
      (hrow : jobs.row w.db request.backupTaskId = some job) :
      Step w t .reads (w.turn t (.saving request job deal deals requests))
  /-- `SaveBackupTaskToDb` does not look at the error of this query. -/
  | readFails {request : VolumeBackupRequest} {deal : Deal} {deals : List Deal}
      {requests : List VolumeBackupRequest}
      (hphase : w.phase t = .recording request (deal :: deals) requests) :
      Step w t .readFails (w.turn t (.saving request .zero deal deals requests))
  | saves (timestamp : String) {request : VolumeBackupRequest} {job : Job} {deal : Deal}
      {deals : List Deal} {requests : List VolumeBackupRequest}
      (hphase : w.phase t = .saving request job deal deals requests) :
      Step w t (.saves timestamp)
        { w.turn t (.recording request deals requests) with
          db := jobs.save w.db (job.withDeal deal timestamp)
          recorded := w.recorded ++
            [(request, savedKey jobs w.db (job.withDeal deal timestamp))] }
  | saveFails {request : VolumeBackupRequest} {job : Job} {deal : Deal} {deals : List Deal}
      {requests : List VolumeBackupRequest}
      (hphase : w.phase t = .saving request job deal deals requests) :
      Step w t .saveFails (w.turn t (.recording request deals requests))
  | recorded {request : VolumeBackupRequest} {requests : List VolumeBackupRequest}
      (hphase : w.phase t = .recording request [] requests) :
      Step w t .goesOn (w.turn t (.backing requests))
  | sendFails {requests : List VolumeBackupRequest} (hphase : w.phase t = .backing requests) :
      Step w t .stops (w.turn t .done)
  | recordFails {request : VolumeBackupRequest} {deals : List Deal}
      {requests : List VolumeBackupRequest}
      (hphase : w.phase t = .recording request deals requests) :
      Step w t .stops (w.turn t .done)
  /-- The web handler goes on with the zero value of a plan that is not found. -/
  | calls (plan : Plan) (hphase : w.phase t = .idle) :
      Step w t (.finds plan) (w.turn t (.calling plan))
  | callInserts (timestamp : String) {plan : Plan} (hphase : w.phase t = .calling plan) :
      Step w t (.inserts timestamp)
        { w.turn t .answering with db := (jobs.create w.db (.ofPlan plan timestamp)).1 }
  | callInsertFails {plan : Plan} (hphase : w.phase t = .calling plan) :
      Step w t .insertFails (w.turn t .answering)
  | answers (hphase : w.phase t = .answering) : Step w t .queries (w.turn t .done)

def Moves (w w' : System τ δ) : Prop := ∃ t act, Step jobs w t act w'

/-- A job is inserted only while no other run is between its own insert and its
query for the last job, and the row of a request's job can be read. -/
def Guarded (w : System τ δ) (t : τ) : Act → Prop
  | .inserts _ => ∀ u, u ≠ t → (w.phase u).querying? = none
  | .readFails => False
  | _ => True

def MovesGuarded (w w' : System τ δ) : Prop := ∃ t act, Step jobs w t act w' ∧ Guarded w t act

/-- Each request carries the id of the job that was inserted for it and for its
plan, it is recorded on that job, and no two requests have the same job. -/
structure DrivesOwnJobs (w : System τ δ) : Prop where
  own : ∀ request job, (request, job) ∈ w.made → request.backupTaskId = job ∧
    ∃ row, jobs.row w.db job = some row ∧ row.volumeBackupPlanID = request.backupPlanId
  recorded : ∀ request job, (request, job) ∈ w.recorded → (request, job) ∈ w.made
  once : (w.made.map fun made => made.1.backupTaskId).Nodup

end Fs3.Scheduler

/-! ## When every backup request drives its own job

The last job is the one that a run has inserted as long as no other is inserted
before the run asks. As one insert at a time is all that this needs, the
invariant is that at most one run is between the two, and that what it has
inserted is still the last job.
-/

namespace Fs3.Scheduler

open Foundation

variable {τ δ : Type*} {jobs : Table δ Job}

/-- What every guarded step keeps. -/
structure OneAtATime (jobs : Table δ Job) (w : System τ δ) : Prop extends
    DrivesOwnJobs jobs w where
  alone : ∀ t u, (w.phase t).querying? ≠ none → (w.phase u).querying? ≠ none → t = u
  newest : ∀ t plan job, (w.phase t).querying? = some (plan, job) →
    (∃ row, jobs.row w.db job = some row ∧ row.volumeBackupPlanID = plan.id) ∧
      (∀ k, jobs.row w.db k ≠ none → k ≤ job) ∧ job ∉ w.made.map Prod.snd
  carried : ∀ t, ∀ request ∈ (w.phase t).requests, ∃ job, (request, job) ∈ w.made
  read : ∀ t request job, (w.phase t).saving? = some (request, job) →
    job.id = request.backupTaskId ∧ job.volumeBackupPlanID = request.backupPlanId

namespace DrivesOwnJobs

variable {w : System τ δ}

theorem create (hown : DrivesOwnJobs jobs w) (new : Job) :
    DrivesOwnJobs jobs { w with db := (jobs.create w.db new).1 } where
  own := by
    intro request job hmade
    obtain ⟨hid, row, hrow, hplan⟩ := hown.own request job hmade
    exact ⟨hid, row, jobs.row_create_of_row hrow new, hplan⟩
  recorded := hown.recorded
  once := hown.once

theorem map_backupTaskId (hown : DrivesOwnJobs jobs w) :
    (w.made.map fun made => made.1.backupTaskId) = w.made.map Prod.snd :=
  List.map_congr_left fun made hmade => (hown.own made.1 made.2 hmade).1

/-- The row of a request is saved for the request. -/
theorem save (hown : DrivesOwnJobs jobs w) {request : VolumeBackupRequest} {own : Nat}
    (hmade : (request, own) ∈ w.made) {job : Job} (hid : job.id = request.backupTaskId)
    (hplan : job.volumeBackupPlanID = request.backupPlanId) :
    DrivesOwnJobs jobs
      { w with
        db := jobs.save w.db job
        recorded := w.recorded ++ [(request, savedKey jobs w.db job)] } := by
  obtain ⟨htask, old, hold, holdPlan⟩ := hown.own request own hmade
  have hkey : own = job.id := htask.symm.trans hid.symm
  have hrow : jobs.row w.db (Keyed.key job) ≠ none := by
    rw [Job.key_eq, ← hkey, hold]
    exact Option.some_ne_none old
  have hpos : job.id ≠ 0 := by
    intro hzero
    rw [Job.key_eq, hzero] at hrow
    exact hrow (jobs.row_zero w.db)
  constructor
  case own =>
    intro request' job' hmade'
    obtain ⟨htask', row, hrow', hplan'⟩ := hown.own request' job' hmade'
    refine ⟨htask', ?_⟩
    simp only [jobs.row_save hrow, Job.key_eq]
    split
    next heq =>
      -- The row that is written was read from this key, so its plan is the old one's.
      refine ⟨job, rfl, ?_⟩
      rw [heq, ← hkey, hold] at hrow'
      cases hrow'
      rw [hplan, ← holdPlan, hplan']
    next => exact ⟨row, hrow', hplan'⟩
  case recorded =>
    intro request' job' hrecorded
    rcases List.mem_append.mp hrecorded with hrecorded | hrecorded
    · exact hown.recorded request' job' hrecorded
    · rw [List.mem_singleton.mp hrecorded, savedKey, if_neg hpos, ← hkey]
      exact hmade
  case once => exact hown.once

theorem turn [DecidableEq τ] (hown : DrivesOwnJobs jobs w) (t : τ) (next : Phase) :
    DrivesOwnJobs jobs (w.turn t next) := ⟨hown.own, hown.recorded, hown.once⟩

end DrivesOwnJobs

namespace OneAtATime

variable {w : System τ δ}

theorem start (db : δ) : OneAtATime jobs (System.start db : System τ δ) where
  own := by
    intro request job hmade
    cases hmade
  recorded := by
    intro request job hrecorded
    cases hrecorded
  once := List.nodup_nil
  alone := by
    intro t u ht
    exact absurd rfl ht
  newest := by
    intro t plan job hquerying
    cases hquerying
  carried := by
    intro t request hrequest
    cases hrequest
  read := by
    intro t request job hsaving
    cases hsaving

theorem id_of_last (hinv : OneAtATime jobs w) {t : τ} {plan : Plan} {own : Nat}
    (hquerying : (w.phase t).querying? = some (plan, own)) {job : Job}
    (hlast : jobs.last w.db = some job) : job.id = own := by
  obtain ⟨⟨row, hrow, -⟩, hmax, -⟩ := hinv.newest t plan own hquerying
  obtain ⟨hjob, hjobMax⟩ := jobs.last_eq_some.mp hlast
  apply Nat.le_antisymm
  · exact hmax job.id (by simp [show jobs.row w.db job.id = some job from hjob])
  · exact hjobMax own (by simp [hrow])

theorem create (hinv : OneAtATime jobs w) (hnone : ∀ u, (w.phase u).querying? = none)
    (new : Job) : OneAtATime jobs { w with db := (jobs.create w.db new).1 } where
  toDrivesOwnJobs := hinv.toDrivesOwnJobs.create new
  alone := by
    intro t u ht
    exact absurd (hnone t) ht
  newest := by
    intro t plan job ht
    rw [hnone t] at ht
    cases ht
  carried := hinv.carried
  read := hinv.read

variable {request : VolumeBackupRequest}

theorem save (hinv : OneAtATime jobs w) {own : Nat} (hmade : (request, own) ∈ w.made) {job : Job}
    (hid : job.id = request.backupTaskId) (hplan : job.volumeBackupPlanID = request.backupPlanId) :
    OneAtATime jobs
      { w with
        db := jobs.save w.db job
        recorded := w.recorded ++ [(request, savedKey jobs w.db job)] } := by
  obtain ⟨htask, old, hold, -⟩ := hinv.own request own hmade
  have hrow : jobs.row w.db (Keyed.key job) ≠ none := by
    rw [Job.key_eq, hid, htask, hold]
    exact Option.some_ne_none old
  constructor
  case toDrivesOwnJobs => exact hinv.toDrivesOwnJobs.save hmade hid hplan
  case alone => exact hinv.alone
  case newest =>
    intro t plan job' hquerying
    obtain ⟨⟨row, hrow', hplan'⟩, hmax, hnew⟩ := hinv.newest t plan job' hquerying
    have hne : job' ≠ Keyed.key job := by
      rintro rfl
      apply hnew
      rw [Job.key_eq, hid, htask]
      exact List.mem_map_of_mem hmade
    refine ⟨⟨row, ?_, hplan'⟩, fun k hk => hmax k ((jobs.row_save_ne_none hrow k).mp hk), hnew⟩
    rw [jobs.row_save hrow, if_neg hne, hrow']
  case carried => exact hinv.carried
  case read => exact hinv.read

variable [DecidableEq τ]

theorem querying?_of_turn {t u : τ} {next : Phase} {who : Plan × Nat}
    (hnext : next.querying? = none) (hu : ((w.turn t next).phase u).querying? = some who) :
    (w.phase u).querying? = some who := by
  rcases eq_or_ne u t with rfl | hne
  · rw [System.turn_self, hnext] at hu
    cases hu
  · rwa [System.turn_of_ne w hne] at hu

/-- A run that goes on with the requests it has, and has read the job of the request
that it is about to record. -/
theorem turn (hinv : OneAtATime jobs w) (t : τ) {next : Phase}
    (hquerying : next.querying? = none)
    (hsaving : ∀ request job, next.saving? = some (request, job) →
      job.id = request.backupTaskId ∧ job.volumeBackupPlanID = request.backupPlanId)
    (hrequests : next.requests ⊆ (w.phase t).requests) : OneAtATime jobs (w.turn t next) where
  own := hinv.own
  recorded := hinv.recorded
  once := hinv.once
  alone := by
    intro u v hu hv
    obtain ⟨who, hu⟩ := Option.ne_none_iff_exists'.mp hu
    obtain ⟨other, hv⟩ := Option.ne_none_iff_exists'.mp hv
    apply hinv.alone
    · simp [querying?_of_turn hquerying hu]
    · simp [querying?_of_turn hquerying hv]
  newest := by
    intro u plan job hu
    exact hinv.newest u plan job (querying?_of_turn hquerying hu)
  carried := by
    intro u request hrequest
    rcases eq_or_ne u t with rfl | hne
    · rw [System.turn_self] at hrequest
      exact hinv.carried u request (hrequests hrequest)
    · rw [System.turn_of_ne w hne] at hrequest
      exact hinv.carried u request hrequest
  read := by
    intro u request job hu
    rcases eq_or_ne u t with rfl | hne
    · rw [System.turn_self] at hu
      exact hsaving request job hu
    · rw [System.turn_of_ne w hne] at hu
      exact hinv.read u request job hu

theorem goesOn (hinv : OneAtATime jobs w) (t : τ) {next : Phase}
    (hquerying : next.querying? = none) (hsaving : next.saving? = none)
    (hrequests : next.requests ⊆ (w.phase t).requests) : OneAtATime jobs (w.turn t next) := by
  refine hinv.turn t hquerying (fun request job hread => ?_) hrequests
  rw [hsaving] at hread
  cases hread

variable {requests : List VolumeBackupRequest}

/-- The job that a run has just inserted is the last one. -/
theorem inserts (hinv : OneAtATime jobs w) (hnone : ∀ u, (w.phase u).querying? = none) (t : τ)
    (plan : Plan) (timestamp : String) {plansId : List Nat}
    (hphase : w.phase t = .creating plan plansId requests) :
    OneAtATime jobs
      { w.turn t (.querying plan (jobs.create w.db (.ofPlan plan timestamp)).2 plansId
          requests) with
        db := (jobs.create w.db (.ofPlan plan timestamp)).1 } where
  toDrivesOwnJobs := (hinv.toDrivesOwnJobs.turn t _).create _
  alone := by
    have honly : ∀ u, ((w.turn t (.querying plan (jobs.create w.db (.ofPlan plan timestamp)).2
        plansId requests)).phase u).querying? ≠ none → u = t := by
      intro u hu
      by_contra hne
      rw [System.turn_of_ne w hne] at hu
      exact hu (hnone u)
    intro u v hu hv
    rw [honly u hu, honly v hv]
  newest := by
    intro u plan' job hu
    rcases eq_or_ne u t with rfl | hne
    · rw [System.turn_self] at hu
      cases hu
      refine ⟨⟨_, jobs.row_create_self w.db _, rfl⟩, ?_, ?_⟩
      · exact (jobs.last_eq_some.mp (jobs.last_create w.db _)).2
      · intro hmem
        obtain ⟨made, hmade, hjob⟩ := List.mem_map.mp hmem
        obtain ⟨-, row, hrow, -⟩ := hinv.own made.1 made.2 hmade
        have hold : jobs.row w.db made.2 ≠ none := by simp [hrow]
        have hlt := jobs.key_lt_create (.ofPlan plan timestamp) hold
        exact Nat.ne_of_lt hlt hjob
    · rw [System.turn_of_ne w hne, hnone u] at hu
      cases hu
  carried := by
    intro u request hrequest
    rcases eq_or_ne u t with rfl | hne
    · rw [System.turn_self] at hrequest
      apply hinv.carried u request
      rw [hphase]
      exact hrequest
    · rw [System.turn_of_ne w hne] at hrequest
      exact hinv.carried u request hrequest
  read := by
    intro u request job hu
    rcases eq_or_ne u t with rfl | hne
    · rw [System.turn_self] at hu
      cases hu
    · rw [System.turn_of_ne w hne] at hu
      exact hinv.read u request job hu

/-- A run learns the id of the job that it has inserted. -/
theorem queries (hinv : OneAtATime jobs w) (t : τ) {plan : Plan} {own : Nat} {plansId : List Nat}
    (hphase : w.phase t = .querying plan own plansId requests) {job : Job}
    (hlast : jobs.last w.db = some job) :
    OneAtATime jobs
      { w.turn t (.adding plansId (requests ++ [⟨job.id, plan.id, plan.name⟩])) with
        made := w.made ++ [(⟨job.id, plan.id, plan.name⟩, own)] } := by
  have hquerying : (w.phase t).querying? = some (plan, own) := by rw [hphase, Phase.querying?]
  have hid := hinv.id_of_last hquerying hlast
  obtain ⟨hrow, -, hnew⟩ := hinv.newest t plan own hquerying
  constructor
  case toDrivesOwnJobs =>
    constructor
    case own =>
      intro request job' hmade
      rcases List.mem_append.mp hmade with hmade | hmade
      · exact hinv.own request job' hmade
      · cases List.mem_singleton.mp hmade
        exact ⟨hid, hrow⟩
    case recorded =>
      intro request job' hrecorded
      exact List.mem_append_left _ (hinv.recorded request job' hrecorded)
    case once =>
      rw [List.map_append, hinv.map_backupTaskId]
      refine List.nodup_append.mpr ⟨hinv.map_backupTaskId ▸ hinv.once, by simp, ?_⟩
      intro k hk new hmem heq
      rw [heq, List.mem_singleton.mp hmem] at hk
      exact hnew (hid ▸ hk)
  case alone =>
    intro u v hu hv
    obtain ⟨who, hu⟩ := Option.ne_none_iff_exists'.mp hu
    obtain ⟨other, hv⟩ := Option.ne_none_iff_exists'.mp hv
    apply hinv.alone
    · simp [querying?_of_turn rfl hu]
    · simp [querying?_of_turn rfl hv]
  case newest =>
    intro u plan' job' hu
    rcases eq_or_ne u t with rfl | hne
    · rw [System.turn_self] at hu
      cases hu
    · rw [System.turn_of_ne w hne] at hu
      exact absurd (hinv.alone u t (by simp [hu]) (by simp [hquerying])) hne
  case carried =>
    intro u request hrequest
    rcases eq_or_ne u t with rfl | hne
    · rw [System.turn_self] at hrequest
      rcases List.mem_append.mp hrequest with hrequest | hrequest
      · obtain ⟨job', hmade⟩ := hinv.carried u request (by rwa [hphase])
        exact ⟨job', List.mem_append_left _ hmade⟩
      · exact ⟨own, List.mem_append_right _ (by simp [List.mem_singleton.mp hrequest])⟩
    · rw [System.turn_of_ne w hne] at hrequest
      obtain ⟨job', hmade⟩ := hinv.carried u request hrequest
      exact ⟨job', List.mem_append_left _ hmade⟩
  case read =>
    intro u request job' hu
    rcases eq_or_ne u t with rfl | hne
    · rw [System.turn_self] at hu
      cases hu
    · rw [System.turn_of_ne w hne] at hu
      exact hinv.read u request job' hu

theorem reads (hinv : OneAtATime jobs w) (t : τ) {job : Job} {deal : Deal} {deals : List Deal}
    (hphase : w.phase t = .recording request (deal :: deals) requests)
    (hrow : jobs.row w.db request.backupTaskId = some job) :
    OneAtATime jobs (w.turn t (.saving request job deal deals requests)) := by
  have hrequests : (w.phase t).requests = request :: requests := by rw [hphase, Phase.requests]
  obtain ⟨own, hmade⟩ := hinv.carried t request (hrequests ▸ List.mem_cons_self)
  obtain ⟨htask, row, hown, hplan⟩ := hinv.own request own hmade
  refine hinv.turn t rfl (fun request' job' hsaving => ?_) (hrequests ▸ List.Subset.refl _)
  cases hsaving
  refine ⟨jobs.key_of_row hrow, ?_⟩
  rw [htask, hown] at hrow
  cases hrow
  exact hplan

theorem saves (hinv : OneAtATime jobs w) (t : τ) {job : Job} {deal : Deal} {deals : List Deal}
    (hphase : w.phase t = .saving request job deal deals requests) (timestamp : String) :
    OneAtATime jobs
      { w.turn t (.recording request deals requests) with
        db := jobs.save w.db (job.withDeal deal timestamp)
        recorded := w.recorded ++
          [(request, savedKey jobs w.db (job.withDeal deal timestamp))] } := by
  have hrequests : (w.phase t).requests = request :: requests := by rw [hphase, Phase.requests]
  obtain ⟨own, hmade⟩ := hinv.carried t request (hrequests ▸ List.mem_cons_self)
  obtain ⟨hid, hplan⟩ := hinv.read t request job (by rw [hphase, Phase.saving?])
  exact (hinv.save hmade (job.withDeal_id deal timestamp ▸ hid)
    (job.withDeal_volumeBackupPlanID deal timestamp ▸ hplan)).goesOn t rfl rfl
      (hphase ▸ List.Subset.refl _)

/-- The step of a run or call. -/
theorem step (hinv : OneAtATime jobs w) {t : τ} {act : Act} {w' : System τ δ}
    (hstep : Step jobs w t act w') (hguarded : Guarded w t act) : OneAtATime jobs w' := by
  have hnone : ∀ timestamp, act = .inserts timestamp → (w.phase t).querying? = none →
      ∀ u, (w.phase u).querying? = none := by
    intro timestamp hact hself u
    subst hact
    rcases eq_or_ne u t with rfl | hne
    · exact hself
    · exact hguarded u hne
  cases hstep with
  | starts | sendFails | recordFails | calls | callInsertFails | answers =>
    exact hinv.goesOn t rfl rfl (List.nil_subset _)
  | finds _ hphase | findFails hphase | insertFails hphase | queryFails hphase | added hphase
  | sends _ hphase | saveFails hphase =>
    exact hinv.goesOn t rfl rfl (hphase ▸ List.Subset.refl _)
  | inserts timestamp hphase =>
    exact hinv.inserts (hnone timestamp rfl (by rw [hphase]; rfl)) t _ timestamp
      hphase
  | queries hphase hlast => exact hinv.queries t hphase hlast
  | reads hphase hrow => exact hinv.reads t hphase hrow
  | readFails hphase => exact hguarded.elim
  | saves timestamp hphase => exact hinv.saves t hphase timestamp
  | recorded hphase => exact hinv.goesOn t rfl rfl (hphase ▸ List.subset_cons_self _ _)
  | callInserts timestamp hphase =>
    exact (hinv.create (hnone timestamp rfl (by rw [hphase]; rfl)) _).goesOn t rfl
      rfl (List.nil_subset _)

end OneAtATime

/-- In every run of the system whose steps are guarded, requests drive their own jobs. -/
theorem drivesOwnJobs [DecidableEq τ] {db : δ} {w : System τ δ}
    (hruns : Runs (MovesGuarded jobs) (System.start db) w) : DrivesOwnJobs jobs w := by
  have hstep : ∀ w w' : System τ δ, OneAtATime jobs w → MovesGuarded jobs w w' →
      OneAtATime jobs w' := by
    rintro w w' hinv ⟨t, act, hstep, hguarded⟩
    exact hinv.step hstep hguarded
  exact (hruns.invariant hstep (.start db)).toDrivesOwnJobs

theorem not_drivesOwnJobs_of_later [DecidableEq τ] {w w' : System τ δ} {t : τ} {plan : Plan}
    {own later : Nat} (hquerying : (w.phase t).querying? = some (plan, own))
    (hlater : jobs.row w.db later ≠ none) (hlt : own < later)
    (hstep : Step jobs w t .queries w') : ¬ DrivesOwnJobs jobs w' := by
  intro hown
  cases hstep with
  | queries hphase hlast =>
    rw [hphase] at hquerying
    cases hquerying
    have hle := (jobs.last_eq_some.mp hlast).2 later hlater
    have hid := (hown.own _ _ (List.mem_append_right _ (List.mem_singleton_self _))).1
    rw [Job.key_eq] at hle
    dsimp only at hid
    omega
  | answers hphase =>
    rw [hphase] at hquerying
    cases hquerying

def weekly : Plan := ⟨7, "weekly", "7", "518400", "", "0"⟩

def daily : Plan := ⟨1, "daily", "1", "518400", "", "0"⟩

theorem drivesOwnJobs_alone : ∃ w : System Unit (Kept Job),
    w.made.map Prod.fst = [⟨1, 7, "weekly"⟩] ∧ DrivesOwnJobs Kept.table w := by
  have hruns : Runs (MovesGuarded Kept.table)
      (System.start Kept.empty : System Unit (Kept Job)) _ :=
    (((Relation.ReflTransGen.refl.tail ⟨(), _, .starts [7] rfl, trivial⟩).tail
      ⟨(), _, .finds weekly rfl, trivial⟩).tail
      ⟨(), _, .inserts "1" rfl, fun _ hne => absurd rfl hne⟩).tail
      ⟨(), _, .queries rfl rfl, trivial⟩
  exact ⟨_, rfl, drivesOwnJobs hruns⟩

/-- Two runs insert their jobs before either asks: both requests carry the second job. -/
theorem overlapping_share_job : ∃ w : System Bool (Kept Job),
    Runs (Moves Kept.table) (System.start Kept.empty) w ∧
      w.made.map Prod.fst = [⟨2, 7, "weekly"⟩, ⟨2, 1, "daily"⟩] ∧
        ¬ DrivesOwnJobs Kept.table w := by
  have hinserted : Runs (Moves Kept.table) (System.start Kept.empty : System Bool (Kept Job)) _ :=
    (((((Relation.ReflTransGen.refl.tail ⟨false, _, .starts [7] rfl⟩).tail
      ⟨true, _, .starts [1] rfl⟩).tail ⟨false, _, .finds weekly rfl⟩).tail
      ⟨true, _, .finds daily rfl⟩).tail ⟨false, _, .inserts "1" rfl⟩).tail
      ⟨true, _, .inserts "1" rfl⟩
  have hqueried := (hinserted.tail ⟨false, _, .queries rfl rfl⟩).tail ⟨true, _, .queries rfl rfl⟩
  refine ⟨_, hqueried, rfl, fun hown => ?_⟩
  exact absurd hown.once (by decide)

end Fs3.Scheduler
