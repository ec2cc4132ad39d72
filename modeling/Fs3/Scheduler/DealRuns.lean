import Fs3.Foundation.Histories
import Fs3.Scheduler.Job

/-! # Runs of the deal scheduler

A run first notes the deals that `SendAutoBidDeals` has sent, in the jobs with the uuids that it
names, and then asks for the deal of every job that was running when the jobs were read. Runs can
overlap; every call to the database or to a service is one step. -/

namespace Fs3.Scheduler

open Foundation

variable {τ δ : Type*}

/-- The columns of `libmodel.FileDesc` that are noted in a job. -/
structure FileDesc where
  uuid : String
  minerFid : String
  dealCid : String
  cost : String
  deriving DecidableEq

/-- What `CheckDealStatus` looks for. -/
def statusStorageDealActive : String := "StorageDealActive"

/-- The job as `UpdateSentBackupTasksInDb` saves it. -/
def Job.sent (job : Job) (file : FileDesc) (timestamp : String) : Job :=
  { job with
    status := .running
    updatedOn := timestamp
    minerId := file.minerFid
    dealCid := file.dealCid
    cost := file.cost }

/-- The job as `UpdateActiveBackupTasksInDb` saves it. -/
def Job.active (job : Job) (timestamp : String) : Job :=
  { job with status := .completed, updatedOn := timestamp }

/-- Where a run of `SendAutobidDealScheduler` is. -/
inductive DealPhase where
  | idle
  /-- In `UpdateSentBackupTasksInDb`, before the next task. -/
  | sending (tasks : List (List FileDesc))
  /-- The job of a task has been looked up. -/
  | noting (job : Job) (tasks : List (List FileDesc))
  /-- In `UpdateActiveBackupTasksInDb`, before the jobs are read. -/
  | finding
  | checking (batch : List Job)
  /-- The deal of a job is active. -/
  | completing (job : Job) (batch : List Job)
  | done

namespace DealPhase

def job? : DealPhase → Option Job
  | .noting job _ => some job
  | .completing job _ => some job
  | _ => none

def batch : DealPhase → List Job
  | .checking batch => batch
  | .completing job batch => job :: batch
  | _ => []

end DealPhase

/-- The jobs, and what every run is doing. -/
structure Deals (τ δ : Type*) where
  db : δ
  phase : τ → DealPhase

/-- What one step can be. -/
inductive DealAct where
  | starts (tasks : List (List FileDesc))
  | looksUp (timestamp : String)
  | lookupFails
  | panics
  | notes
  | noteFails
  | goesOn
  | stops
  | finds
  | passes
  | checks (status : String)
  | completes (timestamp : String)
  | completeFails

namespace Deals

def start (db : δ) : Deals τ δ := ⟨db, fun _ => .idle⟩

variable [DecidableEq τ]

def turn (w : Deals τ δ) (t : τ) (phase : DealPhase) : Deals τ δ :=
  { w with phase := Function.update w.phase t phase }

@[simp]
theorem turn_self (w : Deals τ δ) (t : τ) (phase : DealPhase) :
    (w.turn t phase).phase t = phase := by
  simp only [turn, Function.update_self]

theorem turn_of_ne (w : Deals τ δ) {t u : τ} (hne : u ≠ t) (phase : DealPhase) :
    (w.turn t phase).phase u = w.phase u := by
  simp only [turn, Function.update_of_ne hne]

end Deals

variable [DecidableEq τ] (jobs : Table δ Job)

/-- The row that `UpdateSentBackupTasksInDb` goes on with: where none is found it
logs that, and goes on with the zero value. -/
def lookUp (db : δ) (file : FileDesc) : Job :=
  (jobs.first db fun job => job.uuid == file.uuid).getD .zero

def Job.checked (job : Job) : Bool := job.status = .running && job.dealCid ≠ ""

/-- The step of one run. -/
inductive DealStep (w : Deals τ δ) (t : τ) : DealAct → Deals τ δ → Prop where
  | starts (tasks : List (List FileDesc)) (hphase : w.phase t = .idle) :
      DealStep w t (.starts tasks) (w.turn t (.sending tasks))
  | looksUp (timestamp : String) {file : FileDesc} {files : List FileDesc}
      {tasks : List (List FileDesc)} (hphase : w.phase t = .sending ((file :: files) :: tasks)) :
      DealStep w t (.looksUp timestamp)
        (w.turn t (.noting ((lookUp jobs w.db file).sent file timestamp) tasks))
  | lookupFails {task : List FileDesc} {tasks : List (List FileDesc)}
      (hphase : w.phase t = .sending (task :: tasks)) :
      DealStep w t .lookupFails (w.turn t (.sending tasks))
  /-- A task without a file cannot be indexed. -/
  | panics {tasks : List (List FileDesc)} (hphase : w.phase t = .sending ([] :: tasks)) :
      DealStep w t .panics (w.turn t .done)
  | notes {job : Job} {tasks : List (List FileDesc)} (hphase : w.phase t = .noting job tasks) :
      DealStep w t .notes { w.turn t (.sending tasks) with db := jobs.save w.db job }
  | noteFails {job : Job} {tasks : List (List FileDesc)}
      (hphase : w.phase t = .noting job tasks) :
      DealStep w t .noteFails (w.turn t (.sending tasks))
  | noted (hphase : w.phase t = .sending []) : DealStep w t .goesOn (w.turn t .finding)
  | sendFails {tasks : List (List FileDesc)} (hphase : w.phase t = .sending tasks) :
      DealStep w t .stops (w.turn t .done)
  | finds (hphase : w.phase t = .finding) :
      DealStep w t .finds (w.turn t (.checking (jobs.rows w.db)))
  | findFails (hphase : w.phase t = .finding) : DealStep w t .stops (w.turn t .done)
  | passes {job : Job} {batch : List Job} (hphase : w.phase t = .checking (job :: batch))
      (hchecked : job.checked = false) : DealStep w t .passes (w.turn t (.checking batch))
  | checks (status : String) {job : Job} {batch : List Job}
      (hphase : w.phase t = .checking (job :: batch)) (hchecked : job.checked = true) :
      DealStep w t (.checks status)
        (w.turn t (if status = statusStorageDealActive then .completing job batch
          else .checking batch))
  | checkFails {job : Job} {batch : List Job} (hphase : w.phase t = .checking (job :: batch))
      (hchecked : job.checked = true) : DealStep w t .stops (w.turn t .done)
  | completes (timestamp : String) {job : Job} {batch : List Job}
      (hphase : w.phase t = .completing job batch) :
      DealStep w t (.completes timestamp)
        { w.turn t (.checking batch) with db := jobs.save w.db (job.active timestamp) }
  | completeFails {job : Job} {batch : List Job} (hphase : w.phase t = .completing job batch) :
      DealStep w t .completeFails (w.turn t (.checking batch))
  | checked (hphase : w.phase t = .checking []) : DealStep w t .goesOn (w.turn t .done)

def Takes (t : τ) (w w' : Deals τ δ) : Prop := ∃ act, DealStep jobs w t act w'

/-- What is noted in a job is noted in one that exists, and is not finished. -/
def DealGuarded (w : Deals τ δ) (t : τ) : DealAct → Prop
  | .notes => ∀ job ∈ (w.phase t).job?, ∃ row, jobs.row w.db job.id = some row ∧
      (row.status = .created ∨ row.status = .running)
  | _ => True

def TakesGuarded (t : τ) (w w' : Deals τ δ) : Prop :=
  ∃ act, DealStep jobs w t act w' ∧ DealGuarded jobs w t act

/-- The steps of a status. -/
inductive JobStatus.Step : JobStatus → JobStatus → Prop where
  | sent : Step .created .running
  | completed : Step .running .completed
  | failed : Step .running .failed

/-- A status that can follow another. -/
abbrev JobStatus.Forward : JobStatus → JobStatus → Prop := Relation.ReflTransGen JobStatus.Step

/-- From a state on, no job comes or goes and every status moves forward; and a step
of a run changes no job but the one that the run has looked up or asked for. -/
structure Progresses (takes : τ → Deals τ δ → Deals τ δ → Prop) (w : Deals τ δ) : Prop where
  same : ∀ w', Runs (fun w w' => ∃ t, takes t w w') w w' → ∀ k,
    jobs.row w'.db k ≠ none ↔ jobs.row w.db k ≠ none
  forward : ∀ w', Runs (fun w w' => ∃ t, takes t w w') w w' → ∀ k job job',
    jobs.row w.db k = some job → jobs.row w'.db k = some job' →
      job.status.Forward job'.status
  own : ∀ t w', takes t w w' → ∀ k, jobs.row w'.db k ≠ jobs.row w.db k →
    ∃ job ∈ (w.phase t).job?, job.id = k

end Fs3.Scheduler

/-! ## When statuses only move forward

A job that was running when it was read is running or completed when it is saved:
nothing but `UpdateActiveBackupTasksInDb` takes a job out of that status. So the
polls are safe, whatever overlaps. What has to be asked of a run is that the deals
it notes are deals of jobs that are there and not finished.
-/

namespace Fs3.Scheduler

open Foundation

variable {τ δ : Type*} {jobs : Table δ Job}

/-- What a save makes of a status, in a run whose steps are guarded. -/
inductive JobStatus.Saved : JobStatus → JobStatus → Prop where
  | sent : Saved .created .running
  | sentAgain : Saved .running .running
  | completed : Saved .running .completed
  | completedAgain : Saved .completed .completed

namespace JobStatus

/-- A job that has been running is not finished in another way than by a poll. -/
def Polled (status : JobStatus) : Prop := status = .running ∨ status = .completed

theorem Saved.forward {status status' : JobStatus} (hsaved : Saved status status') :
    status.Forward status' := by
  cases hsaved with
  | sent => exact .single .sent
  | sentAgain => exact .refl
  | completed => exact .single .completed
  | completedAgain => exact .refl

theorem Saved.polled {status status' : JobStatus} (hsaved : Saved status status') :
    status'.Polled := by
  cases hsaved with
  | sent => exact .inl rfl
  | sentAgain => exact .inl rfl
  | completed => exact .inr rfl
  | completedAgain => exact .inr rfl

theorem Forward.to_running {status : JobStatus} (hforward : status.Forward .running) :
    status = .created ∨ status = .running := by
  rcases Relation.ReflTransGen.cases_tail hforward with heq | ⟨middle, hmiddle, hstep⟩
  · exact .inr heq.symm
  · cases hstep with
    | sent =>
      rcases Relation.ReflTransGen.cases_tail hmiddle with heq | ⟨_, _, hstep⟩
      · exact .inl heq.symm
      · cases hstep

end JobStatus

def SavedOver (jobs : Table δ Job) (db db' : δ) (job : Job) : Prop :=
  ∃ row, jobs.row db job.id = some row ∧ row.status.Saved job.status ∧ db' = jobs.save db job

theorem SavedOver.row {db db' : δ} {job : Job} (hsaved : SavedOver jobs db db' job) (k : Nat) :
    jobs.row db' k = if k = job.id then some job else jobs.row db k := by
  obtain ⟨row, hrow, -, rfl⟩ := hsaved
  apply jobs.row_save
  rw [Job.key_eq, hrow]
  exact Option.some_ne_none row

/-- The jobs that a run has read as running are still, or have been completed; and
what a run is about to save was read as running, or is from now on. -/
structure Tracks (jobs : Table δ Job) (w : Deals τ δ) : Prop where
  batch : ∀ t, ∀ job ∈ (w.phase t).batch, job.status = .running →
    ∃ row, jobs.row w.db job.id = some row ∧ row.status.Polled
  running : ∀ t, ∀ job ∈ (w.phase t).job?, job.status = .running

namespace Tracks

variable {w w' : Deals τ δ}

theorem start (db : δ) : Tracks jobs (Deals.start db : Deals τ δ) where
  batch := by
    intro t job hjob
    cases hjob
  running := by
    intro t job hjob
    cases hjob

theorem saved (htracks : Tracks jobs w) {db' : δ} {job : Job}
    (hsaved : SavedOver jobs w.db db' job) : Tracks jobs { w with db := db' } where
  batch := by
    intro t other hother hrunning
    dsimp only
    rw [hsaved.row]
    split
    next =>
      obtain ⟨row, -, hstatus, -⟩ := hsaved
      exact ⟨job, rfl, hstatus.polled⟩
    next => exact htracks.batch t other hother hrunning
  running := htracks.running

variable [DecidableEq τ]

theorem turn (htracks : Tracks jobs w) (t : τ) {next : DealPhase}
    (hbatch : ∀ job ∈ next.batch, job.status = .running →
      ∃ row, jobs.row w.db job.id = some row ∧ row.status.Polled)
    (hrunning : ∀ job ∈ next.job?, job.status = .running) :
    Tracks jobs (w.turn t next) where
  batch := by
    intro u job hjob
    rcases eq_or_ne u t with rfl | hne
    · rw [Deals.turn_self] at hjob
      exact hbatch job hjob
    · rw [Deals.turn_of_ne w hne] at hjob
      exact htracks.batch u job hjob
  running := by
    intro u job hjob
    rcases eq_or_ne u t with rfl | hne
    · rw [Deals.turn_self] at hjob
      exact hrunning job hjob
    · rw [Deals.turn_of_ne w hne] at hjob
      exact htracks.running u job hjob

theorem goesOn (htracks : Tracks jobs w) (t : τ) {next : DealPhase}
    (hbatch : next.batch ⊆ (w.phase t).batch) (hjob : next.job? = none) :
    Tracks jobs (w.turn t next) := by
  refine htracks.turn t (fun job hmem => htracks.batch t job (hbatch hmem)) fun job hmem => ?_
  rw [hjob] at hmem
  cases hmem

section

variable (htracks : Tracks jobs w) {t : τ} {act : DealAct} (hstep : DealStep jobs w t act w')
  (hguarded : DealGuarded jobs w t act)
include htracks hstep hguarded

theorem db_step :
    w'.db = w.db ∨ ∃ read ∈ (w.phase t).job?, ∃ saved, saved.id = read.id ∧
      SavedOver jobs w.db w'.db saved := by
  cases hstep with
  | @notes job tasks hphase =>
    have hjob : job ∈ (w.phase t).job? := by rw [hphase]; rfl
    obtain ⟨row, hrow, hstatus⟩ := hguarded job hjob
    refine .inr ⟨job, hjob, job, rfl, row, hrow, ?_, rfl⟩
    rw [htracks.running t job hjob]
    rcases hstatus with hcreated | hrunning
    · exact hcreated ▸ .sent
    · exact hrunning ▸ .sentAgain
  | @completes timestamp job batch hphase =>
    have hjob : job ∈ (w.phase t).job? := by rw [hphase]; rfl
    have hbatch : job ∈ (w.phase t).batch := by rw [hphase]; exact List.mem_cons_self
    obtain ⟨row, hrow, hpolled⟩ := htracks.batch t job hbatch (htracks.running t job hjob)
    refine .inr ⟨job, hjob, job.active timestamp, rfl, row, hrow, ?_, rfl⟩
    rcases hpolled with hrunning | hcompleted
    · exact hrunning ▸ .completed
    · exact hcompleted ▸ .completedAgain
  | _ => exact .inl rfl

theorem with_db : Tracks jobs { w with db := w'.db } := by
  rcases htracks.db_step hstep hguarded with hdb | ⟨_, _, job, _, hsaved⟩
  · rw [hdb]
    exact htracks
  · exact htracks.saved hsaved

theorem step : Tracks jobs w' := by
  have hdb := htracks.with_db hstep hguarded
  cases hstep with
  | starts | lookupFails | panics | noteFails | noted | sendFails | findFails | checkFails | checked =>
    exact htracks.goesOn t (List.nil_subset _) rfl
  | looksUp timestamp hphase =>
    refine htracks.turn t (fun job hjob => by cases hjob) fun job hjob => ?_
    cases hjob
    rfl
  | notes hphase => exact hdb.goesOn t (List.nil_subset _) rfl
  | finds hphase =>
    refine htracks.turn t (fun job hjob hrunning => ?_) fun job hjob => by cases hjob
    exact ⟨job, jobs.mem_rows.mp hjob, .inl hrunning⟩
  | passes hphase hchecked =>
    exact htracks.goesOn t (hphase ▸ List.subset_cons_self _ _) rfl
  | @checks status job batch hphase hchecked =>
    have hbatch : (w.phase t).batch = job :: batch := by rw [hphase]; rfl
    split
    next =>
      refine htracks.turn t (fun other hother => ?_) fun other hother => ?_
      · exact htracks.batch t other (hbatch ▸ hother)
      · cases hother
        exact of_decide_eq_true (Bool.and_eq_true_iff.mp hchecked).1
    next => exact htracks.goesOn t (hbatch ▸ List.subset_cons_self _ _) rfl
  | completes timestamp hphase =>
    exact hdb.goesOn t (hphase ▸ List.subset_cons_self _ _) rfl
  | completeFails hphase => exact htracks.goesOn t (hphase ▸ List.subset_cons_self _ _) rfl

end

end Tracks

section Runs

variable [DecidableEq τ] {w w' : Deals τ δ}

theorem Tracks.runs (htracks : Tracks jobs w)
    (hruns : Runs (fun w w' => ∃ t, TakesGuarded jobs t w w') w w') : Tracks jobs w' := by
  refine hruns.invariant ?_ htracks
  rintro w w' htracks ⟨t, act, hstep, hguarded⟩
  exact htracks.step hstep hguarded

theorem Tracks.row_runs (htracks : Tracks jobs w)
    (hruns : Runs (fun w w' => ∃ t, TakesGuarded jobs t w w') w w') (k : Nat) :
    (jobs.row w'.db k ≠ none ↔ jobs.row w.db k ≠ none) ∧
      ∀ job job', jobs.row w.db k = some job → jobs.row w'.db k = some job' →
        job.status.Forward job'.status := by
  induction hruns with
  | refl =>
    refine ⟨Iff.rfl, fun job job' hjob hjob' => ?_⟩
    rw [hjob] at hjob'
    cases hjob'
    exact .refl
  | @tail middle last hruns hlast ih =>
    obtain ⟨t, act, hstep, hguarded⟩ := hlast
    rcases (htracks.runs hruns).db_step hstep hguarded with hdb | ⟨_, _, saved, _, hsaved⟩
    · rw [hdb]
      exact ih
    · rw [hsaved.row]
      obtain ⟨row, hrow, hstatus, -⟩ := hsaved
      split
      next heq =>
        subst heq
        have hmiddle : jobs.row middle.db saved.id ≠ none := by simp [hrow]
        refine ⟨iff_of_true (Option.some_ne_none saved) (ih.1.mp hmiddle), ?_⟩
        intro job job' hjob hjob'
        cases hjob'
        exact (ih.2 job row hjob hrow).trans hstatus.forward
      next => exact ih

/-- In every state of a run whose steps are guarded, jobs go forward only. -/
theorem progresses {db : δ} (hruns : Runs (fun w w' => ∃ t, TakesGuarded jobs t w w')
    (Deals.start db) w) : Progresses jobs (TakesGuarded jobs) w := by
  have htracks := (Tracks.start db).runs hruns
  constructor
  case same => exact fun w' hlater k => (htracks.row_runs hlater k).1
  case forward => exact fun w' hlater k => (htracks.row_runs hlater k).2
  case own =>
    rintro t w' ⟨act, hstep, hguarded⟩ k hchanged
    rcases htracks.db_step hstep hguarded with hdb | ⟨read, hread, saved, hid, hsaved⟩
    · rw [hdb] at hchanged
      exact absurd rfl hchanged
    · refine ⟨read, hread, ?_⟩
      by_contra hne
      rw [hsaved.row, if_neg fun heq => hne (hid.symm.trans heq.symm)] at hchanged
      exact hchanged rfl

theorem not_progresses_of_unguarded {t : τ} {job : Job} {tasks : List (List FileDesc)}
    (hphase : w.phase t = .noting job tasks) (hrunning : job.status = .running)
    (hrow : job.id = 0 ∨ ∃ row, jobs.row w.db job.id = some row ∧
      row.status ≠ .created ∧ row.status ≠ .running) : ¬ Progresses jobs (Takes jobs) w := by
  intro hprogresses
  have hruns : Runs (fun w w' => ∃ t, Takes jobs t w w') w
      { w.turn t (.sending tasks) with db := jobs.save w.db job } :=
    .single ⟨t, .notes, .notes hphase⟩
  rcases hrow with hzero | ⟨row, hrow, hcreated, hrunning'⟩
  · have hcreate : jobs.save w.db job = (jobs.create w.db job).1 := jobs.save_new hzero
    have hsame := hprogresses.same _ hruns (jobs.create w.db job).2
    dsimp only at hsame
    rw [hcreate, jobs.row_create_self] at hsame
    exact Nat.lt_irrefl _ (jobs.key_lt_create job (hsame.mp (Option.some_ne_none _)))
  · have hsaved : jobs.row (jobs.save w.db job) job.id = some job := by
      rw [jobs.row_save (by simp [hrow]), Job.key_eq, if_pos rfl]
    have hforward := hprogresses.forward _ hruns job.id row job hrow hsaved
    rw [hrunning] at hforward
    rcases hforward.to_running with heq | heq
    · exact hcreated heq
    · exact hrunning' heq

end Runs

def onlyJob (status : JobStatus) : Kept Job where
  rows := [{ Job.zero with id := 1, uuid := "b1", dealCid := "d1", status := status }]
  key_pos := by simp
  sorted := .cons (by simp) .nil

theorem progresses_noted : ∃ w : Deals Unit (Kept Job),
    (Kept.table.row w.db 1).map Job.status = some .running ∧
      Progresses Kept.table (TakesGuarded Kept.table) w := by
  have hruns : Runs (fun w w' => ∃ t, TakesGuarded Kept.table t w w')
      (Deals.start (onlyJob .created) : Deals Unit (Kept Job)) _ :=
    ((Relation.ReflTransGen.refl.tail
      ⟨(), _, .starts [[⟨"b1", "f0", "d1", "0"⟩]] rfl, trivial⟩).tail
      ⟨(), _, .looksUp "2" rfl, trivial⟩).tail
      ⟨(), _, .notes rfl, fun job hjob => by cases hjob; exact ⟨_, rfl, .inl rfl⟩⟩
  exact ⟨_, rfl, progresses hruns⟩

/-- A deal that is sent for a job that is completed makes it run again. -/
theorem completed_runs_again :
    ¬ Progresses Kept.table (Takes Kept.table)
      (Deals.start (onlyJob .completed) : Deals Unit (Kept Job)) := by
  intro hprogresses
  have hruns : Runs (fun w w' => ∃ t, Takes Kept.table t w w')
      (Deals.start (onlyJob .completed) : Deals Unit (Kept Job)) _ :=
    ((Relation.ReflTransGen.refl.tail ⟨(), _, .starts [[⟨"b1", "f0", "d1", "0"⟩]] rfl⟩).tail
      ⟨(), _, .looksUp "2" rfl⟩).tail ⟨(), _, .notes rfl⟩
  have hforward := hprogresses.forward _ hruns 1 _ _ rfl rfl
  rcases hforward.to_running with heq | heq <;> cases heq

end Fs3.Scheduler
