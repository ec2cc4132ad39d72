import Fs3.Foundation.Histories
import Fs3.Scheduler.Job

/-! # Rebuilding a volume

A run of the rebuild scheduler picks the first job that is not done yet, moves the volume out of
the way, has a backup retrieved to its place and notes that the job is completed. -/

namespace Fs3.Scheduler

open Foundation

/-- `PsqlVolumeRebuildJob`. -/
structure RebuildJob where
  id : Nat
  minerId : String
  dealCid : String
  payloadCid : String
  status : JobStatus
  createdOn : String
  updatedOn : String
  backupJobId : Nat
  deriving DecidableEq

instance : Keyed RebuildJob where
  key := RebuildJob.id
  withKey id job := { job with id := id }
  key_withKey _ _ := rfl

namespace RebuildJob

@[simp]
theorem key_eq (job : RebuildJob) : Keyed.key job = job.id := rfl

/-- The job that `PsqlRebuildAddJob` inserts for a backup. -/
def ofBackup (backup : Job) (timestamp : String) : RebuildJob where
  id := 0
  minerId := backup.minerId
  dealCid := backup.dealCid
  payloadCid := backup.payloadCid
  status := .created
  createdOn := timestamp
  updatedOn := timestamp
  backupJobId := backup.id

/-- The condition of `GetOneRunningRebuildJob`. -/
def isPending (job : RebuildJob) : Bool := job.status == .created || job.status == .running

def complete (job : RebuildJob) (timestamp : String) : RebuildJob :=
  { job with updatedOn := timestamp, status := .completed }

@[simp]
theorem complete_id (job : RebuildJob) (timestamp : String) :
    (job.complete timestamp).id = job.id := rfl

end RebuildJob

/-- What comes of `LotusRpcClientRetrieve`: the data is at the path, or it is
not, for one of the three reasons that end the call, and something else is. -/
inductive Retrieval (ν : Type*) where
  | done
  | noResponse (left : Option ν)
  | malformed (left : Option ν)
  | refused (message : String) (left : Option ν)

/-- Where a run is, with its job and what the volume held before. -/
inductive RebuildPhase (ν : Type*) where
  | idle
  | selected (job : RebuildJob) (before : Option ν)
  | moved (job : RebuildJob) (before : Option ν)
  | retrieved (job : RebuildJob) (before : Option ν)

namespace RebuildPhase

variable {ν : Type*}

def task? : RebuildPhase ν → Option (RebuildJob × Option ν)
  | idle => none
  | selected job before => some (job, before)
  | moved job before => some (job, before)
  | retrieved job before => some (job, before)

end RebuildPhase

/-- How a run has ended: its job, what the volume held before and holds now, and
the status that the job is recorded with. -/
structure Ending (ν : Type*) where
  job : RebuildJob
  before : Option ν
  after : Option ν
  status : Option JobStatus

/-- The scheduler's runs, the database and the volume, with the volumes that
have been moved out of the way. -/
structure Rebuilds (τ δ ν : Type*) where
  db : δ
  volume : Option ν
  moved : List ν
  phase : τ → RebuildPhase ν
  ended : List (Ending ν)

/-- What can happen: a job is added; a run starts, with or without an answer
from the database; a run moves the volume, if the path is known and the move
works; it retrieves the backup; it saves the job, which is tried twice. -/
inductive RebuildEvent (τ ν : Type*) where
  | addJob (backup : Job) (timestamp : String)
  | start (t : τ) (answered : Bool)
  | move (t : τ) (pathKnown moves : Bool)
  | retrieve (t : τ) (retrieval : Retrieval ν)
  | save (t : τ) (timestamp : String) (first second : Bool)

namespace Rebuilds

variable {τ δ ν : Type*}

def start (db : δ) (volume : Option ν) : Rebuilds τ δ ν :=
  { db, volume, moved := [], phase := fun _ => .idle, ended := [] }

variable (jobs : Table δ RebuildJob) (backup : String → String → ν) [DecidableEq τ]

def turn (w : Rebuilds τ δ ν) (t : τ) (next : RebuildPhase ν) : Rebuilds τ δ ν :=
  { w with phase := Function.update w.phase t next }

def finish (w : Rebuilds τ δ ν) (t : τ) (job : RebuildJob) (before : Option ν) :
    Rebuilds τ δ ν :=
  { w.turn t .idle with
    ended := ⟨job, before, w.volume, (jobs.row w.db job.id).map RebuildJob.status⟩ :: w.ended }

/-- What an event makes of the system; an event that its run is not ready for
changes nothing. -/
def step (w : Rebuilds τ δ ν) : RebuildEvent τ ν → Rebuilds τ δ ν
  | .addJob backup timestamp =>
    { w with db := (jobs.create w.db (.ofBackup backup timestamp)).1 }
  | .start t answered =>
    match w.phase t with
    | .idle =>
      if answered then
        match jobs.first w.db RebuildJob.isPending with
        | none => w
        | some job => w.turn t (.selected job w.volume)
      else w
    | _ => w
  | .move t pathKnown moves =>
    match w.phase t with
    | .selected job before =>
      if pathKnown then
        match w.volume with
        | none => w.turn t (.moved job before)
        | some volume =>
          if moves then
            { w.turn t (.moved job before) with volume := none, moved := volume :: w.moved }
          else w.finish jobs t job before
      else w.finish jobs t job before
    | _ => w
  | .retrieve t retrieval =>
    match w.phase t with
    | .moved job before =>
      match retrieval with
      | .done =>
        { w.turn t (.retrieved job before) with
          volume := some (backup job.minerId job.payloadCid) }
      | .noResponse left | .malformed left | .refused _ left =>
        { w with volume := left }.finish jobs t job before
    | _ => w
  | .save t timestamp first second =>
    match w.phase t with
    | .retrieved job before =>
      if first || second then
        { w with db := jobs.save w.db (job.complete timestamp) }.finish jobs t job before
      else w.finish jobs t job before
    | _ => w

end Rebuilds

end Fs3.Scheduler

/-! ## When a rebuild is all or nothing

A run that fails leaves the volume where it has moved it and the job as it was,
so no failure is put right or noted. And as a job stays first in line until it is
saved, any run that is started while another is under way picks the same job.
The promise is kept by the runs that succeed one after the other, and by no
others.
-/

namespace Fs3.Scheduler

open Foundation

variable {τ δ ν : Type*} {jobs : Table δ RebuildJob} {backup : String → String → ν}

/-- How a run should end: with the backup in place and the job completed, or
with nothing changed and the job failed. -/
def Ending.Kept (backup : String → String → ν) (ending : Ending ν) : Prop :=
  (ending.after = some (backup ending.job.minerId ending.job.payloadCid) ∧
    ending.status = some .completed) ∨
  (ending.after = ending.before ∧ ending.status = some .failed)

namespace Rebuilds

/-- Every run so far has ended as it should, and no two runs under way have the
same job. -/
structure KeepsPromise (backup : String → String → ν) (w : Rebuilds τ δ ν) : Prop where
  kept : ∀ ending ∈ w.ended, ending.Kept backup
  apart : ∀ t u job job' before before', t ≠ u → (w.phase t).task? = some (job, before) →
    (w.phase u).task? = some (job', before') → job.id ≠ job'.id

def Safe (w : Rebuilds τ δ ν) : RebuildEvent τ ν → Prop
  | .addJob _ _ => True
  | .start t answered => answered = true → w.phase t = .idle → ∀ u, w.phase u = .idle
  | .move t pathKnown moves => ∀ job before, w.phase t = .selected job before →
      pathKnown = true ∧ (w.volume ≠ none → moves = true)
  | .retrieve t retrieval => ∀ job before, w.phase t = .moved job before → retrieval = .done
  | .save t _ first second => ∀ job before, w.phase t = .retrieved job before →
      first = true ∨ second = true

/-- What safe events keep: at most one run is under way, and its job is the first
in line. -/
structure Serial (jobs : Table δ RebuildJob) (backup : String → String → ν)
    (w : Rebuilds τ δ ν) : Prop where
  kept : ∀ ending ∈ w.ended, ending.Kept backup
  alone : ∀ t u, w.phase t ≠ .idle → w.phase u ≠ .idle → t = u
  pending : ∀ t job before, (w.phase t).task? = some (job, before) →
    ∃ row, jobs.row w.db job.id = some row ∧ row.isPending = true
  least : ∀ t job before, (w.phase t).task? = some (job, before) →
    ∀ k row, jobs.row w.db k = some row → row.isPending = true → job.id ≤ k
  inPlace : ∀ t job before, w.phase t = .retrieved job before →
    w.volume = some (backup job.minerId job.payloadCid)

end Rebuilds

namespace RebuildPhase

theorem ne_idle_of_task {phase : RebuildPhase ν} {task : RebuildJob × Option ν}
    (htask : phase.task? = some task) : phase ≠ .idle := by
  rintro rfl
  cases htask

theorem exists_task {phase : RebuildPhase ν} (hphase : phase ≠ .idle) :
    ∃ job before, phase.task? = some (job, before) := by
  cases phase with
  | idle => exact absurd rfl hphase
  | selected job before | moved job before | retrieved job before => exact ⟨job, before, rfl⟩

end RebuildPhase

namespace Rebuilds

variable {w : Rebuilds τ δ ν}

namespace Serial

theorem start (db : δ) (volume : Option ν) :
    Serial jobs backup (Rebuilds.start db volume : Rebuilds τ δ ν) where
  kept := by
    intro ending hending
    cases hending
  alone := by
    intro t u ht
    exact absurd rfl ht
  pending := by
    intro t job before htask
    cases htask
  least := by
    intro t job before htask
    cases htask
  inPlace := by
    intro t job before hphase
    cases hphase

theorem keepsPromise (hserial : Serial jobs backup w) : KeepsPromise backup w where
  kept := hserial.kept
  apart := by
    intro t u job job' before before' hne ht hu
    exact absurd (hserial.alone t u (RebuildPhase.ne_idle_of_task ht)
      (RebuildPhase.ne_idle_of_task hu)) hne

theorem addJob (hserial : Serial jobs backup w) (new : RebuildJob) :
    Serial jobs backup { w with db := (jobs.create w.db new).1 } where
  kept := hserial.kept
  alone := hserial.alone
  pending := by
    intro t job before htask
    obtain ⟨row, hrow, hpending⟩ := hserial.pending t job before htask
    exact ⟨row, jobs.row_create_of_row hrow new, hpending⟩
  least := by
    intro t job before htask k row hrow hpending
    obtain ⟨old, hold, -⟩ := hserial.pending t job before htask
    simp only [jobs.row_create] at hrow
    split at hrow
    next heq =>
      rw [heq]
      exact Nat.le_of_lt (jobs.key_lt_create new (by simp [hold]))
    next => exact hserial.least t job before htask k row hrow hpending
  inPlace := hserial.inPlace

variable [DecidableEq τ]

/-- The only run under way goes on with its job. -/
theorem turn (hserial : Serial jobs backup w) {t : τ} {next : RebuildPhase ν}
    {job : RebuildJob} {before : Option ν} (htask : (w.phase t).task? = some (job, before))
    (hnext : next.task? = some (job, before)) (volume : Option ν) (moved : List ν)
    (hvolume : ∀ job before, next = .retrieved job before →
      volume = some (backup job.minerId job.payloadCid)) :
    Serial jobs backup { w.turn t next with volume, moved } := by
  have hphase := RebuildPhase.ne_idle_of_task htask
  have honly : ∀ u, Function.update w.phase t next u ≠ .idle → u = t := by
    intro u hu
    by_contra hne
    rw [Function.update_of_ne hne] at hu
    exact hne (hserial.alone u t hu hphase)
  have hsame : ∀ u job' before', (Function.update w.phase t next u).task? = some (job', before') →
      (job', before') = (job, before) := by
    intro u job' before' hu
    obtain rfl := honly u (RebuildPhase.ne_idle_of_task hu)
    rw [Function.update_self, hnext] at hu
    exact (Option.some.inj hu).symm
  constructor
  case kept => exact hserial.kept
  case alone =>
    intro u u' hu hu'
    rw [honly u hu, honly u' hu']
  case pending =>
    intro u job' before' hu
    cases hsame u job' before' hu
    exact hserial.pending t job before htask
  case least =>
    intro u job' before' hu
    cases hsame u job' before' hu
    exact hserial.least t job before htask
  case inPlace =>
    intro u job' before' hu
    change Function.update w.phase t next u = _ at hu
    have hidle : Function.update w.phase t next u ≠ .idle := by
      rw [hu]
      exact fun h => by cases h
    obtain rfl := honly u hidle
    rw [Function.update_self] at hu
    exact hvolume job' before' hu

/-- The only run under way ends as it should. -/
theorem finish (hserial : Serial jobs backup w) {t : τ} {job : RebuildJob} {before : Option ν}
    (htask : (w.phase t).task? = some (job, before)) {db : δ}
    (hkept : (⟨job, before, w.volume, (jobs.row db job.id).map RebuildJob.status⟩ :
      Ending ν).Kept backup) :
    Serial jobs backup ({ w with db := db }.finish jobs t job before) := by
  have hphase := RebuildPhase.ne_idle_of_task htask
  have hidle : ∀ u, Function.update w.phase t .idle u = .idle := by
    intro u
    by_cases hut : u = t
    · rw [hut, Function.update_self]
    · rw [Function.update_of_ne hut]
      by_contra hu
      exact hut (hserial.alone u t hu hphase)
  constructor
  case kept =>
    intro ending hending
    rcases List.mem_cons.mp hending with rfl | hending
    · exact hkept
    · exact hserial.kept ending hending
  case alone =>
    intro u u' hu
    exact absurd (hidle u) hu
  case pending =>
    intro u job' before' hu
    exact absurd (hidle u) (RebuildPhase.ne_idle_of_task hu)
  case least =>
    intro u job' before' hu
    exact absurd (hidle u) (RebuildPhase.ne_idle_of_task hu)
  case inPlace =>
    intro u job' before' hu
    have hu' := hidle u
    rw [show Function.update w.phase t .idle u = _ from hu] at hu'
    cases hu'

/-- A run that picks its job when no other is under way. -/
theorem select (hserial : Serial jobs backup w) (hfirst : jobs.FirstByKey)
    (hidle : ∀ u, w.phase u = .idle) {t : τ} {job : RebuildJob}
    (hjob : jobs.first w.db RebuildJob.isPending = some job) :
    Serial jobs backup (w.turn t (.selected job w.volume)) := by
  have honly : ∀ u, Function.update w.phase t (.selected job w.volume) u ≠ .idle → u = t := by
    intro u hu
    by_contra hne
    rw [Function.update_of_ne hne] at hu
    exact hu (hidle u)
  have hsame : ∀ u job' before',
      (Function.update w.phase t (.selected job w.volume) u).task? = some (job', before') →
        job' = job := by
    intro u job' before' hu
    obtain rfl := honly u (RebuildPhase.ne_idle_of_task hu)
    rw [Function.update_self] at hu
    cases hu
    rfl
  obtain ⟨hrow, hpending⟩ := jobs.row_of_first hjob
  constructor
  case kept => exact hserial.kept
  case alone =>
    intro u u' hu hu'
    rw [honly u hu, honly u' hu']
  case pending =>
    intro u job' before' hu
    rw [hsame u job' before' hu]
    exact ⟨job, hrow, hpending⟩
  case least =>
    intro u job' before' hu k row hk hrowPending
    rw [hsame u job' before' hu]
    exact hfirst hjob hk hrowPending
  case inPlace =>
    intro u job' before' hu
    change Function.update w.phase t _ u = _ at hu
    have hidle' : Function.update w.phase t (.selected job w.volume) u ≠ .idle := by
      rw [hu]
      exact fun h => by cases h
    obtain rfl := honly u hidle'
    rw [Function.update_self] at hu
    cases hu

/-- A safe event leaves the runs one after the other. -/
theorem step (hserial : Serial jobs backup w) (hfirst : jobs.FirstByKey)
    (event : RebuildEvent τ ν) (hsafe : w.Safe event) :
    Serial jobs backup (w.step jobs backup event) := by
  cases event with
  | addJob new timestamp => exact hserial.addJob _
  | start t answered =>
    rw [Rebuilds.step]
    split
    next hphase =>
      split
      next hanswered =>
        split
        · exact hserial
        next job hjob =>
          exact hserial.select hfirst (hsafe hanswered hphase) hjob
      · exact hserial
    · exact hserial
  | move t pathKnown moves =>
    rw [Rebuilds.step]
    split
    next job before hphase =>
      obtain ⟨hpath, hmoves⟩ := hsafe job before hphase
      have htask : (w.phase t).task? = some (job, before) := by rw [hphase]; rfl
      rw [if_pos hpath]
      split
      next hvolume =>
        exact hserial.turn htask rfl w.volume w.moved fun _ _ h => by cases h
      next volume hvolume =>
        rw [if_pos (hmoves (by simp [hvolume]))]
        exact hserial.turn htask rfl _ _ fun _ _ h => by cases h
    · exact hserial
  | retrieve t retrieval =>
    rw [Rebuilds.step]
    split
    next job before hphase =>
      obtain rfl := hsafe job before hphase
      have htask : (w.phase t).task? = some (job, before) := by rw [hphase]; rfl
      refine hserial.turn htask rfl _ w.moved fun job' before' h => ?_
      cases h
      rfl
    · exact hserial
  | save t timestamp first second =>
    rw [Rebuilds.step]
    split
    next job before hphase =>
      have hsaved := hsafe job before hphase
      have htask : (w.phase t).task? = some (job, before) := by rw [hphase]; rfl
      rw [if_pos (by simpa using hsaved)]
      refine hserial.finish htask (Or.inl ⟨hserial.inPlace t job before hphase, ?_⟩)
      obtain ⟨row, hrow, -⟩ := hserial.pending t job before htask
      have hkey : jobs.row w.db (Keyed.key (job.complete timestamp)) ≠ none := by
        rw [RebuildJob.key_eq, RebuildJob.complete_id, hrow]
        exact Option.some_ne_none row
      simp only [jobs.row_save hkey, RebuildJob.key_eq, RebuildJob.complete_id, if_true]
      rfl
    · exact hserial

/-! ## Events that break the promise -/

theorem not_kept_of_pending {ending : Ending ν} {row : RebuildJob}
    (hstatus : ending.status = some row.status) (hpending : row.isPending = true) :
    ¬ ending.Kept backup := by
  unfold RebuildJob.isPending at hpending
  unfold Ending.Kept
  rw [hstatus]
  rintro (⟨-, h⟩ | ⟨-, h⟩) <;> rw [Option.some.inj h] at hpending <;> cases hpending

theorem not_keepsPromise_finish {w' : Rebuilds τ δ ν} (hserial : Serial jobs backup w) {t : τ}
    {job : RebuildJob} {before : Option ν} (htask : (w.phase t).task? = some (job, before))
    (hdb : w'.db = w.db) : ¬ KeepsPromise backup (w'.finish jobs t job before) := by
  intro hpromise
  obtain ⟨row, hrow, hpending⟩ := hserial.pending t job before htask
  refine not_kept_of_pending ?_ hpending (hpromise.kept _ List.mem_cons_self)
  rw [hdb, hrow]
  rfl

/-- An event that is not safe breaks the promise on the spot. -/
theorem not_keepsPromise_step (hserial : Serial jobs backup w) (hfirst : jobs.FirstByKey)
    (event : RebuildEvent τ ν) (hrisky : ¬ w.Safe event) :
    ¬ KeepsPromise backup (w.step jobs backup event) := by
  cases event with
  | addJob new timestamp => exact absurd trivial hrisky
  | start t answered =>
    simp only [Safe, not_forall] at hrisky
    obtain ⟨hanswered, hphase, u, hu⟩ := hrisky
    obtain ⟨job, before, htask⟩ := RebuildPhase.exists_task hu
    obtain ⟨row, hrow, hpending⟩ := hserial.pending u job before htask
    have hne : t ≠ u := by
      rintro rfl
      exact hu hphase
    rw [Rebuilds.step, hphase]
    simp only [if_pos hanswered]
    split
    next hnone =>
      have hsome := jobs.first_isSome hrow hpending
      rw [hnone] at hsome
      cases hsome
    next first hjob =>
      intro hpromise
      obtain ⟨hfirstRow, hfirstPending⟩ := jobs.row_of_first hjob
      -- The job of the run under way is still the first in line.
      have hsame : first.id = job.id := Nat.le_antisymm (hfirst hjob hrow hpending)
        (hserial.least u job before htask _ first hfirstRow hfirstPending)
      refine hpromise.apart t u first job w.volume before hne ?_ ?_ hsame
      · change (Function.update w.phase t _ t).task? = _
        rw [Function.update_self]
        rfl
      · change (Function.update w.phase t _ u).task? = _
        rw [Function.update_of_ne hne.symm, htask]
  | move t pathKnown moves =>
    simp only [Safe, not_forall] at hrisky
    obtain ⟨job, before, hphase, hfails⟩ := hrisky
    have htask : (w.phase t).task? = some (job, before) := by rw [hphase]; rfl
    rw [Rebuilds.step, hphase]
    simp only
    split
    next hpath =>
      split
      next hvolume => exact absurd ⟨hpath, fun h => absurd hvolume h⟩ hfails
      next volume hvolume =>
        split
        next hmoves => exact absurd ⟨hpath, fun _ => hmoves⟩ hfails
        · exact hserial.not_keepsPromise_finish htask rfl
    · exact hserial.not_keepsPromise_finish htask rfl
  | retrieve t retrieval =>
    simp only [Safe, not_forall] at hrisky
    obtain ⟨job, before, hphase, hfails⟩ := hrisky
    have htask : (w.phase t).task? = some (job, before) := by rw [hphase]; rfl
    rw [Rebuilds.step, hphase]
    cases retrieval with
    | done => exact absurd rfl hfails
    | noResponse | malformed | refused => exact hserial.not_keepsPromise_finish htask rfl
  | save t timestamp first second =>
    simp only [Safe, not_forall] at hrisky
    obtain ⟨job, before, hphase, hfails⟩ := hrisky
    have htask : (w.phase t).task? = some (job, before) := by rw [hphase]; rfl
    rw [Rebuilds.step, hphase]
    simp only
    rw [if_neg (by simpa using hfails)]
    exact hserial.not_keepsPromise_finish htask rfl

end Serial

variable [DecidableEq τ]

/-- Rebuilds keep the promise, in every state that they go through, exactly when
no run is started beside another and no step of a run fails. -/
theorem keepsPromise_iff_safe (hfirst : jobs.FirstByKey) (db : δ) (volume : Option ν)
    (events : List (RebuildEvent τ ν)) :
    Always (step jobs backup) (KeepsPromise backup) (.start db volume) events ↔
      Foundation.Guarded (step jobs backup) Safe (.start db volume) events :=
  always_iff_guarded (fun _ event hserial => hserial.step hfirst event)
    (fun _ hserial => hserial.keepsPromise)
    (fun _ event hserial => hserial.not_keepsPromise_step hfirst event) (Serial.start db volume)

section Examples

def retrieved (_ payloadCid : String) : String := payloadCid

/-- A backup under the cid `new`. -/
def newBackup : Job := { Job.zero with id := 1, minerId := "miner", payloadCid := "new" }

/-- The state a database without jobs and a volume with `old` data start in. -/
def oldVolume : Rebuilds Bool (Kept RebuildJob) String := .start Kept.empty (some "old")

/-- A rebuild that goes well. -/
theorem oldVolume_rebuilt :
    Always (step Kept.table retrieved) (KeepsPromise retrieved) oldVolume
      [.addJob newBackup "1", .start false true, .move false true true, .retrieve false .done,
        .save false "2" true true] := by
  refine (keepsPromise_iff_safe Kept.table_firstByKey _ _ _).mpr ?_
  refine guarded_cons.mpr ⟨trivial, guarded_cons.mpr ⟨fun _ _ _ => rfl, guarded_cons.mpr
    ⟨fun _ _ _ => ⟨rfl, fun _ => rfl⟩, guarded_cons.mpr ⟨fun _ _ _ => rfl, guarded_cons.mpr
      ⟨fun _ _ _ => Or.inl rfl, guarded_nil⟩⟩⟩⟩⟩

/-- When the retrieval gets no answer the old volume is gone and the job is not
recorded as failed; and two runs that overlap rebuild the same job. -/
theorem oldVolume_lost :
    ¬ Always (step Kept.table retrieved) (KeepsPromise retrieved) oldVolume
        [.addJob newBackup "1", .start false true, .move false true true,
          .retrieve false (.noResponse none)] ∧
      ¬ Always (step Kept.table retrieved) (KeepsPromise retrieved) oldVolume
        [.addJob newBackup "1", .start false true, .start true true] := by
  constructor
  · intro halways
    rcases (halways _ List.prefix_rfl).kept _ List.mem_cons_self with ⟨hafter, -⟩ | ⟨hafter, -⟩
    · cases hafter
    · cases hafter
  · intro halways
    exact (halways _ List.prefix_rfl).apart false true _ _ _ _ (by decide) rfl rfl rfl

end Examples

end Rebuilds

end Fs3.Scheduler
