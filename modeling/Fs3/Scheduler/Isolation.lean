import Mathlib.Data.List.Nodup
import Fs3.Foundation.FailFast
import Fs3.Runtime.Time
import Fs3.Scheduler.Job

/-! # One run of the backup scheduler

A run picks the plans that are due, moves their `LastBackupOn` to the present, inserts a job for
each and then sends one backup request after the other. -/

namespace Fs3.Scheduler

open Foundation

def microSecondPerDay : Int := 86400000000

/-- The enabled plans, each under its own id. -/
structure EnabledPlans where
  plans : List Plan
  nodup : (plans.map Plan.id).Nodup

/-- The answers that a run gets. -/
structure Environment where
  /-- The present, in microseconds. -/
  now : Int
  /-- The database can be opened by `UpdateLastBackupTime`. -/
  opensForUpdate : Bool
  /-- The database can be opened by `AddBackupVolumeJobs`. -/
  opensForJobs : Bool
  /-- The database can be opened by `BackupVolumeJobs`. -/
  opensForBackup : Bool
  /-- The plan is found again and saved with its new `LastBackupOn`. -/
  updates : Nat → Bool
  /-- The plan is found again when its job is to be inserted. -/
  finds : Nat → Bool
  inserts : Nat → Bool
  /-- The query for the last job is answered. -/
  queries : Nat → Bool
  /-- What comes of the request of a plan. -/
  backs : Nat → Attempt

/-- What a run has done, by the ids of the plans. -/
structure Outcome where
  /-- The plans whose `LastBackupOn` has been moved. -/
  advanced : List Nat
  /-- The plans for which a job has been inserted. -/
  recorded : List Nat
  /-- The plans whose deal request has been sent. -/
  sent : List Nat
  deriving DecidableEq

namespace Plan

def since (plan : Plan) : Int :=
  if plan.lastBackupOn ≠ "" then (atoi plan.lastBackupOn).1 else (atoi plan.createdOn).1

/-- The comparison of `BackupVolumeScheduler`, in 64 bits. -/
def isDue (now : Int) (plan : Plan) : Bool :=
  decide (wrap64 (plan.since + wrap64 (microSecondPerDay * (atoi plan.interval).1)) ≤ now)

def parses (plan : Plan) : Bool := (atoi plan.interval).2.isNone

end Plan

/-- The loop of `BackupVolumeScheduler` over the enabled plans. -/
def executeBackupPlansId (now : Int) : List Plan → Option (List Nat)
  | [] => some []
  | plan :: plans =>
    if (atoi plan.interval).2.isSome then none
    else (executeBackupPlansId now plans).map fun ids =>
      if plan.isDue now then plan.id :: ids else ids

/-- `UpdateLastBackupTime`. -/
def updateLastBackupTime (env : Environment) (plansId : List Nat) : Option (List Nat) :=
  if env.opensForUpdate then some (plansId.filter env.updates) else none

/-- The loop of `AddBackupVolumeJobs`: the plans with a job, and those with a request. -/
def addJobs (env : Environment) : List Nat → List Nat × List Nat
  | [] => ([], [])
  | id :: plansId =>
    let (recorded, requests) := addJobs env plansId
    if !env.finds id then (recorded, requests)
    else if !env.inserts id then (recorded, requests)
    else if !env.queries id then (id :: recorded, requests)
    else (id :: recorded, id :: requests)

/-- `AddBackupVolumeJobs`. -/
def addBackupVolumeJobs (env : Environment) (plansId : List Nat) : Option (List Nat × List Nat) :=
  if env.opensForJobs then some (addJobs env plansId) else none

/-- `BackupVolumeJobs`: the plans whose request is sent. -/
def backupVolumeJobs (env : Environment) (requests : List Nat) : List Nat :=
  if env.opensForBackup then effects env.backs requests else []

/-- `BackupVolumeScheduler`. -/
def backupVolumeScheduler (env : Environment) (enabled : EnabledPlans) : Outcome :=
  match executeBackupPlansId env.now enabled.plans with
  | none => ⟨[], [], []⟩
  | some [] => ⟨[], [], []⟩
  | some plansId =>
    match updateLastBackupTime env plansId with
    | none => ⟨[], [], []⟩
    | some advanced =>
      match addBackupVolumeJobs env plansId with
      | none => ⟨advanced, [], []⟩
      | some (recorded, requests) => ⟨advanced, recorded, backupVolumeJobs env requests⟩

end Fs3.Scheduler

/-! ## When one plan does not disturb the others

`BackupVolumeScheduler` returns at the first interval that is not a number, and
`BackupVolumeJobs` at the first backup that fails; `LastBackupOn` has been moved
by then. So a plan is in the way of every plan after it, and of every plan at all
if its interval cannot be read.
-/

namespace Fs3.Scheduler

open Foundation

def EnabledPlans.without (enabled : EnabledPlans) (id : Nat) : EnabledPlans where
  plans := enabled.plans.filter fun plan => plan.id ≠ id
  nodup := enabled.nodup.sublist (List.filter_sublist.map Plan.id)

def Faulty (env : Environment) (plan : Plan) : Prop :=
  plan.parses = false ∨ plan.isDue env.now = true ∧
    (env.finds plan.id = false ∨ env.inserts plan.id = false ∨ env.queries plan.id = false ∨
      env.backs plan.id ≠ .completed)

def Outcome.SameFor (outcome other : Outcome) (id : Nat) : Prop :=
  (id ∈ outcome.advanced ↔ id ∈ other.advanced) ∧ (id ∈ outcome.recorded ↔ id ∈ other.recorded) ∧
    (id ∈ outcome.sent ↔ id ∈ other.sent)

/-- `LastBackupOn` is moved only for a backup that is on its way, and a faulty plan
leaves the others that are due as they would be without it. -/
structure Isolates (env : Environment) (enabled : EnabledPlans) : Prop where
  earned : ∀ id ∈ (backupVolumeScheduler env enabled).advanced,
    id ∈ (backupVolumeScheduler env enabled).recorded ∧
      id ∈ (backupVolumeScheduler env enabled).sent
  undisturbed : ∀ faulty ∈ enabled.plans, Faulty env faulty → ∀ plan ∈ enabled.plans,
    plan.id ≠ faulty.id → plan.parses = true → plan.isDue env.now = true →
      (backupVolumeScheduler env enabled).SameFor
        (backupVolumeScheduler env (enabled.without faulty.id)) plan.id

def dueIds (now : Int) (enabled : EnabledPlans) : List Nat :=
  (enabled.plans.filter fun plan => plan.parses && plan.isDue now).map Plan.id

def Environment.records (env : Environment) (id : Nat) : Bool := env.finds id && env.inserts id

def Environment.requests (env : Environment) (id : Nat) : Bool :=
  env.records id && env.queries id

def requestIds (env : Environment) (enabled : EnabledPlans) : List Nat :=
  (dueIds env.now enabled).filter env.requests

/-- Every plan whose `LastBackupOn` is moved has a request that is sent, as none of
those before it fails. -/
def AllSent (env : Environment) (enabled : EnabledPlans) : Prop :=
  ∀ id ∈ dueIds env.now enabled, env.updates id = true →
    env.opensForJobs = true ∧ env.opensForBackup = true ∧
      ∃ before after, requestIds env enabled = before ++ id :: after ∧
        (∀ other ∈ before, env.backs other = .completed) ∧ env.backs id ≠ .failed

/-- The first request that fails is the last one, or comes before another that fails
as well. -/
def NoneHeldUp (env : Environment) (enabled : EnabledPlans) : Prop :=
  env.opensForJobs = true → env.opensForBackup = true →
    ∀ before id after, requestIds env enabled = before ++ id :: after →
      (∀ other ∈ before, env.backs other = .completed) → env.backs id ≠ .completed →
        ∀ next, after.head? = some next → env.backs next = .failed

def NoneServed (env : Environment) (enabled : EnabledPlans) : Prop :=
  ∀ id ∈ dueIds env.now enabled,
    env.updates id = false ∧ (env.opensForJobs = true → env.records id = false)

/-- The plans of a run, and the answers it gets, with which nothing goes wrong that
concerns more than one plan. -/
inductive Unharmed (env : Environment) (enabled : EnabledPlans) : Prop where
  /-- The run ends before it has done anything. -/
  | unopened (hopen : env.opensForUpdate = false)
  /-- Without one of the two, the other is still there. -/
  | twoUnparsable (plan other : Plan) (hplan : plan ∈ enabled.plans)
      (hother : other ∈ enabled.plans) (hne : plan.id ≠ other.id)
      (hparses : plan.parses = false) (hparses' : other.parses = false)
  | oneUnparsable (plan : Plan) (hplan : plan ∈ enabled.plans) (hparses : plan.parses = false)
      (hnone : NoneServed env enabled)
  | parsable (hparses : ∀ plan ∈ enabled.plans, plan.parses = true)
      (hsent : AllSent env enabled) (hheld : NoneHeldUp env enabled)

section Run

variable {env : Environment} {enabled : EnabledPlans}

theorem executeBackupPlansId_of_unparsable {now : Int} {plans : List Plan} {plan : Plan}
    (hplan : plan ∈ plans) (hparses : plan.parses = false) :
    executeBackupPlansId now plans = none := by
  induction plans with
  | nil => cases hplan
  | cons first plans ih =>
    rw [executeBackupPlansId]
    split
    next => rfl
    next hfirst =>
      rcases List.mem_cons.mp hplan with rfl | hplan
      · rw [Plan.parses, Option.isNone_eq_false_iff] at hparses
        exact absurd hparses hfirst
      · rw [ih hplan, Option.map_none]

theorem executeBackupPlansId_of_parsable {now : Int} {plans : List Plan}
    (hparses : ∀ plan ∈ plans, plan.parses = true) : executeBackupPlansId now plans =
      some ((plans.filter fun plan => plan.parses && plan.isDue now).map Plan.id) := by
  induction plans with
  | nil => rfl
  | cons first plans ih =>
    have hfirst : first.parses = true := hparses first List.mem_cons_self
    have hsome : (atoi first.interval).2.isSome = false := by
      rw [Plan.parses, Option.isNone_iff_eq_none] at hfirst
      rw [hfirst, Option.isSome_none]
    rw [executeBackupPlansId, hsome, ih fun plan hplan => hparses plan (.tail _ hplan),
      List.filter_cons, hfirst, Bool.true_and]
    cases first.isDue now <;> rfl

theorem addJobs_eq (plansId : List Nat) :
    addJobs env plansId = (plansId.filter env.records, plansId.filter env.requests) := by
  induction plansId with
  | nil => rfl
  | cons id plansId ih =>
    rw [addJobs, ih, List.filter_cons, List.filter_cons, Environment.requests,
      Environment.records]
    cases env.finds id <;> cases env.inserts id <;> cases env.queries id <;> rfl

theorem run_of_unopened (hopen : env.opensForUpdate = false) (enabled : EnabledPlans) :
    backupVolumeScheduler env enabled = ⟨[], [], []⟩ := by
  rw [backupVolumeScheduler]
  split
  next => rfl
  next => rfl
  next => simp only [updateLastBackupTime, hopen, Bool.false_eq_true, if_false]

theorem run_of_unparsable {plan : Plan} (hplan : plan ∈ enabled.plans)
    (hparses : plan.parses = false) : backupVolumeScheduler env enabled = ⟨[], [], []⟩ := by
  rw [backupVolumeScheduler, executeBackupPlansId_of_unparsable hplan hparses]

theorem run_of_parsable (hopen : env.opensForUpdate = true)
    (hparses : ∀ plan ∈ enabled.plans, plan.parses = true) : backupVolumeScheduler env enabled =
      ⟨(dueIds env.now enabled).filter env.updates,
        if env.opensForJobs then (dueIds env.now enabled).filter env.records else [],
        if env.opensForJobs && env.opensForBackup then
          effects env.backs (requestIds env enabled) else []⟩ := by
  rw [backupVolumeScheduler, executeBackupPlansId_of_parsable hparses, requestIds, ← dueIds]
  cases hdue : dueIds env.now enabled with
  | nil => simp [effects]
  | cons id plansId =>
    simp only [updateLastBackupTime, hopen, if_true, addBackupVolumeJobs, addJobs_eq,
      backupVolumeJobs]
    cases env.opensForJobs <;> cases env.opensForBackup <;> rfl

end Run

/-! ## Without one of the plans -/

section Without

variable {env : Environment} {enabled : EnabledPlans} {id : Nat}

theorem mem_without {plan : Plan} :
    plan ∈ (enabled.without id).plans ↔ plan ∈ enabled.plans ∧ plan.id ≠ id := by
  rw [EnabledPlans.without, List.mem_filter, decide_eq_true_iff]

theorem mem_dueIds {now : Int} : id ∈ dueIds now enabled ↔
    ∃ plan ∈ enabled.plans, (plan.parses = true ∧ plan.isDue now = true) ∧ plan.id = id := by
  simp only [dueIds, List.mem_map, List.mem_filter, Bool.and_eq_true, and_assoc]

theorem nodup_requestIds : (requestIds env enabled).Nodup :=
  (enabled.nodup.sublist (List.filter_sublist.map Plan.id)).filter _

theorem dueIds_without (now : Int) :
    dueIds now (enabled.without id) = (dueIds now enabled).filter (· ≠ id) := by
  rw [dueIds, dueIds, List.filter_map, EnabledPlans.without, List.filter_filter,
    List.filter_filter]
  congr 1
  exact List.filter_congr fun plan _ => Bool.and_comm _ _

theorem requestIds_without :
    requestIds env (enabled.without id) = (requestIds env enabled).filter (· ≠ id) := by
  rw [requestIds, requestIds, dueIds_without, List.filter_filter, List.filter_filter]
  exact List.filter_congr fun other _ => Bool.and_comm _ _

theorem mem_filter_without {p : Nat → Bool} {other : Nat} (hne : other ≠ id) (now : Int) :
    other ∈ (dueIds now (enabled.without id)).filter p ↔ other ∈ (dueIds now enabled).filter p := by
  rw [List.mem_filter, List.mem_filter, dueIds_without, List.mem_filter, decide_eq_true_iff]
  exact and_congr_left fun _ => and_iff_left hne

theorem Faulty.backs_ne {plan : Plan} (hfaulty : Faulty env plan) (hparses : plan.parses = true)
    (hrequests : env.requests plan.id = true) : env.backs plan.id ≠ .completed := by
  rw [Environment.requests, Environment.records, Bool.and_eq_true_iff, Bool.and_eq_true_iff]
    at hrequests
  obtain ⟨⟨hfinds, hinserts⟩, hqueries⟩ := hrequests
  rcases hfaulty with h | ⟨-, h | h | h | h⟩
  · exact absurd (hparses.symm.trans h) Bool.noConfusion
  · exact absurd (hfinds.symm.trans h) Bool.noConfusion
  · exact absurd (hinserts.symm.trans h) Bool.noConfusion
  · exact absurd (hqueries.symm.trans h) Bool.noConfusion
  · exact h

theorem isolates_of_empty (hrun : backupVolumeScheduler env enabled = ⟨[], [], []⟩)
    (hwithout : ∀ faulty ∈ enabled.plans,
      backupVolumeScheduler env (enabled.without faulty.id) = ⟨[], [], []⟩) :
    Isolates env enabled where
  earned := by
    intro id hid
    rw [hrun] at hid
    cases hid
  undisturbed := by
    intro faulty hfaulty _ plan _ _ _ _
    rw [hrun, hwithout faulty hfaulty]
    exact ⟨Iff.rfl, Iff.rfl, Iff.rfl⟩

end Without

section Harm

variable {env : Environment} {enabled : EnabledPlans}

theorem noneHeldUp_iff : NoneHeldUp env enabled ↔
    (env.opensForJobs = true → env.opensForBackup = true →
      ∀ id ∈ requestIds env enabled, env.backs id ≠ .completed → ∀ other, other ≠ id →
        (other ∈ effects env.backs (requestIds env enabled) ↔
          other ∈ effects env.backs ((requestIds env enabled).filter (· ≠ id)))) := by
  constructor
  · intro hheld hjobs hbackup id _ hfailure
    rw [effects_filter_iff nodup_requestIds hfailure]
    intro before after hitems hbefore
    rw [effects_eq_nil]
    exact hheld hjobs hbackup before id after hitems hbefore hfailure
  · intro hsame hjobs hbackup before id after hitems hbefore hfailure
    have hid : id ∈ requestIds env enabled := by
      rw [hitems]
      exact List.mem_append_right before List.mem_cons_self
    rw [← effects_eq_nil]
    exact (effects_filter_iff nodup_requestIds hfailure).mp
      (hsame hjobs hbackup id hid hfailure) before after hitems hbefore

/-- Where every interval can be read, only the requests can get in each other's way. -/
theorem isolates_iff_of_parsable (hopen : env.opensForUpdate = true)
    (hparses : ∀ plan ∈ enabled.plans, plan.parses = true) :
    Isolates env enabled ↔ AllSent env enabled ∧ NoneHeldUp env enabled := by
  rw [noneHeldUp_iff, AllSent]
  simp only [← mem_effects]
  have hwithout : ∀ id, ∀ plan ∈ (enabled.without id).plans, plan.parses = true :=
    fun id plan hplan => hparses plan (mem_without.mp hplan).1
  have hrequested : ∀ id ∈ requestIds env enabled, id ∈ dueIds env.now enabled ∧
      env.requests id = true := fun id hid => List.mem_filter.mp hid
  constructor
  · intro hisolates
    constructor
    · intro id hdue hupdates
      have hadvanced : id ∈ (backupVolumeScheduler env enabled).advanced := by
        rw [run_of_parsable hopen hparses]
        exact List.mem_filter.mpr ⟨hdue, hupdates⟩
      have hsent := (hisolates.earned id hadvanced).2
      rw [run_of_parsable hopen hparses] at hsent
      dsimp only at hsent
      split at hsent
      next hopens =>
        rw [Bool.and_eq_true_iff] at hopens
        exact ⟨hopens.1, hopens.2, hsent⟩
      next => cases hsent
    · intro hjobs hbackup id hid hfailure other hne
      obtain ⟨faulty, hfaulty, ⟨-, hfaultyDue⟩, rfl⟩ := mem_dueIds.mp (hrequested id hid).1
      by_cases hother : other ∈ dueIds env.now enabled
      · obtain ⟨plan, hplan, ⟨hplanParses, hplanDue⟩, rfl⟩ := mem_dueIds.mp hother
        have hsame := (hisolates.undisturbed faulty hfaulty
          (.inr ⟨hfaultyDue, .inr (.inr (.inr hfailure))⟩) plan hplan hne hplanParses hplanDue).2.2
        rw [run_of_parsable hopen hparses, run_of_parsable hopen (hwithout faulty.id), hjobs,
          hbackup, requestIds_without] at hsame
        exact hsame
      · have hnot : ∀ ids : List Nat, ids ⊆ requestIds env enabled →
            other ∉ effects env.backs ids := fun ids hids hmem =>
          hother (hrequested other (hids ((effects_sublist ids).subset hmem))).1
        exact iff_of_false (hnot _ (List.Subset.refl _))
          (hnot _ (List.filter_sublist.subset))
  · rintro ⟨hearned, hsame⟩
    constructor
    case earned =>
      intro id hadvanced
      rw [run_of_parsable hopen hparses] at hadvanced
      obtain ⟨hdue, hupdates⟩ := List.mem_filter.mp hadvanced
      obtain ⟨hjobs, hbackup, hsent⟩ := hearned id hdue hupdates
      have hrequests := (hrequested id ((effects_sublist _).subset hsent)).2
      rw [run_of_parsable hopen hparses, hjobs, hbackup]
      exact ⟨List.mem_filter.mpr ⟨hdue, (Bool.and_eq_true_iff.mp hrequests).1⟩, hsent⟩
    case undisturbed =>
      intro faulty hfaulty hfault plan hplan hne hplanParses hplanDue
      rw [run_of_parsable hopen hparses, run_of_parsable hopen (hwithout faulty.id)]
      refine ⟨(mem_filter_without hne env.now).symm, ?_, ?_⟩
      · cases env.opensForJobs
        · exact Iff.rfl
        · exact (mem_filter_without hne env.now).symm
      · dsimp only
        split
        next hopens =>
          obtain ⟨hjobs, hbackup⟩ := Bool.and_eq_true_iff.mp hopens
          rw [requestIds_without]
          by_cases hid : faulty.id ∈ requestIds env enabled
          · exact hsame hjobs hbackup faulty.id hid
              (hfault.backs_ne (hparses faulty hfaulty) (hrequested _ hid).2) plan.id hne
          · rw [List.filter_eq_self.mpr]
            exact fun other hother => decide_eq_true fun heq => hid (heq ▸ hother)
        next => exact Iff.rfl

/-- A plan whose interval cannot be read is in the way of all that are due. -/
theorem isolates_iff_of_unparsable (hopen : env.opensForUpdate = true) {plan : Plan}
    (hplan : plan ∈ enabled.plans) (hparses : plan.parses = false)
    (honly : ∀ other ∈ enabled.plans, other.id ≠ plan.id → other.parses = true) :
    Isolates env enabled ↔ NoneServed env enabled := by
  have hwithout : ∀ other ∈ (enabled.without plan.id).plans, other.parses = true :=
    fun other hother => honly other (mem_without.mp hother).1 (mem_without.mp hother).2
  have hself : plan.id ∉ dueIds env.now enabled := by
    intro hdue
    obtain ⟨other, hother, ⟨hparses', -⟩, hid⟩ := mem_dueIds.mp hdue
    rw [List.inj_on_of_nodup_map enabled.nodup hother hplan hid, hparses] at hparses'
    cases hparses'
  have hdue : dueIds env.now (enabled.without plan.id) = dueIds env.now enabled := by
    rw [dueIds_without, List.filter_eq_self]
    exact fun id hid => decide_eq_true fun heq => hself (heq ▸ hid)
  have hrequests : requestIds env (enabled.without plan.id) = requestIds env enabled := by
    rw [requestIds, hdue, requestIds]
  have hempty : ∀ other ∈ enabled.plans, plan.id ≠ other.id →
      backupVolumeScheduler env (enabled.without other.id) = ⟨[], [], []⟩ :=
    fun other _ hne => run_of_unparsable (mem_without.mpr ⟨hplan, hne⟩) hparses
  constructor
  · intro hisolates id hid
    obtain ⟨other, hother, ⟨hparses', hisDue⟩, rfl⟩ := mem_dueIds.mp hid
    have hne : other.id ≠ plan.id := fun heq => hself (heq ▸ hid)
    obtain ⟨hadvanced, hrecorded, -⟩ :=
      hisolates.undisturbed plan hplan (.inl hparses) other hother hne hparses' hisDue
    rw [run_of_unparsable hplan hparses, run_of_parsable hopen hwithout, hdue] at hadvanced
    rw [run_of_unparsable hplan hparses, run_of_parsable hopen hwithout, hdue] at hrecorded
    constructor
    · by_contra hupdates
      rw [Bool.not_eq_false] at hupdates
      cases hadvanced.mpr (List.mem_filter.mpr ⟨hid, hupdates⟩)
    · intro hjobs
      by_contra hrecords
      rw [Bool.not_eq_false] at hrecords
      rw [hjobs] at hrecorded
      cases hrecorded.mpr (List.mem_filter.mpr ⟨hid, hrecords⟩)
  · intro hnone
    have hrun : backupVolumeScheduler env (enabled.without plan.id) = ⟨[], [], []⟩ := by
      rw [run_of_parsable hopen hwithout, hdue, hrequests]
      congr 1
      · rw [List.filter_eq_nil_iff]
        intro id hid
        rw [(hnone id hid).1]
        exact Bool.false_ne_true
      · split
        next hjobs =>
          rw [List.filter_eq_nil_iff]
          intro id hid
          rw [(hnone id hid).2 hjobs]
          exact Bool.false_ne_true
        next => rfl
      · split
        next hopens =>
          have hrequests : requestIds env enabled = [] := by
            rw [requestIds, List.filter_eq_nil_iff]
            intro id hid
            rw [Environment.requests, (hnone id hid).2 (Bool.and_eq_true_iff.mp hopens).1]
            exact Bool.false_ne_true
          rw [hrequests, effects]
        next => rfl
    refine isolates_of_empty (run_of_unparsable hplan hparses) fun faulty hfaulty => ?_
    rcases eq_or_ne plan.id faulty.id with heq | hne
    · rw [← heq, hrun]
    · exact hempty faulty hfaulty hne

/-- A run lets no plan disturb another one exactly where nothing goes wrong that
concerns more than one plan. -/
theorem isolates_iff (env : Environment) (enabled : EnabledPlans) :
    Isolates env enabled ↔ Unharmed env enabled := by
  cases hopen : env.opensForUpdate with
  | false =>
    exact iff_of_true (isolates_of_empty (run_of_unopened hopen enabled)
      fun faulty _ => run_of_unopened hopen (enabled.without faulty.id)) (.unopened hopen)
  | true =>
    by_cases hparses : ∀ plan ∈ enabled.plans, plan.parses = true
    · rw [isolates_iff_of_parsable hopen hparses]
      refine ⟨fun h => .parsable hparses h.1 h.2, fun hunharmed => ?_⟩
      cases hunharmed with
      | unopened hunopened => cases hopen.symm.trans hunopened
      | twoUnparsable plan other hplan _ _ hbad _ =>
        cases (hparses plan hplan).symm.trans hbad
      | oneUnparsable plan hplan hbad _ => cases (hparses plan hplan).symm.trans hbad
      | parsable _ hsent hheld => exact ⟨hsent, hheld⟩
    · push Not at hparses
      obtain ⟨plan, hplan, hbad⟩ := hparses
      rw [ne_eq, Bool.not_eq_true] at hbad
      by_cases honly : ∀ other ∈ enabled.plans, other.id ≠ plan.id → other.parses = true
      · rw [isolates_iff_of_unparsable hopen hplan hbad honly]
        refine ⟨.oneUnparsable plan hplan hbad, fun hunharmed => ?_⟩
        cases hunharmed with
        | unopened hunopened => cases hopen.symm.trans hunopened
        | oneUnparsable _ _ _ hnone => exact hnone
        | parsable hparses => cases (hparses plan hplan).symm.trans hbad
        | twoUnparsable first second hfirst hsecond hne hfirstBad hsecondBad =>
          -- One of the two is not the plan, and so its interval can be read.
          rcases eq_or_ne first.id plan.id with heq | hne'
          · cases (honly second hsecond (heq ▸ hne.symm)).symm.trans hsecondBad
          · cases (honly first hfirst hne').symm.trans hfirstBad
      · push Not at honly
        obtain ⟨other, hother, hne, hotherBad⟩ := honly
        rw [ne_eq, Bool.not_eq_true] at hotherBad
        refine iff_of_true (isolates_of_empty (run_of_unparsable hplan hbad)
          fun faulty _ => ?_) (.twoUnparsable plan other hplan hother hne.symm hbad hotherBad)
        rcases eq_or_ne plan.id faulty.id with heq | hne'
        · exact run_of_unparsable (mem_without.mpr ⟨hother, heq ▸ hne⟩) hotherBad
        · exact run_of_unparsable (mem_without.mpr ⟨hplan, hne'⟩) hbad

end Harm

def firstFails : Environment where
  now := 700000000000
  opensForUpdate := true
  opensForJobs := true
  opensForBackup := true
  updates _ := true
  finds _ := true
  inserts _ := true
  queries _ := true
  backs id := if id = 1 then .failed else .completed

def dailyAndWeekly : EnabledPlans where
  plans := [⟨1, "daily", "1", "518400", "", "0"⟩, ⟨7, "weekly", "7", "518400", "", "0"⟩]
  nodup := by decide

/-- The second plan has no backup, and is taken to have had one. -/
theorem second_unsent : ¬ Isolates firstFails dailyAndWeekly := by
  intro hisolates
  have hadvanced : 7 ∈ (backupVolumeScheduler firstFails dailyAndWeekly).advanced := by decide
  have hunsent : 7 ∉ (backupVolumeScheduler firstFails dailyAndWeekly).sent := by decide
  exact hunsent (hisolates.earned 7 hadvanced).2

end Fs3.Scheduler
