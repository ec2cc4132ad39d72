import Fs3.Foundation.Histories
import Fs3.Volume.Counters

/-! # What the operations rely on

Ids are numbered by the counters, so that the next id is a new one. -/

namespace Fs3.Volume

open Foundation Scheduler

/-- The plans are numbered by their counter. -/
structure PlansSound (plans : VolumeBackupJobPlans) : Prop where
  counted : plans.volumeBackupJobPlansCounts = plans.volumeBackupJobPlans.length
  numbered : Numbered (plans.volumeBackupJobPlans.map VolumeBackupJobPlan.backupPlanId)
    plans.volumeBackupJobPlansCounts

/-- The backup tasks are numbered by their counter, belong to plans, and have not ended. -/
structure BackupsSound (plans : VolumeBackupJobPlans) (backups : VolumeBackupTasks) : Prop where
  groupsCounted : backups.volumeBackupPlansCounts = backups.volumeBackupPlans.length
  groupsDistinct : (backups.volumeBackupPlans.map VolumeBackupPlan.backupPlanId).Nodup
  groupCounted : ∀ group ∈ backups.volumeBackupPlans,
    group.backupPlanTasksCounts = group.backupPlanTasks.length
  tallied : Tallied (backups.tasks.map VolumeBackupPlanTask.status)
    backups.volumeBackupTasksCounts backups.inProcessVolumeBackupTasksCounts
    backups.completedVolumeBackupTasksCounts backups.failedVolumeBackupTasksCounts
  numbered : Numbered (backups.tasks.map VolumeBackupPlanTask.backupTaskId)
    backups.volumeBackupTasksCounts
  planOfTask : ∀ group ∈ backups.volumeBackupPlans,
    ∃ plan ∈ plans.volumeBackupJobPlans, plan.backupPlanId = group.backupPlanId
  inProcess : ∀ task ∈ backups.tasks, isInProcess task.status = true

/-- The rebuild tasks are numbered by their counter, and of backup tasks. -/
structure RebuildsSound (backups : VolumeBackupTasks) (rebuilds : VolumeRebuildJobs) : Prop where
  tallied : Tallied (rebuilds.volumeRebuildTasks.map VolumeRebuildTask.status)
    rebuilds.volumeRebuildTasksCounts rebuilds.inProcessVolumeRebuildTasksCounts
    rebuilds.completedVolumeRebuildTasksCounts rebuilds.failedVolumeRebuildTasksCounts
  numbered : Numbered (rebuilds.volumeRebuildTasks.map VolumeRebuildTask.rebuildTaskID)
    rebuilds.volumeRebuildTasksCounts
  taskOfRebuild : ∀ rebuild ∈ rebuilds.volumeRebuildTasks,
    ∃ task ∈ backups.tasks, task.backupTaskId = rebuild.backupTaskId

structure Sound (db : LevelDb) : Prop where
  plans : PlansSound db.planDoc
  backups : BackupsSound db.planDoc db.backupDoc
  rebuilds : RebuildsSound db.backupDoc db.rebuildDoc

theorem Sound.consistent {db : LevelDb} (hsound : Sound db) : Consistent db where
  plansCounted := hsound.plans.counted
  plansDistinct := hsound.plans.numbered.nodup
  groupsCounted := hsound.backups.groupsCounted
  groupsDistinct := hsound.backups.groupsDistinct
  groupCounted := hsound.backups.groupCounted
  tasksCounted := hsound.backups.tallied
  tasksDistinct := hsound.backups.numbered.nodup
  planOfTask := hsound.backups.planOfTask
  rebuildsCounted := hsound.rebuilds.tallied
  rebuildsDistinct := hsound.rebuilds.numbered.nodup
  taskOfRebuild := hsound.rebuilds.taskOfRebuild

theorem sound_empty : Sound {} where
  plans := ⟨rfl, numbered_nil⟩
  backups :=
    { groupsCounted := rfl
      groupsDistinct := List.nodup_nil
      groupCounted := fun _ hgroup => nomatch hgroup
      tallied := tallied_nil
      numbered := numbered_nil
      planOfTask := fun _ hgroup => nomatch hgroup
      inProcess := fun _ htask => nomatch htask }
  rebuilds :=
    { tallied := tallied_nil
      numbered := numbered_nil
      taskOfRebuild := fun _ hrebuild => nomatch hrebuild }

variable {plans plans' : VolumeBackupJobPlans} {backups backups' : VolumeBackupTasks}
variable {rebuilds : VolumeRebuildJobs} {timestamp : String}

theorem PlansSound.add (hplans : PlansSound plans) (request : AddVolumeBackupPlanRequest)
    (timestamp : String) :
    PlansSound
      { volumeBackupJobPlans := plans.volumeBackupJobPlans ++
          [request.toPlan (plans.volumeBackupJobPlansCounts + 1) timestamp]
        volumeBackupJobPlansCounts := plans.volumeBackupJobPlansCounts + 1 } where
  counted := by simp [hplans.counted]
  numbered := by
    refine hplans.numbered.next (by simp [hplans.counted]) ?_
    rw [List.map_append]
    exact List.perm_append_singleton _ _

theorem PlansSound.edit (hplans : PlansSound plans) {edited : List VolumeBackupJobPlan}
    (hids : edited.map VolumeBackupJobPlan.backupPlanId =
      plans.volumeBackupJobPlans.map VolumeBackupJobPlan.backupPlanId) :
    PlansSound { plans with volumeBackupJobPlans := edited } where
  counted := by
    have hlength := congrArg List.length hids
    rw [List.length_map, List.length_map] at hlength
    rw [hplans.counted, hlength]
  numbered := by simpa [hids] using hplans.numbered

theorem BackupsSound.mono (hbackups : BackupsSound plans backups)
    (hids : plans.volumeBackupJobPlans.map VolumeBackupJobPlan.backupPlanId ⊆
      plans'.volumeBackupJobPlans.map VolumeBackupJobPlan.backupPlanId) :
    BackupsSound plans' backups where
  __ := hbackups
  planOfTask := by
    intro group hgroup
    obtain ⟨plan, hplan, hid⟩ := hbackups.planOfTask group hgroup
    exact List.mem_map.mp (hids (List.mem_map.mpr ⟨plan, hplan, hid⟩))

/-! ## Backup tasks -/

section AddBackup

variable {backupPlan : VolumeBackupJobPlan}

theorem tasks_addBackup :
    (LevelDb.addBackup backupPlan timestamp (some backups)).tasks.Perm
      (LevelDb.newTask backupPlan (backups.volumeBackupTasksCounts + 1) timestamp ::
        backups.tasks) := by
  simp only [LevelDb.addBackup]
  split
  next groups hgroups =>
    obtain ⟨before, group, group', after, hsplit, -, -, hgroup', rfl⟩ :=
      exists_of_replaceFirst hgroups
    cases hgroup'
    simp only [VolumeBackupTasks.tasks, hsplit, List.flatMap_append, List.flatMap_cons,
      LevelDb.addTask, List.append_assoc, List.singleton_append]
    rw [← List.append_assoc, ← List.append_assoc (before.flatMap _) group.backupPlanTasks]
    exact List.perm_middle
  next =>
    simp only [VolumeBackupTasks.tasks, List.flatMap_append, List.flatMap_singleton,
      LevelDb.newGroup]
    exact List.perm_append_singleton _ _

theorem BackupsSound.add (hbackups : BackupsSound plans backups)
    (hplan : ∃ plan ∈ plans.volumeBackupJobPlans,
      plan.backupPlanId = backupPlan.backupPlanId) (timestamp : String) :
    BackupsSound plans (LevelDb.addBackup backupPlan timestamp (some backups)) := by
  have htasks := @tasks_addBackup backups timestamp backupPlan
  have hcounters :
      (LevelDb.addBackup backupPlan timestamp (some backups)).volumeBackupTasksCounts =
        backups.volumeBackupTasksCounts + 1 ∧
      (LevelDb.addBackup backupPlan timestamp (some backups)).inProcessVolumeBackupTasksCounts =
        backups.inProcessVolumeBackupTasksCounts + 1 ∧
      (LevelDb.addBackup backupPlan timestamp (some backups)).completedVolumeBackupTasksCounts =
        backups.completedVolumeBackupTasksCounts ∧
      (LevelDb.addBackup backupPlan timestamp (some backups)).failedVolumeBackupTasksCounts =
        backups.failedVolumeBackupTasksCounts := by
    simp only [LevelDb.addBackup]
    split
    · exact ⟨rfl, rfl, rfl, rfl⟩
    · exact ⟨rfl, rfl, rfl, rfl⟩
  obtain ⟨htotal, hinProcess, hcompleted, hfailed⟩ := hcounters
  have htallied := hbackups.tallied.created (htasks.map VolumeBackupPlanTask.status)
  rw [← htotal, ← hinProcess, ← hcompleted, ← hfailed] at htallied
  have hnumbered := hbackups.numbered.next (by simp [hbackups.tallied.total])
    (htasks.map VolumeBackupPlanTask.backupTaskId)
  rw [← htotal] at hnumbered
  have hrunning : ∀ task ∈ (LevelDb.addBackup backupPlan timestamp (some backups)).tasks,
      isInProcess task.status = true := by
    intro task htask
    rcases List.mem_cons.mp (htasks.mem_iff.mp htask) with rfl | htask
    · rfl
    · exact hbackups.inProcess task htask
  suffices hgroups :
      (LevelDb.addBackup backupPlan timestamp (some backups)).volumeBackupPlansCounts =
        (LevelDb.addBackup backupPlan timestamp (some backups)).volumeBackupPlans.length ∧
      ((LevelDb.addBackup backupPlan timestamp (some backups)).volumeBackupPlans.map
        VolumeBackupPlan.backupPlanId).Nodup ∧
      ∀ group ∈ (LevelDb.addBackup backupPlan timestamp (some backups)).volumeBackupPlans,
        group.backupPlanTasksCounts = group.backupPlanTasks.length ∧
        ∃ plan ∈ plans.volumeBackupJobPlans, plan.backupPlanId = group.backupPlanId by
    obtain ⟨hcounted, hdistinct, hgroup⟩ := hgroups
    exact ⟨hcounted, hdistinct, fun group hmem => (hgroup group hmem).1, htallied, hnumbered,
      fun group hmem => (hgroup group hmem).2, hrunning⟩
  have hgroup := fun group hmem =>
    And.intro (hbackups.groupCounted group hmem) (hbackups.planOfTask group hmem)
  simp only [LevelDb.addBackup]
  split
  next groups hgroups =>
    obtain ⟨before, group, group', after, hsplit, -, -, hgroup', rfl⟩ :=
      exists_of_replaceFirst hgroups
    cases hgroup'
    have hcounted := hbackups.groupsCounted
    have hdistinct := hbackups.groupsDistinct
    rw [hsplit] at hcounted hdistinct hgroup
    obtain ⟨hlength, hplanOf⟩ := hgroup group (by simp)
    exact ⟨by simpa using hcounted, by simpa [LevelDb.addTask] using hdistinct,
      forall_mem_replaced hgroup ⟨by simp [LevelDb.addTask, hlength], hplanOf⟩⟩
  next hnone =>
    have hnew := forall_of_replaceFirst_none (by simp) hnone
    refine ⟨by simp [hbackups.groupsCounted], ?_, ?_⟩
    · rw [List.map_append]
      refine (List.perm_append_singleton _ _).nodup_iff.mpr
        (List.nodup_cons.mpr ⟨fun hmem => ?_, hbackups.groupsDistinct⟩)
      obtain ⟨group, hmem, hid⟩ := List.mem_map.mp hmem
      have hne := hnew group hmem
      rw [beq_eq_false_iff_ne] at hne
      exact hne hid
    · intro group hmem
      rcases List.mem_append.mp hmem with hmem | hmem
      · exact hgroup group hmem
      · rw [List.mem_singleton.mp hmem]
        exact ⟨rfl, hplan⟩

end AddBackup

theorem exists_of_saved {tasks : List Deal} {backupPlanId backupTaskId : Int}
    {groups groups' : List VolumeBackupPlan}
    (hsaved : replaceFirst (fun group => group.backupPlanId == backupPlanId)
      (fun group =>
        (replaceFirst (fun task => task.backupTaskId == backupTaskId)
          (fun task => some (LevelDb.withDeals tasks timestamp task)) group.backupPlanTasks).map
          fun backupPlanTasks => { group with backupPlanTasks })
      groups = some groups') :
    ∃ before group after earlier task later,
      groups = before ++ group :: after ∧ group.backupPlanTasks = earlier ++ task :: later ∧
      groups' = before ++ { group with
        backupPlanTasks := earlier ++ LevelDb.withDeals tasks timestamp task :: later } ::
          after := by
  obtain ⟨before, group, group', after, hsplit, -, -, hgroup', rfl⟩ :=
    exists_of_replaceFirst hsaved
  obtain ⟨saved, hinner, rfl⟩ := Option.map_eq_some_iff.mp hgroup'
  obtain ⟨earlier, task, task', later, htasks, -, -, htask', rfl⟩ :=
    exists_of_replaceFirst hinner
  cases htask'
  exact ⟨before, group, after, earlier, task, later, hsplit, htasks, rfl⟩

/-- A task that is sent stays in process, under the same ids. -/
theorem BackupsSound.save (hbackups : BackupsSound plans backups) {tasks : List Deal}
    {before after : List VolumeBackupPlan} {group : VolumeBackupPlan}
    {earlier later : List VolumeBackupPlanTask} {task : VolumeBackupPlanTask}
    (hsplit : backups.volumeBackupPlans = before ++ group :: after)
    (htasks : group.backupPlanTasks = earlier ++ task :: later) :
    BackupsSound plans { backups with
      volumeBackupPlans := before ++ { group with
        backupPlanTasks := earlier ++ LevelDb.withDeals tasks timestamp task :: later } ::
          after } := by
  have hold : backups.tasks =
      (before.flatMap VolumeBackupPlan.backupPlanTasks ++ earlier) ++ task ::
        (later ++ after.flatMap VolumeBackupPlan.backupPlanTasks) := by
    simp [VolumeBackupTasks.tasks, hsplit, htasks]
  have hinProcess := hbackups.inProcess
  have hcounted := hbackups.groupsCounted
  have hdistinct := hbackups.groupsDistinct
  have hgroup := fun group hmem =>
    And.intro (hbackups.groupCounted group hmem) (hbackups.planOfTask group hmem)
  have htallied := hbackups.tallied.replace
    (by rw [hold, List.map_append, List.map_cons]) (hinProcess task (by simp [hold]))
    (show isInProcess .running = true from rfl)
  have hnumbered := hbackups.numbered
  rw [hold] at hnumbered hinProcess
  rw [hsplit] at hcounted hdistinct hgroup
  have hedited : ∀ other ∈ before ++ { group with
        backupPlanTasks := earlier ++ LevelDb.withDeals tasks timestamp task :: later } :: after,
      other.backupPlanTasksCounts = other.backupPlanTasks.length ∧
        ∃ plan ∈ plans.volumeBackupJobPlans, plan.backupPlanId = other.backupPlanId := by
    obtain ⟨hlength, hplanOf⟩ := hgroup group (by simp)
    exact forall_mem_replaced hgroup ⟨by simpa [htasks] using hlength, hplanOf⟩
  refine
    { groupsCounted := by simpa using hcounted
      groupsDistinct := by simpa using hdistinct
      groupCounted := fun other hother => (hedited other hother).1
      tallied := ?_
      numbered := ?_
      planOfTask := fun other hother => (hedited other hother).2
      inProcess := ?_ }
  · simpa [VolumeBackupTasks.tasks, LevelDb.withDeals] using htallied
  · simpa [VolumeBackupTasks.tasks, LevelDb.withDeals] using hnumbered
  · have hedits := @forall_mem_replaced _ _ _ _ _ (LevelDb.withDeals tasks timestamp task)
      hinProcess rfl
    simpa [VolumeBackupTasks.tasks] using hedits

/-! ## Rebuild tasks -/

theorem RebuildsSound.mono (hrebuilds : RebuildsSound backups rebuilds)
    (hids : backups.tasks.map VolumeBackupPlanTask.backupTaskId ⊆
      backups'.tasks.map VolumeBackupPlanTask.backupTaskId) :
    RebuildsSound backups' rebuilds where
  __ := hrebuilds
  taskOfRebuild := by
    intro rebuild hrebuild
    obtain ⟨task, htask, hid⟩ := hrebuilds.taskOfRebuild rebuild hrebuild
    exact List.mem_map.mp (hids (List.mem_map.mpr ⟨task, htask, hid⟩))

variable {task : VolumeRebuildTask}

theorem RebuildsSound.add (hrebuilds : RebuildsSound backups rebuilds)
    (hid : task.rebuildTaskID = rebuilds.volumeRebuildTasksCounts + 1)
    (hstatus : task.status = .created)
    (htask : ∃ backup ∈ backups.tasks, backup.backupTaskId = task.backupTaskId) :
    RebuildsSound backups { rebuilds with
      volumeRebuildTasks := rebuilds.volumeRebuildTasks ++ [task]
      volumeRebuildTasksCounts := rebuilds.volumeRebuildTasksCounts + 1
      inProcessVolumeRebuildTasksCounts :=
        rebuilds.inProcessVolumeRebuildTasksCounts + 1 } where
  tallied := by
    refine hrebuilds.tallied.created ?_
    rw [List.map_append, ← hstatus]
    exact List.perm_append_singleton _ _
  numbered := by
    refine hrebuilds.numbered.next (by simp [hrebuilds.tallied.total]) ?_
    rw [List.map_append, ← hid]
    exact List.perm_append_singleton _ _
  taskOfRebuild := by
    intro rebuild hrebuild
    rcases List.mem_append.mp hrebuild with hrebuild | hrebuild
    · exact hrebuilds.taskOfRebuild rebuild hrebuild
    · rwa [List.mem_singleton.mp hrebuild]

theorem mem_of_findTask {groups : List VolumeBackupPlan} {backupPlanId backupTaskId : Int} :
    LevelDb.findTask groups backupPlanId backupTaskId ∈
        groups.flatMap VolumeBackupPlan.backupPlanTasks ∨
      LevelDb.findTask groups backupPlanId backupTaskId = {} := by
  induction groups using List.reverseRecOn with
  | nil => exact Or.inr rfl
  | append_singleton groups group ih =>
    have hkeep : LevelDb.findTask groups backupPlanId backupTaskId ∈
          (groups ++ [group]).flatMap VolumeBackupPlan.backupPlanTasks ∨
        LevelDb.findTask groups backupPlanId backupTaskId = {} := by
      refine ih.imp_left fun hmem => ?_
      rw [List.flatMap_append]
      exact List.mem_append_left _ hmem
    rw [LevelDb.findTask, List.foldl_append, List.foldl_cons, List.foldl_nil]
    split
    · cases hfind : group.backupPlanTasks.find? fun task => task.backupTaskId == backupTaskId with
      | none => exact hkeep
      | some task =>
        refine Or.inl ?_
        rw [List.flatMap_append, List.flatMap_singleton]
        exact List.mem_append_right _ (List.mem_of_find?_eq_some hfind)
    · exact hkeep

theorem foldl_completeTask_skip {volumeRebuildTaskId : Int} {l : List VolumeRebuildTask}
    (hskip : ∀ task ∈ l, task.rebuildTaskID ≠ volumeRebuildTaskId) :
    l.foldl (LevelDb.completeTask volumeRebuildTaskId timestamp) rebuilds =
      { rebuilds with volumeRebuildTasks := rebuilds.volumeRebuildTasks ++ l } := by
  induction l generalizing rebuilds with
  | nil => simp
  | cons task l ih =>
    rw [List.foldl_cons, LevelDb.completeTask, if_neg (hskip task List.mem_cons_self),
      ih fun other hother => hskip other (List.mem_cons_of_mem _ hother)]
    simp

theorem foldl_completeTask {volumeRebuildTaskId : Int} {before after : List VolumeRebuildTask}
    (hid : task.rebuildTaskID = volumeRebuildTaskId)
    (hbefore : ∀ other ∈ before, other.rebuildTaskID ≠ volumeRebuildTaskId)
    (hafter : ∀ other ∈ after, other.rebuildTaskID ≠ volumeRebuildTaskId) :
    (before ++ task :: after).foldl (LevelDb.completeTask volumeRebuildTaskId timestamp)
        { rebuilds with volumeRebuildTasks := [] } =
      { rebuilds with
        volumeRebuildTasks :=
          before ++ { task with updatedOn := timestamp, status := .completed } :: after
        inProcessVolumeRebuildTasksCounts := rebuilds.inProcessVolumeRebuildTasksCounts - 1
        completedVolumeRebuildTasksCounts :=
          rebuilds.completedVolumeRebuildTasksCounts + 1 } := by
  rw [List.foldl_append, foldl_completeTask_skip hbefore, List.foldl_cons,
    LevelDb.completeTask, if_pos hid, foldl_completeTask_skip hafter]
  simp

theorem RebuildsSound.split (hrebuilds : RebuildsSound backups rebuilds)
    (htask : task ∈ rebuilds.volumeRebuildTasks) :
    ∃ before after, rebuilds.volumeRebuildTasks = before ++ task :: after ∧
      (∀ other ∈ before, other.rebuildTaskID ≠ task.rebuildTaskID) ∧
      ∀ other ∈ after, other.rebuildTaskID ≠ task.rebuildTaskID := by
  obtain ⟨before, after, hsplit⟩ := List.append_of_mem htask
  have hdistinct := hrebuilds.numbered.nodup
  rw [hsplit, List.map_append, List.map_cons, List.perm_middle.nodup_iff,
    List.nodup_cons] at hdistinct
  refine ⟨before, after, hsplit, fun other hother heq => ?_, fun other hother heq => ?_⟩
  · exact hdistinct.1 (List.mem_append_left _ (List.mem_map.mpr ⟨other, hother, heq⟩))
  · exact hdistinct.1 (List.mem_append_right _ (List.mem_map.mpr ⟨other, hother, heq⟩))

theorem RebuildsSound.complete (hrebuilds : RebuildsSound backups rebuilds)
    {before after : List VolumeRebuildTask}
    (hsplit : rebuilds.volumeRebuildTasks = before ++ task :: after)
    (hstatus : isInProcess task.status = true) :
    RebuildsSound backups { rebuilds with
      volumeRebuildTasks :=
        before ++ { task with updatedOn := timestamp, status := .completed } :: after
      inProcessVolumeRebuildTasksCounts := rebuilds.inProcessVolumeRebuildTasksCounts - 1
      completedVolumeRebuildTasksCounts :=
        rebuilds.completedVolumeRebuildTasksCounts + 1 } where
  tallied := by
    rw [List.map_append, List.map_cons]
    refine hrebuilds.tallied.complete ?_ hstatus
    rw [hsplit, List.map_append, List.map_cons]
  numbered := by
    have hnumbered := hrebuilds.numbered
    rw [hsplit] at hnumbered
    simpa using hnumbered
  taskOfRebuild := by
    have hrefers := hrebuilds.taskOfRebuild
    rw [hsplit] at hrefers
    exact forall_mem_replaced hrefers (hrefers task (by simp))

end Fs3.Volume

/-! ## When volume documents stay consistent

A plan that is not there gets a backup task all the same, in a list of its own,
and a rebuild task that is completed once more is counted once more. Nothing
else goes wrong: the documents are consistent throughout a history exactly when
every backup is of a plan that is there and no rebuild task is completed twice.
-/

namespace Fs3.Volume

open Foundation Scheduler

/-- An operation with what its request says. -/
inductive VolumeEvent where
  | addPlan (request : AddVolumeBackupPlanRequest) (timestamp : String)
  | addBackup (backupPlanId : Int) (timestamp : String)
  | saveBackup (tasks : List Deal) (backupPlanId backupTaskId : Int) (timestamp : String)
  | addRebuild (backupPlanId backupTaskId : Int) (timestamp : String)
  | rebuild (volumeRebuildTaskId : Int) (timestamp : String)

namespace VolumeEvent

def run (db : LevelDb) : VolumeEvent → Except DocumentErr LevelDb
  | addPlan request timestamp => .ok (db.backupVolumeAddPlan request timestamp)
  | addBackup backupPlanId timestamp => db.backupAddJob backupPlanId timestamp
  | saveBackup tasks backupPlanId backupTaskId timestamp =>
    db.saveBackupTaskToDb tasks backupPlanId backupTaskId timestamp
  | addRebuild backupPlanId backupTaskId timestamp =>
    db.rebuildAddJob backupPlanId backupTaskId timestamp
  | rebuild volumeRebuildTaskId timestamp => db.rebuildVolume volumeRebuildTaskId timestamp

/-- The documents after an operation; one that does not succeed leaves them alone. -/
def step (db : LevelDb) (event : VolumeEvent) : LevelDb :=
  match event.run db with
  | .error _ => db
  | .ok db' => db'

/-- The operations that keep the documents consistent: a backup is of a plan that is
there, or there are no plans at all; a rebuild is of a task in process, or of none. -/
def Regular (db : LevelDb) : VolumeEvent → Prop
  | addBackup backupPlanId _ => db.plans = none ∨
      ∃ plan ∈ db.planDoc.volumeBackupJobPlans, plan.backupPlanId = backupPlanId
  | rebuild volumeRebuildTaskId _ => ∀ task ∈ db.rebuildDoc.volumeRebuildTasks,
      task.rebuildTaskID = volumeRebuildTaskId → isInProcess task.status = true
  | _ => True

variable {db : LevelDb}

/-! ## One step -/

theorem sound_addPlan (hsound : Sound db) (request : AddVolumeBackupPlanRequest)
    (timestamp : String) : Sound (db.backupVolumeAddPlan request timestamp) := by
  have hdoc : (db.backupVolumeAddPlan request timestamp).planDoc =
      { volumeBackupJobPlans := db.planDoc.volumeBackupJobPlans ++
          [request.toPlan (db.planDoc.volumeBackupJobPlansCounts + 1) timestamp]
        volumeBackupJobPlansCounts := db.planDoc.volumeBackupJobPlansCounts + 1 } := by
    rw [LevelDb.backupVolumeAddPlan, LevelDb.planDoc, LevelDb.planDoc]
    split
    next data hdata => rw [hdata]; rfl
    next hdata => rw [hdata]; rfl
  have hothers : (db.backupVolumeAddPlan request timestamp).backupDoc = db.backupDoc ∧
      (db.backupVolumeAddPlan request timestamp).rebuildDoc = db.rebuildDoc := by
    rw [LevelDb.backupVolumeAddPlan]
    split
    · exact ⟨rfl, rfl⟩
    · exact ⟨rfl, rfl⟩
  refine ⟨?_, ?_, ?_⟩
  · rw [hdoc]
    exact hsound.plans.add request timestamp
  · rw [hdoc, hothers.1]
    refine hsound.backups.mono ?_
    rw [List.map_append]
    exact List.subset_append_left _ _
  · rw [hothers.1, hothers.2]
    exact hsound.rebuilds

variable {db' : LevelDb}

theorem docs_of_backupAddJob {backupPlanId : Int} {timestamp : String}
    (hok : db.backupAddJob backupPlanId timestamp = .ok db') :
    db'.planDoc.volumeBackupJobPlans.map VolumeBackupJobPlan.backupPlanId =
        db.planDoc.volumeBackupJobPlans.map VolumeBackupJobPlan.backupPlanId ∧
      db'.planDoc.volumeBackupJobPlansCounts = db.planDoc.volumeBackupJobPlansCounts ∧
      db'.backupDoc = LevelDb.addBackup
        ((db.planDoc.volumeBackupJobPlans.find? fun plan => plan.backupPlanId == backupPlanId).getD
          {}) timestamp (some db.backupDoc) ∧
      db'.rebuildDoc = db.rebuildDoc := by
  rw [LevelDb.backupAddJob] at hok
  split at hok
  · cases hok
  next data hplans =>
    cases hok
    simp only [LevelDb.planDoc, LevelDb.backupDoc, LevelDb.rebuildDoc, hplans, Option.getD_some]
    refine ⟨?_, trivial, ?_, trivial⟩
    · cases hreplaced : replaceFirst
          (fun plan : VolumeBackupJobPlan => plan.backupPlanId == backupPlanId)
          (fun plan => some { plan with lastBackupOn := timestamp })
          data.volumeBackupJobPlans with
      | none => rfl
      | some edited =>
        obtain ⟨before, plan, plan', after, hsplit, -, -, hplan', rfl⟩ :=
          exists_of_replaceFirst hreplaced
        cases hplan'
        simp [hsplit]
    · cases db.backups with
      | none => rfl
      | some backups => rfl

theorem sound_addBackup (hsound : Sound db) {backupPlanId : Int} {timestamp : String}
    (hok : db.backupAddJob backupPlanId timestamp = .ok db')
    (hplan : ∃ plan ∈ db.planDoc.volumeBackupJobPlans, plan.backupPlanId = backupPlanId) :
    Sound db' := by
  obtain ⟨hids, hcount, hbackups, hrebuilds⟩ := docs_of_backupAddJob hok
  have hplans : PlansSound db'.planDoc := by
    have hedited := hsound.plans.edit hids
    rwa [← hcount] at hedited
  have hfound : ∃ plan ∈ db.planDoc.volumeBackupJobPlans, plan.backupPlanId =
      ((db.planDoc.volumeBackupJobPlans.find? fun plan =>
        plan.backupPlanId == backupPlanId).getD {}).backupPlanId := by
    cases hfind : db.planDoc.volumeBackupJobPlans.find? fun plan =>
        plan.backupPlanId == backupPlanId with
    | none =>
      obtain ⟨plan, hmem, hid⟩ := hplan
      exact absurd hid (by simpa using List.find?_eq_none.mp hfind plan hmem)
    | some plan => exact ⟨plan, List.mem_of_find?_eq_some hfind, rfl⟩
  refine ⟨hplans, ?_, ?_⟩
  · rw [hbackups]
    exact (hsound.backups.add hfound timestamp).mono (by rw [hids]; exact List.Subset.refl _)
  · rw [hbackups, hrebuilds]
    refine hsound.rebuilds.mono ?_
    refine List.Subset.trans ?_ (tasks_addBackup.map VolumeBackupPlanTask.backupTaskId).symm.subset
    exact List.subset_cons_self _ _

theorem not_consistent_addBackup (hsound : Sound db) {backupPlanId : Int} {timestamp : String}
    (hok : db.backupAddJob backupPlanId timestamp = .ok db')
    (hplan : ¬ ∃ plan ∈ db.planDoc.volumeBackupJobPlans, plan.backupPlanId = backupPlanId) :
    ¬ Consistent db' := by
  obtain ⟨hids, -, hbackups, -⟩ := docs_of_backupAddJob hok
  have hnone : (db.planDoc.volumeBackupJobPlans.find? fun plan =>
      plan.backupPlanId == backupPlanId) = none := by
    refine List.find?_eq_none.mpr fun plan hmem hid => hplan ⟨plan, hmem, ?_⟩
    simpa using hid
  rw [hnone, Option.getD_none] at hbackups
  -- The ids of plans start at one.
  have hzero : ∀ plan ∈ db'.planDoc.volumeBackupJobPlans, plan.backupPlanId ≠ 0 := by
    intro plan hmem hid
    have hbounds := hsound.plans.numbered.bounds plan.backupPlanId
      (hids ▸ List.mem_map_of_mem hmem)
    omega
  have hgroup : ∃ group ∈ db'.backupDoc.volumeBackupPlans, group.backupPlanId = 0 := by
    rw [hbackups, LevelDb.addBackup]
    split
    next groups hgroups =>
      obtain ⟨before, group, group', after, -, -, hmatch, hgroup', rfl⟩ :=
        exists_of_replaceFirst hgroups
      cases hgroup'
      refine ⟨_, List.mem_append_right _ List.mem_cons_self, ?_⟩
      simpa [LevelDb.addTask] using hmatch
    next => exact ⟨_, List.mem_append_right _ List.mem_cons_self, rfl⟩
  intro hconsistent
  obtain ⟨group, hmem, hid⟩ := hgroup
  obtain ⟨plan, hplan, heq⟩ := hconsistent.planOfTask group hmem
  exact hzero plan hplan (heq.trans hid)

theorem sound_saveBackup (hsound : Sound db) {tasks : List Deal} {backupPlanId backupTaskId : Int}
    {timestamp : String}
    (hok : db.saveBackupTaskToDb tasks backupPlanId backupTaskId timestamp = .ok db') :
    Sound db' := by
  simp only [LevelDb.saveBackupTaskToDb] at hok
  split at hok
  · cases hok
  next data hdata =>
    split at hok
    · cases hok
    next groups hsaved =>
      cases hok
      obtain ⟨before, group, after, earlier, task, later, hsplit, htasks, rfl⟩ :=
        exists_of_saved hsaved
      have hdoc : db.backupDoc = data := by rw [LevelDb.backupDoc, hdata]; rfl
      have hbackups := hsound.backups
      have hrebuilds := hsound.rebuilds
      rw [hdoc] at hbackups hrebuilds
      refine ⟨hsound.plans, hbackups.save hsplit htasks, hrebuilds.mono ?_⟩
      simp [LevelDb.backupDoc, VolumeBackupTasks.tasks, hsplit, htasks, LevelDb.withDeals]

theorem sound_addRebuild (hsound : Sound db) {backupPlanId backupTaskId : Int} {timestamp : String}
    (hok : db.rebuildAddJob backupPlanId backupTaskId timestamp = .ok db') : Sound db' := by
  simp only [LevelDb.rebuildAddJob] at hok
  split at hok
  · cases hok
  next data hdata =>
    split at hok
    · cases hok
    next deal deals hdeals =>
      have hdoc : db.backupDoc = data := by rw [LevelDb.backupDoc, hdata]; rfl
      have htask : ∃ task ∈ db.backupDoc.tasks, task.backupTaskId =
          (LevelDb.findTask data.volumeBackupPlans backupPlanId backupTaskId).backupTaskId := by
        rcases @mem_of_findTask data.volumeBackupPlans backupPlanId backupTaskId with hmem | hzero
        · rw [hdoc]
          exact ⟨_, hmem, rfl⟩
        · rw [hzero] at hdeals
          cases hdeals
      split at hok
      next rebuilds hrebuilds =>
        cases hok
        have hrebuildDoc : db.rebuildDoc = rebuilds := by
          rw [LevelDb.rebuildDoc, hrebuilds]
          rfl
        refine ⟨hsound.plans, hsound.backups, ?_⟩
        rw [← hrebuildDoc]
        exact hsound.rebuilds.add rfl rfl htask
      next hrebuilds =>
        cases hok
        have hrebuildDoc : db.rebuildDoc = {} := by
          rw [LevelDb.rebuildDoc, hrebuilds]
          rfl
        have hsoundRebuilds := hsound.rebuilds
        rw [hrebuildDoc] at hsoundRebuilds
        exact ⟨hsound.plans, hsound.backups, hsoundRebuilds.add rfl rfl htask⟩

variable {volumeRebuildTaskId : Int}

theorem rebuildDoc_of_rebuildVolume {timestamp : String}
    (hok : db.rebuildVolume volumeRebuildTaskId timestamp = .ok db') :
    db'.planDoc = db.planDoc ∧ db'.backupDoc = db.backupDoc ∧
      db'.rebuildDoc = db.rebuildDoc.volumeRebuildTasks.foldl
        (LevelDb.completeTask volumeRebuildTaskId timestamp)
        { db.rebuildDoc with volumeRebuildTasks := [] } := by
  simp only [LevelDb.rebuildVolume] at hok
  split at hok
  · cases hok
  next data hdata =>
    cases hok
    refine ⟨rfl, rfl, ?_⟩
    simp [LevelDb.rebuildDoc, hdata]

theorem sound_rebuild (hsound : Sound db) {timestamp : String}
    (hok : db.rebuildVolume volumeRebuildTaskId timestamp = .ok db')
    (hregular : ∀ task ∈ db.rebuildDoc.volumeRebuildTasks,
      task.rebuildTaskID = volumeRebuildTaskId → isInProcess task.status = true) : Sound db' := by
  obtain ⟨hplans, hbackups, hrebuilds⟩ := rebuildDoc_of_rebuildVolume hok
  refine ⟨hplans ▸ hsound.plans, hplans ▸ hbackups ▸ hsound.backups, ?_⟩
  rw [hbackups]
  by_cases hany : ∃ task ∈ db.rebuildDoc.volumeRebuildTasks,
      task.rebuildTaskID = volumeRebuildTaskId
  · obtain ⟨task, htask, hid⟩ := hany
    obtain ⟨before, after, hsplit, hbefore, hafter⟩ := hsound.rebuilds.split htask
    rw [hid] at hbefore hafter
    rw [hrebuilds, hsplit, foldl_completeTask hid hbefore hafter]
    exact hsound.rebuilds.complete hsplit (hregular task htask hid)
  · rw [hrebuilds, foldl_completeTask_skip fun task htask hid => hany ⟨task, htask, hid⟩,
      List.nil_append]
    exact hsound.rebuilds

theorem not_consistent_rebuild (hsound : Sound db) {timestamp : String}
    (hok : db.rebuildVolume volumeRebuildTaskId timestamp = .ok db') {task : VolumeRebuildTask}
    (htask : task ∈ db.rebuildDoc.volumeRebuildTasks)
    (hid : task.rebuildTaskID = volumeRebuildTaskId) (hended : isInProcess task.status = false) :
    ¬ Consistent db' := by
  obtain ⟨-, -, hrebuilds⟩ := rebuildDoc_of_rebuildVolume hok
  obtain ⟨before, after, hsplit, hbefore, hafter⟩ := hsound.rebuilds.split htask
  rw [hid] at hbefore hafter
  rw [hsplit, foldl_completeTask hid hbefore hafter] at hrebuilds
  intro hconsistent
  have hcounted := hconsistent.rebuildsCounted
  rw [hrebuilds, List.map_append, List.map_cons] at hcounted
  refine hsound.rebuilds.tallied.not_complete ?_ hended hcounted
  rw [hsplit, List.map_append, List.map_cons]

/-! ## Histories -/

theorem sound_step (hsound : Sound db) (event : VolumeEvent) (hregular : Regular db event) :
    Sound (step db event) := by
  rw [step]
  split
  · exact hsound
  next db' hok =>
    cases event with
    | addPlan request timestamp =>
      cases hok
      exact sound_addPlan hsound request timestamp
    | addBackup backupPlanId timestamp =>
      rcases hregular with hnone | hplan
      · rw [run, LevelDb.backupAddJob, hnone] at hok
        cases hok
      · exact sound_addBackup hsound hok hplan
    | saveBackup tasks backupPlanId backupTaskId timestamp => exact sound_saveBackup hsound hok
    | addRebuild backupPlanId backupTaskId timestamp => exact sound_addRebuild hsound hok
    | rebuild volumeRebuildTaskId timestamp => exact sound_rebuild hsound hok hregular

theorem not_consistent_step (hsound : Sound db) (event : VolumeEvent)
    (hirregular : ¬ Regular db event) : ¬ Consistent (step db event) := by
  cases event with
  | addPlan | saveBackup | addRebuild => exact absurd trivial hirregular
  | addBackup backupPlanId timestamp =>
    obtain ⟨hsome, hplan⟩ := not_or.mp hirregular
    obtain ⟨data, hdata⟩ := Option.ne_none_iff_exists'.mp hsome
    have hok : ∃ db', db.backupAddJob backupPlanId timestamp = .ok db' := by
      rw [LevelDb.backupAddJob, hdata]
      exact ⟨_, rfl⟩
    obtain ⟨db', hok⟩ := hok
    rw [step, run, hok]
    exact not_consistent_addBackup hsound hok hplan
  | rebuild volumeRebuildTaskId timestamp =>
    simp only [Regular, not_forall, Bool.not_eq_true] at hirregular
    obtain ⟨task, htask, hid, hended⟩ := hirregular
    have hok : ∃ db', db.rebuildVolume volumeRebuildTaskId timestamp = .ok db' := by
      rw [LevelDb.rebuildVolume]
      split
      next hnone =>
        rw [LevelDb.rebuildDoc, hnone] at htask
        cases htask
      next => exact ⟨_, rfl⟩
    obtain ⟨db', hok⟩ := hok
    rw [step, run, hok]
    exact not_consistent_rebuild hsound hok htask hid hended

/-- The documents are consistent in every state of a history exactly when each
backup that is added is of a plan that is there and no rebuild task that is
completed is completed again. -/
theorem consistent_iff_regular (events : List VolumeEvent) :
    Always step Consistent {} events ↔ Guarded step Regular {} events :=
  always_iff_guarded (fun _ event hsound => sound_step hsound event)
    (fun _ hsound => hsound.consistent) (fun _ event hsound => not_consistent_step hsound event)
    sound_empty

section Examples

def nightly : AddVolumeBackupPlanRequest where
  backupPlanName := "nightly"
  backupInterval := "1"
  minerRegion := ""
  price := ""
  duration := "1036800"
  verifiedDeal := false
  fastRetrieval := true

def sentDeal : Deal where
  uuid := ""
  sourceFileName := "volume.car"
  minerId := "f0100"
  dealCid := "bafydeal"
  payloadCid := "bafypayload"
  fileSourceUrl := ""
  md5 := ""
  startEpoch := 0
  pieceCid := ""
  fileSize := 0
  cost := ""

/-- A task that is rebuilt twice counts as two completed tasks, and minus one in
process; a backup of plan seven has no plan. -/
theorem not_consistent_again :
    ¬ Always step Consistent {} [.addPlan nightly "1", .addBackup 1 "2",
        .saveBackup [sentDeal] 1 1 "3", .addRebuild 1 1 "4", .rebuild 1 "5", .rebuild 1 "6"] ∧
      ¬ Always step Consistent {} [.addPlan nightly "1", .addBackup 7 "2"] := by
  constructor
  · intro halways
    exact absurd (halways _ List.prefix_rfl).rebuildsCounted.inProcess (by decide)
  · intro halways
    exact absurd (halways _ List.prefix_rfl).planOfTask (by decide)

end Examples

end VolumeEvent

end Fs3.Volume
