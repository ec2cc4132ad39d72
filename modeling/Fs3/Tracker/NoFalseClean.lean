import Fs3.Foundation.Histories
import Fs3.Tracker.DataUpdateTracker

/-! # No false clean

A scanner that gets a complete answer passes over the directories that the answer's filter does not
have. -/

namespace Fs3.Tracker

open Foundation Listing

variable {env : Env}

def Contains (env : Env) (bf : env.filters.Filter) (path : Name) : Prop :=
  ∀ dir, Above dir path → containsDir env bf dir = true

/-- Every complete answer has what was recorded in the cycles that it covers, and no path
or directory above it is found latest in an earlier cycle than that of its update. -/
structure NoFalseClean (s : System env.filters.Filter) : Prop where
  clean : ∀ response newest, s.answer = some (response, newest) → response.complete = true →
    ∀ update ∈ s.recorded, response.oldestIdx ≤ update.cycle → update.cycle ≤ newest →
      ∃ bf, response.filter = some bf ∧ Contains env bf update.path
  latest : ∀ update ∈ s.recorded, ∀ dir, Above dir update.path →
    update.cycle ≤ s.tracker.latestWithDir dir

section Filters

variable {bf : env.filters.Filter} {path : Name}

theorem Contains.mono {bf' : env.filters.Filter} (hcontains : Contains env bf path)
    (htest : ∀ key, env.filters.test bf key = true → env.filters.test bf' key = true) :
    Contains env bf' path := by
  intro dir habove
  have hdir := hcontains dir habove
  unfold containsDir at hdir ⊢
  split at hdir
  · cases hdir
  · exact htest _ hdir

theorem test_foldl_add {keys : List Name} {key : Name}
    (hkey : key ∈ keys ∨ env.filters.test bf key = true) :
    env.filters.test (keys.foldl env.filters.add bf) key = true := by
  induction keys generalizing bf with
  | nil => exact hkey.resolve_left (List.not_mem_nil)
  | cons first keys ih =>
    rw [List.foldl_cons]
    rcases hkey with hmem | htest
    · rcases List.mem_cons.mp hmem with rfl | hmem
      · exact ih (Or.inr (env.filters.test_add_self bf key))
      · exact ih (Or.inl hmem)
    · exact ih (Or.inr (env.filters.test_add bf first key htest))

theorem contains_of_plain (hplain : Plain path) (bf : env.filters.Filter) :
    Contains env ((updateKeys path).foldl env.filters.add bf) path := by
  intro dir habove
  obtain ⟨key, hmem, hkey⟩ := exists_mem_updateKeys hplain habove
  unfold containsDir
  rw [hkey]
  exact test_foldl_add (Or.inl hmem)

end Filters

/-! ## What a tracker covers -/

/-- A tracker covers updates: its filters are those of different cycles, none of the updates
is of a later one, and the filter of an update's cycle contains its path. -/
structure Covers (env : Env) (current : DataUpdateFilter env.filters.Filter)
    (history : List (DataUpdateFilter env.filters.Filter)) (recorded : List Update) : Prop where
  distinct : (current :: history).Pairwise fun first second => first.idx ≠ second.idx
  upToCurrent : ∀ update ∈ recorded, update.cycle ≤ current.idx
  contains : ∀ update ∈ recorded, ∀ f ∈ current :: history, f.idx = update.cycle →
    Contains env f.bf update.path

namespace Covers

variable {current : DataUpdateFilter env.filters.Filter}
  {history history' : List (DataUpdateFilter env.filters.Filter)} {recorded : List Update}

theorem of_subset {recorded' : List Update} (hcovers : Covers env current history recorded)
    (hsubset : ∀ update ∈ recorded', update ∈ recorded) :
    Covers env current history recorded' where
  distinct := hcovers.distinct
  upToCurrent := fun update hmem => hcovers.upToCurrent update (hsubset update hmem)
  contains := fun update hmem => hcovers.contains update (hsubset update hmem)

theorem of_perm (hcovers : Covers env current history recorded) (hperm : history'.Perm history) :
    Covers env current history' recorded where
  distinct := (List.Perm.pairwise_iff (fun hne => Ne.symm hne)
    (hperm.cons current)).mpr hcovers.distinct
  upToCurrent := hcovers.upToCurrent
  contains := fun update hmem f hf =>
    hcovers.contains update hmem f ((hperm.cons current).mem_iff.mp hf)

theorem of_sublist (hcovers : Covers env current history recorded)
    (hsublist : history'.Sublist history) : Covers env current history' recorded where
  distinct := hcovers.distinct.sublist (hsublist.cons_cons current)
  upToCurrent := hcovers.upToCurrent
  contains := fun update hmem f hf =>
    hcovers.contains update hmem f ((hsublist.cons_cons current).subset hf)

theorem removeOlderThan (hcovers : Covers env current history recorded) (n : Nat) :
    Covers env current (removeOlderThan env history n) recorded :=
  (hcovers.of_perm (env.sorter.perm history)).of_sublist (List.takeWhile_sublist _)

theorem find_mem {idx : Nat} {f : DataUpdateFilter env.filters.Filter}
    (hfind : find history idx = some f) : f ∈ history ∧ f.idx = idx :=
  ⟨List.mem_of_find?_eq_some hfind, by simpa using List.find?_some hfind⟩

end Covers

namespace DataUpdateTracker

variable {d : DataUpdateTracker env.filters.Filter} {recorded : List Update}

theorem filterOf_mem {idx : Nat} {f : DataUpdateFilter env.filters.Filter}
    (hfilter : d.filterOf idx = some f) : f ∈ d.current :: d.history ∧ f.idx = idx := by
  unfold filterOf at hfilter
  split at hfilter
  next f' hfind =>
    cases hfilter
    obtain ⟨hmem, hidx⟩ := Covers.find_mem hfind
    exact ⟨List.mem_cons_of_mem _ hmem, hidx⟩
  next =>
    split at hfilter
    next hidx =>
      cases hfilter
      exact ⟨List.mem_cons_self, hidx⟩
    next => cases hfilter

/-- A complete answer has merged the filter of every index, and still begins where it was
to begin. -/
theorem foldl_mergeIndex {indexes : List Nat}
    {acc : env.filters.Filter × BloomFilterResponse env.filters.Filter}
    (hcomplete : (indexes.foldl d.mergeIndex acc).2.complete = true) :
    acc.2.complete = true ∧ (indexes.foldl d.mergeIndex acc).2.oldestIdx = acc.2.oldestIdx ∧
      (∀ key, env.filters.test acc.1 key = true →
        env.filters.test (indexes.foldl d.mergeIndex acc).1 key = true) ∧
      ∀ idx ∈ indexes, ∃ f, d.filterOf idx = some f ∧ ∀ key, env.filters.test f.bf key = true →
        env.filters.test (indexes.foldl d.mergeIndex acc).1 key = true := by
  induction indexes generalizing acc with
  | nil => exact ⟨hcomplete, rfl, fun _ htest => htest, fun _ hmem => nomatch hmem⟩
  | cons first indexes ih =>
    rw [List.foldl_cons] at hcomplete ⊢
    obtain ⟨hstep, holdest, hkeeps, hrest⟩ := ih hcomplete
    -- One turn keeps an answer complete only when it has merged a filter.
    have hturn : ∃ f merged, d.filterOf first = some f ∧
        env.filters.merge acc.1 f.bf = some merged ∧ (d.mergeIndex acc first).1 = merged ∧
          acc.2.complete = true ∧ (d.mergeIndex acc first).2.oldestIdx = acc.2.oldestIdx := by
      unfold mergeIndex at hstep ⊢
      split at hstep
      · cases hstep
      next f hfilter =>
        split at hstep
        · cases hstep
        next merged hmerge =>
          refine ⟨f, merged, hfilter, hmerge, ?_⟩
          split at hstep
          next hfound =>
            rw [if_pos hfound]
            exact ⟨rfl, hstep, rfl⟩
          next hfound =>
            rw [if_neg hfound]
            exact ⟨rfl, hstep, rfl⟩
    obtain ⟨f, merged, hfilter, hmerge, hresult, hacc, holdest'⟩ := hturn
    rw [hresult] at hkeeps
    refine ⟨hacc, holdest.trans holdest', fun key htest => hkeeps key
      (env.filters.test_merge _ _ _ key hmerge (Or.inl htest)), fun idx hmem => ?_⟩
    rcases List.mem_cons.mp hmem with rfl | hmem
    · exact ⟨f, hfilter, fun key htest => hkeeps key
        (env.filters.test_merge _ _ _ key hmerge (Or.inr htest))⟩
    · exact hrest idx hmem

theorem contains_of_filterFrom (hcovers : Covers env d.current d.history recorded)
    {oldest newest : Nat} (hcomplete : (d.filterFrom oldest newest).complete = true)
    {update : Update} (hupdate : update ∈ recorded)
    (holdest : (d.filterFrom oldest newest).oldestIdx ≤ update.cycle)
    (hnewest : update.cycle ≤ newest) :
    ∃ bf, (d.filterFrom oldest newest).filter = some bf ∧ Contains env bf update.path := by
  obtain ⟨-, hbegins, -, hmerged⟩ := foldl_mergeIndex hcomplete
  have hmem : update.cycle ∈ List.range' oldest (newest + 1 - oldest) := by
    have hle : oldest ≤ update.cycle := Nat.le_trans (Nat.le_of_eq hbegins.symm) holdest
    rw [List.mem_range'_1]
    omega
  obtain ⟨f, hfilter, htest⟩ := hmerged update.cycle hmem
  obtain ⟨hf, hidx⟩ := filterOf_mem hfilter
  exact ⟨_, rfl, (hcovers.contains update hupdate f hf hidx).mono htest⟩

section

variable (hcovers : Covers env d.current d.history recorded) {update : Update}
  (hupdate : update ∈ recorded) {dir : Name} (habove : Above dir update.path)
include hcovers hupdate habove

theorem le_latestFrom {idx : Nat} (hle : update.cycle ≤ idx) :
    update.cycle ≤ d.latestFrom dir idx := by
  induction idx with
  | zero => exact hle
  | succ idx ih =>
    unfold latestFrom
    split
    · exact hle
    next f hfind =>
      split
      · exact hle
      next hcontains =>
        refine ih (Nat.le_of_lt_succ (Nat.lt_of_le_of_ne hle fun heq => hcontains ?_))
        obtain ⟨hf, hidx⟩ := Covers.find_mem hfind
        exact hcovers.contains update hupdate f (List.mem_cons_of_mem _ hf)
          (hidx.trans heq.symm) dir habove

theorem le_latestWithDir : update.cycle ≤ d.latestWithDir dir := by
  have hle := hcovers.upToCurrent update hupdate
  unfold latestWithDir
  split
  · exact hle
  · split
    · exact hle
    next hcontains =>
      refine le_latestFrom hcovers hupdate habove (Nat.le_sub_one_of_lt ?_)
      refine Nat.lt_of_le_of_ne hle fun heq => hcontains ?_
      rw [Bool.or_eq_true]
      have hcurrent := hcovers.contains update hupdate d.current List.mem_cons_self heq.symm
      exact Or.inl (hcurrent dir habove)

end

end DataUpdateTracker

/-! ## Steps -/

def lastFile {φ : Type} (drives : List (Option (SavedTracker φ × List Update))) :
    Option (SavedTracker φ × List Update) :=
  (drives.filterMap id).reverse.find? (zeroTime < ·.1.saved)

namespace System

variable {s : System env.filters.Filter}

/-- What an operation has to be: an update is one of a plain path; a request that begins
another cycle names one after all cycles with updates, whose index no filter of the history
has; a new process loads a file that was saved after the last update. -/
def Good (env : Env) (s : System env.filters.Filter) : Op → Prop
  | .markDirty bucket pre => skipsDirty env bucket = false → Plain (pathJoin bucket pre)
  | .collect path => skipsUpdate env path = false → Plain path
  | .cycleFilter request =>
    request.oldestClean = [] → request.current ≠ 0 → request.current ≠ s.tracker.current.idx →
      (∀ update ∈ s.recorded, update.cycle < request.current) ∧
        ∀ f ∈ s.tracker.history, f.idx ≠ request.current
  | .save _ _ => True
  | .restart =>
    match lastFile s.drives with
    | none => s.recorded = []
    | some file => ∀ update ∈ s.recorded, update ∈ file.2

/-- What good operations keep. -/
structure Inv (s : System env.filters.Filter) : Prop where
  tracker : Covers env s.tracker.current s.tracker.history s.recorded
  files : ∀ file recorded, some (file, recorded) ∈ s.drives →
    Covers env file.current file.history recorded
  answer : ∀ response newest, s.answer = some (response, newest) → response.complete = true →
    ∀ update ∈ s.recorded, response.oldestIdx ≤ update.cycle → update.cycle ≤ newest →
      ∃ bf, response.filter = some bf ∧ Contains env bf update.path

theorem Inv.noFalseClean (hinv : s.Inv) : NoFalseClean s where
  clean := hinv.answer
  latest := fun _ hupdate _ habove =>
    DataUpdateTracker.le_latestWithDir hinv.tracker hupdate habove

theorem Inv.start (env : Env) (drives : Nat) : (start env drives).Inv where
  tracker := ⟨List.pairwise_singleton _ _, fun _ hmem => (nomatch hmem), fun _ hmem => nomatch hmem⟩
  files := fun _ _ hmem => nomatch List.eq_of_mem_replicate hmem
  answer := fun _ _ hanswer => nomatch hanswer

theorem Inv.update (hinv : s.Inv) {path : Name} (hplain : Plain path) : (s.update path).Inv where
  tracker :=
    { distinct := by
        have hdistinct := hinv.tracker.distinct
        rw [List.pairwise_cons] at hdistinct ⊢
        exact hdistinct
      upToCurrent := by
        intro update hmem
        rcases List.mem_cons.mp hmem with rfl | hmem
        · exact Nat.le_refl _
        · exact hinv.tracker.upToCurrent update hmem
      contains := by
        intro update hmem f hf hidx
        rcases List.mem_cons.mp hmem with rfl | hmem
        · rcases List.mem_cons.mp hf with rfl | hf
          · exact contains_of_plain hplain _
          · exact absurd hidx.symm ((List.pairwise_cons.mp hinv.tracker.distinct).1 f hf)
        · rcases List.mem_cons.mp hf with rfl | hf
          · exact (hinv.tracker.contains update hmem _ List.mem_cons_self hidx).mono
              fun key htest => test_foldl_add (Or.inr htest)
          · exact hinv.tracker.contains update hmem f (List.mem_cons_of_mem _ hf) hidx }
  files := hinv.files
  answer := fun _ _ hanswer => nomatch hanswer

variable {request : BloomFilterRequest}

/-- What a tracker covers it covers after a request. -/
theorem covers_cycleFilter (hinv : s.Inv) (hgood : s.Good env (.cycleFilter request)) :
    Covers env (s.tracker.cycleFilter request).2.current
      (s.tracker.cycleFilter request).2.history s.recorded := by
  unfold DataUpdateTracker.cycleFilter
  split
  · exact hinv.tracker
  next hclean =>
    rw [Decidable.not_not] at hclean
    split
    · split
      · exact hinv.tracker
      · exact hinv.tracker.of_perm (env.sorter.perm _)
    next hcurrent =>
      refine Covers.removeOlderThan ?_ request.oldest
      unfold DataUpdateTracker.moveTo
      split
      next hmoves =>
        obtain ⟨hlater, hunused⟩ := hgood hclean hcurrent (Ne.symm hmoves)
        have hold : ∀ f ∈ s.tracker.history ++ [s.tracker.current],
            f ∈ s.tracker.current :: s.tracker.history := by
          intro f hf
          rw [List.mem_append, List.mem_singleton] at hf
          exact List.mem_cons.mpr hf.symm
        exact
          { distinct := by
              refine List.pairwise_cons.mpr ⟨fun f hf => ?_, ?_⟩
              · rcases List.mem_cons.mp (hold f hf) with rfl | hf
                · exact Ne.symm hmoves
                · exact Ne.symm (hunused f hf)
              · exact (List.Perm.pairwise_iff (fun hne => Ne.symm hne)
                  (List.perm_append_singleton _ _)).mpr hinv.tracker.distinct
            upToCurrent := fun update hmem => Nat.le_of_lt (hlater update hmem)
            contains := by
              intro update hmem f hf hidx
              rcases List.mem_cons.mp hf with rfl | hf
              · exact absurd hidx (Nat.ne_of_gt (hlater update hmem))
              · exact hinv.tracker.contains update hmem f (hold f hf) hidx }
      next => exact hinv.tracker

theorem contains_of_cycleFilter (hinv : s.Inv) (hgood : s.Good env (.cycleFilter request))
    (hcomplete : (s.tracker.cycleFilter request).1.complete = true) {update : Update}
    (hupdate : update ∈ s.recorded)
    (holdest : (s.tracker.cycleFilter request).1.oldestIdx ≤ update.cycle)
    (hnewest : update.cycle ≤ s.tracker.newestOf request) :
    ∃ bf, (s.tracker.cycleFilter request).1.filter = some bf ∧ Contains env bf update.path := by
  have hcovers := covers_cycleFilter hinv hgood
  unfold DataUpdateTracker.newestOf at hnewest
  unfold DataUpdateTracker.cycleFilter at hcovers hcomplete holdest ⊢
  by_cases hclean : request.oldestClean = []
  · rw [if_neg (not_not.mpr hclean)] at hcovers hcomplete holdest ⊢
    by_cases hcurrent : request.current = 0
    · rw [if_pos hcurrent] at hcovers hcomplete holdest hnewest ⊢
      by_cases hempty : s.tracker.history = []
      · rw [if_pos hempty] at hcovers hcomplete holdest ⊢
        exact DataUpdateTracker.contains_of_filterFrom hcovers hcomplete hupdate holdest hnewest
      · rw [if_neg hempty] at hcovers hcomplete holdest ⊢
        exact DataUpdateTracker.contains_of_filterFrom hcovers hcomplete hupdate holdest hnewest
    · rw [if_neg hcurrent] at hcovers hcomplete holdest hnewest ⊢
      exact DataUpdateTracker.contains_of_filterFrom hcovers hcomplete hupdate holdest hnewest
  · rw [if_pos hclean] at hcomplete
    cases hcomplete

theorem Inv.cycleFilter (hinv : s.Inv) (hgood : s.Good env (.cycleFilter request)) :
    (s.step (.cycleFilter request)).Inv where
  tracker := covers_cycleFilter hinv hgood
  files := hinv.files
  answer := by
    intro response newest hanswer hcomplete update hupdate holdest hnewest
    have hpair : (s.tracker.cycleFilter request).1 = response ∧
        s.tracker.newestOf request = newest := Prod.mk.inj (Option.some.inj hanswer)
    rw [← hpair.1] at hcomplete holdest ⊢
    rw [← hpair.2] at hnewest
    exact contains_of_cycleFilter hinv hgood hcomplete hupdate holdest hnewest

theorem Inv.forget (hinv : s.Inv) : Inv { s with answer := none } :=
  ⟨hinv.tracker, hinv.files, fun _ _ hanswer => nomatch hanswer⟩

theorem Inv.save (hinv : s.Inv) (now : Int) (writes : Nat → Write) :
    (s.step (.save now writes)).Inv := by
  rw [step]
  split
  · refine ⟨hinv.tracker, fun file recorded hmem => ?_, fun _ _ hanswer => nomatch hanswer⟩
    obtain ⟨i, hi, hfile⟩ := List.mem_mapIdx.mp hmem
    unfold saveTo at hfile
    split at hfile
    · cases hfile
      exact hinv.tracker
    · exact hinv.files file recorded (hfile ▸ List.getElem_mem hi)
    · cases hfile
  · exact hinv.forget

/-- What a new tracker has loaded. -/
theorem load_eq (d : DataUpdateTracker env.filters.Filter) (hzero : d.saved = zeroTime)
    (drives : List (Option (SavedTracker env.filters.Filter × List Update))) :
    (d.load (drives.map (Option.map Prod.fst))).saved = zeroTime ∧
      (d.load (drives.map (Option.map Prod.fst))).current =
        (lastFile drives).elim d.current (·.1.current) ∧
      (d.load (drives.map (Option.map Prod.fst))).history =
        (lastFile drives).elim d.history (·.1.history) := by
  induction drives using List.reverseRecOn with
  | nil => exact ⟨hzero, rfl, rfl⟩
  | append_singleton drives drive ih =>
    obtain ⟨hsaved, hcurrent, hhistory⟩ := ih
    have hload : d.load ((drives ++ [drive]).map (Option.map Prod.fst)) =
        (drive.map Prod.fst).elim (d.load (drives.map (Option.map Prod.fst)))
          (d.load (drives.map (Option.map Prod.fst))).deserialize := by
      unfold DataUpdateTracker.load
      rw [List.map_append, List.foldl_append]
      rfl
    rw [hload]
    cases drive with
    | none =>
      have hlast : lastFile (drives ++ [none]) = lastFile drives := by simp [lastFile]
      rw [hlast]
      exact ⟨hsaved, hcurrent, hhistory⟩
    | some file =>
      have hlast : lastFile (drives ++ [some file]) =
          if zeroTime < file.1.saved then some file else lastFile drives := by
        simp [lastFile, List.find?_cons]
        split <;> simp_all
      rw [hlast, Option.map_some, Option.elim_some]
      unfold DataUpdateTracker.deserialize
      rw [hsaved]
      split
      next hnewer => exact ⟨rfl, rfl, rfl⟩
      next hnewer => exact ⟨hsaved, hcurrent, hhistory⟩

theorem mem_of_lastFile {φ : Type} {drives : List (Option (SavedTracker φ × List Update))}
    {file : SavedTracker φ × List Update} (hlast : lastFile drives = some file) :
    some file ∈ drives := by
  have hmem := List.mem_of_find?_eq_some hlast
  rw [List.mem_reverse] at hmem
  simpa using hmem

theorem Inv.restart (hinv : s.Inv) (hgood : s.Good env .restart) : (s.step .restart).Inv := by
  refine ⟨?_, hinv.files, fun _ _ hanswer => nomatch hanswer⟩
  obtain ⟨-, hcurrent, hhistory⟩ := load_eq (newDataUpdateTracker env) rfl s.drives
  change Covers env ((newDataUpdateTracker env).load (s.drives.map (Option.map Prod.fst))).current
    ((newDataUpdateTracker env).load (s.drives.map (Option.map Prod.fst))).history s.recorded
  rw [hcurrent, hhistory]
  unfold Good at hgood
  cases hlast : lastFile s.drives with
  | none =>
    rw [hlast] at hgood
    rw [hgood]
    exact (Inv.start env 0).tracker
  | some file =>
    rw [hlast] at hgood
    exact (hinv.files file.1 file.2 (mem_of_lastFile hlast)).of_subset hgood

theorem Inv.step {op : Op} (hinv : s.Inv) (hgood : s.Good env op) : (s.step op).Inv := by
  cases op with
  | markDirty _ _ | collect _ =>
    rw [System.step]
    split
    · exact hinv.forget
    next hskips => exact hinv.update (hgood (Bool.not_eq_true _ ▸ hskips))
  | cycleFilter request => exact hinv.cycleFilter hgood
  | save now writes => exact hinv.save now writes
  | restart => exact hinv.restart hgood

/-- In a run of good operations nothing that was updated is taken to be clean. -/
theorem noFalseClean_of_good (env : Env) (drives : Nat) (ops : List Op)
    (hgood : Guarded step (Good env) (System.start env drives) ops) :
    Always step NoFalseClean (System.start env drives) ops :=
  (hgood.always (fun _ _ hinv hop => hinv.step hop) (Inv.start env drives)).imp
    fun _ hinv => hinv.noFalseClean

/-! ## A run and two that lose an update -/

def exactFilters : BloomFilters where
  Filter := List Name
  new := []
  add := fun bf key => key :: bf
  test := fun bf key => bf.contains key
  merge := fun bf other => some (bf ++ other)
  test_add_self := by simp
  test_add := by
    intro bf key key' htest
    simp only [List.contains_cons, htest, Bool.or_true]
  test_merge := by
    intro bf other merged key hmerge htest
    cases hmerge
    simpa using htest

def exactEnv : Env where
  filters := exactFilters
  checkValidBucketName := fun _ => true
  sorter := .stable _
  debug := false

/-- An update of an object and the next cycle. -/
theorem noFalseClean_update :
    Always step NoFalseClean (System.start exactEnv 1)
      [.markDirty "bucket".toList "dir/object".toList,
        .cycleFilter { oldest := 1, current := 2 }] := by
  refine noFalseClean_of_good exactEnv 1 _
    (guarded_cons.mpr ⟨fun _ => ⟨?_, ?_, ?_, ?_⟩, guarded_cons.mpr ⟨?_, guarded_nil⟩⟩)
  · decide
  · decide
  · decide
  · decide
  · intro _ _ _
    refine ⟨fun update hmem => ?_, fun f hmem => nomatch hmem⟩
    cases List.mem_singleton.mp hmem
    decide

/-- A file on the second drive that could not be written again, and is loaded last. -/
def staleRun : List Op :=
  [.save 1 fun _ => .written, .markDirty "bucket".toList "object".toList,
    .save 2 fun i => if i = 0 then .written else .failed, .restart,
    .cycleFilter { oldest := 1, current := 2 }]

def namedRun : List Op :=
  [.markDirty "bucket".toList "dir__XLDIR__/object".toList,
    .cycleFilter { oldest := 1, current := 2 }]

theorem not_noFalseClean_of_answer {s : System exactEnv.filters.Filter} {update : Update}
    {dir : Name} (hrecorded : update ∈ s.recorded) (habove : Above dir update.path)
    (hanswer : (s.answer.map fun answer => (answer.1.complete, answer.1.oldestIdx, answer.2)) =
      some (true, 1, 2)) (hcycle : update.cycle = 1)
    (hmissing : (s.answer.bind fun answer => answer.1.filter).map
      (containsDir exactEnv · dir) = some false) :
    ¬ NoFalseClean s := by
  intro hclean
  obtain ⟨⟨response, newest⟩, hsome, hshape⟩ := Option.map_eq_some_iff.mp hanswer
  obtain ⟨hcomplete, hpair⟩ := Prod.mk.inj hshape
  obtain ⟨holdest, hnewest⟩ := Prod.mk.inj hpair
  dsimp only at hcomplete holdest hnewest
  obtain ⟨bf, hbf, hcontains⟩ := hclean.clean response newest hsome hcomplete update hrecorded
    (by omega) (by omega)
  rw [hsome, Option.bind_some, hbf, Option.map_some, hcontains dir habove] at hmissing
  cases hmissing

/-- A stale file is loaded, and a directory is looked up under another key than it was
written with: both complete answers do not have an update of their cycles. -/
theorem not_noFalseClean_runs :
    ¬ Always step NoFalseClean (System.start exactEnv 2) staleRun ∧
      ¬ Always step NoFalseClean (System.start exactEnv 0) namedRun := by
  constructor
  · intro halways
    refine @not_noFalseClean_of_answer _ ⟨"bucket/object".toList, 1⟩ "bucket/object".toList
      ?_ ⟨?_, ?_⟩ ?_ rfl ?_ (halways _ List.prefix_rfl)
    · exact List.mem_singleton.mpr rfl
    · decide
    · decide
    · decide +kernel
    · decide +kernel
  · intro halways
    refine @not_noFalseClean_of_answer _ ⟨"bucket/dir__XLDIR__/object".toList, 1⟩
      "bucket/dir__XLDIR__".toList ?_ ⟨?_, ?_⟩ ?_ rfl ?_ (halways _ List.prefix_rfl)
    · exact List.mem_singleton.mpr rfl
    · decide
    · decide
    · decide +kernel
    · decide +kernel

end System

end Fs3.Tracker
