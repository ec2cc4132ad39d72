import Mathlib.Data.List.Sort
import Fs3.Foundation.Histories
import Fs3.Runtime.Time
import Fs3.Storage.Error

/-! # One object in several pools

A request on an object asks every pool for it, one after another, and then works in the pool that
it has chosen from the answers. -/

namespace Fs3.Pools

/-- A version of the object. -/
structure Version where
  modTime : Time
  deleted : Bool
  deriving DecidableEq, Repr

/-- What keeps a pool from giving the object. -/
inductive PoolErr where
  | objectNotFound
  | other (err : StorageErr)
  deriving DecidableEq, Repr

/-- What a pool answers, `poolObjInfo`: the fields of the object's information that are
looked at, and the error. -/
structure PoolObjInfo where
  poolIndex : Nat
  modTime : Time := Time.zero
  /-- Whether the information has the name of the object. -/
  named : Bool := false
  deleteMarker : Bool := false
  err : Option PoolErr := none
  deriving DecidableEq, Repr

/-- `GetObjectInfo` of a pool without a version id. -/
def getObjectInfo (poolIndex : Nat) : List Version → PoolObjInfo
  | [] => { poolIndex := poolIndex, err := some .objectNotFound }
  | latest :: _ =>
    { poolIndex := poolIndex
      modTime := latest.modTime
      named := true
      deleteMarker := latest.deleted
      err := if latest.deleted then some .objectNotFound else none }

/-- `getPoolIdxExisting`, from the answers in the order they were sorted in. -/
def getPoolIdxExisting : List PoolObjInfo → Except PoolErr Nat
  | [] => .error .objectNotFound
  | pinfo :: rest =>
    match pinfo.err with
    | none => .ok pinfo.poolIndex
    | some .objectNotFound =>
      if pinfo.deleteMarker && pinfo.named then .ok pinfo.poolIndex
      else getPoolIdxExisting rest
    | some (.other err) => .error (.other err)

/-- `getPoolIdx`: a pool with space, where no pool has the object. -/
def getPoolIdx (sorted : List PoolObjInfo) (available : Option Nat) : Except PoolErr Nat :=
  match getPoolIdxExisting sorted with
  | .error .objectNotFound =>
    match available with
    | some idx => .ok idx
    | none => .error (.other (.unexpected "disk full"))
  | chosen => chosen

def sortResults (results : List PoolObjInfo) : List PoolObjInfo :=
  results.insertionSort fun a b =>
    b.modTime < a.modTime ∨ (a.modTime = b.modTime ∧ a.poolIndex ≤ b.poolIndex)

/-- The loop that `GetObjectNInfo` and `GetObjectInfo` go through the sorted results with:
the pool whose object is given. -/
def firstFound : List PoolObjInfo → Except PoolErr Nat
  | [] => .error .objectNotFound
  | res :: rest =>
    match res.err with
    | none => .ok res.poolIndex
    | some .objectNotFound => firstFound rest
    | some (.other err) => .error (.other err)

/-- `GetObjectNInfo` and `GetObjectInfo` without a version id. -/
def getObject (results : List PoolObjInfo) : Except PoolErr Nat := firstFound (sortResults results)

/-- `PutObject` of a pool: another version, or without versioning the only one. -/
def putObject (versioned : Bool) (modTime : Time) (versions : List Version) : List Version :=
  let version : Version := { modTime := modTime, deleted := false }
  if versioned then versions.orderedInsert (fun a b => b.modTime ≤ a.modTime) version
  else [version]

/-- `DeleteObject` of a pool without a version id, where the pool has the object. -/
def deleteObject (versioned : Bool) (modTime : Time) (versions : List Version) : List Version :=
  match versions with
  | [] => []
  | _ :: _ =>
    if versioned then
      versions.orderedInsert (fun a b => b.modTime ≤ a.modTime)
        { modTime := modTime, deleted := true }
    else []

inductive Kind where
  | put
  | delete
  deriving DecidableEq, Repr

inductive Request where
  | idle
  /-- It is asking the pools. -/
  | choosing (kind : Kind) (answers : List PoolObjInfo)
  /-- It has chosen a pool. -/
  | writing (kind : Kind) (idx : Nat)
  /-- A `GetObject` or `HeadObject`, with how many puts had started before if it came after a
  delete and no put had started since. -/
  | getting (since : Option Nat) (answers : List PoolObjInfo)

/-- The object, and the requests on it. -/
structure State where
  pools : Nat → List Version := fun _ => []
  requests : Nat → Request := fun _ => .idle
  /-- A delete has completed and no put has started since. -/
  quiet : Bool := false
  putsStarted : Nat := 0
  /-- The answers to gets, each with whether a delete had completed before it started, no put
  started since, and every pool answered. -/
  answered : List (Bool × Except PoolErr Nat) := []

inductive Event where
  | putObject (request : Nat)
  | deleteObject (request : Nat)
  | getObject (request : Nat)
  /-- A request asks a pool, which can fail to answer. -/
  | ask (request pool : Nat) (failure : Option StorageErr)
  /-- A put or delete sorts its answers, newest first, and chooses. -/
  | choose (request : Nat) (sorted : List PoolObjInfo) (available : Option Nat)
  /-- It writes to the pool it has chosen, which can fail. -/
  | write (request : Nat) (modTime : Time) (succeeds : Bool)
  /-- A get answers. -/
  | answer (request : Nat)

namespace State

def setRequest (s : State) (request : Nat) (next : Request) : State :=
  { s with requests := Function.update s.requests request next }

def setPool (s : State) (pool : Nat) (versions : List Version) : State :=
  { s with pools := Function.update s.pools pool versions }

def info (s : State) (pool : Nat) : PoolObjInfo := getObjectInfo pool (s.pools pool)

end State

variable (count : Nat) (versioned : Bool)

def complete (answers : List PoolObjInfo) : Bool :=
  (List.range count).all fun pool => answers.any fun answer => answer.poolIndex == pool

def isSorting (sorted answers : List PoolObjInfo) : Bool :=
  sorted.isPerm answers && decide (sorted.Pairwise fun a b => ¬ a.modTime < b.modTime)

def addAnswer (answers : List PoolObjInfo) (pool : Nat) (answer : PoolObjInfo) :
    List PoolObjInfo :=
  if decide (pool < count) && !answers.any fun other => other.poolIndex == pool then
    answers ++ [answer]
  else answers

def step (s : State) : Event → State
  | .putObject request =>
    match s.requests request with
    | .idle =>
      { s.setRequest request (.choosing .put []) with
        quiet := false
        putsStarted := s.putsStarted + 1 }
    | _ => s
  | .deleteObject request =>
    match s.requests request with
    | .idle => s.setRequest request (.choosing .delete [])
    | _ => s
  | .getObject request =>
    match s.requests request with
    | .idle => s.setRequest request (.getting (if s.quiet then some s.putsStarted else none) [])
    | _ => s
  | .ask request pool failure =>
    let answer := match failure with
      | none => s.info pool
      | some err => { poolIndex := pool, err := some (.other err) }
    match s.requests request with
    | .choosing kind answers =>
      s.setRequest request (.choosing kind (addAnswer count answers pool answer))
    | .getting since answers =>
      s.setRequest request (.getting since (addAnswer count answers pool answer))
    | _ => s
  | .choose request sorted available =>
    match s.requests request with
    | .choosing kind answers =>
      if complete count answers && isSorting sorted answers then
        match kind with
        | .put =>
          match getPoolIdx sorted available with
          | .ok idx => s.setRequest request (.writing .put idx)
          | .error _ => s.setRequest request .idle
        | .delete =>
          match getPoolIdxExisting sorted with
          | .ok idx => s.setRequest request (.writing .delete idx)
          -- There is nothing to delete.
          | .error .objectNotFound => { s.setRequest request .idle with quiet := true }
          | .error (.other _) => s.setRequest request .idle
      else s
    | _ => s
  | .write request modTime succeeds =>
    match s.requests request with
    | .writing .put idx =>
      if succeeds then
        (s.setRequest request .idle).setPool idx (putObject versioned modTime (s.pools idx))
      else s.setRequest request .idle
    | .writing .delete idx =>
      if succeeds then
        { (s.setRequest request .idle).setPool idx
            (deleteObject versioned modTime (s.pools idx)) with quiet := true }
      else s.setRequest request .idle
    | _ => s
  | .answer request =>
    match s.requests request with
    | .getting since answers =>
      if complete count answers then
        { s.setRequest request .idle with
          answered := (since == some s.putsStarted &&
            answers.all fun answer => answer.err == none || answer.err == some .objectNotFound,
            getObject answers) :: s.answered }
      else s
    | _ => s

end Fs3.Pools

/-! ## The object stays in one pool as long as choices are not overtaken

Where the versions of the object lie in one pool, that pool is chosen, and a delete
there hides the object. A request that writes although another one has changed the answer
in between can put versions into a second pool, and then a delete in one of them shows
what the other one has.
-/

namespace Fs3.Pools

open Foundation

variable (count : Nat) (versioned : Bool)

namespace State

variable (s : State)

def chosenNow : Except PoolErr Nat :=
  getPoolIdxExisting (sortResults ((List.range count).map s.info))

/-- A chosen pool would still be chosen, or no pool has the object any more. -/
def StillChosen (idx : Nat) : Prop :=
  s.chosenNow count = .ok idx ∨ s.chosenNow count = .error .objectNotFound

instance (idx : Nat) : Decidable (s.StillChosen count idx) := inferInstanceAs (Decidable (_ ∨ _))

def OnePool : Prop :=
  ∀ i < count, ∀ j < count, s.pools i ≠ [] → s.pools j ≠ [] → i = j

/-- A get that started after a delete, with no put started since, finds nothing. -/
def DeletesHold : Prop :=
  ∀ answer ∈ s.answered, answer.1 = true → answer.2 = .error .objectNotFound

def Lawful : Prop := s.OnePool count ∧ s.DeletesHold

end State

def Good (s : State) : Event → Prop
  | .choose request sorted _ =>
    match s.requests request with
    | .choosing .delete _ =>
      getPoolIdxExisting sorted = .error .objectNotFound →
        s.chosenNow count = .error .objectNotFound
    | _ => True
  | .write request modTime true =>
    match s.requests request with
    | .writing .put idx => s.StillChosen count idx ∧ s.quiet = false
    | .writing .delete idx =>
      s.StillChosen count idx ∧ ∀ version ∈ s.pools idx, version.modTime < modTime
    | _ => True
  | _ => True

/-! ## The choice -/

section Choice

variable {count}

theorem mem_sortResults {results : List PoolObjInfo} {result : PoolObjInfo} :
    result ∈ sortResults results ↔ result ∈ results :=
  (List.perm_insertionSort _ results).mem_iff

theorem getPoolIdxExisting_ok {sorted : List PoolObjInfo} {idx : Nat}
    (hok : getPoolIdxExisting sorted = .ok idx) :
    ∃ pinfo ∈ sorted, pinfo.poolIndex = idx ∧ (pinfo.err = none ∨ pinfo.named = true) := by
  induction sorted with
  | nil => exact nomatch hok
  | cons pinfo rest ih =>
    unfold getPoolIdxExisting at hok
    split at hok
    next hnone =>
      injection hok with hidx
      exact ⟨pinfo, List.mem_cons_self, hidx, Or.inl hnone⟩
    next =>
      split at hok
      next hmarker =>
        injection hok with hidx
        exact ⟨pinfo, List.mem_cons_self, hidx, Or.inr (Bool.and_eq_true _ _ ▸ hmarker).2⟩
      next =>
        obtain ⟨found, hmem, hfound⟩ := ih hok
        exact ⟨found, List.mem_cons_of_mem _ hmem, hfound⟩
    next => exact nomatch hok

theorem getPoolIdxExisting_notFound {sorted : List PoolObjInfo}
    (hnone : getPoolIdxExisting sorted = .error .objectNotFound) :
    ∀ pinfo ∈ sorted, pinfo.err = some .objectNotFound ∧
      (pinfo.deleteMarker && pinfo.named) = false := by
  induction sorted with
  | nil => exact nofun
  | cons pinfo rest ih =>
    unfold getPoolIdxExisting at hnone
    split at hnone
    next => exact nomatch hnone
    next herr =>
      split at hnone
      next => exact nomatch hnone
      next hmarker =>
        exact List.forall_mem_cons.mpr ⟨⟨herr, by simpa using hmarker⟩, ih hnone⟩
    next => injection hnone with hother; exact nomatch hother

variable {s : State}

theorem pools_of_chosenNow_ok {idx : Nat} (hok : s.chosenNow count = .ok idx) :
    idx < count ∧ s.pools idx ≠ [] := by
  obtain ⟨pinfo, hmem, hidx, hfound⟩ := getPoolIdxExisting_ok hok
  obtain ⟨pool, hpool, rfl⟩ := List.mem_map.mp (mem_sortResults.mp hmem)
  unfold State.info getObjectInfo at hidx hfound
  split at hidx
  next hempty =>
    rw [hempty] at hfound
    rcases hfound with herr | hnamed
    · exact nomatch herr
    · exact nomatch hnamed
  next latest rest hversions =>
    subst hidx
    refine ⟨List.mem_range.mp hpool, ?_⟩
    rw [hversions]
    exact List.cons_ne_nil _ _

theorem pools_of_chosenNow_notFound (hnone : s.chosenNow count = .error .objectNotFound) :
    ∀ pool < count, s.pools pool = [] := by
  intro pool hpool
  have hmem : s.info pool ∈ sortResults ((List.range count).map s.info) :=
    mem_sortResults.mpr (List.mem_map_of_mem (List.mem_range.mpr hpool))
  obtain ⟨herr, hmarker⟩ := getPoolIdxExisting_notFound hnone _ hmem
  unfold State.info getObjectInfo at herr hmarker
  split at herr
  next hempty => exact hempty
  next latest rest hversions =>
    rw [hversions] at hmarker
    cases hdeleted : latest.deleted with
    | true => simp [hdeleted] at hmarker
    | false => simp [hdeleted] at herr

theorem empty_of_stillChosen {idx : Nat} (hone : s.OnePool count)
    (hstill : s.StillChosen count idx) : ∀ pool < count, pool ≠ idx → s.pools pool = [] := by
  intro pool hpool hne
  rcases hstill with hok | hnone
  · obtain ⟨hidx, hversions⟩ := pools_of_chosenNow_ok hok
    by_contra hother
    exact hne (hone pool hpool idx hidx hother hversions)
  · exact pools_of_chosenNow_notFound hnone pool hpool

end Choice

section Reading

variable {count}

theorem err_info_of_empty {s : State} {pool : Nat} (hempty : s.pools pool = []) :
    (s.info pool).err = some .objectNotFound := by
  unfold State.info
  rw [hempty]
  rfl

theorem firstFound_notFound {results : List PoolObjInfo}
    (hall : ∀ result ∈ results, result.err = some .objectNotFound) :
    firstFound results = .error .objectNotFound := by
  induction results with
  | nil => rfl
  | cons result rest ih =>
    obtain ⟨hfirst, hrest⟩ := List.forall_mem_cons.mp hall
    unfold firstFound
    rw [hfirst]
    exact ih hrest

theorem err_deleteObject {versioned : Bool} {modTime : Time} {versions : List Version} {pool : Nat}
    (hnewer : ∀ version ∈ versions, version.modTime < modTime) :
    (getObjectInfo pool (deleteObject versioned modTime versions)).err =
      some .objectNotFound := by
  unfold deleteObject
  split
  next => rfl
  next latest rest =>
    split
    next =>
      have hfirst : latest.modTime ≤ modTime := (hnewer latest List.mem_cons_self).le
      rw [List.orderedInsert_cons, if_pos hfirst]
      rfl
    next => rfl

theorem mem_addAnswer {answers : List PoolObjInfo} {pool : Nat} {answer other : PoolObjInfo}
    (hmem : other ∈ addAnswer count answers pool answer) :
    other ∈ answers ∨ (pool < count ∧ other = answer) := by
  unfold addAnswer at hmem
  split at hmem
  next hnew =>
    rcases List.mem_append.mp hmem with hold | hlast
    · exact Or.inl hold
    · have hpool : pool < count := by
        rw [Bool.and_eq_true] at hnew
        exact of_decide_eq_true hnew.1
      exact Or.inr ⟨hpool, List.mem_singleton.mp hlast⟩
  next => exact Or.inl hmem

end Reading

/-! ## The invariant -/

/-- What holds in every state as long as no choice is overtaken. -/
structure State.Inv (s : State) : Prop where
  onePool : s.OnePool count
  /-- After a delete no pool gives the object. -/
  hidden : s.quiet = true → ∀ pool < count, (s.info pool).err = some .objectNotFound
  /-- Nor has any that answered a get that started since. -/
  getting : ∀ request since answers, s.requests request = .getting (some since) answers →
    since ≤ s.putsStarted ∧
      (since = s.putsStarted → s.quiet = true ∧ ∀ answer ∈ answers, answer.err ≠ none)
  deletesHold : s.DeletesHold

section Step

variable {count versioned} {s : State}

theorem State.Inv.setRequest (hinv : s.Inv count) {request : Nat} {next : Request}
    (hnext : ∀ since answers, next = .getting (some since) answers →
      since ≤ s.putsStarted ∧
        (since = s.putsStarted → s.quiet = true ∧ ∀ answer ∈ answers, answer.err ≠ none)) :
    (s.setRequest request next).Inv count := by
  refine { hinv with getting := fun other since answers hother => ?_ }
  by_cases hsame : other = request
  · exact hnext since answers (by simpa [State.setRequest, hsame] using hother)
  · exact hinv.getting other since answers (by simpa [State.setRequest, hsame] using hother)

theorem State.Inv.completed (hinv : s.Inv count)
    (hhidden : ∀ pool < count, (s.info pool).err = some .objectNotFound) :
    State.Inv count { s with quiet := true } := by
  refine { hinv with hidden := fun _ => hhidden, getting := fun request since answers hget => ?_ }
  obtain ⟨hle, hsince⟩ := hinv.getting request since answers hget
  exact ⟨hle, fun heq => ⟨rfl, (hsince heq).2⟩⟩

theorem inv_putObject (hinv : s.Inv count) (request : Nat) :
    (step count versioned s (.putObject request)).Inv count := by
  unfold step
  simp only
  split
  next =>
    have hnext : (s.setRequest request (.choosing .put [])).Inv count := hinv.setRequest nofun
    refine { hnext with hidden := nofun, getting := fun other since answers hget => ?_ }
    have hle := (hnext.getting other since answers hget).1
    change since ≤ s.putsStarted at hle
    refine ⟨Nat.le_succ_of_le hle, fun heq => ?_⟩
    change since = s.putsStarted + 1 at heq
    omega
  next => exact hinv

theorem inv_getObject (hinv : s.Inv count) (request : Nat) :
    (step count versioned s (.getObject request)).Inv count := by
  unfold step
  simp only
  split
  next =>
    refine hinv.setRequest fun since answers hget => ?_
    injection hget with hsince hanswers
    subst hanswers
    split at hsince
    next hquiet =>
      injection hsince with hsince
      subst hsince
      exact ⟨Nat.le_refl _, fun _ => ⟨hquiet, nofun⟩⟩
    next => exact nomatch hsince
  next => exact hinv

theorem inv_ask (hinv : s.Inv count) (request pool : Nat) (failure : Option StorageErr) :
    (step count versioned s (.ask request pool failure)).Inv count := by
  unfold step
  simp only
  split
  next => exact hinv.setRequest nofun
  next since answers hget =>
    refine hinv.setRequest fun since' answers' hnext => ?_
    injection hnext with hsince hanswers
    subst hsince
    subst hanswers
    obtain ⟨hle, hold⟩ := hinv.getting request since' answers hget
    refine ⟨hle, fun heq => ⟨(hold heq).1, fun answer hanswer => ?_⟩⟩
    rcases mem_addAnswer hanswer with hmem | ⟨hpool, rfl⟩
    · exact (hold heq).2 answer hmem
    · cases failure with
      | none =>
        simp only
        rw [hinv.hidden (hold heq).1 pool hpool]
        exact nofun
      | some err => exact nofun
  next => exact hinv

theorem inv_choose (hinv : s.Inv count) (request : Nat) (sorted : List PoolObjInfo)
    (available : Option Nat) (hgood : Good count s (.choose request sorted available)) :
    (step count versioned s (.choose request sorted available)).Inv count := by
  unfold step
  simp only
  split
  next kind answers hchoosing =>
    split
    next =>
      cases kind with
      | put =>
        simp only
        split
        next => exact hinv.setRequest nofun
        next => exact hinv.setRequest nofun
      | delete =>
        simp only
        split
        next => exact hinv.setRequest nofun
        next hnone =>
          simp only [Good, hchoosing] at hgood
          have hempty := pools_of_chosenNow_notFound (hgood hnone)
          have hnext : (s.setRequest request .idle).Inv count := hinv.setRequest nofun
          exact hnext.completed fun pool hpool => err_info_of_empty (hempty pool hpool)
        next => exact hinv.setRequest nofun
    next => exact hinv
  next => exact hinv

theorem State.OnePool.setPool {idx : Nat} {versions : List Version}
    (hempty : ∀ pool < count, pool ≠ idx → s.pools pool = []) :
    (s.setPool idx versions).OnePool count := by
  have hidx : ∀ pool < count, (s.setPool idx versions).pools pool ≠ [] → pool = idx := by
    intro pool hpool hne
    by_contra hother
    apply hne
    simpa [State.setPool, hother] using hempty pool hpool hother
  intro i hi j hj hi' hj'
  rw [hidx i hi hi', hidx j hj hj']

theorem inv_write (hinv : s.Inv count) (request : Nat) (modTime : Time) (succeeds : Bool)
    (hgood : Good count s (.write request modTime succeeds)) :
    (step count versioned s (.write request modTime succeeds)).Inv count := by
  unfold step
  simp only
  have hidle : (s.setRequest request .idle).Inv count := hinv.setRequest nofun
  split
  next idx hwriting =>
    split
    next hsucceeds =>
      simp only [hsucceeds, Good, hwriting] at hgood
      obtain ⟨hstill, hquiet⟩ := hgood
      refine { hidle with
        onePool := State.OnePool.setPool (empty_of_stillChosen hinv.onePool hstill)
        hidden := fun htrue => ?_ }
      change s.quiet = true at htrue
      rw [hquiet] at htrue
      exact nomatch htrue
    next => exact hidle
  next idx hwriting =>
    split
    next hsucceeds =>
      simp only [hsucceeds, Good, hwriting] at hgood
      obtain ⟨hstill, hnewer⟩ := hgood
      have hempty := empty_of_stillChosen hinv.onePool hstill
      have hhidden : ∀ pool < count, (((s.setRequest request .idle).setPool idx
          (deleteObject versioned modTime (s.pools idx))).info pool).err =
          some .objectNotFound := by
        intro pool hpool
        by_cases hsame : pool = idx
        · subst hsame
          simpa [State.info, State.setPool] using err_deleteObject hnewer
        · apply err_info_of_empty
          simpa [State.setPool, State.setRequest, hsame] using hempty pool hpool hsame
      have hnext : ((s.setRequest request .idle).setPool idx
          (deleteObject versioned modTime (s.pools idx))).Inv count :=
        { hidle with
          onePool := State.OnePool.setPool hempty
          hidden := fun _ => hhidden }
      exact hnext.completed hhidden
    next => exact hidle
  next => exact hinv

theorem inv_answer (hinv : s.Inv count) (request : Nat) :
    (step count versioned s (.answer request)).Inv count := by
  unfold step
  simp only
  split
  next since answers hget =>
    split
    next =>
      have hidle : (s.setRequest request .idle).Inv count := hinv.setRequest nofun
      refine { hidle with deletesHold := fun answer hanswer hsure => ?_ }
      rcases List.mem_cons.mp hanswer with rfl | hold
      · simp only [Bool.and_eq_true, beq_iff_eq, List.all_eq_true, Bool.or_eq_true] at hsure
        obtain ⟨hsince, hread⟩ := hsure
        subst hsince
        obtain ⟨_, herrs⟩ := (hinv.getting request _ answers hget).2 rfl
        refine firstFound_notFound fun result hresult => ?_
        have hmem := mem_sortResults.mp hresult
        exact (hread result hmem).resolve_left (herrs result hmem)
      · exact hinv.deletesHold answer hold hsure
    next => exact hinv
  next => exact hinv

theorem inv_step (s : State) (event : Event) (hinv : s.Inv count) (hgood : Good count s event) :
    (step count versioned s event).Inv count := by
  cases event with
  | putObject request => exact inv_putObject hinv request
  | deleteObject request =>
    unfold step
    simp only
    split
    next => exact hinv.setRequest nofun
    next => exact hinv
  | getObject request => exact inv_getObject hinv request
  | ask request pool failure => exact inv_ask hinv request pool failure
  | choose request sorted available => exact inv_choose hinv request sorted available hgood
  | write request modTime succeeds => exact inv_write hinv request modTime succeeds hgood
  | answer request => exact inv_answer hinv request

end Step

/-- Before any request, with the object in one pool at most. -/
structure Starts (s : State) : Prop where
  onePool : s.OnePool count
  idle : ∀ request, s.requests request = .idle
  quiet : s.quiet = false
  answered : s.answered = []

theorem inv_of_starts {s : State} (hstarts : Starts count s) : s.Inv count where
  onePool := hstarts.onePool
  hidden hquiet := by
    rw [hstarts.quiet] at hquiet
    exact nomatch hquiet
  getting request since answers hget := by
    rw [hstarts.idle request] at hget
    exact nomatch hget
  deletesHold answer hanswer := by
    rw [hstarts.answered] at hanswer
    exact nomatch hanswer

/-- As long as no choice is overtaken, one pool at most holds versions of the object, and
after a delete it is not found, for every interleaving of the requests. -/
theorem always_lawful {s : State} (hstarts : Starts count s) {events : List Event}
    (hgood : Guarded (step count versioned) (Good count) s events) :
    Always (step count versioned) (State.Lawful count) s events :=
  (hgood.always inv_step (inv_of_starts count hstarts)).imp
    fun _ hinv => ⟨hinv.onePool, hinv.deletesHold⟩

section Examples

theorem starts_empty : Starts count {} where
  onePool _ _ _ _ hne := absurd rfl hne
  idle _ := rfl
  quiet := rfl
  answered := rfl

def missing (pool : Nat) : PoolObjInfo := getObjectInfo pool []

def having (pool : Nat) (modTime : Int) : PoolObjInfo :=
  getObjectInfo pool [{ modTime := modTime, deleted := false }]

def askBoth (request : Nat) : List Event := [.ask request 0 none, .ask request 1 none]

def oneByOne : List Event :=
  [.putObject 0] ++ askBoth 0 ++ [.choose 0 [missing 0, missing 1] (some 0),
    .write 0 (10 : Int) true,
    .deleteObject 1] ++ askBoth 1 ++ [.choose 1 [having 0 10, missing 1] none,
    .write 1 (20 : Int) true, .getObject 2] ++ askBoth 2 ++ [.answer 2]

theorem oneByOne_lawful : Always (step 2 true) (State.Lawful 2) {} oneByOne := by
  apply always_lawful 2 true (starts_empty 2)
  unfold oneByOne askBoth
  simp only [List.cons_append, List.nil_append, guarded_cons]
  refine ⟨trivial, trivial, trivial, ?_, ?_, trivial, trivial, trivial, ?_, ?_, trivial, trivial,
    trivial, trivial, guarded_nil⟩
  · trivial
  · exact ⟨by decide, rfl⟩
  · exact nofun
  · exact ⟨by decide, by decide⟩

def twoPuts : List Event :=
  [.putObject 0, .putObject 1] ++ askBoth 0 ++ askBoth 1 ++
    [.choose 0 [missing 0, missing 1] (some 0), .choose 1 [missing 0, missing 1] (some 1),
      .write 0 (10 : Int) true, .write 1 (20 : Int) true]

def deletedAndRead : List Event :=
  twoPuts ++ [.deleteObject 2] ++ askBoth 2 ++ [.choose 2 [having 1 20, having 0 10] none,
    .write 2 (30 : Int) true, .getObject 3] ++ askBoth 3 ++ [.answer 3]

/-- Both pools hold the object, and the get after the delete finds it. -/
theorem deletedAndRead_not_lawful :
    ¬ (twoPuts.foldl (step 2 false) {}).OnePool 2 ∧
      (deletedAndRead.foldl (step 2 false) {}).answered = [(true, .ok 0)] ∧
      ¬ Always (step 2 false) (State.Lawful 2) {} deletedAndRead := by
  have hanswered : (deletedAndRead.foldl (step 2 false) {}).answered = [(true, .ok 0)] := by
    decide
  refine ⟨fun hone => ?_, hanswered, fun halways => ?_⟩
  · exact absurd (hone 0 (by decide) 1 (by decide) (by decide) (by decide)) (by decide)
  · have hholds := (halways _ List.prefix_rfl).2 (true, .ok 0)
      (by rw [hanswered]; exact List.mem_singleton.mpr rfl) rfl
    exact nomatch hholds

end Examples

end Fs3.Pools
