import Mathlib.Data.List.Basic
import Fs3.Dsync.LocalLocker

/-! # Lock tables with their refresh times

The table of a locker with everything that an entry holds. -/

namespace Fs3

/-- One granted lock, with what the locker keeps about it. -/
structure LockEntry extends LockRequesterInfo where
  source : String
  timestamp : Int
  timeLastRefresh : Int
  group : Bool
  quorum : Int
  deriving DecidableEq

/-- A request, with what it says beside who asks for what. -/
structure LockRequest extends LockArgs where
  source : String
  quorum : Int
  deriving DecidableEq

/-- The granted locks of every resource that has some. -/
abbrev LockTable := String → Option (List LockEntry)

namespace LockTable

def forget (table : LockTable) : LockMap := fun resource =>
  (table resource).map (List.map LockEntry.toLockRequesterInfo)

def isWriteLock (lri : List LockEntry) : Bool :=
  Fs3.isWriteLock (lri.map LockEntry.toLockRequesterInfo)

def canTakeUnlock (table : LockTable) (resources : List String) : Bool :=
  (resources.countP fun resource => isWriteLock ((table resource).getD [])) == resources.length

def canTakeLock (table : LockTable) (resources : List String) : Bool :=
  (resources.countP fun resource => (table resource).isNone) == resources.length

def lock (now : Int) (table : LockTable) (args : LockRequest) : Bool × LockTable :=
  if table.canTakeLock args.resources then
    (true, args.resources.foldl (fun table resource =>
      Function.update table resource (some [{
        name := resource
        writer := true
        uid := args.uid
        owner := args.owner
        source := args.source
        timestamp := now
        timeLastRefresh := now
        group := decide (1 < args.resources.length)
        quorum := args.quorum }])) table)
  else (false, table)

def owns (args : LockArgs) (entry : LockEntry) : Bool := args.owns entry.toLockRequesterInfo

def removeEntry (table : LockTable) (name : String) (args : LockArgs) (lri : List LockEntry) :
    LockTable :=
  if lri.any (owns args) then
    if lri.length = 1 then Function.update table name none
    else Function.update table name (some (lri.eraseP (owns args)))
  else table

def unlock (table : LockTable) (args : LockArgs) : Except String Bool × LockTable :=
  if table.canTakeUnlock args.resources then
    (.ok true, args.resources.foldl (fun table resource =>
      match table resource with
      | some lri => table.removeEntry resource args lri
      | none => table) table)
  else
    (.error ("Unlock attempted on a read locked entity: [" ++
      " ".intercalate args.resources ++ "]"), table)

def rLock (now : Int) (table : LockTable) (args : LockRequest) : Bool × LockTable :=
  match args.resources with
  -- The source takes the first resource without a check.
  | [] => (false, table)
  | resource :: _ =>
    let lrInfo : LockEntry := {
      name := resource
      writer := false
      uid := args.uid
      owner := args.owner
      source := args.source
      timestamp := now
      timeLastRefresh := now
      group := false
      quorum := args.quorum }
    match table resource with
    | some lri =>
      if isWriteLock lri then (false, table)
      else (true, Function.update table resource (some (lri ++ [lrInfo])))
    | none => (true, Function.update table resource (some [lrInfo]))

def rUnlock (table : LockTable) (args : LockArgs) : Except String Bool × LockTable :=
  match args.resources with
  | [] => (.error "index out of range [0] with length 0", table)
  | resource :: _ =>
    match table resource with
    | none => (.ok true, table)
    | some lri =>
      if isWriteLock lri then
        (.error ("RUnlock attempted on a write locked entity: " ++ resource), table)
      else (.ok true, table.removeEntry resource args lri)

/-- `ForceUnlock`; a cancelled context gives its error. -/
def forceUnlock (table : LockTable) (ctxErr : Option String) (args : LockArgs) :
    Except String Bool × LockTable :=
  match ctxErr with
  | some err => (.error err, table)
  | none =>
    if args.uid.length ≠ 0 then
      (.error ("ForceUnlock called with non-empty UID: " ++ args.uid), table)
    else
      (.ok true, args.resources.foldl (fun table resource =>
        Function.update table resource none) table)

def refreshEntry (now : Int) (args : LockArgs) : List LockEntry → Option (List LockEntry)
  | [] => none
  | entry :: entries =>
    if owns args entry then some ({ entry with timeLastRefresh := now } :: entries)
    else (refreshEntry now args entries).map (entry :: ·)

def refresh (now : Int) (table : LockTable) (ctxErr : Option String) (args : LockArgs) :
    Except String Bool × LockTable :=
  match ctxErr with
  | some err => (.error err, table)
  | none =>
    match args.resources with
    | [] => (.error "index out of range [0] with length 0", table)
    | resource :: _ =>
      match table resource with
      | none => (.ok false, table)
      | some lri =>
        match refreshEntry now args lri with
        | none => (.ok false, table)
        | some lri => (.ok true, Function.update table resource (some lri))

/-- A resource has one write lock or some read locks, each under its own name. -/
structure Sound (table : LockTable) : Prop where
  locks : table.forget.Sound
  named : ∀ resource lri, table resource = some lri → ∀ entry ∈ lri, entry.name = resource

/-! ## What is forgotten -/

section Forget

variable {table : LockTable}

theorem forget_update (table : LockTable) (resource : String) (lri : Option (List LockEntry)) :
    forget (Function.update table resource lri) =
      Function.update table.forget resource
        (lri.map (List.map LockEntry.toLockRequesterInfo)) := by
  funext r
  unfold forget
  by_cases hr : r = resource
  · subst hr
    rw [Function.update_self, Function.update_self]
  · rw [Function.update_of_ne hr, Function.update_of_ne hr]

theorem isWriteLock_forget (table : LockTable) (resource : String) :
    Fs3.isWriteLock ((table.forget resource).getD []) =
      isWriteLock ((table resource).getD []) := by
  unfold forget isWriteLock
  cases table resource <;> rfl

theorem canTakeLock_forget (table : LockTable) (resources : List String) :
    table.forget.canTakeLock resources = table.canTakeLock resources := by
  unfold LockMap.canTakeLock canTakeLock forget
  simp only [Option.isNone_map]

theorem canTakeUnlock_forget (table : LockTable) (resources : List String) :
    table.forget.canTakeUnlock resources = table.canTakeUnlock resources := by
  unfold LockMap.canTakeUnlock canTakeUnlock
  simp only [isWriteLock_forget]

theorem forget_lock (now : Int) (table : LockTable) (args : LockRequest) :
    table.forget.lock args.toLockArgs =
      ((table.lock now args).1, (table.lock now args).2.forget) := by
  unfold LockMap.lock lock
  rw [canTakeLock_forget]
  split
  next htake =>
    clear htake
    congr 1
    generalize hgroup : decide (1 < args.resources.length) = group
    generalize args.resources = resources
    induction resources generalizing table with
    | nil => rfl
    | cons resource resources ih =>
      rw [List.foldl_cons, List.foldl_cons, ← ih, forget_update]
      rfl
  next => rfl

theorem forget_rLock (now : Int) (table : LockTable) (args : LockRequest) :
    table.forget.rLock args.toLockArgs =
      ((table.rLock now args).1, (table.rLock now args).2.forget) := by
  unfold LockMap.rLock rLock
  cases args.resources with
  | nil => rfl
  | cons resource rest =>
    dsimp only
    rw [forget]
    cases hlri : table resource with
    | none =>
      dsimp only [Option.map_none]
      rw [forget_update]
      rfl
    | some lri =>
      dsimp only [Option.map_some]
      unfold isWriteLock
      split
      next => rfl
      next =>
        rw [forget_update, Option.map_some, List.map_append]
        rfl

theorem forget_removeEntry (table : LockTable) (name : String) (args : LockArgs)
    (lri : List LockEntry) :
    (table.removeEntry name args lri).forget =
      table.forget.removeEntry name args (lri.map LockEntry.toLockRequesterInfo) := by
  unfold removeEntry LockMap.removeEntry
  rw [List.any_map, List.length_map, List.eraseP_map]
  have howns : args.owns ∘ LockEntry.toLockRequesterInfo = owns args := rfl
  rw [howns]
  by_cases hany : lri.any (owns args) = true
  · rw [if_pos hany, if_pos hany]
    by_cases hone : lri.length = 1
    · rw [if_pos hone, if_pos hone, forget_update, Option.map_none]
    · rw [if_neg hone, if_neg hone, forget_update, Option.map_some]
  · rw [if_neg hany, if_neg hany]

theorem forget_unlock (table : LockTable) (args : LockArgs) :
    table.forget.unlock args = ((table.unlock args).1, (table.unlock args).2.forget) := by
  unfold LockMap.unlock unlock
  rw [canTakeUnlock_forget]
  split
  next htake =>
    clear htake
    congr 1
    generalize args.resources = resources
    induction resources generalizing table with
    | nil => rfl
    | cons resource resources ih =>
      rw [List.foldl_cons, List.foldl_cons, ← ih]
      congr 1
      rw [forget]
      cases table resource with
      | none => rfl
      | some lri => rw [forget_removeEntry]; rfl
  next => rfl

theorem forget_rUnlock (table : LockTable) (args : LockArgs) :
    table.forget.rUnlock args = ((table.rUnlock args).1, (table.rUnlock args).2.forget) := by
  unfold LockMap.rUnlock rUnlock
  cases args.resources with
  | nil => rfl
  | cons resource rest =>
    dsimp only
    rw [forget]
    cases table resource with
    | none => rfl
    | some lri =>
      dsimp only [Option.map_some]
      unfold isWriteLock
      split
      next => rfl
      next => rw [forget_removeEntry]

end Forget

/-! ## Sound tables -/

def Named (table : LockTable) : Prop :=
  ∀ resource lri, table resource = some lri → ∀ entry ∈ lri, entry.name = resource

section Sound

variable {table : LockTable}

theorem Named.update (h : table.Named) {resource : String} {lri : Option (List LockEntry)}
    (hlri : ∀ entries, lri = some entries → ∀ entry ∈ entries, entry.name = resource) :
    Named (Function.update table resource lri) := by
  intro r entries hentries
  by_cases hr : r = resource
  · subst hr
    rw [Function.update_self] at hentries
    exact hlri entries hentries
  · rw [Function.update_of_ne hr] at hentries
    exact h r entries hentries

theorem Named.update_some (h : table.Named) {resource : String} {lri : List LockEntry}
    (hlri : ∀ entry ∈ lri, entry.name = resource) :
    Named (Function.update table resource (some lri)) :=
  h.update fun _ hentries => Option.some.inj hentries ▸ hlri

theorem Named.removeEntry (h : table.Named) {name : String} {lri : List LockEntry}
    (hlri : table name = some lri) (args : LockArgs) :
    Named (table.removeEntry name args lri) := by
  unfold LockTable.removeEntry
  split
  next =>
    split
    next => exact h.update fun entries hentries => by cases hentries
    next =>
      refine h.update_some fun entry hentry => ?_
      exact h name lri hlri entry (List.mem_of_mem_eraseP hentry)
  next => exact h

theorem foldl_keeps {keeps : LockTable → Prop} {step : LockTable → String → LockTable}
    (hstep : ∀ table resource, keeps table → keeps (step table resource))
    (resources : List String) (h : keeps table) : keeps (resources.foldl step table) := by
  induction resources generalizing table with
  | nil => exact h
  | cons resource resources ih => exact ih (hstep table resource h)

theorem named_lock (h : table.Named) (now : Int) (args : LockRequest) :
    (table.lock now args).2.Named := by
  unfold LockTable.lock
  split
  next =>
    refine foldl_keeps (fun table resource h => ?_) args.resources h
    refine h.update_some fun entry hentry => ?_
    rw [List.mem_singleton.mp hentry]
  next => exact h

theorem named_unlock (h : table.Named) (args : LockArgs) : (table.unlock args).2.Named := by
  unfold LockTable.unlock
  split
  next =>
    refine foldl_keeps (fun table resource h => ?_) args.resources h
    split
    next lri hlri => exact h.removeEntry hlri args
    next => exact h
  next => exact h

theorem named_rLock (h : table.Named) (now : Int) (args : LockRequest) :
    (table.rLock now args).2.Named := by
  unfold LockTable.rLock
  cases args.resources with
  | nil => exact h
  | cons resource rest =>
    dsimp only
    cases hlri : table resource with
    | none =>
      refine h.update_some fun entry hentry => ?_
      rw [List.mem_singleton.mp hentry]
    | some lri =>
      dsimp only
      split
      next => exact h
      next =>
        refine h.update_some fun entry hentry => ?_
        rcases List.mem_append.mp hentry with hold | hnew
        · exact h resource lri hlri entry hold
        · rw [List.mem_singleton.mp hnew]

theorem named_rUnlock (h : table.Named) (args : LockArgs) : (table.rUnlock args).2.Named := by
  unfold LockTable.rUnlock
  cases args.resources with
  | nil => exact h
  | cons resource rest =>
    dsimp only
    cases hlri : table resource with
    | none => exact h
    | some lri =>
      dsimp only
      split
      next => exact h
      next => exact h.removeEntry hlri args

theorem Sound.update_sublist (h : table.Sound) {resource : String} {lri : Option (List LockEntry)}
    (hlri : ∀ entries, lri = some entries → entries ≠ [] ∧
      ∃ before, table resource = some before ∧ entries.Sublist before) :
    Sound (Function.update table resource lri) := by
  refine ⟨?_, Named.update h.named fun entries hentries entry hentry => ?_⟩
  · rw [forget_update]
    intro r infos hinfos
    by_cases hr : r = resource
    · subst hr
      rw [Function.update_self] at hinfos
      obtain ⟨entries, hentries, rfl⟩ := Option.map_eq_some_iff.mp hinfos
      obtain ⟨hne, before, hbefore, hsub⟩ := hlri entries hentries
      have hforget : table.forget r = some (before.map LockEntry.toLockRequesterInfo) := by
        rw [forget, hbefore, Option.map_some]
      rcases h.locks r _ hforget with ⟨info, hinfo, hwriter⟩ | ⟨-, hreaders⟩
      · refine Or.inl ⟨info, ?_, hwriter⟩
        rw [← hinfo]
        refine List.Sublist.eq_of_length_le (hsub.map _) ?_
        rw [hinfo, List.length_singleton, List.length_map]
        exact List.length_pos_of_ne_nil hne
      · refine Or.inr ⟨mt List.map_eq_nil_iff.mp hne, fun info hinfo => ?_⟩
        exact hreaders info ((hsub.map _).subset hinfo)
    · rw [Function.update_of_ne hr] at hinfos
      exact h.locks r infos hinfos
  · obtain ⟨-, before, hbefore, hsub⟩ := hlri entries hentries
    exact h.named resource before hbefore entry (hsub.subset hentry)

theorem Sound.lri_ne_nil (h : table.Sound) {resource : String} {lri : List LockEntry}
    (hlri : table resource = some lri) : lri ≠ [] := by
  rintro rfl
  have hforget : table.forget resource = some [] := by
    rw [forget, hlri, Option.map_some, List.map_nil]
  rcases h.locks resource [] hforget with ⟨info, hinfo, -⟩ | ⟨hne, -⟩
  · cases hinfo
  · exact hne rfl

theorem map_refreshEntry {now : Int} {args : LockArgs} {lri refreshed : List LockEntry}
    (h : refreshEntry now args lri = some refreshed) :
    refreshed.map LockEntry.toLockRequesterInfo = lri.map LockEntry.toLockRequesterInfo := by
  induction lri generalizing refreshed with
  | nil => cases h
  | cons entry lri ih =>
    rw [refreshEntry] at h
    split at h
    next =>
      cases h
      rfl
    next =>
      obtain ⟨rest, hrest, rfl⟩ := Option.map_eq_some_iff.mp h
      rw [List.map_cons, List.map_cons, ih hrest]

theorem Sound.refresh (h : table.Sound) (now : Int) (ctxErr : Option String) (args : LockArgs) :
    (table.refresh now ctxErr args).2.Sound := by
  unfold LockTable.refresh
  cases ctxErr with
  | some err => exact h
  | none =>
    cases args.resources with
    | nil => exact h
    | cons resource rest =>
      dsimp only
      cases hlri : table resource with
      | none => exact h
      | some lri =>
        dsimp only
        cases hrefresh : refreshEntry now args lri with
        | none => exact h
        | some refreshed =>
          have hmap := map_refreshEntry hrefresh
          refine ⟨?_, Named.update_some h.named fun entry hentry => ?_⟩
          · rw [forget_update, Option.map_some, hmap, ← Option.map_some, ← hlri]
            rw [show (table resource).map (List.map LockEntry.toLockRequesterInfo) =
              table.forget resource from rfl, Function.update_eq_self]
            exact h.locks
          · have hinfo : entry.toLockRequesterInfo ∈
                lri.map LockEntry.toLockRequesterInfo := by
              rw [← hmap]
              exact List.mem_map_of_mem hentry
            obtain ⟨before, hbefore, hsame⟩ := List.mem_map.mp hinfo
            have hname := h.named resource lri hlri before hbefore
            rw [hsame] at hname
            exact hname

theorem Sound.forceUnlock (h : table.Sound) (ctxErr : Option String) (args : LockArgs) :
    (table.forceUnlock ctxErr args).2.Sound := by
  unfold LockTable.forceUnlock
  cases ctxErr with
  | some err => exact h
  | none =>
    dsimp only
    split
    next => exact h
    next =>
      refine foldl_keeps (fun table resource h => ?_) args.resources h
      exact Sound.update_sublist h fun entries hentries => by cases hentries

end Sound

end LockTable

end Fs3
