import Fs3.Dsync.LockTable
import Fs3.Foundation.ShrinkingSweep

/-! # Expiring locks

Locks that have not been refreshed for some time are expired: their entries are removed from the
list of their resource while that list is ranged over, so the entry after each of them is passed
over. -/

namespace Fs3

open Foundation (Slice)

namespace LockTable

/-- The list of a resource while it is ranged over, as a part of its array, and the table. -/
structure Ranging where
  array : List LockEntry
  len : Nat
  table : LockTable

/-- `removeEntry` from a list that is ranged over: later entries move up in the array. -/
def Ranging.removeEntry (s : Ranging) (name : String) (args : LockArgs) : Ranging :=
  let lri := s.array.take s.len
  match lri.findIdx? (owns args) with
  | none => s
  | some index =>
    if s.len = 1 then { s with table := Function.update s.table name none }
    else
      { array := lri.take index ++ lri.drop (index + 1) ++ s.array.drop (s.len - 1)
        len := s.len - 1
        table := Function.update s.table name (some (lri.take index ++ lri.drop (index + 1))) }

def expired (interval now : Int) (entry : LockEntry) : Bool :=
  decide (interval < now - entry.timeLastRefresh)

def Ranging.visit (interval now : Int) (s : Ranging) (i : Nat) : Ranging :=
  match s.array[i]? with
  | none => s
  | some lri =>
    if expired interval now lri then
      s.removeEntry lri.name { owner := lri.owner, uid := lri.uid, resources := [] }
    else s

def expireResource (interval now : Int) (table : LockTable) (resource : String) : LockTable :=
  match table resource with
  | none => table
  | some lris =>
    ((List.range lris.length).foldl (Ranging.visit interval now)
      { array := lris, len := lris.length, table := table }).table

/-- `expireOldLocks`, with the resources in the order that they are ranged over. -/
def expireOldLocks (interval now : Int) (resources : List String) (table : LockTable) :
    LockTable :=
  resources.foldl (expireResource interval now) table

/-- The calls of a locker, with the time they are made at. -/
inductive Call where
  | lock (now : Int) (args : LockRequest)
  | unlock (args : LockArgs)
  | rLock (now : Int) (args : LockRequest)
  | rUnlock (args : LockArgs)
  | forceUnlock (ctxErr : Option String) (args : LockArgs)
  | refresh (now : Int) (ctxErr : Option String) (args : LockArgs)
  | expireOldLocks (interval now : Int) (resources : List String)

def after (table : LockTable) : Call → LockTable
  | .lock now args => (table.lock now args).2
  | .unlock args => (table.unlock args).2
  | .rLock now args => (table.rLock now args).2
  | .rUnlock args => (table.rUnlock args).2
  | .forceUnlock ctxErr args => (table.forceUnlock ctxErr args).2
  | .refresh now ctxErr args => (table.refresh now ctxErr args).2
  | .expireOldLocks interval now resources => table.expireOldLocks interval now resources

/-! ## The range over one list -/

def holder (entry : LockEntry) : String × String := (entry.uid, entry.owner)

theorem owns_eq_sameKey (lri : LockEntry) :
    owns { owner := lri.owner, uid := lri.uid, resources := [] } = Slice.sameKey holder lri := by
  funext entry
  rw [Slice.sameKey, holder, holder, owns, LockArgs.owns, Bool.eq_iff_iff, Bool.and_eq_true,
    beq_iff_eq, beq_iff_eq, decide_eq_true_iff, Prod.mk.injEq]

/-- A list that is ranged over is a slice, which is in the table as long as it is there. -/
structure Ranging.Follows (table : LockTable) (name : String) (s : Ranging)
    (slice : Slice LockEntry) : Prop where
  array : s.array = slice.array
  len : s.len = slice.len
  bound : slice.len ≤ slice.array.length
  gone : slice.gone = true → slice.len = 1
  table : s.table = Function.update table name (if slice.gone then none else some slice.elems)
  named : ∀ entry ∈ slice.array, entry.name = name

section Follows

variable {table : LockTable} {name : String} {s : Ranging} {slice : Slice LockEntry}

theorem Ranging.Follows.removeEntry (h : s.Follows table name slice) (args : LockArgs) :
    (s.removeEntry name args).Follows table name (slice.removeFirst (owns args)) := by
  unfold Ranging.removeEntry Slice.removeFirst
  rw [h.array, h.len]
  dsimp only
  rw [← Slice.elems]
  cases hfind : slice.elems.findIdx? (owns args) with
  | none => exact h
  | some index =>
    dsimp only
    have hindex := (List.findIdx?_eq_some_iff_findIdx_eq.mp hfind).1
    rw [Slice.length_elems h.bound] at hindex
    by_cases hone : slice.len = 1
    · rw [if_pos hone, if_pos hone]
      refine ⟨rfl, rfl, h.bound, fun _ => hone, ?_, h.named⟩
      dsimp only
      rw [h.table, Function.update_idem, if_pos rfl]
    · rw [if_neg hone, if_neg hone]
      have hgone : slice.gone = false := by
        rw [← Bool.not_eq_true]
        exact fun hgone => hone (h.gone hgone)
      have hlength : (slice.elems.take index ++ slice.elems.drop (index + 1)).length =
          slice.len - 1 := by
        rw [List.length_append, List.length_take, List.length_drop, Slice.length_elems h.bound]
        omega
      refine ⟨rfl, rfl, ?_, ?_, ?_, ?_⟩
      · dsimp only
        rw [List.length_append, hlength]
        exact Nat.le_add_right _ _
      · intro hdropped
        rw [hgone] at hdropped
        cases hdropped
      · dsimp only
        have helems : (slice.elems.take index ++ slice.elems.drop (index + 1) ++
            slice.array.drop (slice.len - 1)).take (slice.len - 1) =
            slice.elems.take index ++ slice.elems.drop (index + 1) := by
          rw [← hlength, List.take_left]
        rw [h.table, Function.update_idem, hgone, if_neg Bool.false_ne_true]
        exact congrArg (fun lri => Function.update table name (some lri)) helems.symm
      · intro entry hentry
        refine h.named entry ?_
        rcases List.mem_append.mp hentry with hentry | hentry
        · rcases List.mem_append.mp hentry with hentry | hentry
          · exact List.mem_of_mem_take (List.mem_of_mem_take hentry)
          · exact List.mem_of_mem_take (List.mem_of_mem_drop hentry)
        · exact List.mem_of_mem_drop hentry

theorem Ranging.Follows.visit (h : s.Follows table name slice) (interval now : Int) (i : Nat) :
    (s.visit interval now i).Follows table name
      (slice.visit (expired interval now) holder i) := by
  unfold Ranging.visit Slice.visit
  rw [h.array]
  cases hget : slice.array[i]? with
  | none => exact h
  | some lri =>
    dsimp only
    rw [h.named lri (List.mem_of_getElem? hget), ← owns_eq_sameKey]
    split
    next => exact h.removeEntry _
    next => exact h

theorem expireResource_eq {table : LockTable} {resource : String} {lri : List LockEntry}
    (hlri : table resource = some lri) (hnamed : ∀ entry ∈ lri, entry.name = resource)
    (interval now : Int) :
    table.expireResource interval now resource =
      let slice := Slice.sweep (expired interval now) holder lri
      Function.update table resource (if slice.gone then none else some slice.elems) := by
  have hvisits : ∀ (places : List Nat) (s : Ranging) (slice : Slice LockEntry),
      s.Follows table resource slice →
      (places.foldl (Ranging.visit interval now) s).Follows table resource
        (places.foldl (Slice.visit (expired interval now) holder) slice) := by
    intro places
    induction places with
    | nil => exact fun _ _ h => h
    | cons i places ih => exact fun s slice h => ih _ _ (h.visit interval now i)
  have hstart : Ranging.Follows table resource
      { array := lri, len := lri.length, table := table }
      { array := lri, len := lri.length } := by
    refine ⟨rfl, rfl, Nat.le_refl _, fun hgone => absurd hgone Bool.false_ne_true, ?_, hnamed⟩
    rw [if_neg Bool.false_ne_true, Slice.elems, List.take_length, ← hlri,
      Function.update_eq_self]
  rw [expireResource, hlri]
  exact (hvisits (List.range lri.length) _ _ hstart).table

end Follows

def sweptList (interval now : Int) (lri : List LockEntry) : Option (List LockEntry) :=
  let slice := Slice.sweep (expired interval now) holder lri
  if slice.gone then none else some slice.elems

theorem getD_sweptList (interval now : Int) (lri : List LockEntry) :
    (sweptList interval now lri).getD [] =
      (Slice.sweep (expired interval now) holder lri).kept := by
  cases hgone : (Slice.sweep (expired interval now) holder lri).gone <;>
    simp [sweptList, Slice.kept, hgone]

/-- The order in which a map is ranged over: each of its keys once. -/
structure RangesOver (resources : List String) (table : LockTable) : Prop where
  nodup : resources.Nodup
  mem_iff : ∀ resource, resource ∈ resources ↔ (table resource).isSome = true

theorem expireResource_apply {table : LockTable}
    (hnamed : ∀ resource lri, table resource = some lri → ∀ entry ∈ lri, entry.name = resource)
    (interval now : Int) (resource : String) :
    table.expireResource interval now resource =
      Function.update table resource ((table resource).bind (sweptList interval now)) := by
  cases hlri : table resource with
  | none =>
    have hsame : table.expireResource interval now resource = table := by
      rw [expireResource, hlri]
    rw [hsame, Option.bind_none, ← hlri, Function.update_eq_self]
  | some lri =>
    rw [expireResource_eq hlri (hnamed resource lri hlri), Option.bind_some, sweptList]

theorem mem_of_sweptList {interval now : Int} {lri swept : List LockEntry}
    (h : sweptList interval now lri = some swept) : swept.Sublist lri := by
  have hkept := getD_sweptList interval now lri
  rw [h, Option.getD_some] at hkept
  rw [hkept]
  exact Slice.kept_sweep_sublist lri

theorem expireOldLocks_apply (interval now : Int) {resources : List String} {table : LockTable}
    (hnamed : ∀ resource lri, table resource = some lri → ∀ entry ∈ lri, entry.name = resource)
    (hnodup : resources.Nodup) (resource : String) :
    table.expireOldLocks interval now resources resource =
      if resource ∈ resources then (table resource).bind (sweptList interval now)
      else table resource := by
  induction resources generalizing table with
  | nil => rfl
  | cons first resources ih =>
    obtain ⟨hfirst, hnodup⟩ := List.nodup_cons.mp hnodup
    have hnext : ∀ r lri,
        Function.update table first ((table first).bind (sweptList interval now)) r = some lri →
        ∀ entry ∈ lri, entry.name = r := by
      intro r lri hlri entry hentry
      by_cases hr : r = first
      · subst hr
        rw [Function.update_self] at hlri
        obtain ⟨before, hbefore, hswept⟩ := Option.bind_eq_some_iff.mp hlri
        exact hnamed r before hbefore entry ((mem_of_sweptList hswept).subset hentry)
      · rw [Function.update_of_ne hr] at hlri
        exact hnamed r lri hlri entry hentry
    rw [expireOldLocks, List.foldl_cons, ← expireOldLocks, expireResource_apply hnamed,
      ih hnext hnodup]
    by_cases hr : resource = first
    · subst hr
      rw [if_neg hfirst, Function.update_self, if_pos List.mem_cons_self]
    · rw [Function.update_of_ne hr]
      simp only [List.mem_cons, hr, false_or]

/-! ## Every call keeps the tables sound -/

section Sound

variable {table : LockTable}

theorem Sound.expireResource (h : table.Sound) (interval now : Int) (resource : String) :
    (table.expireResource interval now resource).Sound := by
  rw [expireResource_apply h.named]
  refine h.update_sublist fun entries hentries => ?_
  obtain ⟨lri, hlri, hswept⟩ := Option.bind_eq_some_iff.mp hentries
  refine ⟨?_, lri, hlri, mem_of_sweptList hswept⟩
  unfold sweptList at hswept
  dsimp only at hswept
  split at hswept
  next => cases hswept
  next =>
    cases hswept
    exact Slice.elems_sweep_ne_nil (h.lri_ne_nil hlri)

theorem Sound.after (h : table.Sound) (call : Call) : (table.after call).Sound := by
  cases call with
  | lock now args =>
    refine ⟨?_, named_lock h.named now args⟩
    have hforget := forget_lock now table args
    have hgrant := h.locks.grant false args.toLockArgs
    rw [LockMap.grant, if_neg Bool.false_ne_true, hforget] at hgrant
    exact hgrant
  | unlock args =>
    refine ⟨?_, named_unlock h.named args⟩
    have hrelease := h.locks.release false args
    rw [LockMap.release, if_neg Bool.false_ne_true, forget_unlock] at hrelease
    exact hrelease
  | rLock now args =>
    refine ⟨?_, named_rLock h.named now args⟩
    have hgrant := h.locks.grant true args.toLockArgs
    rw [LockMap.grant, if_pos rfl, forget_rLock now] at hgrant
    exact hgrant
  | rUnlock args =>
    refine ⟨?_, named_rUnlock h.named args⟩
    have hrelease := h.locks.release true args
    rw [LockMap.release, if_pos rfl, forget_rUnlock] at hrelease
    exact hrelease
  | forceUnlock ctxErr args => exact h.forceUnlock ctxErr args
  | refresh now ctxErr args => exact h.refresh now ctxErr args
  | expireOldLocks interval now resources =>
    exact foldl_keeps (fun table resource h => h.expireResource interval now resource)
      resources h

end Sound

/-- What expiring is meant to do: of every resource, the entries whose last refresh is
older than the interval go and the others stay as they are. -/
def Expires (interval now : Int) (table after : LockTable) : Prop :=
  ∀ resource, ((after resource).getD []).Perm
    (((table resource).getD []).filter fun entry => !expired interval now entry)

/-- Every call keeps a sound table sound. -/
theorem expireOldLocks_expires_iff (interval now : Int) {table : LockTable}
    (hsound : table.Sound) {resources : List String} (hrange : RangesOver resources table) :
    (∀ call, (table.after call).Sound) ∧
    (Expires interval now table (table.expireOldLocks interval now resources) ↔
      ∀ resource lri, table resource = some lri →
        Slice.Clean (expired interval now) holder lri) := by
  refine ⟨hsound.after, ?_⟩
  have hlist : ∀ resource, ((table.expireOldLocks interval now resources resource).getD []) =
      (Slice.sweep (expired interval now) holder ((table resource).getD [])).kept := by
    intro resource
    rw [expireOldLocks_apply interval now hsound.named hrange.nodup]
    cases hlri : table resource with
    | none =>
      rw [Option.bind_none, ite_self]
      rfl
    | some lri =>
      have hmem : resource ∈ resources := (hrange.mem_iff resource).mpr (by rw [hlri]; rfl)
      rw [if_pos hmem, Option.bind_some, getD_sweptList, Option.getD_some]
  constructor
  · intro hexpires resource lri hlri
    have hperm := hexpires resource
    rw [hlist, hlri, Option.getD_some] at hperm
    exact (Slice.perm_kept_sweep_iff_clean lri).mp hperm
  · intro hclean resource
    rw [hlist]
    refine (Slice.perm_kept_sweep_iff_clean _).mpr ?_
    cases hlri : table resource with
    | none => exact ⟨List.Pairwise.nil, fun x hx => absurd hx List.not_mem_nil⟩
    | some lri => exact hclean resource lri hlri

/-- A read lock on `bucket/object`. -/
def reader (uid : String) (timeLastRefresh : Int) : LockEntry where
  name := "bucket/object"
  writer := false
  uid := uid
  owner := "owner"
  source := ""
  timestamp := 0
  timeLastRefresh := timeLastRefresh
  group := false
  quorum := 1

def readers (entries : List LockEntry) : LockTable := fun resource =>
  if resource = "bucket/object" then some entries else none

theorem rangesOver_readers (entries : List LockEntry) :
    RangesOver ["bucket/object"] (readers entries) := by
  refine ⟨List.nodup_cons.mpr ⟨List.not_mem_nil, List.nodup_nil⟩, fun resource => ?_⟩
  rw [List.mem_singleton, readers]
  split
  next hsame => exact iff_of_true hsame rfl
  next hother => exact iff_of_false hother Bool.false_ne_true

theorem sound_readers {entries : List LockEntry} (hne : entries ≠ [])
    (hreaders : ∀ entry ∈ entries, entry.writer = false ∧ entry.name = "bucket/object") :
    (readers entries).Sound := by
  refine ⟨fun resource infos hinfos => ?_, fun resource lri hlri entry hentry => ?_⟩
  · obtain ⟨lri, hlri, rfl⟩ := Option.map_eq_some_iff.mp hinfos
    unfold readers at hlri
    split at hlri
    next =>
      cases hlri
      refine Or.inr ⟨mt List.map_eq_nil_iff.mp hne, fun info hinfo => ?_⟩
      obtain ⟨entry, hentry, rfl⟩ := List.mem_map.mp hinfo
      exact (hreaders entry hentry).1
    next => cases hlri
  · unfold readers at hlri
    split at hlri
    next hsame =>
      cases hlri
      rw [hsame]
      exact (hreaders entry hentry).2
    next => cases hlri

/-- A live reader and one that has not been refreshed for too long. -/
theorem twoReaders_expire :
    Expires 10 100 (readers [reader "a" 95, reader "b" 0])
      ((readers [reader "a" 95, reader "b" 0]).expireOldLocks 10 100 ["bucket/object"]) := by
  refine (expireOldLocks_expires_iff 10 100 (sound_readers (by simp) (by decide))
    (rangesOver_readers _)).2.mpr fun resource lri hlri => ?_
  unfold readers at hlri
  split at hlri
  next =>
    cases hlri
    refine ⟨by decide, fun entry hentry => ?_⟩
    exact absurd hentry List.not_mem_nil
  next => cases hlri

/-- Of three readers that are all due the second one stays. -/
theorem threeReaders_not_expire :
    (readers [reader "a" 0, reader "b" 0, reader "c" 0]).Sound ∧
    RangesOver ["bucket/object"] (readers [reader "a" 0, reader "b" 0, reader "c" 0]) ∧
    expired 10 100 (reader "b" 0) = true ∧
    (readers [reader "a" 0, reader "b" 0, reader "c" 0]).expireOldLocks 10 100
      ["bucket/object"] "bucket/object" = some [reader "b" 0] ∧
    ¬ Expires 10 100 (readers [reader "a" 0, reader "b" 0, reader "c" 0])
      ((readers [reader "a" 0, reader "b" 0, reader "c" 0]).expireOldLocks 10 100
        ["bucket/object"]) := by
  have hstays : (readers [reader "a" 0, reader "b" 0, reader "c" 0]).expireOldLocks 10 100
      ["bucket/object"] "bucket/object" = some [reader "b" 0] := by decide
  refine ⟨sound_readers (by simp) (by decide), rangesOver_readers _, by decide, hstays, ?_⟩
  intro hexpires
  have hperm := hexpires "bucket/object"
  rw [hstays] at hperm
  exact absurd hperm.length_eq (by decide)

end LockTable

end Fs3
