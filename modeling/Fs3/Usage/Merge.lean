import Mathlib.Algebra.Ring.Int.Defs
import Fs3.Usage.Reduce
import Fs3.Usage.SharedStats

/-! # Merging caches, and asking them

The caches of the parts of a bucket are merged at the root: each child of the root of one is
flattened and added to the child of the other. -/

namespace Fs3.Usage

open Foundation

/-- `madmin.BucketUsageInfo`. -/
structure BucketUsageInfo where
  size : Int := 0
  objectsCount : Nat := 0
  objectSizesHistogram : SizeHistogram := 0
  replication : Reported := 0

/-- `madmin.DataUsageInfo`. -/
structure DataUsageInfo (κ : Type) where
  lastUpdate : Time := Time.zero
  objectsTotalCount : Nat := 0
  objectsTotalSize : Int := 0
  bucketsCount : Nat := 0
  bucketsUsage : List (κ × BucketUsageInfo) := []
  replication : Reported := 0

/-- What can be asked of a cache. -/
inductive Query (κ : Type)
  | sizeRecursive (path : κ)
  | flatten (path : κ)
  | dui (path : κ) (buckets : List κ)

namespace DataUsageCache

variable {κ : Type} [DecidableEq κ] (d other : DataUsageCache κ)

/-- One turn of the loop of `bucketsUsageInfo`. -/
def bucketUsageTurn (s : Heap × List (κ × BucketUsageInfo)) (bucket : κ) :
    Heap × List (κ × BucketUsageInfo) :=
  match d.find bucket with
  | none => s
  | some e =>
    let flat := d.flatten s.1 e
    (flat.1, s.2 ++ [(bucket,
      { size := flat.2.size
        objectsCount := flat.2.objects
        objectSizesHistogram := flat.2.objSizes
        replication := (flat.2.stats flat.1).reported })])

/-- `dataUsageCache.bucketsUsageInfo`. -/
def bucketsUsageInfo (h : Heap) (buckets : List κ) : Heap × List (κ × BucketUsageInfo) :=
  buckets.foldl d.bucketUsageTurn (h, [])

/-- `dataUsageCache.dui`. -/
def dui (h : Heap) (path : κ) (buckets : List κ) : Heap × DataUsageInfo κ :=
  match d.find path with
  | none => (h, {})
  | some e =>
    let flat := d.flatten h e
    let usage := d.bucketsUsageInfo flat.1 buckets
    (usage.1,
      { lastUpdate := d.lastUpdate
        objectsTotalCount := flat.2.objects
        objectsTotalSize := flat.2.size
        bucketsCount := e.children.length
        bucketsUsage := usage.2
        replication := (flat.2.stats usage.1).reported })

def ask (h : Heap) : Query κ → Heap
  | .sizeRecursive path => (d.sizeRecursive h path).1
  | .flatten path =>
    match d.find path with
    | none => h
    | some e => (d.flatten h e).1
  | .dui path buckets => (d.dui h path buckets).1

/-- What is stored in a cache: the entries, and the statistics behind their pointers. -/
def stored (h : Heap) (path : κ) : Option (DataUsageEntry κ × ReplicationStats) :=
  (d.find path).map fun e => (e, e.stats h)

/-- `dataUsageCache.clone`: the entries are copied with their pointers. -/
def clone : DataUsageCache κ := { d with cache := d.cache }

/-- One turn of the loop of `merge`, over the children of the root. -/
def mergeTurn (s : Heap × DataUsageCache κ) (key : κ) : Heap × DataUsageCache κ :=
  let flat := other.flatten s.1 (other.entry key)
  let existing := (s.2.entry key).merge flat.1 flat.2
  (existing.1, s.2.replaceHashed key (some s.2.name) existing.2)

/-- `dataUsageCache.merge`. -/
def merge (h : Heap) : Heap × DataUsageCache κ :=
  match d.find d.name, other.find other.name with
  | none, none => (h, d)
  | some _, none => (h, d)
  | none, some _ => (h, other.clone)
  | some existingRoot, some otherRoot =>
    let d := { d with
      lastUpdate := if d.lastUpdate < other.lastUpdate then other.lastUpdate else d.lastUpdate }
    -- The copy of the root is not put back.
    let merged := existingRoot.merge h otherRoot
    otherRoot.children.foldl other.mergeTurn (merged.1, d)

/-- The totals of the root, as `sizeRecursive` tells them. -/
def rootTotals (h : Heap) : Numbers × Reported :=
  match d.sizeRecursive h d.name with
  | (_, none) => 0
  | (h, some flat) => (flat.numbers, (flat.stats h).reported)

/-- What is claimed of two caches: that the totals of the root are added when one is
merged into the other, and that queries leave what is stored in them as it is. -/
structure AddsAndKeeps (h : Heap) : Prop where
  merged : (d.merge other h).2.rootTotals (d.merge other h).1 =
    d.rootTotals h + other.rootTotals h
  kept : ∀ queries : List (Query κ), d.stored (queries.foldl d.ask h) = d.stored h
  keptOther : ∀ queries : List (Query κ),
    other.stored (queries.foldl other.ask h) = other.stored h

/-- Two caches of the folders of one bucket: a folder is in the same folder in both, and
each entry with statistics has its own. -/
structure SameBucket (h : Heap) : Prop where
  left : d.WellFormed
  right : other.WellFormed
  name : other.name = d.name
  parent : ∀ {k k' c}, c ∈ d.kids k → c ∈ other.kids k' → k = k'
  rooted : ∀ {k}, d.find k ≠ none → k = d.name ∨ Below d.kids d.name k
  owns : d.Owns h
  ownsOther : other.Owns h
  apart : ∀ {k k' p}, (d.entry k).replicationStats = some p →
    (other.entry k').replicationStats ≠ some p

/-- The other root has nothing of its own that is lost: no sizes, objects or versions,
and statistics only where this root has some already. -/
def RootAdds (h : Heap) : Prop :=
  match d.find d.name, other.find other.name with
  | some root, some otherRoot => otherRoot.numbers = 0 ∧
      ((otherRoot.stats h).reported = 0 ∨ root.replicationStats ≠ none)
  | _, _ => True

def KeepsStats (h : Heap) : Prop :=
  ∀ {k p}, (d.entry k).replicationStats = some p → d.belowStats h k = 0

variable {d other} {h h' : Heap} {k : κ}

/-- The totals that `sizeRecursive` tells are those of the tree. -/
theorem rootTotals_eq (hforest : IsForest d.kids d.depth) (howns : d.Owns h) :
    d.rootTotals h = (d.total d.name, d.totalStats h d.name) := by
  have hnumbers := d.sizeRecursive_numbers h d.name
  rw [rootTotals]
  cases hfind : d.find d.name with
  | none =>
    have hnil := kids_of_none hfind
    have hentry : d.entry d.name = {} := by
      rw [entry, hfind]
      rfl
    rw [sizeRecursive, hfind]
    dsimp only
    rw [total, hforest.enough.treeSum_eq, hnil, totalStats_eq hforest, belowStats_of_nil hnil,
      hentry]
    rfl
  | some root =>
    have hentry := entry_of_find hfind
    rw [hfind, Option.map_some] at hnumbers
    have hstats : ∀ {h' flat}, d.sizeRecursive h d.name = (h', some flat) →
        (flat.stats h').reported = d.totalStats h d.name := by
      intro h' flat hsize
      rw [sizeRecursive, hfind] at hsize
      dsimp only at hsize
      split at hsize
      next hleaf =>
        cases hsize
        rw [totalStats_eq hforest, hentry,
          belowStats_of_nil ((kids_of_find hfind).trans hleaf), add_zero]
      next =>
        cases hsize
        rw [← hentry]
        exact (flatten_flattened hforest howns d.name).reported hforest
    cases hsize : d.sizeRecursive h d.name with
    | mk h' size =>
      rw [hsize] at hnumbers
      cases size with
      | none => cases hnumbers
      | some flat =>
        rw [Option.map_some, Option.some.injEq] at hnumbers
        dsimp only
        rw [hnumbers, hstats hsize]

/-! ## Queries -/

/-- The statistics that there were are as they were. -/
structure Keeps (h h' : Heap) : Prop where
  length : h.length ≤ h'.length
  load : ∀ {p}, p < h.length → Heap.load h' p = Heap.load h p

namespace Keeps

theorem refl (h : Heap) : Keeps h h := ⟨le_rfl, fun _ => rfl⟩

theorem trans {h'' : Heap} (hkeeps : Keeps h h') (hkeeps' : Keeps h' h'') : Keeps h h'' where
  length := hkeeps.length.trans hkeeps'.length
  load hp := (hkeeps'.load (hp.trans_le hkeeps.length)).trans (hkeeps.load hp)

theorem stored (howns : d.Owns h) (hkeeps : Keeps h h') : d.stored h' = d.stored h := by
  funext path
  rw [DataUsageCache.stored, DataUsageCache.stored]
  cases hfind : d.find path with
  | none => rfl
  | some e =>
    rw [Option.map_some, Option.map_some, DataUsageEntry.stats, DataUsageEntry.stats]
    cases hstats : e.replicationStats with
    | none => rfl
    | some p =>
      have hp : p < h.length := howns.inRange (by rw [entry_of_find hfind, hstats])
      rw [Option.elim_some, Option.elim_some, hkeeps.load hp]

theorem keepsStats (hforest : IsForest d.kids d.depth) (howns : d.Owns h)
    (hstats : d.KeepsStats h) (hkeeps : Keeps h h') : d.KeepsStats h' := by
  intro k p hp
  rw [belowStats_congr hforest fun x q _ hq => hkeeps.load (howns.inRange hq)]
  exact hstats hp

end Keeps

section Queries

variable (hforest : IsForest d.kids d.depth)
include hforest

theorem flatten_keeps (howns : d.Owns h) (hstats : d.KeepsStats h) (k : κ) :
    Keeps h (d.flatten h (d.entry k)).1 := by
  have hflattened := flatten_flattened hforest howns k
  refine ⟨hflattened.grown.length, fun {p} hp => ?_⟩
  by_cases hpointer : ∃ x, (x = k ∨ Below d.kids k x) ∧ (d.entry x).replicationStats = some p
  · obtain ⟨x, hx, hxp⟩ := hpointer
    rw [hflattened.below hx hxp, hstats hxp, ReplicationStats.addReported_zero]
  · exact hflattened.frame hp fun x hx hxp => hpointer ⟨x, hx, hxp⟩

theorem flatten_find_keeps (howns : d.Owns h) (hstats : d.KeepsStats h)
    {e : DataUsageEntry κ} (hfind : d.find k = some e) : Keeps h (d.flatten h e).1 :=
  entry_of_find hfind ▸ flatten_keeps hforest howns hstats k

theorem bucketsUsageInfo_keeps (howns : d.Owns h) (hstats : d.KeepsStats h)
    (buckets : List κ) : Keeps h (d.bucketsUsageInfo h buckets).1 := by
  have hloop : ∀ (buckets : List κ) (s : Heap × List (κ × BucketUsageInfo)), Keeps h s.1 →
      Keeps h (buckets.foldl d.bucketUsageTurn s).1 := by
    intro buckets
    induction buckets with
    | nil => exact fun s hs => hs
    | cons bucket buckets ih =>
      intro s hs
      rw [List.foldl_cons]
      apply ih
      rw [bucketUsageTurn]
      cases hfind : d.find bucket with
      | none => exact hs
      | some e =>
        exact hs.trans (flatten_find_keeps hforest (howns.mono hs.length)
          (hs.keepsStats hforest howns hstats) hfind)
  exact hloop buckets (h, []) (Keeps.refl h)

theorem ask_keeps (howns : d.Owns h) (hstats : d.KeepsStats h) (query : Query κ) :
    Keeps h (d.ask h query) := by
  cases query with
  | sizeRecursive path =>
    rw [ask, sizeRecursive]
    cases hfind : d.find path with
    | none => exact Keeps.refl h
    | some root =>
      dsimp only
      split
      · exact Keeps.refl h
      · exact flatten_find_keeps hforest howns hstats hfind
  | flatten path =>
    rw [ask]
    cases hfind : d.find path with
    | none => exact Keeps.refl h
    | some e => exact flatten_find_keeps hforest howns hstats hfind
  | dui path buckets =>
    rw [ask, dui]
    cases hfind : d.find path with
    | none => exact Keeps.refl h
    | some e =>
      have hflat := flatten_find_keeps hforest howns hstats hfind
      exact hflat.trans (bucketsUsageInfo_keeps hforest (howns.mono hflat.length)
        (hflat.keepsStats hforest howns hstats) buckets)

/-- Queries leave what is stored as it is exactly if no folder has statistics of its own
while folders below it report any. -/
theorem kept_iff (howns : d.Owns h) :
    (∀ queries : List (Query κ), d.stored (queries.foldl d.ask h) = d.stored h) ↔
      d.KeepsStats h := by
  constructor
  · intro hkept k p hp
    have hstored := congrFun (hkept [.flatten k]) k
    cases hfind : d.find k with
    | none =>
      rw [entry, hfind] at hp
      cases hp
    | some e =>
      have hentry := entry_of_find hfind
      have hload := ((flatten_flattened hforest howns k).grown.inPlace hp).2
      rw [hentry] at hp hload
      rw [List.foldl_cons, List.foldl_nil, ask, hfind] at hstored
      simp only [stored, hfind, Option.map_some, Option.some.injEq, Prod.mk.injEq, true_and,
        DataUsageEntry.stats, hp, Option.elim_some] at hstored
      rw [hload] at hstored
      have hreported := congrArg ReplicationStats.reported hstored
      rw [ReplicationStats.reported_addReported] at hreported
      exact add_eq_left.mp hreported
  · intro hstats queries
    have hrun : ∀ queries : List (Query κ), ∀ h', Keeps h h' →
        Keeps h (queries.foldl d.ask h') := by
      intro queries
      induction queries with
      | nil => exact fun h' hkeeps => hkeeps
      | cons query queries ih =>
        intro h' hkeeps
        exact ih _ (hkeeps.trans (ask_keeps hforest (howns.mono hkeeps.length)
          (hkeeps.keepsStats hforest howns hstats) query))
    exact (hrun queries h (Keeps.refl h)).stored howns

end Queries

/-! ## One child is merged -/

/-- What a cache is when an entry is put in and made a child of the root. -/
structure IsJoined (d d' : DataUsageCache κ) (key : κ) (e : DataUsageEntry κ) : Prop where
  name : d'.name = d.name
  root : d'.find d.name = some ((d.entry d.name).addChild key)
  self : d'.find key = some e
  kept : ∀ {k}, k ≠ d.name → k ≠ key → d'.find k = d.find k

theorem isJoined_replaceHashed {key : κ} (hne : key ≠ d.name) (e : DataUsageEntry κ) :
    IsJoined d (d.replaceHashed key (some d.name) e) key e where
  name := rfl
  root := by
    rw [replaceHashed, find_insert_self, entry, find_insert_of_ne e hne.symm]
    rfl
  self := by rw [replaceHashed, find_insert_of_ne _ hne, find_insert_self]
  kept hname hkey := by rw [replaceHashed, find_insert_of_ne _ hname, find_insert_of_ne _ hkey]

namespace IsJoined

variable {d' : DataUsageCache κ} {key : κ} {e : DataUsageEntry κ}
variable (hjoined : IsJoined d d' key e) (hwell : d.WellFormed) (hne : key ≠ d.name)
variable (hkey : d.find key = none ∨ key ∈ d.kids d.name) (hchildren : e.children = d.kids key)
include hjoined

theorem entry_of_ne (hname : k ≠ d.name) (hk : k ≠ key) : d'.entry k = d.entry k := by
  rw [entry, hjoined.kept hname hk]
  rfl

theorem kids_root : d'.kids d.name =
    if key ∈ d.kids d.name then d.kids d.name else d.kids d.name ++ [key] := by
  rw [kids_of_find hjoined.root, DataUsageEntry.addChild, kids]
  split <;> rfl

include hchildren in
theorem kids_of_ne (hname : k ≠ d.name) : d'.kids k = d.kids k := by
  by_cases hk : k = key
  · rw [hk, kids_of_find hjoined.self, hchildren]
  · rw [kids, hjoined.entry_of_ne hname hk]
    rfl

include hwell hchildren hkey in
theorem mem_kids {c : κ} (hc : c ∈ d'.kids k) :
    c ∈ d.kids k ∨ k = d.name ∧ c = key ∧ (∀ k', c ∉ d.kids k') ∧ d.kids c = [] := by
  by_cases hname : k = d.name
  · rw [hname, hjoined.kids_root] at hc
    split at hc
    next => exact Or.inl (hname ▸ hc)
    next hnew =>
      rcases List.mem_append.mp hc with hc | hc
      · exact Or.inl (hname ▸ hc)
      · have hck := List.mem_singleton.mp hc
        have hnone := hkey.resolve_right hnew
        rw [hck]
        exact Or.inr ⟨hname, rfl, fun k' hk' => hwell.present hk' hnone, kids_of_none hnone⟩
  · rw [hjoined.kids_of_ne hchildren hname] at hc
    exact Or.inl hc

include hwell hne hkey hchildren in
theorem wellFormed : d'.WellFormed where
  acyclic := by
    obtain ⟨rank, hrank⟩ := hwell.acyclic
    refine ⟨fun k => if d.kids k = [] ∧ k ≠ d.name then 0 else rank k + 1, fun k c hc => ?_⟩
    dsimp only
    have hk : ¬ (d.kids k = [] ∧ k ≠ d.name) := by
      rcases hjoined.mem_kids hwell hkey hchildren hc with hc | ⟨hname, -⟩
      · exact fun h => List.ne_nil_of_mem hc h.1
      · exact fun h => h.2 hname
    rw [if_neg hk]
    split
    · exact Nat.succ_pos _
    next hleaf =>
      rcases hjoined.mem_kids hwell hkey hchildren hc with hc | ⟨-, hck, -, hnil⟩
      · exact Nat.succ_lt_succ (hrank k c hc)
      · exact absurd ⟨hnil, hck ▸ hne⟩ hleaf
  nodup := by
    intro k
    by_cases hname : k = d.name
    · rw [hname, hjoined.kids_root]
      split
      next => exact hwell.nodup _
      next hnew =>
        refine List.nodup_append.mpr ⟨hwell.nodup _, List.nodup_singleton _, ?_⟩
        intro x hx y hy heq
        rw [heq, List.mem_singleton.mp hy] at hx
        exact hnew hx
    · rw [hjoined.kids_of_ne hchildren hname]
      exact hwell.nodup k
  parent := by
    intro k k' c hc hc'
    rcases hjoined.mem_kids hwell hkey hchildren hc with hc | ⟨hk, -, hnew, -⟩
    · rcases hjoined.mem_kids hwell hkey hchildren hc' with hc' | ⟨-, -, hnew, -⟩
      · exact hwell.parent hc hc'
      · exact absurd hc (hnew k)
    · rcases hjoined.mem_kids hwell hkey hchildren hc' with hc' | ⟨hk', -⟩
      · exact absurd hc' (hnew k')
      · exact hk.trans hk'.symm
  present := by
    intro k c hc
    by_cases hname : c = d.name
    · rw [hname, hjoined.root]
      exact Option.some_ne_none _
    · by_cases hck : c = key
      · rw [hck, hjoined.self]
        exact Option.some_ne_none _
      · rw [hjoined.kept hname hck]
        rcases hjoined.mem_kids hwell hkey hchildren hc with hc | ⟨-, heq, -⟩
        · exact hwell.present hc
        · exact absurd heq hck

include hwell hne hkey hchildren in
theorem isAdded {M : Type} [AddMonoid M] {own own' : κ → M} {added : M}
    (hself : own' key = own key + added) (hother : ∀ k, k ≠ key → own' k = own k)
    (hnone : d.find key = none → own key = 0) :
    IsAdded d.kids d'.kids own own' d.name key added where
  ne := hne
  elsewhere _ hk := hjoined.kids_of_ne hchildren hk
  child := by
    rw [hjoined.kids_root]
    by_cases hin : key ∈ d.kids d.name
    · rw [if_pos hin]
      exact Or.inl ⟨hin, rfl⟩
    · have hfind := hkey.resolve_right hin
      rw [if_neg hin]
      exact Or.inr ⟨fun k hk => hwell.present hk hfind, kids_of_none hfind, hnone hfind, rfl⟩
  own_eq := hother
  own_self := hself

end IsJoined

end DataUsageCache

end Fs3.Usage
