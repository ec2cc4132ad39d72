import Mathlib.Algebra.Group.Pi.Basic
import Mathlib.Algebra.Group.Prod
import Mathlib.Data.List.AList
import Fs3.Foundation.DescendingSort
import Fs3.Foundation.KeyTrees
import Fs3.Runtime.Time

/-! # The cache of the data usage

The scanner keeps what the folders of a bucket take up: an entry for each folder, with what is in
it apart from its subfolders, and the names of these. The statistics are on a heap here, and a
pointer is a place on it. -/

namespace Fs3.Usage

open Foundation

/-- `replicationStats`. -/
structure ReplicationStats where
  pendingSize : Nat := 0
  replicatedSize : Nat := 0
  failedSize : Nat := 0
  replicaSize : Nat := 0
  failedCount : Nat := 0
  pendingCount : Nat := 0
  missedThresholdSize : Nat := 0
  afterThresholdSize : Nat := 0
  missedThresholdCount : Nat := 0
  afterThresholdCount : Nat := 0
  deriving DecidableEq

/-- The counters that are reported: sizes that are pending, failed, replicated, or of a
replica, and the counts of what is pending and what has failed. -/
abbrev Reported := Nat × Nat × Nat × Nat × Nat × Nat

namespace ReplicationStats

def reported (s : ReplicationStats) : Reported :=
  (s.pendingSize, s.failedSize, s.replicatedSize, s.replicaSize, s.pendingCount, s.failedCount)

/-- What `merge` adds to statistics. -/
def add (s other : ReplicationStats) : ReplicationStats :=
  { s with
    pendingSize := s.pendingSize + other.pendingSize
    failedSize := s.failedSize + other.failedSize
    replicatedSize := s.replicatedSize + other.replicatedSize
    replicaSize := s.replicaSize + other.replicaSize
    pendingCount := s.pendingCount + other.pendingCount
    failedCount := s.failedCount + other.failedCount }

def addReported (s : ReplicationStats) (r : Reported) : ReplicationStats :=
  { s with
    pendingSize := s.pendingSize + r.1
    failedSize := s.failedSize + r.2.1
    replicatedSize := s.replicatedSize + r.2.2.1
    replicaSize := s.replicaSize + r.2.2.2.1
    pendingCount := s.pendingCount + r.2.2.2.2.1
    failedCount := s.failedCount + r.2.2.2.2.2 }

theorem add_eq (s other : ReplicationStats) : s.add other = s.addReported other.reported := rfl

@[simp]
theorem reported_addReported (s : ReplicationStats) (r : Reported) :
    (s.addReported r).reported = s.reported + r := rfl

@[simp]
theorem addReported_zero (s : ReplicationStats) : s.addReported 0 = s := rfl

theorem addReported_addReported (s : ReplicationStats) (r r' : Reported) :
    (s.addReported r).addReported r' = s.addReported (r + r') := by
  simp only [addReported, Prod.fst_add, Prod.snd_add, Nat.add_assoc]

end ReplicationStats

/-- The statistics that there are. -/
abbrev Heap := List ReplicationStats

/-- A pointer to statistics. -/
abbrev Ref := Nat

namespace Heap

variable (h : Heap)

def load (p : Ref) : ReplicationStats := h.getD p {}

def store (p : Ref) (s : ReplicationStats) : Heap := h.set p s

def alloc (s : ReplicationStats) : Heap := h ++ [s]

variable {h} {p q : Ref} {s : ReplicationStats}

@[simp]
theorem length_store : (store h p s).length = h.length := List.length_set

@[simp]
theorem length_alloc : (alloc h s).length = h.length + 1 := by
  rw [alloc, List.length_append, List.length_singleton]

theorem load_store_self (hp : p < h.length) : load (store h p s) p = s := by
  rw [load, store, List.getD_eq_getElem?_getD, List.getElem?_set_self hp]
  rfl

theorem load_store_of_ne (hne : p ≠ q) : load (store h p s) q = load h q := by
  rw [load, store, List.getD_eq_getElem?_getD, List.getElem?_set_ne hne, load,
    List.getD_eq_getElem?_getD]

theorem load_alloc_self : load (alloc h s) h.length = s := by
  rw [load, alloc, List.getD_eq_getElem?_getD, List.getElem?_concat_length]
  rfl

theorem load_alloc_of_lt (hp : p < h.length) : load (alloc h s) p = load h p := by
  rw [load, alloc, List.getD_eq_getElem?_getD, List.getElem?_append_left hp, load,
    List.getD_eq_getElem?_getD]

end Heap

/-- `dataUsageBucketLen`. -/
def dataUsageBucketLen : Nat := 7

abbrev SizeHistogram := Fin dataUsageBucketLen → Nat

/-- `dataUsageEntry`. -/
structure DataUsageEntry (κ : Type) where
  children : List κ := []
  size : Int := 0
  objects : Nat := 0
  versions : Nat := 0
  objSizes : SizeHistogram := 0
  replicationStats : Option Ref := none
  compacted : Bool := false

/-- What an entry says of a folder, apart from the replication of what is in it: the
size, the objects, the versions, and the histogram of the sizes. -/
abbrev Numbers := Int × Nat × Nat × SizeHistogram

namespace DataUsageEntry

variable {κ : Type}

def numbers (e : DataUsageEntry κ) : Numbers := (e.size, e.objects, e.versions, e.objSizes)

def stats (h : Heap) (e : DataUsageEntry κ) : ReplicationStats :=
  e.replicationStats.elim {} (Heap.load h)

/-- `dataUsageEntry.merge`: another entry is added to this one, without its children. -/
def merge (h : Heap) (e other : DataUsageEntry κ) : Heap × DataUsageEntry κ :=
  let merged : DataUsageEntry κ :=
    { e with
      objects := e.objects + other.objects
      versions := e.versions + other.versions
      size := e.size + other.size
      objSizes := e.objSizes + other.objSizes }
  match other.replicationStats with
  | none => (h, merged)
  | some ors =>
    if Heap.load h ors = {} then (h, merged)
    else
      match e.replicationStats with
      | some p => (Heap.store h p ((Heap.load h p).add (Heap.load h ors)), merged)
      | none =>
        (Heap.alloc h (ReplicationStats.add {} (Heap.load h ors)),
          { merged with replicationStats := some h.length })

/-- `dataUsageEntry.addChild`. -/
def addChild [DecidableEq κ] (e : DataUsageEntry κ) (hash : κ) : DataUsageEntry κ :=
  if hash ∈ e.children then e else { e with children := e.children ++ [hash] }

end DataUsageEntry

/-- `dataUsageCache`. -/
structure DataUsageCache (κ : Type) where
  /-- The root. -/
  name : κ
  lastUpdate : Time
  cache : AList fun _ : κ => DataUsageEntry κ

namespace DataUsageCache

variable {κ : Type} [DecidableEq κ] (d : DataUsageCache κ)

/-- `dataUsageCache.find`: a copy of an entry. -/
def find (path : κ) : Option (DataUsageEntry κ) := d.cache.lookup path

/-- What reading the map gives for a path: the zero value where it has no entry. -/
def entry (path : κ) : DataUsageEntry κ := (d.find path).getD {}

def kids (path : κ) : List κ := (d.entry path).children

/-- How deep a recursion over the folders can go: as deep as there are entries. -/
def depth : Nat := d.cache.entries.length

/-- The recursion of `flatten`. -/
def flattenRec : Nat → Heap → DataUsageEntry κ → Heap × DataUsageEntry κ
  | 0, h, root => (h, { root with children := [] })
  | fuel + 1, h, root =>
    let s := root.children.foldl (fun s id =>
      let e := d.entry id
      let t := if e.children = [] then (s.1, e) else flattenRec fuel s.1 e
      s.2.merge t.1 t.2) (h, root)
    (s.1, { s.2 with children := [] })

/-- `dataUsageCache.flatten`. -/
def flatten (h : Heap) (root : DataUsageEntry κ) : Heap × DataUsageEntry κ :=
  d.flattenRec d.depth h root

/-- `dataUsageCache.sizeRecursive`. -/
def sizeRecursive (h : Heap) (path : κ) : Heap × Option (DataUsageEntry κ) :=
  match d.find path with
  | none => (h, none)
  | some root =>
    if root.children = [] then (h, some root)
    else
      let flat := d.flatten h root
      (flat.1, some flat.2)

/-- The recursion of `totalChildrenRec`. -/
def totalChildren : Nat → κ → Nat
  | 0, _ => 0
  | fuel + 1, path => (d.kids path).length + ((d.kids path).map (totalChildren fuel)).sum

/-- `dataUsageCache.totalChildrenRec`. -/
def totalChildrenRec (path : κ) : Nat := d.totalChildren d.depth path

end DataUsageCache

end Fs3.Usage

/-! ## Totals of the data usage

Where the entries of a cache are trees, what the recursions over it compute is what the
trees say: how many folders are below one, and what all of them have together.
-/

namespace Fs3.Usage

open Foundation

namespace DataUsageEntry

variable {κ : Type} (h : Heap) (e other : DataUsageEntry κ)

@[simp]
theorem merge_numbers : (e.merge h other).2.numbers = e.numbers + other.numbers := by
  rw [merge]
  split
  · rfl
  next ors _ =>
    split
    · rfl
    · split
      · rfl
      · rfl

@[simp]
theorem merge_children : (e.merge h other).2.children = e.children := by
  rw [merge]
  split
  · rfl
  next ors _ =>
    split
    · rfl
    · split
      · rfl
      · rfl

end DataUsageEntry

namespace DataUsageCache

variable {κ : Type} [DecidableEq κ] (d : DataUsageCache κ)

/-- The entries are trees: no folder is below itself, each is a child of one at most and
once, and every child has an entry. -/
structure WellFormed : Prop where
  acyclic : ∃ rank : κ → Nat, ∀ k, ∀ c ∈ d.kids k, rank c < rank k
  nodup : ∀ k, (d.kids k).Nodup
  parent : ∀ {k k' c}, c ∈ d.kids k → c ∈ d.kids k' → k = k'
  present : ∀ {k c}, c ∈ d.kids k → d.find c ≠ none

def total (path : κ) : Numbers :=
  treeSum d.kids (fun k => (d.entry k).numbers) d.depth path

variable {d} {path : κ}

theorem entry_of_find {e : DataUsageEntry κ} (hfind : d.find path = some e) :
    d.entry path = e := by
  rw [entry, hfind]
  rfl

theorem kids_of_find {e : DataUsageEntry κ} (hfind : d.find path = some e) :
    d.kids path = e.children := by
  rw [kids, entry_of_find hfind]

theorem kids_of_none (hfind : d.find path = none) : d.kids path = [] := by
  rw [kids, entry, hfind]
  rfl

theorem find_of_kids_ne_nil (hkids : d.kids path ≠ []) : ∃ e, d.find path = some e := by
  cases hfind : d.find path with
  | none => exact absurd (kids_of_none hfind) hkids
  | some e => exact ⟨e, rfl⟩

theorem mem_keys_of_kids_ne_nil (hkids : d.kids path ≠ []) : path ∈ d.cache.keys := by
  obtain ⟨e, hfind⟩ := find_of_kids_ne_nil hkids
  rw [← AList.mem_keys, ← AList.lookup_isSome]
  exact Option.isSome_iff_exists.mpr ⟨e, hfind⟩

theorem enough_of_acyclic (hacyclic : ∃ rank : κ → Nat, ∀ k, ∀ c ∈ d.kids k, rank c < rank k) :
    Enough d.kids d.depth := by
  obtain ⟨rank, hrank⟩ := hacyclic
  have hlength : d.depth = d.cache.keys.length := by
    rw [depth, AList.keys, List.keys, List.length_map]
  rw [hlength]
  exact enough_of_keys hrank fun _ hk => mem_keys_of_kids_ne_nil hk

theorem WellFormed.isForest (hwell : d.WellFormed) : IsForest d.kids d.depth where
  enough := enough_of_acyclic hwell.acyclic
  nodup := hwell.nodup
  parent := hwell.parent

theorem wellFormed_of_keys (rank : κ → Nat) (hkeys : ∀ k ∈ d.cache.keys,
    (∀ c ∈ d.kids k, rank c < rank k ∧ c ∈ d.cache.keys) ∧ (d.kids k).Nodup ∧
      ∀ k' ∈ d.cache.keys, ∀ c ∈ d.kids k, c ∈ d.kids k' → k = k') : d.WellFormed := by
  have hmem : ∀ {k}, d.kids k ≠ [] → k ∈ d.cache.keys := mem_keys_of_kids_ne_nil
  refine ⟨⟨rank, fun k c hc => ?_⟩, fun k => ?_, fun {k k' c} hc hc' => ?_, fun {k c} hc => ?_⟩
  · exact ((hkeys k (hmem (List.ne_nil_of_mem hc))).1 c hc).1
  · by_cases hk : d.kids k = []
    · rw [hk]
      exact List.nodup_nil
    · exact (hkeys k (hmem hk)).2.1
  · exact (hkeys k (hmem (List.ne_nil_of_mem hc))).2.2 k' (hmem (List.ne_nil_of_mem hc')) c hc hc'
  · have hin := ((hkeys k (hmem (List.ne_nil_of_mem hc))).1 c hc).2
    rw [find, ← Option.isSome_iff_ne_none, AList.lookup_isSome, AList.mem_keys]
    exact hin

variable (d)

theorem totalChildren_eq (fuel : Nat) (path : κ) :
    d.totalChildren fuel path = (below d.kids fuel path).length := by
  induction fuel generalizing path with
  | zero => rfl
  | succ fuel ih =>
    rw [totalChildren, below, List.length_flatMap, funext ih]
    induction d.kids path with
    | nil => rfl
    | cons c rest ihrest =>
      rw [List.map_cons, List.map_cons, List.sum_cons, List.sum_cons, ← ihrest,
        List.length_cons, List.length_cons]
      omega

theorem totalChildrenRec_eq (path : κ) :
    d.totalChildrenRec path = (below d.kids d.depth path).length := d.totalChildren_eq _ _

@[simp]
theorem flattenRec_children (fuel : Nat) (h : Heap) (root : DataUsageEntry κ) :
    (d.flattenRec fuel h root).2.children = [] := by
  cases fuel with
  | zero => rfl
  | succ fuel => rfl

def flattenChild (fuel : Nat) (h : Heap) (id : κ) : Heap × DataUsageEntry κ :=
  if (d.entry id).children = [] then (h, d.entry id) else d.flattenRec fuel h (d.entry id)

def flattenTurn (fuel : Nat) (s : Heap × DataUsageEntry κ) (id : κ) : Heap × DataUsageEntry κ :=
  s.2.merge (d.flattenChild fuel s.1 id).1 (d.flattenChild fuel s.1 id).2

theorem flattenRec_succ (fuel : Nat) (h : Heap) (root : DataUsageEntry κ) :
    d.flattenRec (fuel + 1) h root =
      ((root.children.foldl (d.flattenTurn fuel) (h, root)).1,
        { (root.children.foldl (d.flattenTurn fuel) (h, root)).2 with children := [] }) := rfl

theorem flattenRec_numbers (fuel : Nat) (h : Heap) (path : κ) :
    (d.flattenRec fuel h (d.entry path)).2.numbers =
      treeSum d.kids (fun k => (d.entry k).numbers) fuel path := by
  induction fuel generalizing h path with
  | zero => rfl
  | succ fuel ih =>
    have hchild : ∀ h id, (d.flattenChild fuel h id).2.numbers =
        treeSum d.kids (fun k => (d.entry k).numbers) fuel id := by
      intro h id
      rw [flattenChild]
      split
      next hleaf =>
        have hnil : d.kids id = [] := hleaf
        cases fuel with
        | zero => rfl
        | succ fuel => rw [treeSum, hnil, List.map_nil, List.sum_nil, add_zero]
      next => exact ih h id
    have hloop : ∀ (ids : List κ) (s : Heap × DataUsageEntry κ),
        (ids.foldl (d.flattenTurn fuel) s).2.numbers = s.2.numbers +
          (ids.map (treeSum d.kids (fun k => (d.entry k).numbers) fuel)).sum := by
      intro ids
      induction ids with
      | nil => exact fun s => (add_zero _).symm
      | cons id ids ihids =>
        intro s
        rw [List.foldl_cons, ihids, flattenTurn, DataUsageEntry.merge_numbers, hchild,
          List.map_cons, List.sum_cons, add_assoc]
    rw [flattenRec_succ, treeSum]
    exact hloop (d.kids path) (h, d.entry path)

theorem sizeRecursive_numbers (h : Heap) (path : κ) :
    (d.sizeRecursive h path).2.map DataUsageEntry.numbers =
      (d.find path).map fun _ => d.total path := by
  rw [sizeRecursive]
  cases hfind : d.find path with
  | none => rfl
  | some root =>
    dsimp only
    have hentry := entry_of_find hfind
    split
    next hleaf =>
      have hnil : d.kids path = [] := (kids_of_find hfind).trans hleaf
      have htotal : d.total path = root.numbers := by
        rw [total]
        cases d.depth with
        | zero => rw [treeSum, hentry]
        | succ fuel => rw [treeSum, hentry, hnil, List.map_nil, List.sum_nil, add_zero]
      rw [Option.map_some, Option.map_some, htotal]
    next =>
      rw [Option.map_some, Option.map_some, flatten, ← hentry, flattenRec_numbers, total]

end DataUsageCache

end Fs3.Usage
