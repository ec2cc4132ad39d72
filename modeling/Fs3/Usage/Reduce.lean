import Fs3.Usage.Cache

/-! # Compacting folders

A scan keeps the tree of a bucket small: where there are too many folders below one, the folders
with the fewest objects are compacted, which makes one entry of each with what was in it and all
below it. -/

namespace Fs3.Usage

open Foundation

/-- A folder with subfolders, and how many objects there are in it and below it. -/
structure Candidate (κ : Type) where
  objects : Nat
  path : κ
  deriving DecidableEq

/-- Fewest objects first, as `sort.Slice` sorts. -/
abbrev FewestFirst (κ : Type) := DescendingSort fun c : Candidate κ => OrderDual.toDual c.objects

namespace DataUsageCache

variable {κ : Type} [DecidableEq κ] (d : DataUsageCache κ)

def erase (hash : κ) : DataUsageCache κ := { d with cache := d.cache.erase hash }

def insert (hash : κ) (e : DataUsageEntry κ) : DataUsageCache κ :=
  { d with cache := d.cache.insert hash e }

/-- The recursion of `deleteRecursive`. -/
def deleteRec : Nat → DataUsageCache κ → κ → DataUsageCache κ
  | 0, d, h => d.erase h
  | fuel + 1, d, h =>
    match d.find h with
    | none => d
    | some existing => existing.children.foldl (deleteRec fuel) (d.erase h)

/-- `dataUsageCache.deleteRecursive`. -/
def deleteRecursive (h : κ) : DataUsageCache κ := deleteRec d.depth d h

/-- `dataUsageCache.replaceHashed`. -/
def replaceHashed (hash : κ) (parent : Option κ) (e : DataUsageEntry κ) : DataUsageCache κ :=
  let d := d.insert hash e
  match parent with
  | none => d
  | some p => d.insert p ((d.entry p).addChild hash)

/-- The recursion of `add` in `reduceChildrenOf`. -/
def addRec : Nat → Heap × List (Candidate κ) → κ → Heap × List (Candidate κ)
  | 0, s, _ => s
  | fuel + 1, s, path =>
    match d.find path with
    | none => s
    | some e =>
      if e.children = [] then s
      else
        let sz := d.sizeRecursive s.1 path
        let objects := sz.2.elim 0 DataUsageEntry.objects
        e.children.foldl (addRec fuel) (sz.1, s.2 ++ [⟨objects, path⟩])

def compact (h : Heap) (path : κ) : Heap × Option (DataUsageCache κ) :=
  match d.sizeRecursive h path with
  | (h, none) => (h, none)
  | (h, some flat) =>
    (h, some ((d.deleteRecursive path).replaceHashed path none { flat with compacted := true }))

/-- The loop of `reduceChildrenOf` over the sorted candidates. -/
def reduceLoop (path : κ) (compactSelf : Bool) :
    List (Candidate κ) → Int → Heap × DataUsageCache κ → Heap × DataUsageCache κ
  | [], _, s => s
  | e :: leaves, remove, s =>
    if 0 < remove then
      -- The folder itself should be the biggest.
      if e.path = path ∧ ¬ compactSelf then s
      else
        let removing := s.2.totalChildrenRec e.path
        match s.2.compact s.1 e.path with
        | (h, none) => reduceLoop path compactSelf leaves remove (h, s.2)
        | (h, some d) => reduceLoop path compactSelf leaves (remove - removing) (h, d)
    else s

/-- `dataUsageCache.reduceChildrenOf`. -/
def reduceChildrenOf (sorter : FewestFirst κ) (h : Heap) (path : κ) (limit : Int)
    (compactSelf : Bool) : Heap × DataUsageCache κ :=
  match d.find path with
  | none => (h, d)
  | some e =>
    if e.compacted then (h, d)
    else if limit < e.children.length ∧ compactSelf then
      match d.compact h path with
      | (h, none) => (h, d)
      | (h, some d) => (h, d)
    else
      let total : Int := d.totalChildrenRec path
      if total < limit then (h, d)
      else
        let added := d.addRec d.depth (h, []) path
        reduceLoop path compactSelf (sorter.sort added.2) (total - limit) (added.1, d)

/-! ## One folder is compacted -/

variable {d} {path k : κ}

theorem find_erase_self (hash : κ) : (d.erase hash).find hash = none :=
  AList.lookup_erase _ _

theorem find_erase_of_ne {hash : κ} (hne : k ≠ hash) : (d.erase hash).find k = d.find k :=
  AList.lookup_erase_ne hne

theorem find_insert_self (hash : κ) (e : DataUsageEntry κ) :
    (d.insert hash e).find hash = some e := AList.lookup_insert _

theorem find_insert_of_ne {hash : κ} (e : DataUsageEntry κ) (hne : k ≠ hash) :
    (d.insert hash e).find k = d.find k := AList.lookup_insert_ne hne

/-- What a recursion deletes that starts in trees: a folder and all below it. -/
theorem find_deleteRec {d₀ : DataUsageCache κ} (hforest : IsForest d₀.kids d₀.depth)
    {rank : κ → Nat} (hrank : ∀ k, ∀ c ∈ d₀.kids k, rank c < rank k) (fuel : Nat) {hash : κ}
    (hfuel : rank hash ≤ fuel)
    (hsame : ∀ k, k = hash ∨ Below d₀.kids hash k → d.find k = d₀.find k) :
    (∀ k, k = hash ∨ Below d₀.kids hash k → (deleteRec fuel d hash).find k = none) ∧
      ∀ k, ¬ (k = hash ∨ Below d₀.kids hash k) → (deleteRec fuel d hash).find k = d.find k := by
  induction fuel generalizing d hash with
  | zero =>
    have hnil : d₀.kids hash = [] := List.eq_nil_iff_forall_not_mem.mpr fun c hc =>
      absurd ((hrank hash c hc).trans_le hfuel) (Nat.not_lt_zero _)
    rw [deleteRec]
    refine ⟨fun k hk => ?_, fun k hk => ?_⟩
    · rw [hk.resolve_right (not_below_of_nil hnil), find_erase_self]
    · exact find_erase_of_ne (not_or.mp hk).1
  | succ fuel ih =>
    -- The subfolders are deleted one after the other.
    have hloop : ∀ (ids : List κ), ids.Nodup → (∀ c ∈ ids, c ∈ d₀.kids hash) →
        ∀ d : DataUsageCache κ, (∀ c ∈ ids, ∀ k, k = c ∨ Below d₀.kids c k →
          d.find k = d₀.find k) →
        (∀ c ∈ ids, ∀ k, k = c ∨ Below d₀.kids c k →
          (ids.foldl (deleteRec fuel) d).find k = none) ∧
        ∀ k, (∀ c ∈ ids, ¬ (k = c ∨ Below d₀.kids c k)) →
          (ids.foldl (deleteRec fuel) d).find k = d.find k := by
      intro ids
      induction ids with
      | nil =>
        intro _ _ d _
        refine ⟨fun c hc => ?_, fun k _ => rfl⟩
        cases hc
      | cons c ids ihids =>
        intro hnodup hids d hsame
        obtain ⟨hnotin, hnodup⟩ := List.nodup_cons.mp hnodup
        have hc := hids c List.mem_cons_self
        obtain ⟨hgone, hkept⟩ := ih (Nat.le_of_lt_succ ((hrank hash c hc).trans_le hfuel))
          (hsame c List.mem_cons_self)
        have hapart : ∀ c' ∈ ids, ∀ k, k = c' ∨ Below d₀.kids c' k →
            ¬ (k = c ∨ Below d₀.kids c k) := by
          intro c' hc' k hk
          exact hforest.disjoint_children (hids c' (List.mem_cons_of_mem _ hc')) hc
            (fun heq => hnotin (heq ▸ hc')) hk
        obtain ⟨hgones, hkepts⟩ := ihids hnodup
          (fun c' hc' => hids c' (List.mem_cons_of_mem _ hc')) (deleteRec fuel d c)
          fun c' hc' k hk => (hkept k (hapart c' hc' k hk)).trans
            (hsame c' (List.mem_cons_of_mem _ hc') k hk)
        rw [List.foldl_cons]
        refine ⟨fun c' hc' k hk => ?_, fun k hk => ?_⟩
        · rcases List.mem_cons.mp hc' with rfl | hc'
          · by_cases hmore : ∃ c'' ∈ ids, k = c'' ∨ Below d₀.kids c'' k
            · obtain ⟨c'', hc'', hk'⟩ := hmore
              exact hgones c'' hc'' k hk'
            · rw [hkepts k fun c'' hc'' hk' => hmore ⟨c'', hc'', hk'⟩]
              exact hgone k hk
          · exact hgones c' hc' k hk
        · rw [hkepts k fun c' hc' => hk c' (List.mem_cons_of_mem _ hc')]
          exact hkept k (hk c List.mem_cons_self)
    rw [deleteRec]
    have hhash := hsame hash (Or.inl rfl)
    cases hfind : d.find hash with
    | none =>
      rw [hfind] at hhash
      refine ⟨fun k hk => ?_, fun k _ => rfl⟩
      rw [hk.resolve_right (not_below_of_nil (kids_of_none hhash.symm))]
      exact hfind
    | some existing =>
      rw [hfind] at hhash
      have hkids := kids_of_find hhash.symm
      have hbelow : ∀ {k}, Below d₀.kids hash k ↔
          ∃ c ∈ existing.children, k = c ∨ Below d₀.kids c k := by
        intro k
        rw [below_iff_exists, hkids]
      have hne : ∀ c ∈ existing.children, ∀ k, k = c ∨ Below d₀.kids c k → k ≠ hash := by
        rintro c hc k hk rfl
        exact hforest.enough.not_below_self k (hbelow.mpr ⟨c, hc, hk⟩)
      obtain ⟨hgone, hkept⟩ := hloop existing.children (hkids ▸ hforest.nodup hash)
        (fun c hc => hkids ▸ hc) (d.erase hash) fun c hc k hk => by
          rw [find_erase_of_ne (hne c hc k hk)]
          exact hsame k (Or.inr (hbelow.mpr ⟨c, hc, hk⟩))
      dsimp only
      refine ⟨fun k hk => ?_, fun k hk => ?_⟩
      · rcases hk with rfl | hk
        · rw [hkept k fun c hc hk => hne c hc k hk rfl, find_erase_self]
        · obtain ⟨c, hc, hk⟩ := hbelow.mp hk
          exact hgone c hc k hk
      · obtain ⟨hne', hnot⟩ := not_or.mp hk
        rw [hkept k fun c hc hk => hnot (hbelow.mpr ⟨c, hc, hk⟩), find_erase_of_ne hne']

theorem find_deleteRecursive (hwell : d.WellFormed) (hash : κ) :
    (∀ k, k = hash ∨ Below d.kids hash k → (d.deleteRecursive hash).find k = none) ∧
      ∀ k, ¬ (k = hash ∨ Below d.kids hash k) →
        (d.deleteRecursive hash).find k = d.find k := by
  obtain ⟨rank, hrank, hfuel⟩ := hwell.isForest.enough
  exact find_deleteRec hwell.isForest hrank d.depth (hfuel hash) fun _ _ => rfl

/-- What compacting a folder makes of a cache. -/
structure IsCompacted (d d' : DataUsageCache κ) (path : κ) : Prop where
  self : ∃ e, d'.find path = some e ∧ e.children = [] ∧ e.numbers = d.total path
  gone : ∀ {k}, Below d.kids path k → d'.find k = none
  kept : ∀ {k}, k ≠ path → ¬ Below d.kids path k → d'.find k = d.find k

/-- A folder that is there is compacted. -/
theorem compact_of_find (hwell : d.WellFormed) (h : Heap) {root : DataUsageEntry κ}
    (hfind : d.find path = some root) :
    ∃ h' d', d.compact h path = (h', some d') ∧ IsCompacted d d' path := by
  have hnumbers := d.sizeRecursive_numbers h path
  rw [hfind, Option.map_some] at hnumbers
  have hchildren : ∀ flat, (d.sizeRecursive h path).2 = some flat → flat.children = [] := by
    intro flat hflat
    rw [sizeRecursive, hfind] at hflat
    dsimp only at hflat
    split at hflat
    next hleaf =>
      cases hflat
      exact hleaf
    next =>
      cases hflat
      exact d.flattenRec_children _ _ _
  rw [compact]
  cases hsize : d.sizeRecursive h path with
  | mk h' size =>
    rw [hsize] at hnumbers hchildren
    cases size with
    | none => cases hnumbers
    | some flat =>
      rw [Option.map_some, Option.some.injEq] at hnumbers
      obtain ⟨hgone, hkept⟩ := find_deleteRecursive hwell path
      refine ⟨h', _, rfl, ?_, fun {k} hk => ?_, fun {k} hne hnot => ?_⟩
      · exact ⟨_, find_insert_self _ _, hchildren flat rfl, hnumbers⟩
      · have hne : k ≠ path := by
          rintro rfl
          exact hwell.isForest.enough.not_below_self k hk
        rw [replaceHashed, find_insert_of_ne _ hne]
        exact hgone k (Or.inr hk)
      · rw [replaceHashed, find_insert_of_ne _ hne]
        exact hkept k (not_or.mpr ⟨hne, hnot⟩)

theorem compact_of_none (h : Heap) (hfind : d.find path = none) :
    d.compact h path = (h, none) := by
  rw [compact, sizeRecursive, hfind]

namespace IsCompacted

variable {d' : DataUsageCache κ} (hcompacted : IsCompacted d d' path)
include hcompacted

theorem isCut : IsCut d.kids d'.kids fun k => k = path where
  at_or_below := by
    rintro x k rfl hk
    rcases hk with rfl | hk
    · obtain ⟨e, hfind, hchildren, -⟩ := hcompacted.self
      rw [kids_of_find hfind, hchildren]
    · exact kids_of_none (hcompacted.gone hk)
  elsewhere := by
    intro k hk
    obtain ⟨hne, hnot⟩ := hk path rfl
    rw [kids, entry, hcompacted.kept hne hnot]
    rfl

theorem wellFormed (hwell : d.WellFormed) : d'.WellFormed where
  acyclic := by
    obtain ⟨rank, hrank, -⟩ := hcompacted.isCut.enough hwell.isForest.enough
    exact ⟨rank, hrank⟩
  nodup := (hcompacted.isCut.isForest hwell.isForest).nodup
  parent := (hcompacted.isCut.isForest hwell.isForest).parent
  present := by
    intro k c hc
    obtain ⟨hnot, hc⟩ := hcompacted.isCut.mem_of_mem hc
    obtain ⟨hne, hnotbelow⟩ := hnot path rfl
    by_cases hcp : c = path
    · obtain ⟨e, hfind, -⟩ := hcompacted.self
      rw [hcp, hfind]
      exact Option.some_ne_none e
    · rw [hcompacted.kept hcp fun hbelow => ?_]
      · exact hwell.present hc
      · rcases hwell.isForest.eq_or_below hc hbelow with heq | hbelow
        · exact hne heq.symm
        · exact hnotbelow hbelow

theorem total_eq (hwell : d.WellFormed) (hk : ¬ Below d.kids path k) :
    d'.total k = d.total k := by
  have hcut := hcompacted.isCut
  rw [total, (hcompacted.wellFormed hwell).isForest.enough.treeSum_fuel
    (hcut.enough hwell.isForest.enough), total]
  refine hcut.treeSum_eq hwell.isForest ?_ ?_ ?_
  · rintro x rfl
    obtain ⟨e, hfind, -, hnumbers⟩ := hcompacted.self
    rw [entry_of_find hfind, hnumbers]
    rfl
  · intro k hk
    obtain ⟨hne, hnot⟩ := hk path rfl
    rw [entry, hcompacted.kept hne hnot]
    rfl
  · rintro x rfl
    exact hk

theorem totalChildrenRec_add (hwell : d.WellFormed) (hk : path = k ∨ Below d.kids k path) :
    d'.totalChildrenRec k + d.totalChildrenRec path = d.totalChildrenRec k := by
  have hcut := hcompacted.isCut
  rw [totalChildrenRec_eq, totalChildrenRec_eq, totalChildrenRec_eq,
    (hcompacted.wellFormed hwell).isForest.enough.below_fuel
      (hcut.enough hwell.isForest.enough)]
  exact hcut.length_below hwell.isForest (fun y => Iff.rfl) hk

end IsCompacted

end DataUsageCache

end Fs3.Usage
