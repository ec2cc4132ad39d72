import Fs3.Usage.Cache

/-! # Statistics that are changed in place

The statistics of a folder that is flattened are its own and those of all below it. -/

namespace Fs3.Usage

open Foundation

/-- What becomes of statistics when reported ones are added: they grow in place, or new
ones are made where there were none. -/
structure Grown (h h' : Heap) (old new : Option Ref) (added : Reported) : Prop where
  length : h.length ≤ h'.length
  inPlace : ∀ {p}, old = some p → new = some p ∧ Heap.load h' p = (Heap.load h p).addReported added
  made : old = none → new = none ∧ added = 0 ∨
    ∃ q, new = some q ∧ h.length ≤ q ∧ q < h'.length ∧
      Heap.load h' q = ReplicationStats.addReported {} added

namespace Grown

variable {h h₁ h₂ h' : Heap} {old mid new : Option Ref} {a b : Reported}

theorem refl (h : Heap) (old : Option Ref) : Grown h h old old 0 where
  length := le_rfl
  inPlace hold := ⟨hold, rfl⟩
  made hold := Or.inl ⟨hold, rfl⟩

theorem reported (hgrown : Grown h h' old new a) :
    (new.elim {} (Heap.load h')).reported = (old.elim {} (Heap.load h)).reported + a := by
  cases old with
  | some p =>
    obtain ⟨rfl, hload⟩ := hgrown.inPlace rfl
    rw [Option.elim_some, Option.elim_some, hload, ReplicationStats.reported_addReported]
  | none =>
    rcases hgrown.made rfl with ⟨rfl, rfl⟩ | ⟨q, rfl, -, -, hload⟩
    · rfl
    · rw [Option.elim_some, Option.elim_none, hload, ReplicationStats.reported_addReported]

theorem new_ne (hgrown : Grown h h' old new a) {p : Ref} (hp : p < h.length)
    (hne : old ≠ some p) : new ≠ some p := by
  intro hnew
  cases old with
  | some q =>
    obtain ⟨rfl, -⟩ := hgrown.inPlace rfl
    exact hne hnew
  | none =>
    rcases hgrown.made rfl with ⟨rfl, -⟩ | ⟨q, rfl, hle, -, -⟩
    · cases hnew
    · cases hnew
      exact absurd hp (not_lt.mpr hle)

theorem new_lt (hgrown : Grown h h' old new a) (hold : ∀ p, old = some p → p < h.length)
    {p : Ref} (hnew : new = some p) : p < h'.length := by
  cases old with
  | some q =>
    obtain ⟨rfl, -⟩ := hgrown.inPlace rfl
    exact (hold p hnew).trans_le hgrown.length
  | none =>
    rcases hgrown.made rfl with ⟨rfl, -⟩ | ⟨q, rfl, -, hlt, -⟩
    · cases hnew
    · cases hnew
      exact hlt

theorem trans (hgrown : Grown h h₁ old mid a) (hgrown' : Grown h₂ h' mid new b)
    (hlength : h₁.length ≤ h₂.length)
    (hsame : ∀ p, mid = some p → Heap.load h₂ p = Heap.load h₁ p) :
    Grown h h' old new (a + b) where
  length := hgrown.length.trans (hlength.trans hgrown'.length)
  inPlace := by
    intro p hold
    obtain ⟨hmid, hload⟩ := hgrown.inPlace hold
    obtain ⟨hnew, hload'⟩ := hgrown'.inPlace hmid
    refine ⟨hnew, ?_⟩
    rw [hload', hsame p hmid, hload, ReplicationStats.addReported_addReported]
  made := by
    intro hold
    rcases hgrown.made hold with ⟨hmid, rfl⟩ | ⟨q, hmid, hle, hlt, hload⟩
    · rcases hgrown'.made hmid with ⟨hnew, rfl⟩ | ⟨q, hnew, hle, hlt, hload⟩
      · exact Or.inl ⟨hnew, rfl⟩
      · refine Or.inr ⟨q, hnew, (hgrown.length.trans hlength).trans hle, hlt, ?_⟩
        rw [hload, zero_add]
    · obtain ⟨hnew, hload'⟩ := hgrown'.inPlace hmid
      refine Or.inr ⟨q, hnew, hle, hlt.trans_le (hlength.trans hgrown'.length), ?_⟩
      rw [hload', hsame q hmid, hload, ReplicationStats.addReported_addReported]

end Grown

namespace DataUsageEntry

variable {κ : Type} {h : Heap} {e : DataUsageEntry κ}

/-- `merge` adds what the other entry reports to the statistics of this one. -/
theorem merge_grown (hrange : ∀ p, e.replicationStats = some p → p < h.length)
    (other : DataUsageEntry κ) :
    Grown h (e.merge h other).1 e.replicationStats (e.merge h other).2.replicationStats
      (other.stats h).reported := by
  rw [merge]
  split
  next hnone =>
    rw [stats, hnone]
    exact Grown.refl h _
  next ors hors =>
    rw [stats, hors, Option.elim_some]
    split
    next hempty =>
      rw [hempty]
      exact Grown.refl h _
    next =>
      cases hold : e.replicationStats with
      | some p =>
        constructor
        · exact Heap.length_store.ge
        · intro q hq
          cases hq
          refine ⟨rfl, ?_⟩
          rw [Heap.load_store_self (hrange p hold), ReplicationStats.add_eq]
        · intro hnone
          cases hnone
      | none =>
        constructor
        · rw [Heap.length_alloc]
          exact Nat.le_succ _
        · intro q hq
          cases hq
        · refine fun _ => Or.inr ⟨h.length, rfl, le_rfl, ?_, ?_⟩
          · rw [Heap.length_alloc]
            exact Nat.lt_succ_self _
          · rw [Heap.load_alloc_self, ReplicationStats.add_eq]

theorem merge_frame (other : DataUsageEntry κ) {p : Ref} (hp : p < h.length)
    (hne : e.replicationStats ≠ some p) :
    Heap.load (e.merge h other).1 p = Heap.load h p := by
  rw [merge]
  split
  · rfl
  next ors _ =>
    split
    · rfl
    · cases hold : e.replicationStats with
      | some q => exact Heap.load_store_of_ne fun heq => hne (heq ▸ hold)
      | none => exact Heap.load_alloc_of_lt hp

end DataUsageEntry

namespace DataUsageCache

variable {κ : Type} [DecidableEq κ] (d : DataUsageCache κ) (h h' : Heap)

def totalStats (path : κ) : Reported :=
  treeSum d.kids (fun k => ((d.entry k).stats h).reported) d.depth path

def belowStats (path : κ) : Reported := ((d.kids path).map (d.totalStats h)).sum

/-- Each entry with statistics has its own. -/
structure Owns : Prop where
  inRange : ∀ {k p}, (d.entry k).replicationStats = some p → p < h.length
  own : ∀ {k k' p}, (d.entry k).replicationStats = some p →
    (d.entry k').replicationStats = some p → k = k'

/-- What flattening a folder does to the statistics there are: behind its pointer, and
behind those of folders below it, there is now what is below each of them too. -/
structure Flattened (k : κ) (new : Option Ref) : Prop where
  grown : Grown h h' (d.entry k).replicationStats new (d.belowStats h k)
  below : ∀ {x p}, x = k ∨ Below d.kids k x → (d.entry x).replicationStats = some p →
    Heap.load h' p = (Heap.load h p).addReported (d.belowStats h x)
  frame : ∀ {p}, p < h.length →
    (∀ x, x = k ∨ Below d.kids k x → (d.entry x).replicationStats ≠ some p) →
    Heap.load h' p = Heap.load h p

/-- What adding some subfolders to an entry does to them. -/
structure Folded (ids : List κ) (old new : Option Ref) : Prop where
  grown : Grown h h' old new ((ids.map (d.totalStats h)).sum)
  below : ∀ {c x p}, c ∈ ids → x = c ∨ Below d.kids c x →
    (d.entry x).replicationStats = some p →
    Heap.load h' p = (Heap.load h p).addReported (d.belowStats h x)
  frame : ∀ {p}, p < h.length → old ≠ some p →
    (∀ c ∈ ids, ∀ x, x = c ∨ Below d.kids c x → (d.entry x).replicationStats ≠ some p) →
    Heap.load h' p = Heap.load h p

variable {d h h'} {k : κ}

theorem totalStats_eq (hforest : IsForest d.kids d.depth) :
    d.totalStats h k = ((d.entry k).stats h).reported + d.belowStats h k :=
  hforest.enough.treeSum_eq _ k

theorem belowStats_of_nil (hnil : d.kids k = []) : d.belowStats h k = 0 := by
  rw [belowStats, hnil]
  rfl

theorem totalStats_congr (hforest : IsForest d.kids d.depth)
    (hsame : ∀ x p, x = k ∨ Below d.kids k x → (d.entry x).replicationStats = some p →
      Heap.load h' p = Heap.load h p) : d.totalStats h' k = d.totalStats h k := by
  refine hforest.enough.treeSum_congr fun x hx => ?_
  rw [DataUsageEntry.stats, DataUsageEntry.stats]
  cases hstats : (d.entry x).replicationStats with
  | none => rfl
  | some p => rw [Option.elim_some, Option.elim_some, hsame x p hx hstats]

theorem belowStats_congr (hforest : IsForest d.kids d.depth)
    (hsame : ∀ x p, Below d.kids k x → (d.entry x).replicationStats = some p →
      Heap.load h' p = Heap.load h p) : d.belowStats h' k = d.belowStats h k := by
  rw [belowStats, belowStats]
  refine congrArg List.sum (List.map_congr_left fun c hc => ?_)
  refine totalStats_congr hforest fun x p hx => hsame x p ?_
  exact below_iff_exists.mpr ⟨c, hc, hx⟩

namespace Owns

theorem mono (howns : d.Owns h) (hlength : h.length ≤ h'.length) : d.Owns h' :=
  ⟨fun hp => (howns.inRange hp).trans_le hlength, howns.own⟩

end Owns

theorem Flattened.reported {new : Option Ref} (hforest : IsForest d.kids d.depth)
    (hflattened : d.Flattened h h' k new) :
    (new.elim {} (Heap.load h')).reported = d.totalStats h k := by
  rw [hflattened.grown.reported, totalStats_eq hforest]
  rfl

theorem Flattened.leaf (hnil : d.kids k = []) :
    d.Flattened h h k (d.entry k).replicationStats where
  grown := by
    rw [belowStats_of_nil hnil]
    exact Grown.refl h _
  below := by
    intro x p hx _
    rw [hx.resolve_right (not_below_of_nil hnil), belowStats_of_nil hnil,
      ReplicationStats.addReported_zero]
  frame _ _ := rfl

theorem Flattened.of_folded {new : Option Ref}
    (hfolded : d.Folded h h' (d.kids k) (d.entry k).replicationStats new) :
    d.Flattened h h' k new where
  grown := hfolded.grown
  below := by
    intro x p hx hstats
    rcases hx with rfl | hx
    · exact (hfolded.grown.inPlace hstats).2
    · obtain ⟨c, hc, hx⟩ := below_iff_exists.mp hx
      exact hfolded.below hc hx hstats
  frame := by
    intro p hp hnot
    refine hfolded.frame hp (hnot k (Or.inl rfl)) fun c hc x hx => hnot x (Or.inr ?_)
    exact below_iff_exists.mpr ⟨c, hc, hx⟩

/-- The subfolders of a folder are added one after the other. -/
theorem folded_foldl (hforest : IsForest d.kids d.depth) {fuel : Nat}
    (hchild : ∀ c ∈ d.kids k, ∀ h, d.Owns h →
      d.Flattened h (d.flattenChild fuel h c).1 c (d.flattenChild fuel h c).2.replicationStats)
    (ids : List κ) (hnodup : ids.Nodup) (hids : ∀ c ∈ ids, c ∈ d.kids k)
    (s : Heap × DataUsageEntry κ) (howns : d.Owns s.1)
    (hroot : ∀ p, s.2.replicationStats = some p → p < s.1.length ∧
      ∀ c ∈ ids, ∀ x, x = c ∨ Below d.kids c x → (d.entry x).replicationStats ≠ some p) :
    d.Folded s.1 (ids.foldl (d.flattenTurn fuel) s).1 ids s.2.replicationStats
      (ids.foldl (d.flattenTurn fuel) s).2.replicationStats := by
  induction ids generalizing s with
  | nil =>
    refine ⟨Grown.refl s.1 _, fun {c} x p hc => ?_, fun {p} _ _ _ => rfl⟩
    cases hc
  | cons c ids ih =>
    obtain ⟨hnotin, hnodup⟩ := List.nodup_cons.mp hnodup
    have hflat := hchild c (hids c List.mem_cons_self) s.1 howns
    have hreported := hflat.reported hforest
    rw [List.foldl_cons]
    -- The subfolder is flattened, and then added.
    have hrange : ∀ p, s.2.replicationStats = some p →
        p < (d.flattenChild fuel s.1 c).1.length :=
      fun p hp => (hroot p hp).1.trans_le hflat.grown.length
    have hmerged := DataUsageEntry.merge_grown hrange (d.flattenChild fuel s.1 c).2
    rw [show ((d.flattenChild fuel s.1 c).2.stats (d.flattenChild fuel s.1 c).1).reported =
      d.totalStats s.1 c from hreported] at hmerged
    have hturn : Grown s.1 (d.flattenTurn fuel s c).1 s.2.replicationStats
        (d.flattenTurn fuel s c).2.replicationStats (d.totalStats s.1 c) := by
      have htrans := (Grown.refl s.1 s.2.replicationStats).trans hmerged hflat.grown.length
        fun p hp => hflat.frame (hroot p hp).1 ((hroot p hp).2 c List.mem_cons_self)
      rwa [zero_add] at htrans
    have hframe : ∀ {p}, p < s.1.length → s.2.replicationStats ≠ some p →
        Heap.load (d.flattenTurn fuel s c).1 p =
          Heap.load (d.flattenChild fuel s.1 c).1 p := fun hp hne =>
      DataUsageEntry.merge_frame _ (hp.trans_le hflat.grown.length) hne
    -- The other subfolders are not touched.
    have hapart : ∀ {c' x p}, c' ∈ ids → x = c' ∨ Below d.kids c' x →
        (d.entry x).replicationStats = some p →
        Heap.load (d.flattenTurn fuel s c).1 p = Heap.load s.1 p := by
      intro c' x p hc' hx hstats
      have hp := howns.inRange hstats
      rw [hframe hp fun hold => (hroot p hold).2 c' (List.mem_cons_of_mem _ hc') x hx hstats]
      refine hflat.frame hp fun y hy hstats' => ?_
      rw [howns.own hstats hstats'] at hx
      exact hforest.disjoint_children (hids c' (List.mem_cons_of_mem _ hc'))
        (hids c List.mem_cons_self) (fun heq => hnotin (heq ▸ hc')) hx hy
    have hlength : s.1.length ≤ (d.flattenTurn fuel s c).1.length := hturn.length
    obtain ⟨hgrown, hbelow, hframe'⟩ := ih hnodup
      (fun c' hc' => hids c' (List.mem_cons_of_mem _ hc')) (d.flattenTurn fuel s c)
      (howns.mono hlength) fun p hp => by
        refine ⟨hturn.new_lt (fun p hp => (hroot p hp).1) hp, fun c' hc' x hx hstats => ?_⟩
        refine hturn.new_ne (howns.inRange hstats) (fun hold => ?_) hp
        exact (hroot p hold).2 c' (List.mem_cons_of_mem _ hc') x hx hstats
    refine ⟨?_, fun {c'} x p hc' hx hstats => ?_, fun {p} hp hne hnot => ?_⟩
    · have htotals : ids.map (d.totalStats (d.flattenTurn fuel s c).1) =
          ids.map (d.totalStats s.1) := List.map_congr_left fun c' hc' =>
        totalStats_congr hforest fun x p hx => hapart hc' hx
      rw [htotals] at hgrown
      rw [List.map_cons, List.sum_cons]
      exact hturn.trans hgrown le_rfl fun p _ => rfl
    · have hp := howns.inRange hstats
      have hold : s.2.replicationStats ≠ some p := fun hold => (hroot p hold).2 c' hc' x hx hstats
      rcases List.mem_cons.mp hc' with rfl | hc'
      · rw [hframe' (hp.trans_le hlength) (hturn.new_ne hp hold) fun c'' hc'' y hy hstats' => ?_,
          hframe hp hold, hflat.below hx hstats]
        rw [howns.own hstats hstats'] at hx
        exact hforest.disjoint_children (hids c'' (List.mem_cons_of_mem _ hc''))
          (hids c' List.mem_cons_self) (fun heq => hnotin (heq ▸ hc'')) hy hx
      · rw [hbelow hc' hx hstats, hapart hc' hx hstats]
        congr 1
        refine belowStats_congr hforest fun y q hy hstats' => hapart hc' ?_ hstats'
        rcases hx with rfl | hx
        · exact Or.inr hy
        · exact Or.inr (hx.trans hy)
    · rw [hframe' (hp.trans_le hlength) (hturn.new_ne hp hne) fun c' hc' =>
          hnot c' (List.mem_cons_of_mem _ hc'), hframe hp hne,
        hflat.frame hp (hnot c List.mem_cons_self)]

theorem flattenRec_flattened (hforest : IsForest d.kids d.depth) {rank : κ → Nat}
    (hrank : ∀ k, ∀ c ∈ d.kids k, rank c < rank k) (fuel : Nat) (hfuel : rank k ≤ fuel)
    (howns : d.Owns h) :
    d.Flattened h (d.flattenRec fuel h (d.entry k)).1 k
      (d.flattenRec fuel h (d.entry k)).2.replicationStats := by
  induction fuel generalizing h k with
  | zero =>
    have hnil : d.kids k = [] := List.eq_nil_iff_forall_not_mem.mpr fun c hc =>
      absurd ((hrank k c hc).trans_le hfuel) (Nat.not_lt_zero _)
    exact Flattened.leaf hnil
  | succ fuel ih =>
    rw [flattenRec_succ]
    refine Flattened.of_folded (folded_foldl hforest (fun c hc h howns => ?_) (d.kids k)
      (hforest.nodup k) (fun _ hc => hc) (h, d.entry k) howns fun p hp => ?_)
    · rw [flattenChild]
      split
      next hleaf => exact Flattened.leaf hleaf
      next =>
        exact ih (Nat.le_of_lt_succ ((hrank k c hc).trans_le hfuel)) howns
    · refine ⟨howns.inRange hp, fun c hc x hx hstats => ?_⟩
      rw [howns.own hstats hp] at hx
      exact hforest.enough.not_below_self k (below_iff_exists.mpr ⟨c, hc, hx⟩)

theorem flatten_flattened (hforest : IsForest d.kids d.depth) (howns : d.Owns h) (k : κ) :
    d.Flattened h (d.flatten h (d.entry k)).1 k
      (d.flatten h (d.entry k)).2.replicationStats := by
  obtain ⟨rank, hrank, hfuel⟩ := hforest.enough
  exact flattenRec_flattened hforest hrank d.depth (hfuel k) howns

end DataUsageCache

end Fs3.Usage
