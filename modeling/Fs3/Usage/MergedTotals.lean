import Fs3.Usage.Merge

/-! # The totals of merged caches

Each turn of the loop of `merge` adds the totals of a child of the other root to the totals of the
root. -/

namespace Fs3.Usage

open Foundation

namespace DataUsageCache

variable {κ : Type} [DecidableEq κ]

/-- Caches while children of the root of one are merged into the other. -/
structure Joining (other : DataUsageCache κ) (h : Heap) (d : DataUsageCache κ) (keys : List κ) :
    Prop where
  left : d.WellFormed
  owns : d.Owns h
  ownsOther : other.Owns h
  apart : ∀ {k k' p}, (d.entry k).replicationStats = some p →
    (other.entry k').replicationStats ≠ some p
  found : d.find d.name ≠ none
  nodup : keys.Nodup
  keys : ∀ key ∈ keys, key ≠ d.name ∧ key ∈ other.kids d.name ∧
    (d.find key = none ∨ key ∈ d.kids d.name)

variable {other d : DataUsageCache κ} {h : Heap} {key : κ} {keys : List κ}

namespace IsJoined

variable {d' : DataUsageCache κ} {e : DataUsageEntry κ} (hjoined : IsJoined d d' key e)
include hjoined

theorem entry_key : d'.entry key = e := entry_of_find hjoined.self

theorem replicationStats_of_ne {k : κ} (hk : k ≠ key) :
    (d'.entry k).replicationStats = (d.entry k).replicationStats := by
  by_cases hname : k = d.name
  · rw [hname, entry_of_find hjoined.root, DataUsageEntry.addChild]
    split <;> rfl
  · rw [hjoined.entry_of_ne hname hk]

theorem numbers_of_ne {k : κ} (hk : k ≠ key) : (d'.entry k).numbers = (d.entry k).numbers := by
  by_cases hname : k = d.name
  · rw [hname, entry_of_find hjoined.root, DataUsageEntry.addChild]
    split <;> rfl
  · rw [hjoined.entry_of_ne hname hk]

end IsJoined

theorem exists_mergeTurn (hright : other.WellFormed)
    (hjoining : Joining other h d (key :: keys)) :
    ∃ e, IsJoined d (other.mergeTurn (h, d) key).2 key e ∧ e.children = d.kids key ∧
      e.numbers = (d.entry key).numbers + other.total key ∧
      Grown h (other.mergeTurn (h, d) key).1 (d.entry key).replicationStats e.replicationStats
        (other.totalStats h key) ∧
      ∀ p < h.length, (d.entry key).replicationStats ≠ some p →
        (∀ x, x = key ∨ Below other.kids key x → (other.entry x).replicationStats ≠ some p) →
        Heap.load (other.mergeTurn (h, d) key).1 p = Heap.load h p := by
  have hflat := flatten_flattened hright.isForest hjoining.ownsOther key
  have hreported : ((other.flatten h (other.entry key)).2.stats
      (other.flatten h (other.entry key)).1).reported = other.totalStats h key :=
    hflat.reported hright.isForest
  have hrange : ∀ p, (d.entry key).replicationStats = some p →
      p < (other.flatten h (other.entry key)).1.length := fun p hp =>
    (hjoining.owns.inRange hp).trans_le hflat.grown.length
  refine ⟨_, isJoined_replaceHashed (hjoining.keys key List.mem_cons_self).1 _, ?_, ?_, ?_, ?_⟩
  · exact DataUsageEntry.merge_children _ _ _
  · rw [DataUsageEntry.merge_numbers, flatten, flattenRec_numbers, total]
  · have hmerged := DataUsageEntry.merge_grown hrange (other.flatten h (other.entry key)).2
    rw [hreported] at hmerged
    have htrans := (Grown.refl h (d.entry key).replicationStats).trans hmerged
      hflat.grown.length fun p hp =>
        hflat.frame (hjoining.owns.inRange hp) fun x _ => hjoining.apart hp
    rwa [zero_add] at htrans
  · intro p hp hne hnot
    exact (DataUsageEntry.merge_frame _ (hp.trans_le hflat.grown.length) hne).trans
      (hflat.frame hp hnot)

/-- One turn of the loop. -/
theorem Joining.turn (hright : other.WellFormed) (hjoining : Joining other h d (key :: keys)) :
    Joining other (other.mergeTurn (h, d) key).1 (other.mergeTurn (h, d) key).2 keys ∧
      (other.mergeTurn (h, d) key).2.name = d.name ∧
      (other.mergeTurn (h, d) key).2.total d.name = d.total d.name + other.total key ∧
      (other.mergeTurn (h, d) key).2.totalStats (other.mergeTurn (h, d) key).1 d.name =
        d.totalStats h d.name + other.totalStats h key ∧
      ∀ c ∈ keys, other.totalStats (other.mergeTurn (h, d) key).1 c = other.totalStats h c := by
  obtain ⟨e, hjoined, hchildren, hnumbers, hgrown, hframe⟩ := exists_mergeTurn hright hjoining
  generalize other.mergeTurn (h, d) key = s at *
  obtain ⟨hne, hin, hkey⟩ := hjoining.keys key List.mem_cons_self
  obtain ⟨hnotin, hnodup⟩ := List.nodup_cons.mp hjoining.nodup
  have howns := hjoining.owns
  have hwell := hjoined.wellFormed hjoining.left hne hkey hchildren
  -- The statistics of the new entry are those it had, or new ones.
  have hold : ∀ {p}, e.replicationStats = some p → p < h.length →
      (d.entry key).replicationStats = some p := fun hp hlt =>
    not_not.mp fun hnot => hgrown.new_ne hlt hnot hp
  have hload : ∀ {k p}, k ≠ key → (d.entry k).replicationStats = some p →
      Heap.load s.1 p = Heap.load h p := fun hk hp =>
    hframe _ (howns.inRange hp) (fun hp' => hk (howns.own hp hp')) fun x _ => hjoining.apart hp
  refine ⟨⟨hwell, ⟨?_, ?_⟩, hjoining.ownsOther.mono hgrown.length, ?_, ?_, hnodup, ?_⟩,
    hjoined.name, ?_, ?_, ?_⟩
  · intro k p hp
    by_cases hk : k = key
    · rw [hk, hjoined.entry_key] at hp
      exact hgrown.new_lt (fun p hp => howns.inRange hp) hp
    · rw [hjoined.replicationStats_of_ne hk] at hp
      exact (howns.inRange hp).trans_le hgrown.length
  · have hown : ∀ {k p}, k ≠ key → e.replicationStats = some p →
        (d.entry k).replicationStats ≠ some p := fun hk hp hp' =>
      hk (howns.own hp' (hold hp (howns.inRange hp')))
    intro k k' p hp hp'
    by_cases hk : k = key
    · by_cases hk' : k' = key
      · exact hk.trans hk'.symm
      · rw [hk, hjoined.entry_key] at hp
        rw [hjoined.replicationStats_of_ne hk'] at hp'
        exact absurd hp' (hown hk' hp)
    · rw [hjoined.replicationStats_of_ne hk] at hp
      by_cases hk' : k' = key
      · rw [hk', hjoined.entry_key] at hp'
        exact absurd hp (hown hk hp')
      · rw [hjoined.replicationStats_of_ne hk'] at hp'
        exact howns.own hp hp'
  · intro k k' p hp hp'
    by_cases hk : k = key
    · rw [hk, hjoined.entry_key] at hp
      exact hjoining.apart (hold hp (hjoining.ownsOther.inRange hp')) hp'
    · rw [hjoined.replicationStats_of_ne hk] at hp
      exact hjoining.apart hp hp'
  · rw [hjoined.name, hjoined.root]
    exact Option.some_ne_none _
  · intro key' hkey'
    obtain ⟨hne', hin', hfind⟩ := hjoining.keys key' (List.mem_cons_of_mem _ hkey')
    rw [hjoined.name]
    refine ⟨hne', hin', ?_⟩
    rw [hjoined.kept hne' fun heq => hnotin (heq ▸ hkey'), hjoined.kids_root]
    refine hfind.imp_right fun hmem => ?_
    split
    · exact hmem
    · exact List.mem_append_left _ hmem
  · refine hjoining.left.isForest.treeSum_add hwell.isForest.enough
      (hjoined.isAdded hjoining.left hne hkey hchildren ?_ (fun k hk => ?_) fun hnone => ?_)
    · rw [hjoined.entry_key]
      exact hnumbers
    · exact hjoined.numbers_of_ne hk
    · rw [entry, hnone]
      rfl
  · refine hjoining.left.isForest.treeSum_add hwell.isForest.enough
      (hjoined.isAdded hjoining.left hne hkey hchildren ?_ (fun k hk => ?_) fun hnone => ?_)
    · rw [hjoined.entry_key]
      exact hgrown.reported
    · rw [DataUsageEntry.stats, DataUsageEntry.stats, hjoined.replicationStats_of_ne hk]
      cases hp : (d.entry k).replicationStats with
      | none => rfl
      | some p => rw [Option.elim_some, Option.elim_some, hload hk hp]
    · rw [entry, hnone]
      rfl
  · intro c hc
    obtain ⟨-, hin', -⟩ := hjoining.keys c (List.mem_cons_of_mem _ hc)
    refine totalStats_congr hright.isForest fun x p hx hp => ?_
    refine hframe p (hjoining.ownsOther.inRange hp) (fun hp' => hjoining.apart hp' hp) ?_
    intro y hy hp'
    rw [hjoining.ownsOther.own hp hp'] at hx
    exact hright.isForest.disjoint_children hin' hin (fun heq => hnotin (heq ▸ hc)) hx hy

theorem Joining.foldl (hright : other.WellFormed) (hjoining : Joining other h d keys) :
    Joining other (keys.foldl other.mergeTurn (h, d)).1 (keys.foldl other.mergeTurn (h, d)).2 [] ∧
      (keys.foldl other.mergeTurn (h, d)).2.name = d.name ∧
      (keys.foldl other.mergeTurn (h, d)).2.total d.name =
        d.total d.name + (keys.map other.total).sum ∧
      (keys.foldl other.mergeTurn (h, d)).2.totalStats (keys.foldl other.mergeTurn (h, d)).1
        d.name = d.totalStats h d.name + (keys.map (other.totalStats h)).sum := by
  induction keys generalizing h d with
  | nil => exact ⟨hjoining, rfl, (add_zero _).symm, (add_zero _).symm⟩
  | cons key keys ih =>
    obtain ⟨hnext, hname, htotal, hstats, hrest⟩ := hjoining.turn hright
    obtain ⟨hend, hname', htotal', hstats'⟩ := ih hnext
    rw [List.foldl_cons, List.map_cons, List.map_cons, List.sum_cons, List.sum_cons]
    refine ⟨hend, hname'.trans hname, ?_, ?_⟩
    · rw [hname] at htotal'
      rw [htotal', htotal, add_assoc]
    · rw [hname, List.map_congr_left hrest] at hstats'
      rw [hstats', hstats, add_assoc]

/-! ## The roots -/

theorem rootTotals_of_none (hfind : d.find d.name = none) : d.rootTotals h = 0 := by
  rw [rootTotals, sizeRecursive, hfind]

theorem totalStats_merge_root (hsame : d.SameBucket other h) {root otherRoot : DataUsageEntry κ}
    (hfind : d.find d.name = some root) :
    d.totalStats (root.merge h otherRoot).1 d.name = d.totalStats h d.name +
        (if root.replicationStats = none then 0 else (otherRoot.stats h).reported) ∧
      ∀ k, other.totalStats (root.merge h otherRoot).1 k = other.totalStats h k := by
  have hforest := hsame.left.isForest
  have hentry := entry_of_find hfind
  have hroot : ∀ {p}, root.replicationStats = some p →
      (d.entry d.name).replicationStats = some p := fun hp => by rw [hentry, hp]
  have hgrown := DataUsageEntry.merge_grown (fun p hp => hsame.owns.inRange (hroot hp)) otherRoot
  refine ⟨?_, fun k => ?_⟩
  · have hbelow : d.belowStats (root.merge h otherRoot).1 d.name = d.belowStats h d.name := by
      refine belowStats_congr hforest fun x p hx hp => ?_
      refine DataUsageEntry.merge_frame _ (hsame.owns.inRange hp) fun hp' => ?_
      rw [hsame.owns.own hp (hroot hp')] at hx
      exact hforest.enough.not_below_self d.name hx
    rw [totalStats_eq hforest, hbelow, totalStats_eq hforest, hentry, add_right_comm]
    congr 1
    cases hp : root.replicationStats with
    | none => rw [if_pos rfl, DataUsageEntry.stats, DataUsageEntry.stats, hp, add_zero]; rfl
    | some p =>
      have hload : ∀ h', root.stats h' = Heap.load h' p := fun h' => by
        rw [DataUsageEntry.stats, hp, Option.elim_some]
      rw [if_neg (Option.some_ne_none p), hload, hload, (hgrown.inPlace hp).2,
        ReplicationStats.reported_addReported]
  · refine totalStats_congr hsame.right.isForest fun x p _ hp => ?_
    exact DataUsageEntry.merge_frame _ (hsame.ownsOther.inRange hp) fun hp' =>
      hsame.apart (hroot hp') hp

/-- Where the loop starts. -/
theorem joining_of_sameBucket (hsame : d.SameBucket other h) {root otherRoot : DataUsageEntry κ}
    (hfind : d.find d.name = some root) (hother : other.find other.name = some otherRoot)
    (lastUpdate : Time) :
    Joining other (root.merge h otherRoot).1 { d with lastUpdate } otherRoot.children where
  left := ⟨hsame.left.acyclic, hsame.left.nodup, hsame.left.parent, hsame.left.present⟩
  owns := ⟨fun hp => (hsame.owns.inRange hp).trans_le (DataUsageEntry.merge_grown
    (fun p hp => hsame.owns.inRange (by rw [entry_of_find hfind, hp])) otherRoot).length,
    hsame.owns.own⟩
  ownsOther := hsame.ownsOther.mono (DataUsageEntry.merge_grown
    (fun p hp => hsame.owns.inRange (by rw [entry_of_find hfind, hp])) otherRoot).length
  apart := hsame.apart
  found := by
    rw [show DataUsageCache.find { d with lastUpdate } d.name = some root from hfind]
    exact Option.some_ne_none root
  nodup := kids_of_find hother ▸ hsame.right.nodup other.name
  keys := by
    intro key hkey
    have hin : key ∈ other.kids d.name := by
      rw [← hsame.name, kids_of_find hother]
      exact hkey
    refine ⟨?_, hin, ?_⟩
    · rintro rfl
      exact hsame.right.isForest.enough.not_below_self _ (Relation.TransGen.single hin)
    · cases hkeyfind : d.find key with
      | none => exact Or.inl hkeyfind
      | some e =>
        rcases hsame.rooted (hkeyfind ▸ Option.some_ne_none e) with heq | hbelow
        · refine absurd hin fun hin => ?_
          rw [heq] at hin
          exact hsame.right.isForest.enough.not_below_self _ (Relation.TransGen.single hin)
        · refine Or.inr ?_
          cases hbelow with
          | single hc => exact hc
          | tail _ hc =>
            rw [hsame.parent hc hin] at hc
            exact hc

/-- Merging adds the totals of the roots exactly if the other root has nothing of its own
that is lost. -/
theorem merged_iff (hsame : d.SameBucket other h) :
    (d.merge other h).2.rootTotals (d.merge other h).1 = d.rootTotals h + other.rootTotals h ↔
      d.RootAdds other h := by
  rw [merge, RootAdds]
  cases hfind : d.find d.name with
  | none =>
    cases hother : other.find other.name with
    | none =>
      refine iff_of_true ?_ trivial
      rw [rootTotals_of_none hfind, rootTotals_of_none hother, add_zero]
    | some otherRoot =>
      refine iff_of_true ?_ trivial
      rw [rootTotals_of_none hfind, zero_add]
      rfl
  | some root =>
    cases hother : other.find other.name with
    | none =>
      refine iff_of_true ?_ trivial
      rw [rootTotals_of_none hother, add_zero]
    | some otherRoot =>
      dsimp only
      obtain ⟨hend, hname, htotal, hstats⟩ := (joining_of_sameBucket hsame hfind hother
        (if d.lastUpdate < other.lastUpdate then other.lastUpdate else d.lastUpdate)).foldl
          hsame.right
      obtain ⟨hrootStats, hotherStats⟩ := @totalStats_merge_root _ _ _ _ _ hsame _ otherRoot
        hfind
      have hkids : other.kids d.name = otherRoot.children := by
        rw [← hsame.name, kids_of_find hother]
      have hotherTotals : other.rootTotals h =
          (otherRoot.numbers + (otherRoot.children.map other.total).sum,
            (otherRoot.stats h).reported +
              (otherRoot.children.map (other.totalStats h)).sum) := by
        rw [rootTotals_eq hsame.right.isForest hsame.ownsOther,
          totalStats_eq hsame.right.isForest, belowStats, total,
          hsame.right.isForest.enough.treeSum_eq, entry_of_find hother, kids_of_find hother]
        rfl
      rw [rootTotals_eq hend.left.isForest hend.owns, hname, hotherTotals,
        rootTotals_eq hsame.left.isForest hsame.owns, Prod.mk_add_mk, Prod.mk.injEq]
      refine and_congr ?_ ?_
      · rw [show _ = d.total d.name + _ from htotal, add_right_inj]
        exact right_eq_add
      · rw [show _ = d.totalStats _ d.name + _ from hstats, hrootStats,
          List.map_congr_left fun c _ => hotherStats c, add_assoc, add_right_inj,
          add_left_inj]
        split
        next hnone => exact ⟨fun h => Or.inl h.symm, fun h => (h.resolve_right (· hnone)).symm⟩
        next hsome => exact iff_of_true rfl (Or.inr hsome)

/-- Two caches of one bucket are added, and left as they are by queries, exactly if the
other root has nothing of its own that is lost and in neither cache a folder has statistics
of its own while folders below it report any. -/
theorem addsAndKeeps_iff (hsame : d.SameBucket other h) :
    d.AddsAndKeeps other h ↔ d.RootAdds other h ∧ d.KeepsStats h ∧ other.KeepsStats h := by
  have hkept := kept_iff hsame.left.isForest hsame.owns
  have hkeptOther := kept_iff hsame.right.isForest hsame.ownsOther
  constructor
  · rintro ⟨hmerged, hqueries, hqueriesOther⟩
    exact ⟨(merged_iff hsame).mp hmerged, hkept.mp hqueries, hkeptOther.mp hqueriesOther⟩
  · rintro ⟨hroot, hstats, hstatsOther⟩
    exact ⟨(merged_iff hsame).mpr hroot, hkept.mpr hstats, hkeptOther.mpr hstatsOther⟩

def rootOnly (e : DataUsageEntry String) : DataUsageCache String where
  name := "b"
  lastUpdate := Time.zero
  cache := (∅ : AList fun _ => DataUsageEntry String).insert "b" e

theorem rootOnly_find (e : DataUsageEntry String) (k : String) :
    (rootOnly e).find k = if k = "b" then some e else none := by
  rw [find, rootOnly]
  dsimp only
  by_cases hk : k = "b"
  · rw [if_pos hk, hk, AList.lookup_insert]
  · rw [if_neg hk, AList.lookup_insert_ne hk, AList.lookup_empty]

def oneObject : DataUsageCache String := rootOnly { size := 5, objects := 1, versions := 1 }

theorem oneObject_kids (k : String) : oneObject.kids k = [] := by
  rw [kids, entry, oneObject, rootOnly_find]
  split <;> rfl

theorem oneObject_stats (k : String) : (oneObject.entry k).replicationStats = none := by
  rw [entry, oneObject, rootOnly_find]
  split <;> rfl

theorem oneObject_sameBucket : oneObject.SameBucket oneObject [] := by
  have hnone : ∀ {k c}, c ∉ oneObject.kids k := fun {k c} hc => by
    rw [oneObject_kids] at hc
    cases hc
  have hwell : oneObject.WellFormed := by
    refine ⟨⟨fun _ => 0, fun k c hc => absurd hc hnone⟩, fun k => ?_, fun {k k' c} hc => ?_,
      fun {k c} hc => absurd hc hnone⟩
    · rw [oneObject_kids]
      exact List.nodup_nil
    · exact absurd hc hnone
  have hstats : ∀ {k p}, (oneObject.entry k).replicationStats ≠ some p := fun {k p} hp => by
    rw [oneObject_stats] at hp
    cases hp
  refine ⟨hwell, hwell, rfl, fun {k k' c} hc => absurd hc hnone, fun {k} hk => Or.inl ?_,
    ⟨fun {k p} hp => absurd hp hstats, fun {k k' p} hp => absurd hp hstats⟩,
    ⟨fun {k p} hp => absurd hp hstats, fun {k k' p} hp => absurd hp hstats⟩,
    fun {k k' p} hp => absurd hp hstats⟩
  by_contra hne
  refine hk ?_
  rw [oneObject, rootOnly_find]
  exact if_neg hne

theorem oneObject_addsAndKeeps_iff : oneObject.AddsAndKeeps oneObject [] ↔
    oneObject.RootAdds oneObject [] ∧ oneObject.KeepsStats [] ∧ oneObject.KeepsStats [] :=
  addsAndKeeps_iff oneObject_sameBucket

/-- Merged, they have one object, and not two. -/
theorem not_always_addsAndKeeps : ¬ ∀ (h : Heap) (d other : DataUsageCache String),
    d.SameBucket other h → d.AddsAndKeeps other h := by
  intro halways
  have hmerged := (halways [] oneObject oneObject oneObject_sameBucket).merged
  have hobjects := congrArg (fun totals : Numbers × Reported => totals.1.2.1) hmerged
  exact absurd hobjects (by decide)

end DataUsageCache

end Fs3.Usage
