import Mathlib.Algebra.Order.BigOperators.Group.List
import Mathlib.Algebra.Order.Group.Nat
import Fs3.Usage.Reduce

/-! # What compacting leaves

While candidates are compacted in turn, the cache is what it was at the start with some folders cut
off below. -/

namespace Fs3.Usage

open Foundation

namespace DataUsageCache

variable {κ : Type} [DecidableEq κ] (d : DataUsageCache κ) (path : κ)

def objectsIn (path : κ) : Nat := (d.total path).2.1

/-- Nothing is left to compact: no folder below one has subfolders, nor has it itself if
it may be compacted. -/
def NoCandidate (compactSelf : Bool) : Prop :=
  ∀ k, (k = path ∧ compactSelf = true) ∨ Below d.kids path k → d.kids k = []

/-- What is asked of a call: the totals of the folder stay, the entries are trees without
dangling children, what was below the folder still is or is gone, and there are no more
folders below than the limit, or nothing is left to compact. -/
structure Reduces (d' : DataUsageCache κ) (limit : Int) (compactSelf : Bool) : Prop where
  totals : ∀ h h', (d'.sizeRecursive h' path).2.map DataUsageEntry.numbers =
    (d.sizeRecursive h path).2.map DataUsageEntry.numbers
  wellFormed : d'.WellFormed
  noOrphan : ∀ k, Below d.kids path k → d'.find k ≠ none → Below d'.kids path k
  limited : d'.totalChildrenRec path ≤ limit ∨ d'.NoCandidate path compactSelf

def smaller : List κ :=
  (below d.kids d.depth path).filter fun k =>
    decide (d.kids k ≠ []) && decide (d.objectsIn k < d.objectsIn path)

def notBelowSmaller : List κ :=
  (below d.kids d.depth path).filter fun k =>
    decide (∀ y ∈ d.smaller path, k ∉ below d.kids d.depth y)

def HasTie : Prop :=
  ∃ k, Below d.kids path k ∧ d.kids k ≠ [] ∧ d.objectsIn path ≤ d.objectsIn k

/-- When a call does what is asked of it, whichever way the sort breaks ties: the folder may be
compacted itself, or none below it that could be has as many objects, or without that one there are
few enough. -/
def CanReduce (limit : Int) (compactSelf : Bool) : Prop :=
  match d.find path with
  | none => True
  | some e =>
    if e.compacted then d.totalChildrenRec path ≤ limit ∨ d.NoCandidate path compactSelf
    else
      compactSelf = true ∨ ¬ d.HasTie path ∨ ((d.notBelowSmaller path).length : Int) ≤ limit

variable {d path} {k x y : κ}

theorem objectsIn_le (hwell : d.WellFormed) (hk : Below d.kids x k) :
    d.objectsIn k ≤ d.objectsIn x := by
  have hstep : ∀ {x c}, c ∈ d.kids x → d.objectsIn c ≤ d.objectsIn x := by
    intro x c hc
    have hobjects : ∀ l : List Numbers, (l.sum).2.1 = (l.map fun n => n.2.1).sum := by
      intro l
      induction l with
      | nil => rfl
      | cons n l ih => rw [List.sum_cons, List.map_cons, List.sum_cons, ← ih]; rfl
    rw [objectsIn, objectsIn, total, total, hwell.isForest.enough.treeSum_eq _ x, Prod.snd_add,
      Prod.fst_add, hobjects, List.map_map]
    refine le_trans (List.single_le_sum (fun _ _ => Nat.zero_le _) _ ?_) (Nat.le_add_left _ _)
    exact List.mem_map.mpr ⟨c, hc, rfl⟩
  induction hk with
  | single hc => exact hstep hc
  | tail _ hc ih => exact (hstep hc).trans ih

def candidates (d : DataUsageCache κ) (path : κ) : List (Candidate κ) :=
  ((path :: below d.kids d.depth path).filter fun k => decide (d.kids k ≠ [])).map fun k =>
    ⟨d.objectsIn k, k⟩

theorem addRec_eq {rank : κ → Nat} (hrank : ∀ k, ∀ c ∈ d.kids k, rank c < rank k) (fuel : Nat)
    (s : Heap × List (Candidate κ)) (hfuel : rank path ≤ fuel) :
    (d.addRec fuel s path).2 = s.2 ++
      ((path :: below d.kids fuel path).filter fun k => decide (d.kids k ≠ [])).map fun k =>
        ⟨d.objectsIn k, k⟩ := by
  induction fuel generalizing s path with
  | zero =>
    have hnil : d.kids path = [] := List.eq_nil_iff_forall_not_mem.mpr fun c hc =>
      absurd ((hrank path c hc).trans_le hfuel) (Nat.not_lt_zero _)
    simp [addRec, below, hnil]
  | succ fuel ih =>
    rw [addRec, below]
    cases hfind : d.find path with
    | none => simp [kids_of_none hfind]
    | some e =>
      have hkids := kids_of_find hfind
      dsimp only
      split
      next hleaf => simp [hkids, hleaf]
      next hinner =>
        have hobjects : (d.sizeRecursive s.1 path).2.elim 0 DataUsageEntry.objects =
            d.objectsIn path := by
          have hnumbers := d.sizeRecursive_numbers s.1 path
          rw [hfind, Option.map_some] at hnumbers
          cases hsize : (d.sizeRecursive s.1 path).2 with
          | none =>
            rw [hsize] at hnumbers
            cases hnumbers
          | some flat =>
            rw [hsize, Option.map_some, Option.some.injEq] at hnumbers
            rw [objectsIn, ← hnumbers]
            rfl
        have hloop : ∀ (ids : List κ), (∀ c ∈ ids, c ∈ d.kids path) →
            ∀ s : Heap × List (Candidate κ),
            (ids.foldl (d.addRec fuel) s).2 = s.2 ++
              ((ids.flatMap fun c => c :: below d.kids fuel c).filter fun k =>
                decide (d.kids k ≠ [])).map fun k => ⟨d.objectsIn k, k⟩ := by
          intro ids
          induction ids with
          | nil => exact fun _ s => (List.append_nil s.2).symm
          | cons c ids ihids =>
            intro hids s
            have hc := hrank path c (hids c List.mem_cons_self)
            rw [List.foldl_cons, ihids fun c' hc' => hids c' (List.mem_cons_of_mem _ hc'),
              ih s (Nat.le_of_lt_succ (hc.trans_le hfuel)), List.flatMap_cons,
              List.filter_append, List.map_append, List.append_assoc]
        rw [hobjects, hloop e.children fun c hc => hkids ▸ hc, List.filter_cons, if_pos,
          List.map_cons, List.append_assoc, List.singleton_append, hkids]
        exact decide_eq_true (hkids ▸ hinner)

theorem addRec_candidates (hwell : d.WellFormed) (h : Heap) :
    (d.addRec d.depth (h, []) path).2 = d.candidates path := by
  obtain ⟨rank, hrank, hfuel⟩ := hwell.isForest.enough
  rw [d.addRec_eq hrank d.depth (h, []) (hfuel path)]
  rfl

theorem nodup_candidates (hwell : d.WellFormed) : (d.candidates path).Nodup := by
  refine List.Nodup.map (fun k k' heq => ?_) ((hwell.isForest.nodup_below path).filter _)
  exact congrArg Candidate.path heq

theorem mem_candidates (hwell : d.WellFormed) {c : Candidate κ} :
    c ∈ d.candidates path ↔ (c.path = path ∨ Below d.kids path c.path) ∧ d.kids c.path ≠ [] ∧
      c.objects = d.objectsIn c.path := by
  rw [candidates, List.mem_map]
  constructor
  · rintro ⟨k, hk, rfl⟩
    rw [List.mem_filter, List.mem_cons, hwell.isForest.enough.mem_below, decide_eq_true_eq] at hk
    exact ⟨hk.1, hk.2, rfl⟩
  · rintro ⟨hin, hkids, hobjects⟩
    refine ⟨c.path, ?_, by rw [← hobjects]⟩
    rw [List.mem_filter, List.mem_cons, hwell.isForest.enough.mem_below, decide_eq_true_eq]
    exact ⟨hin, hkids⟩

/-! ## The loop -/

/-- What a cache is after some folders have been compacted, or were gone already. -/
structure CutAt (d₀ d : DataUsageCache κ) (path : κ) (C : List κ) : Prop where
  wellFormed : d.WellFormed
  inside : ∀ y ∈ C, y = path ∨ Below d₀.kids path y
  cut : IsCut d₀.kids d.kids fun k => k ∈ C
  find : ∀ k, k = path ∨ Below d₀.kids path k →
    (d.find k = none ↔ d₀.find k = none ∨ ∃ y ∈ C, Below d₀.kids y k)
  total : d.total path = d₀.total path

namespace CutAt

variable {d₀ : DataUsageCache κ} {C : List κ}

theorem start (hwell : d₀.WellFormed) : CutAt d₀ d₀ path [] where
  wellFormed := hwell
  inside y hy := absurd hy List.not_mem_nil
  cut := IsCut.empty.congr fun k => iff_false_intro List.not_mem_nil
  find k _ := by simp
  total := rfl

variable (hcut : CutAt d₀ d path C)
include hcut

theorem skip (hy : y = path ∨ Below d₀.kids path y) (hfind₀ : d₀.find y ≠ none)
    (hfind : d.find y = none) : CutAt d₀ d path (C ++ [y]) := by
  obtain ⟨z, hz, hzy⟩ := ((hcut.find y hy).mp hfind).resolve_left hfind₀
  refine ⟨hcut.wellFormed, fun x hx => ?_, ?_, fun k hk => ?_, hcut.total⟩
  · rcases List.mem_append.mp hx with hx | hx
    · exact hcut.inside x hx
    · exact List.mem_singleton.mp hx ▸ hy
  · refine (hcut.cut.or_below hz hzy).congr fun k => ?_
    rw [List.mem_append, List.mem_singleton]
  · rw [hcut.find k hk]
    refine or_congr_right ⟨fun ⟨x, hx, hxk⟩ => ⟨x, List.mem_append_left _ hx, hxk⟩, ?_⟩
    rintro ⟨x, hx, hxk⟩
    rcases List.mem_append.mp hx with hx | hx
    · exact ⟨x, hx, hxk⟩
    · rw [List.mem_singleton.mp hx] at hxk
      exact ⟨z, hz, hzy.trans hxk⟩

variable (hwell₀ : d₀.WellFormed)
include hwell₀

theorem not_below_path (hy : y ∈ C) : ¬ Below d₀.kids y path := by
  intro hbelow
  rcases hcut.inside y hy with rfl | hy
  · exact hwell₀.isForest.enough.not_below_self y hbelow
  · exact hwell₀.isForest.enough.not_below_self path (hy.trans hbelow)

theorem inside_of_find (hy : y = path ∨ Below d₀.kids path y) (hfind : d.find y ≠ none) :
    y = path ∨ Below d.kids path y := by
  rcases hy with rfl | hbelow
  · exact Or.inl rfl
  · refine Or.inr ((hcut.cut.below_iff hwell₀.isForest).mpr ⟨hbelow, fun x hx hxy => ?_⟩)
    exact hfind ((hcut.find y (Or.inr hbelow)).mpr (Or.inr ⟨x, hx, hxy⟩))

/-- A folder that is compacted. -/
theorem compact {d' : DataUsageCache κ} (hy : y = path ∨ Below d₀.kids path y)
    (hfind : d.find y ≠ none) (hcompacted : IsCompacted d d' y) :
    CutAt d₀ d' path (C ++ [y]) := by
  have hwell := hcut.wellFormed
  have hyd := hcut.inside_of_find hwell₀ hy hfind
  have hpath : ¬ Below d.kids y path := by
    intro hbelow
    rcases hyd with rfl | hyd
    · exact hwell.isForest.enough.not_below_self y hbelow
    · exact hwell.isForest.enough.not_below_self path (hyd.trans hbelow)
  have hcut' := hcut.cut.and_then hwell₀.isForest hcompacted.isCut
  refine ⟨hcompacted.wellFormed hwell, fun x hx => ?_, ?_, fun k hk => ?_, ?_⟩
  · rcases List.mem_append.mp hx with hx | hx
    · exact hcut.inside x hx
    · exact List.mem_singleton.mp hx ▸ hy
  · refine hcut'.congr fun k => ?_
    rw [List.mem_append, List.mem_singleton]
  · have hexists : (∃ x ∈ C ++ [y], Below d₀.kids x k) ↔
        (∃ x ∈ C, Below d₀.kids x k) ∨ Below d₀.kids y k := by
      simp only [List.mem_append, List.mem_singleton, or_and_right, exists_or, exists_eq_left]
    rw [hexists]
    by_cases hky : k = y
    · obtain ⟨e, hfind', -⟩ := hcompacted.self
      have hfound := (hcut.find y hy).not.mp hfind
      rw [hky, hfind']
      refine iff_of_false (Option.some_ne_none e) ?_
      rintro (hnone | hbelow | hbelow)
      · exact hfound (Or.inl hnone)
      · exact hfound (Or.inr hbelow)
      · exact hwell₀.isForest.enough.not_below_self y hbelow
    · by_cases hbelow : Below d.kids y k
      · refine iff_of_true (hcompacted.gone hbelow) ?_
        exact Or.inr (Or.inr (hcut.cut.below_of_below hbelow))
      · rw [hcompacted.kept hky hbelow, hcut.find k hk, ← or_assoc, iff_self_or]
        intro hyk
        rw [hcut.cut.below_iff hwell₀.isForest] at hbelow
        push Not at hbelow
        exact Or.inr (hbelow hyk)
  · rw [hcompacted.total_eq hwell hpath, hcut.total]

theorem totalChildrenRec_eq : d.totalChildrenRec path =
    ((below d₀.kids d₀.depth path).filter fun k =>
      decide (∀ y ∈ C, k ∉ below d₀.kids d₀.depth y)).length := by
  rw [DataUsageCache.totalChildrenRec_eq]
  refine List.Perm.length_eq ((List.perm_ext_iff_of_nodup ?_ ?_).mpr fun k => ?_)
  · exact (List.nodup_cons.mp (hcut.wellFormed.isForest.nodup_below path)).2
  · exact ((List.nodup_cons.mp (hwell₀.isForest.nodup_below path)).2).filter _
  · rw [List.mem_filter, decide_eq_true_eq, hcut.wellFormed.isForest.enough.mem_below,
      hcut.cut.below_iff hwell₀.isForest, hwell₀.isForest.enough.mem_below]
    simp only [hwell₀.isForest.enough.mem_below]

end CutAt

/-- How the loop ends on candidates: some are done, and there are no more, or few enough
folders are left, or the folder itself comes that may not be compacted. -/
def LoopEnds (d₀ : DataUsageCache κ) (path : κ) (limit : Int) (compactSelf : Bool)
    (leaves : List (Candidate κ)) (C : List κ) (d : DataUsageCache κ) : Prop :=
  ∃ done rest, leaves = done ++ rest ∧ CutAt d₀ d path (C ++ done.map Candidate.path) ∧
    (compactSelf = false → ∀ c ∈ done, c.path ≠ path) ∧
    (rest = [] ∨ (d.totalChildrenRec path : Int) ≤ limit ∨
      compactSelf = false ∧ limit < d.totalChildrenRec path ∧
        ∃ c rest', rest = c :: rest' ∧ c.path = path)

theorem reduceLoop_ends {d₀ : DataUsageCache κ} (hwell₀ : d₀.WellFormed) (limit : Int)
    (compactSelf : Bool) (leaves : List (Candidate κ))
    (hleaves : ∀ c ∈ leaves, (c.path = path ∨ Below d₀.kids path c.path) ∧
      d₀.find c.path ≠ none) (s : Heap × DataUsageCache κ) {C : List κ}
    (hcut : CutAt d₀ s.2 path C) :
    LoopEnds d₀ path limit compactSelf leaves C
      (reduceLoop path compactSelf leaves (s.2.totalChildrenRec path - limit) s).2 := by
  induction leaves generalizing s C with
  | nil =>
    refine ⟨[], [], rfl, ?_, fun _ c hc => absurd hc List.not_mem_nil, Or.inl rfl⟩
    rw [List.map_nil, List.append_nil]
    exact hcut
  | cons e leaves ih =>
    have hstop : CutAt d₀ s.2 path (C ++ ([] : List (Candidate κ)).map Candidate.path) := by
      rw [List.map_nil, List.append_nil]
      exact hcut
    rw [reduceLoop]
    split
    next hremove =>
      split
      next hself =>
        refine ⟨[], e :: leaves, rfl, hstop, fun _ c hc => absurd hc List.not_mem_nil,
          Or.inr (Or.inr ⟨Bool.not_eq_true _ ▸ hself.2, by omega, e, leaves, rfl, hself.1⟩)⟩
      next hself =>
        have hnext : compactSelf = false → e.path ≠ path := fun hfalse heq =>
          hself ⟨heq, by rw [hfalse]; exact Bool.false_ne_true⟩
        obtain ⟨hin, hfind₀⟩ := hleaves e List.mem_cons_self
        have hrest : ∀ {s₁ : Heap × DataUsageCache κ}, CutAt d₀ s₁.2 path (C ++ [e.path]) →
            LoopEnds d₀ path limit compactSelf (e :: leaves) C
              (reduceLoop path compactSelf leaves
                (s₁.2.totalChildrenRec path - limit) s₁).2 := by
          intro s₁ hcut₁
          obtain ⟨done, rest, hsplit, hcut', hdone, hend⟩ :=
            ih (fun c hc => hleaves c (List.mem_cons_of_mem _ hc)) s₁ hcut₁
          refine ⟨e :: done, rest, by rw [hsplit, List.cons_append], ?_, ?_, hend⟩
          · rw [List.map_cons, ← List.singleton_append, ← List.append_assoc]
            exact hcut'
          · intro hfalse c hc
            rcases List.mem_cons.mp hc with rfl | hc
            · exact hnext hfalse
            · exact hdone hfalse c hc
        cases hfind : s.2.find e.path with
        | none =>
          rw [compact_of_none s.1 hfind]
          exact hrest (hcut.skip hin hfind₀ hfind)
        | some root =>
          obtain ⟨h', d', hcompact, hcompacted⟩ :=
            compact_of_find hcut.wellFormed s.1 hfind
          have hfound : s.2.find e.path ≠ none := hfind ▸ Option.some_ne_none root
          have hcut' := hcut.compact hwell₀ hin hfound hcompacted
          have hremoved := hcompacted.totalChildrenRec_add hcut.wellFormed
            (hcut.inside_of_find hwell₀ hin hfound)
          rw [hcompact]
          dsimp only
          have hleft : (s.2.totalChildrenRec path : Int) - limit -
              s.2.totalChildrenRec e.path = d'.totalChildrenRec path - limit := by
            omega
          rw [hleft]
          exact @hrest (h', d') hcut'
    next hremove =>
      refine ⟨[], e :: leaves, rfl, hstop, fun _ c hc => absurd hc List.not_mem_nil,
        Or.inr (Or.inl (by omega))⟩

/-! ## The call -/

theorem CutAt.reduces {d₀ : DataUsageCache κ} {C : List κ} (hwell₀ : d₀.WellFormed)
    (hcut : CutAt d₀ d path C) {limit : Int} {compactSelf : Bool}
    (hlimited : d.totalChildrenRec path ≤ limit ∨ d.NoCandidate path compactSelf) :
    d₀.Reduces path d limit compactSelf where
  totals h h' := by
    have hfind : d.find path = none ↔ d₀.find path = none := by
      rw [hcut.find path (Or.inl rfl), or_iff_left]
      rintro ⟨y, hy, hbelow⟩
      exact hcut.not_below_path hwell₀ hy hbelow
    rw [sizeRecursive_numbers, sizeRecursive_numbers, hcut.total]
    cases hfind₀ : d₀.find path with
    | none => rw [hfind.mpr hfind₀]
    | some e =>
      obtain ⟨e', he'⟩ := Option.ne_none_iff_exists'.mp
        (hfind.not.mpr (hfind₀ ▸ Option.some_ne_none e))
      rw [he']
      rfl
  wellFormed := hcut.wellFormed
  noOrphan k hk hfind := by
    rcases hcut.inside_of_find hwell₀ (Or.inr hk) hfind with heq | hbelow
    · exact absurd (heq ▸ hk) (hwell₀.isForest.enough.not_below_self path)
    · exact hbelow
  limited := hlimited

theorem reduces_self_iff (hwell : d.WellFormed) {limit : Int} {compactSelf : Bool} :
    d.Reduces path d limit compactSelf ↔
      (d.totalChildrenRec path ≤ limit ∨ d.NoCandidate path compactSelf) :=
  ⟨Reduces.limited, (CutAt.start hwell).reduces hwell⟩

theorem length_notBelowSmaller_le :
    (d.notBelowSmaller path).length ≤ d.totalChildrenRec path := by
  rw [totalChildrenRec_eq]
  exact List.length_filter_le _ _

theorem mem_smaller (hwell : d.WellFormed) :
    k ∈ d.smaller path ↔ Below d.kids path k ∧ d.kids k ≠ [] ∧
      d.objectsIn k < d.objectsIn path := by
  rw [smaller, List.mem_filter, hwell.isForest.enough.mem_below, Bool.and_eq_true,
    decide_eq_true_eq, decide_eq_true_eq]

section Ends

variable {limit : Int} {compactSelf : Bool} {leaves : List (Candidate κ)}
variable {d₀ : DataUsageCache κ} (hwell₀ : d₀.WellFormed)
variable (hperm : leaves.Perm (d₀.candidates path))
include hwell₀ hperm

theorem mem_leaves_of_inner (hk : k = path ∨ Below d₀.kids path k) (hkids : d₀.kids k ≠ []) :
    ⟨d₀.objectsIn k, k⟩ ∈ leaves :=
  hperm.mem_iff.mpr ((mem_candidates hwell₀).mpr ⟨hk, hkids, rfl⟩)

/-- Where the folder may be compacted, or none below it has as many objects, or there are
few enough folders without the smaller ones, the loop does what is asked. -/
theorem LoopEnds.reduces (hsorted : leaves.Pairwise fun c c' => c.objects ≤ c'.objects)
    (hends : LoopEnds d₀ path limit compactSelf leaves [] d)
    (hcan : compactSelf = true ∨ ¬ d₀.HasTie path ∨
      ((d₀.notBelowSmaller path).length : Int) ≤ limit) :
    d₀.Reduces path d limit compactSelf := by
  obtain ⟨done, rest, hsplit, hcut, hdone, hend⟩ := hends
  rw [List.nil_append] at hcut
  refine hcut.reduces hwell₀ ?_
  -- What is left with subfolders has not been done.
  have hinner : ∀ k, k = path ∨ Below d.kids path k → d.kids k ≠ [] →
      (k = path ∨ Below d₀.kids path k) ∧ d₀.kids k ≠ [] ∧ ⟨d₀.objectsIn k, k⟩ ∈ rest := by
    intro k hk hkids
    obtain ⟨c, hc⟩ := List.exists_mem_of_ne_nil _ hkids
    obtain ⟨hnot, hc⟩ := hcut.cut.mem_of_mem hc
    have hk₀ := hk.imp_right hcut.cut.below_of_below
    have hkids₀ := List.ne_nil_of_mem hc
    refine ⟨hk₀, hkids₀, ?_⟩
    have hmem := mem_leaves_of_inner hwell₀ hperm hk₀ hkids₀
    rw [hsplit, List.mem_append] at hmem
    refine hmem.resolve_left fun hin => ?_
    exact (hnot k (List.mem_map.mpr ⟨_, hin, rfl⟩)).1 rfl
  rcases hend with rfl | hlimit | ⟨hfalse, hlimit, c, rest, rfl, hc⟩
  · refine Or.inr fun k hk => ?_
    by_contra hkids
    have hin := (hinner k (hk.imp_left And.left) hkids).2.2
    cases hin
  · exact Or.inl hlimit
  · -- The folder itself comes: those with fewer objects are done.
    have hpath : c.objects = d₀.objectsIn path := by
      have hmem : c ∈ leaves := by
        rw [hsplit]
        exact List.mem_append_right _ List.mem_cons_self
      rw [((mem_candidates hwell₀).mp (hperm.mem_iff.mp hmem)).2.2, hc]
    have hrest : ∀ c' ∈ c :: rest, d₀.objectsIn path ≤ c'.objects := by
      rw [hsplit] at hsorted
      have hpair := List.pairwise_cons.mp (List.pairwise_append.mp hsorted).2.1
      intro c' hc'
      rcases List.mem_cons.mp hc' with rfl | hc'
      · exact hpath.ge
      · exact hpath ▸ hpair.1 c' hc'
    rcases hcan with htrue | hnotie | hfew
    · rw [hfalse] at htrue
      cases htrue
    · refine Or.inr fun k hk => ?_
      have hbelow : Below d.kids path k := by
        refine hk.resolve_left fun h => ?_
        rw [hfalse] at h
        cases h.2
      by_contra hkids
      obtain ⟨-, hkids₀, hin⟩ := hinner k (Or.inr hbelow) hkids
      exact hnotie ⟨k, hcut.cut.below_of_below hbelow, hkids₀, hrest _ hin⟩
    · refine absurd hlimit (not_lt.mpr (le_trans ?_ hfew))
      rw [hcut.totalChildrenRec_eq hwell₀, notBelowSmaller]
      refine Int.ofNat_le.mpr (List.Sublist.length_le (List.monotone_filter_right _ fun k => ?_))
      simp only [decide_eq_true_eq]
      intro hk y hy
      obtain ⟨hbelow, hkids, hless⟩ := (mem_smaller hwell₀).mp hy
      have hmem := mem_leaves_of_inner hwell₀ hperm (Or.inr hbelow) hkids
      rw [hsplit, List.mem_append] at hmem
      refine hk y (List.mem_map.mpr ⟨_, hmem.resolve_right fun hin => ?_, rfl⟩)
      exact absurd (hrest _ hin) (not_le.mpr hless)

/-- Where the folder comes in front of all that have as many objects, and one of these is
below it, the loop ends too early. -/
theorem LoopEnds.not_reduces
    (hfirst : leaves.Pairwise fun c c' => c'.path = path → c.objects < c'.objects)
    (hends : LoopEnds d₀ path limit false leaves [] d) (hkids : d₀.kids path ≠ [])
    (htie : d₀.HasTie path) (hmany : limit < (d₀.notBelowSmaller path).length) :
    ¬ d₀.Reduces path d limit false := by
  obtain ⟨done, rest, hsplit, hcut, hdone, -⟩ := hends
  rw [List.nil_append] at hcut
  -- Only smaller folders are done.
  have hsmaller : ∀ c ∈ done, c.path ∈ d₀.smaller path := by
    intro c hc
    have hmem := mem_leaves_of_inner hwell₀ hperm (Or.inl rfl) hkids
    rw [hsplit, List.mem_append] at hmem
    have hrest := hmem.resolve_left fun hin => hdone rfl _ hin rfl
    rw [hsplit] at hfirst
    have hless := (List.pairwise_append.mp hfirst).2.2 c hc _ hrest rfl
    have hcleaves : c ∈ leaves := by
      rw [hsplit]
      exact List.mem_append_left _ hc
    obtain ⟨hin, hckids, hobjects⟩ := (mem_candidates hwell₀).mp (hperm.mem_iff.mp hcleaves)
    rw [hobjects] at hless
    exact (mem_smaller hwell₀).mpr ⟨hin.resolve_left (hdone rfl c hc), hckids, hless⟩
  intro hreduces
  rcases hreduces.limited with hlimit | hnone
  · refine absurd hlimit (not_le.mpr (hmany.trans_le ?_))
    rw [hcut.totalChildrenRec_eq hwell₀, notBelowSmaller]
    refine Int.ofNat_le.mpr (List.Sublist.length_le (List.monotone_filter_right _ fun k => ?_))
    simp only [decide_eq_true_eq]
    intro hk y hy
    obtain ⟨c, hc, rfl⟩ := List.mem_map.mp hy
    exact hk c.path (hsmaller c hc)
  · obtain ⟨k, hbelow, hkkids, hobjects⟩ := htie
    have hnot : ∀ y ∈ done.map Candidate.path, k ≠ y ∧ ¬ Below d₀.kids y k := by
      intro y hy
      obtain ⟨c, hc, rfl⟩ := List.mem_map.mp hy
      have hless := ((mem_smaller hwell₀).mp (hsmaller c hc)).2.2
      refine ⟨?_, fun hck => ?_⟩
      · rintro rfl
        exact absurd hobjects (not_le.mpr hless)
      · exact absurd (hobjects.trans (objectsIn_le hwell₀ hck)) (not_le.mpr hless)
    have hleft : Below d.kids path k :=
      (hcut.cut.below_iff hwell₀.isForest).mpr ⟨hbelow, fun y hy => (hnot y hy).2⟩
    exact hkkids ((hcut.cut.elsewhere hnot).symm.trans (hnone k (Or.inr hleft)))

end Ends

/-- Compacting the children of a folder does what is asked of it, whichever way the sort
breaks ties, exactly when it can. -/
theorem reduces_iff (hwell : d.WellFormed) (path : κ) (limit : Int) (compactSelf : Bool) :
    (∀ sorter h, d.Reduces path (d.reduceChildrenOf sorter h path limit compactSelf).2 limit
      compactSelf) ↔ d.CanReduce path limit compactSelf := by
  cases hfind : d.find path with
  | none =>
    rw [CanReduce, hfind]
    refine iff_of_true (fun sorter h => ?_) trivial
    rw [reduceChildrenOf, hfind]
    refine (reduces_self_iff hwell).mpr (Or.inr fun k hk => ?_)
    rcases hk with ⟨rfl, -⟩ | hk
    · exact kids_of_none hfind
    · exact absurd hk (not_below_of_nil (kids_of_none hfind))
  | some e =>
    have hkids := kids_of_find hfind
    by_cases hcompacted : e.compacted = true
    · simp only [CanReduce, reduceChildrenOf, hfind, hcompacted, if_true,
        reduces_self_iff hwell]
      exact ⟨fun h => h (DescendingSort.stable _) [], fun h _ _ => h⟩
    by_cases hself : limit < e.children.length ∧ compactSelf
    · simp only [CanReduce, reduceChildrenOf, hfind, if_neg hcompacted, if_pos hself]
      refine iff_of_true (fun sorter h => ?_) (Or.inl hself.2)
      obtain ⟨h', d', hcompact, hcompacted'⟩ := compact_of_find hwell h hfind
      rw [hcompact]
      have hcut := (CutAt.start hwell).compact hwell (Or.inl rfl)
        (hfind ▸ Option.some_ne_none e) hcompacted'
      refine hcut.reduces hwell (Or.inr fun k hk => ?_)
      refine hcut.cut.at_or_below List.mem_cons_self ?_
      rcases hk with ⟨rfl, -⟩ | hk
      · exact Or.inl rfl
      · exact Or.inr (hcut.cut.below_of_below hk)
    by_cases htotal : (d.totalChildrenRec path : Int) < limit
    · simp only [CanReduce, reduceChildrenOf, hfind, if_neg hcompacted, if_neg hself,
        if_pos htotal]
      refine iff_of_true (fun _ _ => (reduces_self_iff hwell).mpr (Or.inl htotal.le)) ?_
      refine Or.inr (Or.inr (le_trans ?_ htotal.le))
      exact Int.ofNat_le.mpr length_notBelowSmaller_le
    simp only [CanReduce, reduceChildrenOf, hfind, if_neg hcompacted, if_neg hself,
      if_neg htotal, addRec_candidates hwell]
    have hends : ∀ (sorter : FewestFirst κ) (h : Heap), LoopEnds d path limit compactSelf
        (sorter.sort (d.candidates path)) []
        (reduceLoop path compactSelf (sorter.sort (d.candidates path))
          (d.totalChildrenRec path - limit) (h, d)).2 := by
      intro sorter h
      refine reduceLoop_ends hwell limit compactSelf _ (fun c hc => ?_) (h, d)
        (CutAt.start hwell)
      obtain ⟨hin, hckids, -⟩ := (mem_candidates hwell).mp ((sorter.perm _).mem_iff.mp hc)
      obtain ⟨e', he'⟩ := find_of_kids_ne_nil hckids
      exact ⟨hin, he' ▸ Option.some_ne_none e'⟩
    constructor
    · intro hreduces
      by_contra hcan
      push Not at hcan
      obtain ⟨hself', htie, hmany⟩ := hcan
      cases compactSelf with
      | true => exact hself' rfl
      | false =>
        have hpath : d.kids path ≠ [] := by
          obtain ⟨k, hbelow, -⟩ := htie
          intro hnil
          exact not_below_of_nil hnil hbelow
        let sorter : FewestFirst κ := .putFirst _ ⟨d.objectsIn path, path⟩
        refine LoopEnds.not_reduces hwell (sorter.perm _) ?_ (hends sorter _) hpath htie hmany
          (hreduces sorter [])
        refine (DescendingSort.putFirst_pairwise _ (nodup_candidates hwell)).imp_of_mem ?_
        intro c c' _ hc' hless hpath'
        have hobjects := ((mem_candidates hwell).mp ((sorter.perm _).mem_iff.mp hc')).2.2
        rw [hpath'] at hobjects
        have hsame : c' = ⟨d.objectsIn path, path⟩ := by
          rw [← hobjects, ← hpath']
        rw [hobjects]
        exact hless hsame
    · intro hcan sorter h
      exact LoopEnds.reduces hwell (sorter.perm _) (sorter.descending _) (hends sorter _) hcan

def AlwaysReduces (κ : Type) [DecidableEq κ] : Prop :=
  ∀ (d : DataUsageCache κ) (path : κ) (limit : Int) (compactSelf : Bool), d.WellFormed →
    ∀ sorter h, d.Reduces path (d.reduceChildrenOf sorter h path limit compactSelf).2 limit
      compactSelf

def oneFolder : DataUsageCache String where
  name := "b"
  lastUpdate := Time.zero
  cache := ((((∅ : AList fun _ => DataUsageEntry String).insert "b/x/1" { objects := 1 }).insert
    "b/x/2" { objects := 1 }).insert "b/x" { children := ["b/x/1", "b/x/2"] }).insert
    "b" { children := ["b/x"] }

theorem oneFolder_wellFormed : oneFolder.WellFormed :=
  wellFormed_of_keys (fun k => 5 - k.length) (by decide)

/-- The bucket cannot be brought down to two folders, because its one folder has all of
its objects. -/
theorem oneFolder_reduces_iff :
    (∀ sorter h, oneFolder.Reduces "b" (oneFolder.reduceChildrenOf sorter h "b" 2 false).2 2
      false) ↔ oneFolder.CanReduce "b" 2 false :=
  reduces_iff oneFolder_wellFormed "b" 2 false

/-- A stable sort puts the bucket first, and its folder is not compacted. -/
theorem oneFolder_not_reduces : ¬ AlwaysReduces String := by
  intro halways
  have hreduces := halways oneFolder "b" 2 false oneFolder_wellFormed (DescendingSort.stable _) []
  have hsame : (oneFolder.reduceChildrenOf (DescendingSort.stable _) [] "b" 2 false).2 =
      oneFolder := by
    rfl
  rw [hsame] at hreduces
  rcases hreduces.limited with hlimit | hnone
  · exact absurd hlimit (by decide)
  · have hkids := hnone "b/x" (Or.inr (Relation.TransGen.single (by decide)))
    exact absurd hkids (by decide)

end DataUsageCache

end Fs3.Usage
