import Fs3.Quota.FileScorer

/-! # A FIFO quota run

`enforceFIFOQuotaBucket` scores the objects of a bucket that it may delete and recomputes the
excess from the bytes it offered to the scorer. -/

namespace Fs3.Quota

open Fs3.Foundation FileScorer

variable {φ κ : Type} [LinearOrder κ] (size : φ → Nat) (score : φ → κ)

/-- What one run works on: the quota, the usage the last scan reported and the
objects the walk sends. -/
structure FifoRun (φ : Type) where
  quota : Nat
  reported : Nat
  lockEnabled : Bool
  objects : List φ
  deleteMarker : φ → Bool
  retained : φ → Bool

namespace FifoRun

variable (run : FifoRun φ)

def offered : List φ :=
  run.objects.filter fun obj => run.deleteMarker obj || !(run.lockEnabled && run.retained obj)

def toFree : Nat :=
  if run.quota < run.reported ∧ 0 < run.quota then sub64 run.reported run.quota else 0

/-- `enforceFIFOQuotaBucket`: the objects it asks to delete, in the order of its batches. -/
def enforceFIFOQuotaBucket : List φ :=
  match newFileScorer run.toFree with
  | none => []
  | some scorer =>
    let scorer := scorer.offerAll size score run.offered
    if scorer.seenBytes ≤ run.quota then []
    else
      let toFreeNow := sub64 scorer.seenBytes run.quota
      if toFreeNow < run.toFree then
        let adjusted := scorer.adjustSaveBytes size (wrap64 (wrap64 toFreeNow - wrap64 run.toFree))
        if adjusted.1 then adjusted.2.queue else []
      else scorer.queue

def usage : Nat := load size run.objects

def excess : Nat :=
  if 0 < run.quota then min run.reported (load size run.offered) - run.quota else 0

/-- The usage is brought to the quota or everything deletable goes, and no
deletion could be left out. -/
structure Met : Prop where
  quota : run.usage size ≤ run.quota + load size (run.enforceFIFOQuotaBucket size score) ∨
    run.enforceFIFOQuotaBucket size score = ranking score run.offered
  needed : ∀ p, p <+: run.enforceFIFOQuotaBucket size score →
    p ≠ run.enforceFIFOQuotaBucket size score → run.quota + load size p < run.usage size

/-- What covers the excess over the bytes offered covers that over all bytes. -/
def Covered : Prop :=
  ∀ p, p <+: ranking score run.offered → p ≠ ranking score run.offered →
    run.excess size ≤ load size p → run.usage size - run.quota ≤ load size p

def Fits : Prop := run.reported < 2 ^ 63 ∧ run.usage size < 2 ^ 64

variable {size score run}
variable (size run) in
theorem offered_le_usage : load size run.offered ≤ run.usage size :=
  load_sublist size List.filter_sublist

/-- Lowering the bytes to free from `free` to `now`, by their signed difference. -/
theorem lowered_queue {scorer : FileScorer φ} {files : List φ} {free now : Nat}
    (hcovers : scorer.Covers size score files) (hsave : scorer.saveBytes = free)
    (hfree : free < 2 ^ 63) (hless : now < free) (hbytes : scorer.queuedBytes < 2 ^ 64) :
    (scorer.adjustSaveBytes size (wrap64 (wrap64 now - wrap64 free))).2.queue =
        covering size now (ranking score files) ∧
      ((scorer.adjustSaveBytes size (wrap64 (wrap64 now - wrap64 free))).1 = true ↔ 0 < now) := by
  have hn : wrap64 (wrap64 now - wrap64 free) = now - (free : Int) := by
    rw [wrap64_of_fits (n := (free : Int)) (by omega) (by omega),
      wrap64_of_fits (n := (now : Int)) (by omega) (by omega),
      wrap64_of_fits (by omega) (by omega)]
  obtain ⟨hleft, hneed, hmore⟩ := adjustSaveBytes_covers hcovers (n := now - (free : Int))
    (by omega) (by omega) (by omega) hbytes
  have hnow : (scorer.saveBytes + (now - (free : Int))).toNat = now := by omega
  rw [hn, hmore, hleft.queue, hneed, hnow]
  exact ⟨rfl, by omega⟩

variable (score) in
theorem enforce_eq (hfits : run.Fits size) : run.enforceFIFOQuotaBucket size score =
    covering size (run.excess size) (ranking score run.offered) := by
  obtain ⟨hreported, husage⟩ := hfits
  have hoffered := offered_le_usage size run
  rw [enforceFIFOQuotaBucket, newFileScorer]
  by_cases hover : run.quota < run.reported ∧ 0 < run.quota
  · have hfree : run.toFree = run.reported - run.quota := by
      rw [toFree, if_pos hover, sub64_of_le hover.1.le (by omega)]
    have hexcess : run.excess size =
        min run.reported (load size run.offered) - run.quota := if_pos hover.2
    rw [if_neg (by omega)]
    have hnew := offerAll_new size score run.toFree (hoffered.trans_lt husage)
    dsimp only
    generalize offerAll size score ⟨run.toFree, [], 0, 0⟩ run.offered = scorer at *
    obtain ⟨hcovers, hsave, hseen⟩ := hnew
    rw [hseen]
    split
    · rename_i hwithin
      rw [hexcess, Nat.sub_eq_zero_of_le (by omega), covering_zero]
    · rename_i hbeyond
      rw [sub64_of_le (by omega) (by omega)]
      split
      · rename_i hless
        obtain ⟨hqueue, hmore⟩ := lowered_queue hcovers hsave (by omega) hless
          (hcovers.queuedBytes_le.trans_lt (by omega))
        have hmin : load size run.offered - run.quota =
            min run.reported (load size run.offered) - run.quota := by omega
        rw [if_pos (hmore.mpr (by omega)), hqueue, hexcess, hmin]
      · have hall : scorer.saveBytes = min run.reported (load size run.offered) - run.quota := by
          omega
        rw [hcovers.queue, hexcess, hall]
  · have hfree : run.toFree = 0 := if_neg hover
    have hexcess : run.excess size = 0 := by
      unfold excess
      split <;> omega
    rw [if_pos hfree, hexcess, covering_zero]

variable (size run) in
theorem excess_le : run.excess size ≤ run.usage size - run.quota := by
  have := offered_le_usage size run
  unfold excess
  split <;> omega

theorem met_iff (hfits : run.Fits size) : run.Met size score ↔ run.Covered size score := by
  have henforce := enforce_eq score hfits
  have hprefix := covering_isInitial size (run.excess size) (ranking score run.offered)
  constructor
  · intro hmet p hp hne hreach
    have hquota := hmet.quota
    rw [henforce] at hquota
    rcases hquota with hquota | hall
    · by_contra hlow
      -- the deleted objects are among those of the prefix
      have hshort : covering size (run.excess size) (ranking score run.offered) <+: p := by
        obtain ⟨rest, hrest⟩ := hp
        rw [← hrest, covering_append size hreach]
        exact covering_isInitial size _ p
      have := load_sublist size hshort.sublist
      omega
    · refine absurd ?_ hne
      obtain ⟨rest, hrest⟩ := hp
      rw [← hrest, covering_append size hreach] at hall
      have hlength := (covering_isInitial size (run.excess size) p).length_le
      rw [hall, List.length_append] at hlength
      obtain rfl := List.eq_nil_of_length_eq_zero (by omega : rest.length = 0)
      rw [← hrest, List.append_nil]
  · intro hcovered
    refine ⟨?_, fun p hp hne => ?_⟩
    · rw [henforce]
      by_cases hall : covering size (run.excess size) (ranking score run.offered) =
          ranking score run.offered
      · exact Or.inr hall
      · refine Or.inl ?_
        have hreach : run.excess size ≤ load size (ranking score run.offered) := by
          rw [load_perm size (isRanking_ranking score run.offered).perm]
          unfold excess
          split <;> omega
        have := hcovered _ hprefix hall (load_covering size hreach)
        omega
    · rw [henforce] at hp hne
      have hlow := load_lt_of_prefix size hp hne
      have := excess_le size run
      omega

end FifoRun

/-- The queue is the shortest prefix of the ranking that frees enough, and
counts its bytes. -/
structure Selected (f : FileScorer φ) (need : Nat) (files : List φ) : Prop where
  ranking : ∃ ranked, IsRanking score files ranked ∧ f.queue <+: ranked ∧
    (need ≤ load size f.queue ∨ f.queue = ranked)
  shortest : ∀ p, p <+: f.queue → p ≠ f.queue → load size p < need
  queuedBytes : f.queuedBytes = load size f.queue

theorem FileScorer.Covers.selected {size : φ → Nat} {score : φ → κ} {f : FileScorer φ}
    {offered : List φ} {need : Nat} (hf : f.Covers size score offered)
    (hneed : f.saveBytes = need) : Selected size score f need offered := by
  subst hneed
  refine ⟨⟨ranking score offered, isRanking_ranking score offered, ?_, ?_⟩, ?_, hf.queuedBytes⟩
  · rw [hf.queue]
    exact covering_isInitial size _ _
  · by_cases hreach : f.saveBytes ≤ load size (ranking score offered)
    · exact Or.inl (hf.queue ▸ load_covering size hreach)
    · refine Or.inr (hf.queue.trans (covering_eq_self size fun p hp _ => ?_))
      have := load_sublist size hp.sublist
      omega
  · intro p hp hne
    rw [hf.queue] at hp hne
    exact load_lt_of_prefix size hp hne

theorem offerAll_selected (saveBytes : Nat) {files : List φ} (hfiles : load size files < 2 ^ 64) :
    Selected size score (offerAll size score ⟨saveBytes, [], 0, 0⟩ files) saveBytes files := by
  obtain ⟨hcovers, hkept, -⟩ := offerAll_new size score saveBytes hfiles
  exact hcovers.selected hkept

theorem adjusted_selected {f : FileScorer φ} {saveBytes : Nat} {files : List φ} {n : Int}
    (hcovers : f.Covers size score files) (hkept : f.saveBytes = saveBytes)
    (hsave : saveBytes < 2 ^ 63) (hbytes : f.queuedBytes < 2 ^ 64) (hn : n ≤ 0)
    (hlow : -2 ^ 63 ≤ n) :
    Selected size score (f.adjustSaveBytes size n).2 (saveBytes + n).toNat files := by
  obtain ⟨hreduced, hneed, _⟩ := adjustSaveBytes_covers hcovers hn hlow (hkept.trans_lt hsave) hbytes
  rw [hkept] at hneed
  exact hreduced.selected hneed

/-- Within the range of its counters the scorer selects, after every arrival and
every reduction, exactly what frees the bytes asked for; a run over a bucket
meets its quota exactly when what covers the excess of the objects it may
delete covers the excess of all of them. -/
theorem scorer_selects_and_run_meets_iff (saveBytes : Nat) (files : List φ) (n : Int)
    (run : FifoRun φ) (hsave : saveBytes < 2 ^ 63) (hfiles : load size files < 2 ^ 64)
    (hn : n ≤ 0) (hlow : -2 ^ 63 ≤ n) (hfits : run.Fits size) :
    Selected size score (offerAll size score ⟨saveBytes, [], 0, 0⟩ files) saveBytes files ∧
      Selected size score
        ((offerAll size score ⟨saveBytes, [], 0, 0⟩ files).adjustSaveBytes size n).2
        (saveBytes + n).toNat files ∧
      (run.Met size score ↔ run.Covered size score) := by
  have hnew := offerAll_new size score saveBytes hfiles
  refine ⟨offerAll_selected size score saveBytes hfiles, ?_, FifoRun.met_iff hfits⟩
  exact adjusted_selected size score hnew.1 hnew.2.1 hsave
    (hnew.1.queuedBytes_le.trans_lt hfiles) hn hlow

/-- Two objects of 5 bytes that may go, one of 10 that may not, and a quota of 10. -/
def heldRun : FifoRun (Nat × Nat) where
  quota := 10
  reported := 20
  lockEnabled := true
  objects := [(5, 2), (10, 3), (5, 1)]
  deleteMarker _ := false
  retained obj := obj.1 == 10

theorem heldRun_fits : heldRun.Fits Prod.fst := ⟨by decide, by decide⟩

theorem heldRun_selects :
    Selected Prod.fst Prod.snd (offerAll Prod.fst Prod.snd ⟨8, [], 0, 0⟩ heldRun.objects) 8
        heldRun.objects ∧
      Selected Prod.fst Prod.snd
        ((offerAll Prod.fst Prod.snd ⟨8, [], 0, 0⟩ heldRun.objects).adjustSaveBytes Prod.fst (-2)).2
        6 heldRun.objects ∧
      (heldRun.Met Prod.fst Prod.snd ↔ heldRun.Covered Prod.fst Prod.snd) :=
  scorer_selects_and_run_meets_iff Prod.fst Prod.snd 8 heldRun.objects (-2) heldRun (by decide)
    (by decide) (by decide) (by decide) heldRun_fits

/-- With 20 bytes in the bucket and 10 of them deletable, nothing is deleted. -/
theorem heldRun_not_met : heldRun.Fits Prod.fst ∧ ¬ heldRun.Met Prod.fst Prod.snd := by
  refine ⟨heldRun_fits, fun hmet => ?_⟩
  have hnone : heldRun.enforceFIFOQuotaBucket Prod.fst Prod.snd = [] := by decide
  have hquota := hmet.quota
  rw [hnone] at hquota
  revert hquota
  decide

end Fs3.Quota
