import Mathlib.Data.List.Find
import Fs3.Foundation.Tally
import Fs3.Storage.Error

/-! # The format that a quorum of drives agrees on

Every drive keeps a `format.json` that says which drives make up the sets of its deployment. The
most frequent one is taken, from half of the drives on; two halves that differ can both be taken,
by the order in which the map of the counts is walked. -/

namespace Fs3

open Foundation (MapOrder mostFrequent occurrences)

/-- `formatErasureV3`, and the fields of `formatMetaV1`. -/
structure FormatErasureV3 where
  version : String := ""
  format : String := ""
  id : String := ""
  erasureVersion : String := ""
  this : String := ""
  sets : List (List String) := []
  distributionAlgo : String := ""
  deriving DecidableEq, Repr

namespace FormatErasureV3

/-- `Clone` goes through the JSON text: no format at all becomes the zero value. -/
def clone (format : Option FormatErasureV3) : FormatErasureV3 := format.getD {}

def diskIDs (format : FormatErasureV3) : String := String.join format.sets.flatten

def shared (format : FormatErasureV3) : FormatErasureV3 := { format with this := "" }

end FormatErasureV3

/-- SHA256, in hex. -/
structure FormatHash where
  sum : String → String
  sum_ne_empty : ∀ ids, sum ids ≠ ""

def formatHash (hash : FormatHash) : Option FormatErasureV3 → String
  | none => ""
  | some format => hash.sum format.diskIDs

def formatHashVotes (hash : FormatHash) (formats : List (Option FormatErasureV3)) : List String :=
  (formats.map (formatHash hash)).filter fun hash => hash != ""

def getFormatErasureInQuorum (order : MapOrder String) (hash : FormatHash)
    (formats : List (Option FormatErasureV3)) : Except StorageErr FormatErasureV3 :=
  let (maxCount, maxHash) :=
    mostFrequent order (fun _ _ => false) "" (formatHashVotes hash formats)
  if maxCount < formats.length / 2 then .error .errErasureReadQuorum
  else
    match formats.find? fun format => formatHash hash format == maxHash with
    | some format => .ok { FormatErasureV3.clone format with this := "" }
    | none => .error .errErasureReadQuorum

/-! ## What the drives hold -/

def holdsIDs (ids : String) : Option FormatErasureV3 → Bool
  | none => false
  | some format => format.diskIDs == ids

def holders (formats : List (Option FormatErasureV3)) (ids : String) : Nat :=
  formats.countP (holdsIDs ids)

def FormatHash.CollisionFree (hash : FormatHash) (formats : List (Option FormatErasureV3)) :
    Prop :=
  ∀ format format', some format ∈ formats → some format' ∈ formats →
    hash.sum format.diskIDs = hash.sum format'.diskIDs → format.diskIDs = format'.diskIDs

/-- The first drive's format among those with its ids, which are held by half of the
drives, and no others by more. -/
structure InQuorum (formats : List (Option FormatErasureV3)) (format : FormatErasureV3) :
    Prop where
  first : formats.find? (holdsIDs format.diskIDs) = some (some format)
  half : formats.length / 2 ≤ holders formats format.diskIDs
  most : ∀ other, some other ∈ formats →
    holders formats other.diskIDs ≤ holders formats format.diskIDs

section Held

variable {hash : FormatHash} {formats : List (Option FormatErasureV3)} {format : FormatErasureV3}

theorem holdsIDs_iff {ids : String} {held : Option FormatErasureV3} :
    holdsIDs ids held = true ↔ ∃ format, held = some format ∧ format.diskIDs = ids := by
  cases held with
  | none => simp [holdsIDs]
  | some format => simp [holdsIDs]

theorem holders_pos_iff {ids : String} :
    0 < holders formats ids ↔ ∃ format, some format ∈ formats ∧ format.diskIDs = ids := by
  rw [holders, List.countP_pos_iff]
  constructor
  · intro ⟨held, hheld, hids⟩
    obtain ⟨format, hsome, heq⟩ := holdsIDs_iff.mp hids
    exact ⟨format, hsome ▸ hheld, heq⟩
  · intro ⟨format, hmem, heq⟩
    exact ⟨some format, hmem, holdsIDs_iff.mpr ⟨format, rfl, heq⟩⟩

theorem mem_formatHashVotes {vote : String} :
    vote ∈ formatHashVotes hash formats ↔
      ∃ format, some format ∈ formats ∧ hash.sum format.diskIDs = vote := by
  rw [formatHashVotes, List.mem_filter, List.mem_map]
  constructor
  · intro ⟨⟨held, hheld, heq⟩, hne⟩
    cases held with
    | none => rw [← heq] at hne; simp [formatHash] at hne
    | some format => exact ⟨format, hheld, heq⟩
  · intro ⟨format, hmem, heq⟩
    refine ⟨⟨some format, hmem, heq⟩, ?_⟩
    rw [← heq]
    simpa using hash.sum_ne_empty format.diskIDs

section

variable (hfree : hash.CollisionFree formats) (hmem : some format ∈ formats)
include hfree hmem

theorem formatHash_eq_iff {held : Option FormatErasureV3} (hheld : held ∈ formats) :
    formatHash hash held = hash.sum format.diskIDs ↔ holdsIDs format.diskIDs held = true := by
  cases held with
  | none =>
    rw [formatHash, holdsIDs]
    refine iff_of_false ?_ Bool.false_ne_true
    exact fun heq => hash.sum_ne_empty _ heq.symm
  | some other =>
    rw [formatHash, holdsIDs, beq_iff_eq]
    exact ⟨hfree other format hheld hmem, fun heq => by rw [heq]⟩

theorem occurrences_votes :
    occurrences (formatHashVotes hash formats) (hash.sum format.diskIDs) =
      holders formats format.diskIDs := by
  rw [formatHashVotes, Foundation.occurrences_filter
    (by simpa using hash.sum_ne_empty format.diskIDs), occurrences, List.countP_map, holders]
  refine List.countP_congr fun held hheld => ?_
  rw [Function.comp_apply, decide_eq_true_iff]
  exact formatHash_eq_iff hfree hmem hheld

theorem find_formatHash :
    formats.find? (fun held => formatHash hash held == hash.sum format.diskIDs) =
      formats.find? (holdsIDs format.diskIDs) := by
  refine List.find?_congr fun held hheld => ?_
  rw [Bool.eq_iff_iff, beq_iff_eq]
  exact formatHash_eq_iff hfree hmem hheld

end

theorem exists_first (hmem : some format ∈ formats) :
    ∃ found, formats.find? (holdsIDs format.diskIDs) = some (some found) ∧
      some found ∈ formats ∧ found.diskIDs = format.diskIDs := by
  have hsome : (formats.find? (holdsIDs format.diskIDs)).isSome := by
    rw [List.find?_isSome]
    exact ⟨some format, hmem, holdsIDs_iff.mpr ⟨format, rfl, rfl⟩⟩
  obtain ⟨held, hheld⟩ := Option.isSome_iff_exists.mp hsome
  obtain ⟨found, hfound, hids⟩ := holdsIDs_iff.mp (List.find?_some hheld)
  subst hfound
  exact ⟨found, hheld, List.mem_of_find?_eq_some hheld, hids⟩

end Held

/-! ## What is found -/

section Found

variable {hash : FormatHash} {formats : List (Option FormatErasureV3)}

theorem getFormatErasureInQuorum_of_none (order : MapOrder String) (hash : FormatHash)
    (hnone : ∀ format, some format ∉ formats) :
    getFormatErasureInQuorum order hash formats =
      if formats = [none] then .ok {} else .error .errErasureReadQuorum := by
  have hvotes : formatHashVotes hash formats = [] := by
    rw [List.eq_nil_iff_forall_not_mem]
    intro vote hvote
    obtain ⟨format, hmem, -⟩ := mem_formatHashVotes.mp hvote
    exact hnone format hmem
  rw [getFormatErasureInQuorum, hvotes, Foundation.mostFrequent_nil]
  cases formats with
  | nil => rfl
  | cons held formats =>
    have hheld : held = none := by
      cases held with
      | none => rfl
      | some format => exact absurd List.mem_cons_self (hnone format)
    subst hheld
    cases formats with
    | nil => rfl
    | cons next formats =>
      have hhalf : 0 < (none :: next :: formats).length / 2 := by
        rw [List.length_cons, List.length_cons]
        omega
      rw [if_neg (by simp)]
      exact if_pos hhalf

theorem getFormatErasureInQuorum_eq (order : MapOrder String)
    (hfree : hash.CollisionFree formats) (hsome : ∃ format, some format ∈ formats) :
    ∃ format, formats.find? (holdsIDs format.diskIDs) = some (some format) ∧
      (∀ other, some other ∈ formats →
        holders formats other.diskIDs ≤ holders formats format.diskIDs) ∧
      getFormatErasureInQuorum order hash formats =
        if holders formats format.diskIDs < formats.length / 2 then .error .errErasureReadQuorum
        else .ok format.shared := by
  obtain ⟨some', hsome'⟩ := hsome
  have hne : formatHashVotes hash formats ≠ [] :=
    List.ne_nil_of_mem (mem_formatHashVotes.mpr ⟨some', hsome', rfl⟩)
  obtain ⟨vote, hvote, hresult, hmax⟩ :=
    Foundation.mostFrequent_spec order (fun _ _ => false) "" hne
  obtain ⟨voter, hvoter, rfl⟩ := mem_formatHashVotes.mp hvote
  obtain ⟨found, hfound, hmem, hids⟩ := exists_first hvoter
  refine ⟨found, by rw [hids]; exact hfound, fun other hother => ?_, ?_⟩
  · have hle := hmax _ (mem_formatHashVotes.mpr ⟨other, hother, rfl⟩)
    rwa [occurrences_votes hfree hother, occurrences_votes hfree hvoter, ← hids] at hle
  · rw [getFormatErasureInQuorum, hresult]
    simp only [occurrences_votes hfree hvoter, find_formatHash hfree hvoter, hfound, hids]
    rfl

theorem FormatHash.CollisionFree.perm (hfree : hash.CollisionFree formats)
    {formats' : List (Option FormatErasureV3)} (hperm : formats'.Perm formats) :
    hash.CollisionFree formats' :=
  fun format format' hmem hmem' =>
    hfree format format' (hperm.mem_iff.mp hmem) (hperm.mem_iff.mp hmem')

theorem holders_add_le (hfree : hash.CollisionFree formats) {format other : FormatErasureV3}
    (hmem : some format ∈ formats) (hother : some other ∈ formats)
    (hne : format.diskIDs ≠ other.diskIDs) :
    holders formats format.diskIDs + holders formats other.diskIDs ≤ formats.length := by
  rw [← occurrences_votes hfree hmem, ← occurrences_votes hfree hother]
  have hhash : hash.sum format.diskIDs ≠ hash.sum other.diskIDs :=
    fun heq => hne (hfree format other hmem hother heq)
  have hshare := @Foundation.occurrences_add_le _ _ (formatHashVotes hash formats) _ _ hhash
  have hlength : (formatHashVotes hash formats).length ≤ formats.length := by
    rw [formatHashVotes, ← List.length_map (formatHash hash)]
    exact List.length_filter_le _ _
  omega

theorem getFormatErasureInQuorum_of_majority (order : MapOrder String)
    (hfree : hash.CollisionFree formats) {ids : String}
    (hmajority : formats.length < 2 * holders formats ids) :
    ∃ found, some found ∈ formats ∧ found.diskIDs = ids ∧
      getFormatErasureInQuorum order hash formats = .ok found.shared := by
  obtain ⟨format, hmem, rfl⟩ := holders_pos_iff.mp (show 0 < holders formats ids by omega)
  obtain ⟨found, hfound, hmost, hget⟩ := getFormatErasureInQuorum_eq order hfree ⟨format, hmem⟩
  have hle := hmost format hmem
  have hin := List.mem_of_find?_eq_some hfound
  refine ⟨found, hin, ?_, ?_⟩
  · by_contra hne
    have hshare := holders_add_le hfree hin hmem hne
    omega
  · rw [hget, if_neg (by omega)]

/-- The formats in quorum for the drives in any order: the ids of more than half of
them are found, and a format that all their drives share as it is. -/
structure Settled (order : MapOrder String) (hash : FormatHash)
    (formats : List (Option FormatErasureV3)) (ids : String) : Prop where
  found : ∃ format, some format ∈ formats ∧ format.diskIDs = ids ∧
    getFormatErasureInQuorum order hash formats = .ok format.shared
  shared : ∀ layout, (∀ format, some format ∈ formats → format.diskIDs = ids →
    format.shared = layout) → getFormatErasureInQuorum order hash formats = .ok layout

/-- The formats are found exactly from half of the drives on, and on a single drive without one: the
first of the most frequent ids, whatever else the formats say. -/
theorem getFormatErasureInQuorum_quorum (order : MapOrder String) (hash : FormatHash)
    (formats : List (Option FormatErasureV3)) (hfree : hash.CollisionFree formats) :
    (∀ result, getFormatErasureInQuorum order hash formats = .ok result →
      (formats = [none] ∧ result = {}) ∨
        ∃ format, InQuorum formats format ∧ result = format.shared) ∧
    (getFormatErasureInQuorum order hash formats = .error .errErasureReadQuorum ↔
      formats ≠ [none] ∧ ∀ format, some format ∈ formats →
        holders formats format.diskIDs < formats.length / 2) ∧
    ∀ ids, formats.length < 2 * holders formats ids →
      ∀ (order' : MapOrder String) (formats' : List (Option FormatErasureV3)),
        formats'.Perm formats → Settled order' hash formats' ids := by
  refine ⟨fun result hresult => ?_, ?_, fun ids hmajority order' formats' hperm => ?_⟩
  · by_cases hsome : ∃ format, some format ∈ formats
    · obtain ⟨format, hfound, hmost, hget⟩ := getFormatErasureInQuorum_eq order hfree hsome
      rw [hget] at hresult
      split at hresult
      next => exact absurd hresult (by simp)
      next hhalf =>
        exact Or.inr ⟨format, ⟨hfound, by omega, hmost⟩, (Except.ok.inj hresult).symm⟩
    · rw [getFormatErasureInQuorum_of_none order hash (not_exists.mp hsome)] at hresult
      split at hresult
      next hone => exact Or.inl ⟨hone, (Except.ok.inj hresult).symm⟩
      next => exact absurd hresult (by simp)
  · by_cases hsome : ∃ format, some format ∈ formats
    · obtain ⟨format, hfound, hmost, hget⟩ := getFormatErasureInQuorum_eq order hfree hsome
      have hmem := List.mem_of_find?_eq_some hfound
      have hne : formats ≠ [none] := by
        intro heq
        rw [heq, List.mem_singleton] at hmem
        exact absurd hmem (by simp)
      rw [hget]
      split
      next hless =>
        refine iff_of_true rfl ⟨hne, fun other hother => ?_⟩
        exact Nat.lt_of_le_of_lt (hmost other hother) hless
      next hhalf =>
        refine iff_of_false (by simp) fun ⟨_, hless⟩ => ?_
        exact hhalf (hless format hmem)
    · have hnone := not_exists.mp hsome
      rw [getFormatErasureInQuorum_of_none order hash hnone]
      split
      next hone => exact iff_of_false (by simp) fun ⟨hne, _⟩ => hne hone
      next hne => exact iff_of_true rfl ⟨hne, fun format hmem => absurd hmem (hnone format)⟩
  · have hcount : holders formats' ids = holders formats ids := hperm.countP_eq _
    obtain ⟨found, hmem, hids, hget⟩ := getFormatErasureInQuorum_of_majority order'
      (hfree.perm hperm) (by rw [hperm.length_eq, hcount]; exact hmajority)
    refine ⟨⟨found, hmem, hids, hget⟩, fun layout hlayout => ?_⟩
    rw [hget, hlayout found hmem hids]

end Found

def twoSums (ids : String) : String :=
  if ids = "abcd" then "88d4266fd4e6338d13b845fcf289579d209c897823b9217da3e161936f031589"
  else "e5e088a0b66163a0a26a5e053d2a4496dc16ab6e0e3dd1adf2d16aa84a078c9d"

theorem twoSums_ne_empty (ids : String) : twoSums ids ≠ "" := by
  rw [twoSums]
  split
  · decide
  · decide

def twoHashes : FormatHash := ⟨twoSums, twoSums_ne_empty⟩

def formatOf (id : String) (set : List String) (this : String) : FormatErasureV3 :=
  { version := "1", format := "xl", id, erasureVersion := "3", this
    sets := [set], distributionAlgo := "SIPMOD+PARITY" }

def formatABCD (this : String) : FormatErasureV3 := formatOf "1" ["a", "b", "c", "d"] this

def formatEFGH (this : String) : FormatErasureV3 := formatOf "2" ["e", "f", "g", "h"] this

def strangerAmong : List (Option FormatErasureV3) :=
  [some (formatEFGH "h"), some (formatABCD "b"), some (formatABCD "c"), some (formatABCD "d")]

def twoHalves : List (Option FormatErasureV3) :=
  [some (formatABCD "a"), some (formatABCD "b"), some (formatEFGH "g"), some (formatEFGH "h")]

theorem strangerAmong_collisionFree : twoHashes.CollisionFree strangerAmong := by
  intro format format' hmem hmem'
  simp only [strangerAmong, List.mem_cons, Option.some.injEq, List.not_mem_nil, or_false]
    at hmem hmem'
  rcases hmem with rfl | rfl | rfl | rfl <;> rcases hmem' with rfl | rfl | rfl | rfl <;> decide

theorem strangerAmong_quorum :
    (∀ result, getFormatErasureInQuorum (MapOrder.visitFirst "") twoHashes strangerAmong =
        .ok result →
      (strangerAmong = [none] ∧ result = {}) ∨
        ∃ format, InQuorum strangerAmong format ∧ result = format.shared) ∧
    (getFormatErasureInQuorum (MapOrder.visitFirst "") twoHashes strangerAmong =
        .error .errErasureReadQuorum ↔
      strangerAmong ≠ [none] ∧ ∀ format, some format ∈ strangerAmong →
        holders strangerAmong format.diskIDs < strangerAmong.length / 2) ∧
    ∀ ids, strangerAmong.length < 2 * holders strangerAmong ids →
      ∀ (order' : MapOrder String) (formats' : List (Option FormatErasureV3)),
        formats'.Perm strangerAmong → Settled order' twoHashes formats' ids :=
  getFormatErasureInQuorum_quorum (MapOrder.visitFirst "") twoHashes strangerAmong
    strangerAmong_collisionFree

/-- Where each half of the drives holds another format, the order in which the map is
walked decides between them. -/
theorem twoHalves_disagree :
    getFormatErasureInQuorum (MapOrder.visitFirst (twoSums "abcd")) twoHashes twoHalves =
        .ok (formatABCD "") ∧
      getFormatErasureInQuorum (MapOrder.visitFirst (twoSums "efgh")) twoHashes twoHalves =
        .ok (formatEFGH "") ∧
      (∀ held ∈ twoHalves, 2 * twoHalves.countP (fun other =>
        other.map FormatErasureV3.shared == held.map FormatErasureV3.shared) ≤
          twoHalves.length) ∧
      (formatABCD "").sets ≠ (formatEFGH "").sets := by
  refine ⟨?_, ?_, ?_, ?_⟩ <;> decide

end Fs3
