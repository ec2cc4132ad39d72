import Mathlib.Algebra.Order.BigOperators.Group.List
import Mathlib.Algebra.Order.Group.Nat
import Mathlib.Data.Finset.Sort
import Fs3.Listing.ListPathRaw

/-! # What the merged listing reports

The rounds go through the names of all drives in order, and what is said about a name depends on
nothing but the entries of that name. -/

namespace Fs3.Listing

variable {μ ε : Type}

section Wanted

variable (reader : MetadataReader μ ε) (disks : List (DriveStream μ))

def topsOf (name : Name) : List (Option (MetaCacheEntry μ)) :=
  disks.map fun stream => stream.entries.find? fun entry => entry.name == name

def errsBefore (name : Name) : List (Option StorageErr) :=
  disks.map fun stream =>
    if stream.entries.all fun entry => decide (entry.name < name) then stream.failure else none

def agreedEntry : List (Option (MetaCacheEntry μ)) → Option (MetaCacheEntry μ)
  | some first :: rest =>
    if rest.all fun top => top.any (reader.matchesEntry first) then some first else none
  | _ => none

def agreeing : List (Option (MetaCacheEntry μ)) → Nat
  | [] => 0
  | none :: rest => agreeing rest
  | some first :: rest => 1 + rest.countP fun top => top.any (reader.matchesEntry first)

def callOf (name : Name) : RawCall μ :=
  match agreedEntry reader (topsOf disks name) with
  | some entry => .agreed entry
  | none => .disagreed (topsOf disks name) (agreeing reader (topsOf disks name))
      (errsBefore disks name)

/-- The names are those of the entries of all drives, each once and in order. -/
structure NamesOf (names : List Name) : Prop where
  sorted : names.Pairwise (· < ·)
  mem_iff : ∀ name, name ∈ names ↔ ∃ stream ∈ disks, ∃ entry ∈ stream.entries, entry.name = name

def failures : Nat := disks.countP fun stream => stream.failure.isSome

def Tolerated (minDisks : Int) : Prop :=
  failures disks = 0 ∨ (failures disks : Int) ≤ disks.length - minDisks

def AllNotFound : Prop := ∀ stream ∈ disks, stream.entries = [] ∧ stream.endsNotFound = true

def finishedCalls : List (RawCall μ) :=
  if 0 < failures disks then [.finished (disks.map DriveStream.failure)] else []

end Wanted

/-! ## One round -/

section Round

variable {reader : MetadataReader μ ε}

def DriveStream.head (stream : DriveStream μ) : Option (MetaCacheEntry μ) := stream.entries.head?

def DriveStream.failedNow (stream : DriveStream μ) : Option StorageErr :=
  if stream.entries = [] then stream.failure else none

/-- A reader is only given up at the end of its stream, for the error it ends with. -/
def RawReader.Sound (r : RawReader μ) : Prop :=
  r.err = none ∨ (r.stream.entries = [] ∧ r.err = r.stream.failure)

theorem Round.next_of_sound {r : RawReader μ} (hsound : r.Sound) (round : Round μ) :
    round.next reader r = round.next reader { stream := r.stream } := by
  obtain ⟨⟨entries, ending⟩, err⟩ := r
  cases err with
  | none => rfl
  | some err =>
    rcases hsound with hnone | ⟨hentries, hfailure⟩
    · exact nomatch hnone
    · change entries = [] at hentries
      subst hentries
      unfold DriveStream.failure at hfailure
      split at hfailure
      next => exact nomatch hfailure
      next hfound =>
        change some err = ending at hfailure
        subst hfailure
        simp [Round.next, hfound]

/-- The first of the entries that come next, with the entries of its name and how many
of them match it. -/
inductive Merged (reader : MetadataReader μ ε) : List (Option (MetaCacheEntry μ)) →
    Option (MetaCacheEntry μ) → Nat → List (Option (MetaCacheEntry μ)) → Prop
  | nothing {heads} (hnone : ∀ head ∈ heads, head = none) : Merged reader heads none 0 heads
  | first {before after} (entry : MetaCacheEntry μ)
      (hbefore : ∀ other, some other ∈ before → entry.name < other.name)
      (hafter : ∀ other, some other ∈ after → entry.name ≤ other.name) :
      Merged reader (before ++ some entry :: after) (some entry)
        (1 + after.countP fun top => top.any (reader.matchesEntry entry))
        ((before ++ some entry :: after).map fun head =>
          head.filter fun other => other.name == entry.name)

/-- What a round has found out after some of the drives. -/
structure Round.Describes (reader : MetadataReader μ ε) (round : Round μ)
    (streams : List (DriveStream μ)) : Prop where
  errs : round.errs = streams.map DriveStream.failedNow
  hasErr : round.hasErr = streams.countP fun stream => stream.failedNow.isSome
  atEOF : round.atEOF = streams.countP fun stream =>
    stream.entries.isEmpty && stream.failure.isNone
  fnf_le : round.fnf ≤ round.atEOF
  merged : Merged reader (streams.map DriveStream.head) round.current round.agree round.topEntries

section Merged

variable {heads tops : List (Option (MetaCacheEntry μ))} {current : Option (MetaCacheEntry μ)}
  {agree : Nat} {top other : MetaCacheEntry μ}

theorem filter_of_eq {name : Name} (heq : other.name = name) :
    (some other).filter (fun entry => entry.name == name) = some other := by
  simp [Option.filter, heq]

theorem filter_of_ne {name : Name} (hne : other.name ≠ name) :
    (some other).filter (fun entry => entry.name == name) = none := by
  simp [Option.filter, hne]

theorem Merged.none_append (hmerged : Merged reader heads current agree tops) :
    Merged reader (heads ++ [none]) current agree (tops ++ [none]) := by
  cases hmerged with
  | nothing hnone =>
    refine .nothing fun head hhead => ?_
    rcases List.mem_append.mp hhead with hold | hnew
    · exact hnone head hold
    · exact List.mem_singleton.mp hnew
  | @first before after entry hbefore hafter =>
    have hnext := @Merged.first μ ε reader before (after ++ [none]) entry hbefore
      fun other hother => hafter other (by simpa using hother)
    simpa [List.countP_append] using hnext

theorem Merged.heads_none (hmerged : Merged reader heads none agree tops) :
    ∀ head ∈ heads, head = none := by
  cases hmerged with
  | nothing hnone => exact hnone

theorem Merged.found (hmerged : Merged reader heads none agree tops) :
    Merged reader (heads ++ [some other]) (some other) (agree + 1) (tops ++ [some other]) := by
  cases hmerged with
  | nothing hnone =>
    have hnext := @Merged.first μ ε reader heads [] other
      (fun entry hentry => nomatch hnone _ hentry) (fun entry hentry => nomatch hentry)
    have htops : heads.map (fun head => head.filter fun entry => entry.name == other.name) =
        heads := by
      refine (List.map_congr_left fun head hhead => ?_).trans heads.map_id
      rw [hnone head hhead]
      rfl
    simpa [htops, filter_of_eq (rfl : other.name = other.name)] using hnext

theorem Merged.not_earlier (hmerged : Merged reader heads (some top) agree tops)
    (hle : top.name ≤ other.name) :
    Merged reader (heads ++ [some other]) (some top)
      (agree + if reader.matchesEntry top other then 1 else 0)
      (tops ++ [(some other).filter fun entry => entry.name == top.name]) := by
  cases hmerged with
  | @first before after _ hbefore hafter =>
    have hnext := @Merged.first μ ε reader before (after ++ [some other]) top hbefore
      fun entry hentry => by
        rcases List.mem_append.mp hentry with hold | hnew
        · exact hafter entry hold
        · rw [Option.some.inj (List.mem_singleton.mp hnew)]
          exact hle
    simpa [List.countP_append, List.countP_cons, Nat.add_assoc] using hnext

theorem Merged.same_name (hmerged : Merged reader heads (some top) agree tops)
    (hname : other.name = top.name) :
    Merged reader (heads ++ [some other]) (some top)
      (agree + if reader.matchesEntry top other then 1 else 0) (tops ++ [some other]) := by
  have hnext := hmerged.not_earlier hname.symm.le
  rwa [filter_of_eq hname] at hnext

theorem Merged.later_name (hmerged : Merged reader heads (some top) agree tops)
    (hlater : top.name < other.name) :
    Merged reader (heads ++ [some other]) (some top) agree (tops ++ [none]) := by
  have hne : other.name ≠ top.name := hlater.ne'
  have hmatches : ¬ reader.matchesEntry top other = true := fun htrue =>
    hne (reader.name_eq_of_matchesEntry htrue).symm
  have hnext := hmerged.not_earlier hlater.le
  rwa [filter_of_ne hne, if_neg hmatches] at hnext

theorem Merged.earlier_name (hmerged : Merged reader heads (some top) agree tops)
    (hearlier : other.name < top.name) :
    Merged reader (heads ++ [some other]) (some other) 1
      (tops.map (fun _ => none) ++ [some other]) := by
  cases hmerged with
  | @first before after _ hbefore hafter =>
    have hall : ∀ entry, some entry ∈ before ++ some top :: after → other.name < entry.name := by
      intro entry hentry
      rcases List.mem_append.mp hentry with hleft | hright
      · exact hearlier.trans (hbefore entry hleft)
      · rcases List.mem_cons.mp hright with hsame | hright
        · rw [Option.some.inj hsame]
          exact hearlier
        · exact lt_of_lt_of_le hearlier (hafter entry hright)
    have hnext := @Merged.first μ ε reader (before ++ some top :: after) [] other hall
      (fun entry hentry => nomatch hentry)
    have htops : (before ++ some top :: after).map
        (fun head => head.filter fun entry => entry.name == other.name) =
        ((before ++ some top :: after).map fun head =>
          head.filter fun entry => entry.name == top.name).map fun _ => none := by
      rw [List.map_map]
      refine List.map_congr_left fun head hhead => ?_
      cases head with
      | none => rfl
      | some entry => simp [(hall entry hhead).ne']
    rw [List.map_append, htops] at hnext
    simpa [filter_of_eq (rfl : other.name = other.name)] using hnext

end Merged

theorem failure_of_notFound {stream : DriveStream μ} (hfound : stream.endsNotFound = true) :
    stream.failure = none := by
  unfold DriveStream.failure
  rw [if_pos hfound]

theorem failure_of_not_notFound {stream : DriveStream μ} (hfound : stream.endsNotFound = false) :
    stream.failure = stream.ending := by
  unfold DriveStream.failure
  rw [hfound]
  rfl

theorem Round.Describes.without {round : Round μ} {streams : List (DriveStream μ)}
    (hround : round.Describes reader streams) {stream : DriveStream μ}
    (hempty : stream.entries = []) :
    Merged reader ((streams ++ [stream]).map DriveStream.head) round.current round.agree
      (round.topEntries ++ [none]) := by
  have hhead : stream.head = none := by simp [DriveStream.head, hempty]
  have hnext := hround.merged.none_append
  simpa [hhead] using hnext

/-- One more drive. -/
theorem Round.Describes.next {round : Round μ} {streams : List (DriveStream μ)}
    (hround : round.Describes reader streams) (stream : DriveStream μ) :
    (round.next reader { stream := stream }).Describes reader (streams ++ [stream]) := by
  cases hentries : stream.entries with
  | nil =>
    have hmerged := hround.without hentries
    cases hfound : stream.endsNotFound with
    | true =>
      have hfailure := failure_of_notFound hfound
      have hending : ∃ err, stream.ending = some err := by
        cases hending : stream.ending with
        | none => simp [DriveStream.endsNotFound, hending] at hfound
        | some err => exact ⟨err, rfl⟩
      obtain ⟨err, hending⟩ := hending
      have hnext : round.next reader { stream := stream } =
          { round.without none with atEOF := round.atEOF + 1, fnf := round.fnf + 1 } := by
        simp [Round.next, hentries, hending, hfound]
      rw [hnext]
      constructor
      · simp [Round.without, hround.errs, DriveStream.failedNow, hfailure]
      · simp [hround.hasErr, Round.without, DriveStream.failedNow, hfailure]
      · simp [hround.atEOF, hentries, hfailure]
      · exact Nat.succ_le_succ hround.fnf_le
      · exact hmerged
    | false =>
      have hfailure := failure_of_not_notFound hfound
      cases hending : stream.ending with
      | none =>
        have hnext : round.next reader { stream := stream } =
            { round.without none with atEOF := round.atEOF + 1 } := by
          simp [Round.next, hentries, hending]
        rw [hending] at hfailure
        rw [hnext]
        constructor
        · simp [Round.without, hround.errs, DriveStream.failedNow, hfailure]
        · simp [hround.hasErr, Round.without, DriveStream.failedNow, hfailure]
        · simp [hround.atEOF, hentries, hfailure]
        · exact Nat.le_succ_of_le hround.fnf_le
        · exact hmerged
      | some err =>
        have hnext : round.next reader { stream := stream } =
            { round.without (some err) with hasErr := round.hasErr + 1 } := by
          simp [Round.next, hentries, hending, hfound]
        rw [hending] at hfailure
        rw [hnext]
        constructor
        · simp [Round.without, hround.errs, DriveStream.failedNow, hfailure, hentries]
        · simp [hround.hasErr, DriveStream.failedNow, hfailure, hentries]
        · simp [hround.atEOF, Round.without, hentries, hfailure]
        · exact hround.fnf_le
        · exact hmerged
  | cons entry rest =>
    have hhead : stream.head = some entry := by simp [DriveStream.head, hentries]
    have hnone : stream.failedNow = none := by simp [DriveStream.failedNow, hentries]
    have hnext : round.next reader { stream := stream } = round.peekEntry reader entry := by
      simp [Round.next, hentries]
    have hdescribes : ∀ round' : Round μ, round'.errs = round.errs ++ [none] →
        round'.hasErr = round.hasErr → round'.atEOF = round.atEOF → round'.fnf = round.fnf →
        Merged reader (streams.map DriveStream.head ++ [some entry]) round'.current round'.agree
          round'.topEntries → round'.Describes reader (streams ++ [stream]) := by
      intro round' herrs hhasErr hatEOF hfnf hmerged
      constructor
      · simp [herrs, hround.errs, hnone]
      · simp [hhasErr, hround.hasErr, hnone]
      · simp [hatEOF, hround.atEOF, hentries]
      · rw [hfnf, hatEOF]
        exact hround.fnf_le
      · simpa [hhead] using hmerged
    have hmerged := hround.merged
    rw [hnext]
    unfold Round.peekEntry
    split
    next hcurrent =>
      rw [hcurrent] at hmerged
      exact hdescribes _ rfl rfl rfl rfl hmerged.found
    next current hcurrent =>
      rw [hcurrent] at hmerged
      split
      next hmatches =>
        have hsame := hmerged.same_name (reader.name_eq_of_matchesEntry hmatches).symm
        rw [if_pos hmatches] at hsame
        refine hdescribes _ rfl rfl rfl rfl ?_
        change Merged reader _ round.current _ _
        rw [hcurrent]
        exact hsame
      next hmatches =>
        split
        next hname =>
          have hsame := hmerged.same_name hname
          rw [if_neg hmatches] at hsame
          refine hdescribes _ rfl rfl rfl rfl ?_
          change Merged reader _ round.current _ _
          rw [hcurrent]
          exact hsame
        next hname =>
          split
          next hlater =>
            refine hdescribes _ rfl rfl rfl rfl ?_
            change Merged reader _ round.current _ _
            rw [hcurrent]
            exact hmerged.later_name hlater
          next hlater =>
            have hearlier : entry.name < current.name :=
              lt_of_le_of_ne (name_not_lt.mp hlater) hname
            exact hdescribes _ rfl rfl rfl rfl (hmerged.earlier_name hearlier)

theorem describes_round (streams : List (DriveStream μ)) :
    (round reader (streams.map fun stream => { stream := stream })).Describes reader streams := by
  induction streams using List.reverseRecOn with
  | nil => exact ⟨rfl, rfl, rfl, Nat.le_refl 0, .nothing nofun⟩
  | append_singleton streams stream ih =>
    have hnext := ih.next stream
    unfold round at hnext ⊢
    rw [List.map_append, List.foldl_append]
    exact hnext

theorem round_of_sound {readers : List (RawReader μ)} (hsound : ∀ r ∈ readers, r.Sound) :
    (round reader readers).Describes reader (readers.map RawReader.stream) := by
  have hsame : round reader readers =
      round reader ((readers.map RawReader.stream).map fun stream => { stream := stream }) := by
    unfold round
    rw [List.map_map, List.foldl_map]
    induction readers using List.reverseRecOn with
    | nil => rfl
    | append_singleton readers r ih =>
      rw [List.foldl_append, List.foldl_append, ih fun r hr =>
        hsound r (List.mem_append_left _ hr)]
      exact Round.next_of_sound (hsound r (by simp)) _
  rw [hsame]
  exact describes_round _

end Round

/-! ## What one round reports -/

section Reports

variable {reader : MetadataReader μ ε} {streams : List (DriveStream μ)}

def DriveStream.Sorted (stream : DriveStream μ) : Prop :=
  stream.entries.Pairwise fun a b => a.name < b.name

def DriveStream.skip (stream : DriveStream μ) (name : Name) : DriveStream μ :=
  { stream with
    entries := if (stream.head.filter fun entry => entry.name == name).isSome
      then stream.entries.drop 1 else stream.entries }

section Skip

variable {stream : DriveStream μ} {name : Name}

theorem DriveStream.head_filter_eq (hsorted : stream.Sorted)
    (hmin : ∀ entry ∈ stream.entries, name ≤ entry.name) :
    stream.head.filter (fun entry => entry.name == name) =
      stream.entries.find? fun entry => entry.name == name := by
  unfold head
  cases hentries : stream.entries with
  | nil => rfl
  | cons entry rest =>
    unfold Sorted at hsorted
    rw [hentries] at hsorted hmin
    rw [List.head?_cons]
    by_cases heq : entry.name = name
    · rw [filter_of_eq heq, List.find?_cons_of_pos (by simpa using heq)]
    · rw [filter_of_ne heq, List.find?_cons_of_neg (by simpa using heq)]
      refine (List.find?_eq_none.mpr fun other hother => ?_).symm
      have hlater := (List.pairwise_cons.mp hsorted).1 other hother
      have hfirst := hmin entry List.mem_cons_self
      simpa using (lt_of_le_of_lt hfirst hlater).ne'

theorem DriveStream.mem_skip (hsorted : stream.Sorted)
    (hmin : ∀ entry ∈ stream.entries, name ≤ entry.name) {entry : MetaCacheEntry μ} :
    entry ∈ (stream.skip name).entries ↔ entry ∈ stream.entries ∧ name < entry.name := by
  unfold skip head
  unfold Sorted at hsorted
  cases hentries : stream.entries with
  | nil => simp
  | cons first rest =>
    rw [hentries] at hsorted hmin
    obtain ⟨hlater, _⟩ := List.pairwise_cons.mp hsorted
    rw [List.head?_cons]
    by_cases heq : first.name = name
    · rw [filter_of_eq heq]
      simp only [Option.isSome_some, if_true, List.drop_one, List.tail_cons, List.mem_cons]
      constructor
      · intro hmem
        exact ⟨Or.inr hmem, heq ▸ hlater entry hmem⟩
      · rintro ⟨rfl | hmem, hlt⟩
        · exact absurd heq hlt.ne'
        · exact hmem
    · rw [filter_of_ne heq]
      have hfirst : name < first.name :=
        lt_of_le_of_ne (hmin first List.mem_cons_self) (Ne.symm heq)
      simp only [Option.isSome_none, Bool.false_eq_true, if_false]
      refine ⟨fun hmem => ⟨hmem, ?_⟩, fun hmem => hmem.1⟩
      rcases List.mem_cons.mp hmem with rfl | hrest
      · exact hfirst
      · exact hfirst.trans (hlater entry hrest)

theorem DriveStream.Sorted.skip (hsorted : stream.Sorted) (name : Name) :
    (stream.skip name).Sorted := by
  unfold Sorted DriveStream.skip
  split
  next => exact List.Pairwise.sublist (List.drop_sublist _ _) hsorted
  next => exact hsorted

@[simp]
theorem DriveStream.failure_skip : (stream.skip name).failure = stream.failure := rfl

theorem DriveStream.find?_skip {later : Name} (hlater : name < later) :
    (stream.skip name).entries.find? (fun entry => entry.name == later) =
      stream.entries.find? fun entry => entry.name == later := by
  unfold skip head
  cases hentries : stream.entries with
  | nil => simp
  | cons first rest =>
    rw [List.head?_cons]
    by_cases heq : first.name = name
    · have hne : first.name ≠ later := by
        rw [heq]
        exact hlater.ne
      rw [filter_of_eq heq, List.find?_cons_of_neg (by simpa using hne)]
      rfl
    · rw [filter_of_ne heq]
      rfl

theorem DriveStream.all_skip {later : Name} (hlater : name < later) :
    ((stream.skip name).entries.all fun entry => decide (entry.name < later)) =
      stream.entries.all fun entry => decide (entry.name < later) := by
  unfold skip head
  cases hentries : stream.entries with
  | nil => simp
  | cons first rest =>
    rw [List.head?_cons]
    by_cases heq : first.name = name
    · rw [filter_of_eq heq]
      simp [heq, hlater]
    · rw [filter_of_ne heq]
      rfl

theorem callOf_skip {later : Name} (hlater : name < later) :
    callOf reader (streams.map fun stream => stream.skip name) later =
      callOf reader streams later := by
  have htops :
      topsOf (streams.map fun stream => stream.skip name) later = topsOf streams later := by
    unfold topsOf
    rw [List.map_map]
    exact List.map_congr_left fun stream _ => DriveStream.find?_skip hlater
  have herrs : errsBefore (streams.map fun stream => stream.skip name) later =
      errsBefore streams later := by
    unfold errsBefore
    rw [List.map_map]
    refine List.map_congr_left fun stream _ => ?_
    simp only [Function.comp_apply, DriveStream.all_skip hlater, DriveStream.failure_skip]
  unfold callOf
  rw [htops, herrs]

end Skip

theorem agreeing_none_append {before rest : List (Option (MetaCacheEntry μ))}
    (hnone : ∀ top ∈ before, top = none) :
    agreeing reader (before ++ rest) = agreeing reader rest := by
  induction before with
  | nil => rfl
  | cons top before ih =>
    rw [hnone top List.mem_cons_self, List.cons_append, agreeing]
    exact ih fun other hother => hnone other (List.mem_cons_of_mem _ hother)

theorem any_filter_matches (current : MetaCacheEntry μ) (head : Option (MetaCacheEntry μ)) :
    (head.filter fun entry => entry.name == current.name).any (reader.matchesEntry current) =
      head.any (reader.matchesEntry current) := by
  cases head with
  | none => rfl
  | some entry =>
    by_cases heq : entry.name = current.name
    · rw [filter_of_eq heq]
    · rw [filter_of_ne heq]
      have hmatches : reader.matchesEntry current entry = false := by
        by_contra htrue
        exact heq (reader.name_eq_of_matchesEntry (by simpa using htrue)).symm
      simp [hmatches]

/-- The drives agree on the current entry exactly if it is counted for all of them. -/
theorem Merged.agreedEntry {heads tops : List (Option (MetaCacheEntry μ))}
    {current : MetaCacheEntry μ} {agree : Nat}
    (hmerged : Merged reader heads (some current) agree tops) :
    agreeing reader tops = agree ∧
      Listing.agreedEntry reader tops = if agree = heads.length then some current else none := by
  cases hmerged with
  | @first before after _ hbefore hafter =>
    have hnone : ∀ top ∈ before.map fun head => head.filter fun entry =>
        entry.name == current.name, top = none := by
      refine List.forall_mem_map.mpr fun head hhead => ?_
      cases head with
      | none => rfl
      | some entry => exact filter_of_ne (hbefore entry hhead).ne'
    have hcount : (after.map fun head => head.filter fun entry =>
        entry.name == current.name).countP (fun top => top.any (reader.matchesEntry current)) =
        after.countP fun top => top.any (reader.matchesEntry current) := by
      rw [List.countP_map]
      exact List.countP_congr fun head _ => by
        simp only [Function.comp_apply, any_filter_matches]
    rw [List.map_append, List.map_cons, filter_of_eq rfl]
    constructor
    · rw [agreeing_none_append hnone, agreeing, hcount]
    · have hle :=
        @List.countP_le_length _ (fun top => top.any (reader.matchesEntry current)) after
      cases before with
      | nil =>
        rw [List.map_nil, List.nil_append, List.nil_append, Listing.agreedEntry]
        have hall : ((after.map fun head => head.filter fun entry =>
            entry.name == current.name).all fun top =>
              top.any (reader.matchesEntry current)) = true ↔
            1 + after.countP (fun top => top.any (reader.matchesEntry current)) =
              (some current :: after).length := by
          rw [List.length_cons, Nat.add_comm, Nat.add_right_cancel_iff, List.countP_eq_length,
            List.all_map, List.all_eq_true]
          simp only [Function.comp_apply, any_filter_matches]
        by_cases hagree : 1 + after.countP (fun top => top.any (reader.matchesEntry current)) =
            (some current :: after).length
        · rw [if_pos hagree, if_pos (hall.mpr hagree)]
        · rw [if_neg hagree, if_neg fun h => hagree (hall.mp h)]
      | cons head before =>
        -- A drive before has no entry of the name.
        have hfirst := hnone _ List.mem_cons_self
        simp only [List.map_cons, hfirst, List.cons_append, Listing.agreedEntry]
        rw [if_neg]
        simp only [List.length_cons, List.length_append]
        omega

section Current

variable {round : Round μ} {current : MetaCacheEntry μ}

section

variable {agree : Nat} {tops : List (Option (MetaCacheEntry μ))}
  (hmerged : Merged reader (streams.map DriveStream.head) (some current) agree tops)
include hmerged

theorem Merged.min (hsorted : ∀ stream ∈ streams, stream.Sorted) :
    ∀ stream ∈ streams, ∀ entry ∈ stream.entries, current.name ≤ entry.name := by
  have hheads : ∀ head, some head ∈ streams.map DriveStream.head → current.name ≤ head.name := by
    intro head hhead
    generalize streams.map DriveStream.head = heads at hmerged hhead
    cases hmerged with
    | @first before after _ hbefore hafter =>
      rcases List.mem_append.mp hhead with hleft | hright
      · exact (hbefore head hleft).le
      · rcases List.mem_cons.mp hright with hsame | hright
        · rw [Option.some.inj hsame]
        · exact hafter head hright
  intro stream hstream entry hentry
  cases hentries : stream.entries with
  | nil =>
    rw [hentries] at hentry
    exact nomatch hentry
  | cons first rest =>
    have hfirst : current.name ≤ first.name := by
      apply hheads
      refine List.mem_map.mpr ⟨stream, hstream, ?_⟩
      simp [DriveStream.head, hentries]
    have hs := hsorted stream hstream
    unfold DriveStream.Sorted at hs
    rw [hentries] at hentry hs
    rcases List.mem_cons.mp hentry with rfl | hrest
    · exact hfirst
    · exact hfirst.trans ((List.pairwise_cons.mp hs).1 entry hrest).le

theorem Merged.exists_entry : ∃ stream ∈ streams, stream.head = some current := by
  have hmem : some current ∈ streams.map DriveStream.head := by
    generalize streams.map DriveStream.head = heads at hmerged
    cases hmerged with
    | first _ _ _ => simp
  exact List.mem_map.mp hmem

end

theorem Merged.tops_eq {agree : Nat} {heads tops : List (Option (MetaCacheEntry μ))}
    (hmerged : Merged reader heads (some current) agree tops) :
    tops = heads.map fun head => head.filter fun entry => entry.name == current.name := by
  cases hmerged with
  | first _ _ _ => rfl

/-- What a round says about its name is what is wanted of it. -/
theorem Round.Describes.call_eq (hround : round.Describes reader streams)
    (hsorted : ∀ stream ∈ streams, stream.Sorted) (hcurrent : round.current = some current) :
    (if round.agree = streams.length then RawCall.agreed current
      else .disagreed round.topEntries round.agree round.errs) =
      callOf reader streams current.name := by
  have hmerged := hround.merged
  rw [hcurrent] at hmerged
  have hmin := hmerged.min hsorted
  have htops : round.topEntries = topsOf streams current.name := by
    rw [hmerged.tops_eq, List.map_map]
    exact List.map_congr_left fun stream hstream =>
      DriveStream.head_filter_eq (hsorted stream hstream) (hmin stream hstream)
  have herrs : round.errs = errsBefore streams current.name := by
    rw [hround.errs]
    refine List.map_congr_left fun stream hstream => ?_
    unfold DriveStream.failedNow
    -- Nothing comes before the name, so only an empty stream has come to its end.
    have hempty : (stream.entries = []) ↔
        (stream.entries.all fun entry => decide (entry.name < current.name)) = true := by
      constructor
      · intro hnil
        rw [hnil]
        rfl
      · intro hall
        refine List.eq_nil_iff_forall_not_mem.mpr fun entry hentry => ?_
        have hlt : entry.name < current.name := by simpa using List.all_eq_true.mp hall entry hentry
        exact absurd (hmin stream hstream entry hentry) (not_le.mpr hlt)
    by_cases hnil : stream.entries = []
    · rw [if_pos hnil, if_pos (hempty.mp hnil)]
    · rw [if_neg hnil, if_neg fun h => hnil (hempty.mpr h)]
  obtain ⟨hagreeing, hagreed⟩ := hmerged.agreedEntry
  rw [List.length_map, htops] at hagreed
  unfold callOf
  rw [← htops, hagreeing, ← herrs, htops, hagreed]
  by_cases hall : round.agree = streams.length
  · rw [if_pos hall, if_pos hall]
  · rw [if_neg hall, if_neg hall]

end Current

end Reports

/-! ## All rounds -/

section Runs

variable {reader : MetadataReader μ ε} {readers : List (RawReader μ)} {minDisks : Int}

section

variable {current : MetaCacheEntry μ} {r : Round μ}
  (hround : r.Describes reader (readers.map RawReader.stream)) (hcurrent : r.current = some current)
include hround hcurrent

theorem skipUsed_streams :
    (skipUsed readers r.topEntries r.errs).map RawReader.stream =
      (readers.map RawReader.stream).map (fun stream => stream.skip current.name) ∧
      ∀ other ∈ skipUsed readers r.topEntries r.errs, other.Sound := by
  have hmerged := hround.merged
  rw [hcurrent] at hmerged
  have hskip : skipUsed readers r.topEntries r.errs = readers.map fun other =>
      { stream := other.stream.skip current.name, err := other.stream.failedNow } := by
    rw [hmerged.tops_eq, hround.errs, List.map_map, List.map_map, List.map_map]
    unfold skipUsed
    rw [List.zip_map', List.zipWith_map_right, List.zipWith_self]
    rfl
  rw [hskip, List.map_map, List.map_map]
  refine ⟨rfl, List.forall_mem_map.mpr fun other _ => ?_⟩
  unfold RawReader.Sound DriveStream.failedNow
  by_cases hnil : other.stream.entries = []
  · right
    rw [if_pos hnil]
    refine ⟨?_, rfl⟩
    simp [hnil, DriveStream.skip]
  · left
    rw [if_neg hnil]

theorem entriesLeft_skipUsed :
    entriesLeft (skipUsed readers r.topEntries r.errs) < entriesLeft readers := by
  have hmerged := hround.merged
  rw [hcurrent] at hmerged
  obtain ⟨stream, hstream, hhead⟩ := hmerged.exists_entry
  have hleft : ∀ readers : List (RawReader μ), entriesLeft readers =
      ((readers.map RawReader.stream).map fun stream => stream.entries.length).sum := by
    intro readers
    rw [List.map_map]
    rfl
  rw [hleft, hleft, (skipUsed_streams hround hcurrent).1, List.map_map]
  apply List.sum_lt_sum
  · intro other _
    unfold DriveStream.skip
    simp only [Function.comp_apply]
    split
    next => simp
    next => exact Nat.le_refl _
  · refine ⟨stream, hstream, ?_⟩
    have hne : stream.entries ≠ [] := by
      intro hnil
      simp [DriveStream.head, hnil] at hhead
    have hpos := List.length_pos_iff.mpr hne
    unfold DriveStream.skip
    simp only [Function.comp_apply, hhead, filter_of_eq, Option.isSome_some, if_true,
      List.length_drop]
    omega

end

/-- The calls and the error that the drives call for. -/
structure Delivers (reader : MetadataReader μ ε) (minDisks : Int) (disks : List (DriveStream μ))
    (names : List Name) (result : List (RawCall μ) × Option RawErr) : Prop where
  all : Tolerated disks minDisks →
    result = (names.map (callOf reader disks) ++ finishedCalls disks, none)
  some : ¬ Tolerated disks minDisks → ∃ reported errs, reported <+: names ∧
    result = (reported.map (callOf reader disks) ++ [.finished errs], some (.combined errs))

theorem failedNow_le {streams : List (DriveStream μ)} :
    streams.countP (fun stream => stream.failedNow.isSome) ≤ failures streams := by
  refine List.countP_mono_left fun stream _ hfailed => ?_
  unfold DriveStream.failedNow at hfailed
  split at hfailed
  next => exact hfailed
  next => exact nomatch hfailed

theorem ended_add_failed {streams : List (DriveStream μ)} :
    streams.countP (fun stream => stream.entries.isEmpty && stream.failure.isNone) +
      streams.countP (fun stream => stream.failedNow.isSome) =
      streams.countP fun stream => stream.entries.isEmpty := by
  induction streams with
  | nil => rfl
  | cons stream streams ih =>
    rw [List.countP_cons, List.countP_cons, List.countP_cons, ← ih]
    unfold DriveStream.failedNow
    cases stream.entries <;> cases stream.failure <;> simp <;> omega

section Names

variable {streams : List (DriveStream μ)}

theorem exists_namesOf (streams : List (DriveStream μ)) : ∃ names, NamesOf streams names := by
  let all := (streams.flatMap fun stream => stream.entries.map MetaCacheEntry.name).toFinset
  refine ⟨all.sort, (Finset.sortedLT_sort all).pairwise, fun name => ?_⟩
  simp [all]

theorem namesOf_nil (hempty : ∀ stream ∈ streams, stream.entries = []) : NamesOf streams [] where
  sorted := .nil
  mem_iff name := by
    refine ⟨nofun, ?_⟩
    rintro ⟨stream, hstream, entry, hentry, -⟩
    rw [hempty stream hstream] at hentry
    exact nomatch hentry

/-- The first name and those that are left once it is skipped. -/
theorem NamesOf.cons {current : MetaCacheEntry μ} {names : List Name}
    (hsorted : ∀ stream ∈ streams, stream.Sorted)
    (hmin : ∀ stream ∈ streams, ∀ entry ∈ stream.entries, current.name ≤ entry.name)
    (hfirst : ∃ stream ∈ streams, stream.head = some current)
    (hnames : NamesOf (streams.map fun stream => stream.skip current.name) names) :
    (∀ name ∈ names, current.name < name) ∧ NamesOf streams (current.name :: names) := by
  have hmem : ∀ name, name ∈ names ↔
      (∃ stream ∈ streams, ∃ entry ∈ stream.entries, entry.name = name) ∧ current.name < name := by
    intro name
    rw [hnames.mem_iff]
    constructor
    · rintro ⟨_, hskipped, entry, hentry, rfl⟩
      obtain ⟨stream, hstream, rfl⟩ := List.mem_map.mp hskipped
      obtain ⟨hold, hlt⟩ :=
        (DriveStream.mem_skip (hsorted stream hstream) (hmin stream hstream)).mp hentry
      exact ⟨⟨stream, hstream, entry, hold, rfl⟩, hlt⟩
    · rintro ⟨⟨stream, hstream, entry, hentry, rfl⟩, hlt⟩
      exact ⟨_, List.mem_map_of_mem hstream, entry,
        (DriveStream.mem_skip (hsorted stream hstream) (hmin stream hstream)).mpr ⟨hentry, hlt⟩,
        rfl⟩
  have hlater : ∀ name ∈ names, current.name < name := fun name hname => ((hmem name).mp hname).2
  refine ⟨hlater, List.pairwise_cons.mpr ⟨hlater, hnames.sorted⟩, fun name => ?_⟩
  rw [List.mem_cons, hmem]
  constructor
  · rintro (rfl | ⟨hentry, _⟩)
    · obtain ⟨stream, hstream, hhead⟩ := hfirst
      exact ⟨stream, hstream, current, List.mem_of_mem_head? hhead, rfl⟩
    · exact hentry
  · rintro ⟨stream, hstream, entry, hentry, rfl⟩
    rcases (hmin stream hstream entry hentry).eq_or_lt with heq | hlt
    · exact Or.inl heq.symm
    · exact Or.inr ⟨⟨stream, hstream, entry, hentry, rfl⟩, hlt⟩

theorem failures_skip (name : Name) :
    failures (streams.map fun stream => stream.skip name) = failures streams := by
  unfold failures
  rw [List.countP_map]
  rfl

theorem finishedCalls_skip (name : Name) :
    finishedCalls (streams.map fun stream => stream.skip name) = finishedCalls streams := by
  unfold finishedCalls
  rw [failures_skip, List.map_map]
  rfl

theorem tolerated_skip (name : Name) :
    Tolerated (streams.map fun stream => stream.skip name) minDisks ↔
      Tolerated streams minDisks := by
  unfold Tolerated
  rw [failures_skip, List.length_map]

theorem Delivers.cons {name : Name} {names : List Name} {calls : List (RawCall μ)}
    {err : Option RawErr} (hlater : ∀ later ∈ names, name < later)
    (hrest : Delivers reader minDisks (streams.map fun stream => stream.skip name) names
      (calls, err)) :
    Delivers reader minDisks streams (name :: names)
      (callOf reader streams name :: calls, err) := by
  have hcalls : ∀ reported, reported <+: names →
      reported.map (callOf reader (streams.map fun stream => stream.skip name)) =
        reported.map (callOf reader streams) := fun reported hreported =>
    List.map_congr_left fun later hmem => callOf_skip (hlater later (hreported.mem hmem))
  constructor
  · intro htolerated
    have hall := hrest.all ((tolerated_skip name).mpr htolerated)
    rw [finishedCalls_skip, hcalls names List.prefix_rfl] at hall
    obtain ⟨rfl, rfl⟩ := Prod.mk.inj hall
    rfl
  · intro hfailed
    obtain ⟨reported, errs, hfront, hresult⟩ :=
      hrest.some fun htolerated => hfailed ((tolerated_skip name).mp htolerated)
    rw [hcalls reported hfront] at hresult
    obtain ⟨rfl, rfl⟩ := Prod.mk.inj hresult
    exact ⟨name :: reported, errs, (List.prefix_cons_inj name).mpr hfront, rfl⟩

end Names

/-- The rounds deliver what is wanted of what is left. -/
theorem rawRounds_delivers (fuel : Nat) (hsound : ∀ r ∈ readers, r.Sound)
    (hsorted : ∀ r ∈ readers, r.stream.Sorted) (hfuel : entriesLeft readers < fuel) :
    ∃ names result, rawRounds reader minDisks fuel readers = some result ∧
      NamesOf (readers.map RawReader.stream) names ∧
      Delivers reader minDisks (readers.map RawReader.stream) names result := by
  induction fuel generalizing readers with
  | zero => exact absurd hfuel (Nat.not_lt_zero _)
  | succ fuel ih =>
    have hround := @round_of_sound μ ε reader readers hsound
    unfold rawRounds
    generalize round reader readers = r at hround
    have hsorted' : ∀ stream ∈ readers.map RawReader.stream, stream.Sorted :=
      List.forall_mem_map.mpr hsorted
    have hlength : (readers.map RawReader.stream).length = readers.length := List.length_map _
    have hle := @failedNow_le μ (readers.map RawReader.stream)
    have hended := @ended_add_failed μ (readers.map RawReader.stream)
    rw [← hround.hasErr] at hle
    rw [← hround.hasErr, ← hround.atEOF] at hended
    have hempty : r.atEOF + r.hasErr = readers.length ↔
        ∀ stream ∈ readers.map RawReader.stream, stream.entries = [] := by
      rw [hended, ← hlength, List.countP_eq_length]
      simp
    simp only
    split
    next hbad =>
      obtain ⟨names, hnames⟩ := exists_namesOf (readers.map RawReader.stream)
      refine ⟨names, _, rfl, hnames, fun htolerated => ?_, fun _ => ?_⟩
      · unfold Tolerated at htolerated
        rw [hlength] at htolerated
        omega
      · exact ⟨[], r.errs, List.nil_prefix, rfl⟩
    next hgood =>
      split
      next hend =>
        have hnothing := hempty.mp hend
        have hfailures : r.hasErr = failures (readers.map RawReader.stream) := by
          rw [hround.hasErr]
          refine List.countP_congr fun stream hstream => ?_
          rw [DriveStream.failedNow, if_pos (hnothing stream hstream)]
        have herrs : r.errs = (readers.map RawReader.stream).map DriveStream.failure := by
          rw [hround.errs]
          refine List.map_congr_left fun stream hstream => ?_
          rw [DriveStream.failedNow, if_pos (hnothing stream hstream)]
        refine ⟨[], _, rfl, namesOf_nil hnothing, fun _ => ?_, fun hfailed => ?_⟩
        · unfold finishedCalls
          rw [hfailures, herrs]
          rfl
        · unfold Tolerated at hfailed
          rw [hlength] at hfailed
          omega
      next hmore =>
        have hfnf := hround.fnf_le
        have hsum : r.atEOF + r.hasErr ≤ readers.length := by
          rw [hended, ← hlength]
          exact List.countP_le_length
        split
        next hall => exact absurd (by omega : r.atEOF + r.hasErr = readers.length) hmore
        next =>
          split
          next hnone =>
            have hmerged := hround.merged
            rw [hnone] at hmerged
            refine absurd (hempty.mpr fun stream hstream => ?_) hmore
            exact List.head?_eq_none_iff.mp (hmerged.heads_none _ (List.mem_map_of_mem hstream))
          next current hcurrent =>
            have hmerged := hround.merged
            rw [hcurrent] at hmerged
            obtain ⟨hstreams, hsound'⟩ := skipUsed_streams hround hcurrent
            have hleft := entriesLeft_skipUsed hround hcurrent
            have hsortedLeft : ∀ other ∈ skipUsed readers r.topEntries r.errs,
                other.stream.Sorted := by
              have hall : ∀ stream ∈ (readers.map RawReader.stream).map
                  (fun stream => stream.skip current.name), stream.Sorted :=
                List.forall_mem_map.mpr fun stream hstream => (hsorted' stream hstream).skip _
              rw [← hstreams] at hall
              exact List.forall_mem_map.mp hall
            obtain ⟨names, ⟨calls, err⟩, hrounds, hnames, hdelivers⟩ :=
              ih hsound' hsortedLeft (by omega)
            rw [hstreams] at hnames hdelivers
            obtain ⟨hlater, hall⟩ := hnames.cons hsorted' (hmerged.min hsorted')
              hmerged.exists_entry
            have hcall := hround.call_eq hsorted' hcurrent
            rw [hlength] at hcall
            rw [hrounds, hcall]
            exact ⟨_, _, rfl, hall, hdelivers.cons hlater⟩

end Runs

/-- Every name that a drive lists is reported once and in order. -/
theorem listPathRaw_delivers (reader : MetadataReader μ ε) (minDisks : Int)
    {disks : List (DriveStream μ)} (hdisks : disks ≠ [])
    (hsorted : ∀ stream ∈ disks, stream.Sorted) :
    ∃ names calls err, listPathRaw reader minDisks disks = some (calls, err) ∧
      NamesOf disks names ∧
      (Tolerated disks minDisks →
        calls = names.map (callOf reader disks) ++ finishedCalls disks ∧
          (¬ AllNotFound disks → err = none)) ∧
      (¬ Tolerated disks minDisks → ∃ reported errs, reported <+: names ∧
        calls = reported.map (callOf reader disks) ++ [.finished errs] ∧
          err = some (.combined errs)) := by
  have hstreams : (disks.map fun stream => ({ stream := stream } : RawReader μ)).map
      RawReader.stream = disks := by
    rw [List.map_map]
    exact disks.map_id
  obtain ⟨names, ⟨calls, err⟩, hrounds, hnames, hdelivers⟩ :=
    @rawRounds_delivers μ ε reader (disks.map fun stream => { stream := stream }) minDisks
      (entriesLeft (disks.map fun stream => ({ stream := stream } : RawReader μ)) + 1)
      (List.forall_mem_map.mpr fun _ _ => Or.inl rfl) (List.forall_mem_map.mpr hsorted)
      (Nat.lt_succ_self _)
  rw [hstreams] at hnames hdelivers
  refine ⟨names, calls, err, ?_, hnames, fun htolerated => ?_, fun hfailed => ?_⟩
  · unfold listPathRaw
    rw [if_neg hdisks]
    exact hrounds
  · obtain ⟨rfl, rfl⟩ := Prod.mk.inj (hdelivers.all htolerated)
    exact ⟨rfl, fun _ => rfl⟩
  · obtain ⟨reported, errs, hfront, hresult⟩ := hdelivers.some hfailed
    obtain ⟨rfl, rfl⟩ := Prod.mk.inj hresult
    exact ⟨reported, errs, hfront, rfl, rfl⟩

section Examples

/-- Metadata that is the modification time of its only version, and a text that no
version shows. -/
def shownVersion : MetadataReader (Int × String) Unit where
  length metadata := metadata.2.length
  getFileInfo _ metadata := .ok { modTime := metadata.1, size := 1, versionID := "" }
  sameErr _ _ := true

def entryOf (name : Char) (modTime : Int) (text : String) : MetaCacheEntry (Int × String) :=
  { name := [name], metadata := some (modTime, text), named := List.cons_ne_nil _ _ }

def threeDrives : List (DriveStream (Int × String)) :=
  [{ entries := [entryOf 'a' 1 "x", entryOf 'b' 1 "x"] }, { entries := [entryOf 'b' 1 "x"] },
    { entries := [entryOf 'a' 2 "x"], ending := some .errFaultyDisk }]

theorem threeDrives_delivers :
    ∃ names calls err, listPathRaw shownVersion 2 threeDrives = some (calls, err) ∧
      NamesOf threeDrives names ∧
      (Tolerated threeDrives 2 →
        calls = names.map (callOf shownVersion threeDrives) ++ finishedCalls threeDrives ∧
          (¬ AllNotFound threeDrives → err = none)) ∧
      (¬ Tolerated threeDrives 2 → ∃ reported errs, reported <+: names ∧
        calls = reported.map (callOf shownVersion threeDrives) ++ [.finished errs] ∧
          err = some (.combined errs)) :=
  listPathRaw_delivers shownVersion 2 (by decide) (by unfold DriveStream.Sorted; decide)

/-- Entries whose latest versions look the same are taken for identical; with a drive too
many that fails, a name that another drive lists is left out; and where all drives say
that the path is not there, there is no error. -/
theorem listPathRaw_not_as_claimed :
    (entryOf 'a' 1 "x" ≠ entryOf 'a' 1 "y" ∧
      listPathRaw shownVersion 1
        [{ entries := [entryOf 'a' 1 "x"] }, { entries := [entryOf 'a' 1 "y"] }] =
        some ([.agreed (entryOf 'a' 1 "x")], none)) ∧
    listPathRaw shownVersion 2
      [{ entries := [entryOf 'a' 1 "x"] }, { entries := [], ending := some .errFaultyDisk }] =
      some ([.finished [none, some .errFaultyDisk]], some (.combined [none, some .errFaultyDisk])) ∧
    listPathRaw shownVersion 1 [{ entries := [], ending := some .errFileNotFound }] =
      some ([], none) := by
  refine ⟨⟨?_, ?_⟩, ?_, ?_⟩
  · decide
  · decide
  · decide
  · decide

end Examples

end Fs3.Listing
