import Fs3.Listing.Blocks
import Fs3.Listing.Metacaches

/-! # Blocks that break off

The reader of a block gets whole entries until the read of the block fails, and maybe the name of
the entry that is cut off. -/

namespace Fs3.Listing

open Foundation

variable {μ : Type}

/-- How a listing of a block ends: there is no more with the same filter, or the limit
is reached, or the read has failed. -/
inductive FilterEnd where
  | eof
  | stopped
  | failed
  deriving DecidableEq

namespace MetacacheReader

/-- What `readN` makes of the end of what it gets: the name is read before the metadata,
and one past the prefix ends the listing. -/
def brokenEnd (pre : Name) : Option Name → FilterEnd
  | none => .failed
  | some name => if pre.isPrefixOf name then .failed else .eof

variable [ObjectMetadata μ]

/-- The loop of `readN`, where the entries break off. -/
def readNBroken (n : Int) (inclDeleted inclDirs : Bool) (pre : Name) (named : Option Name)
    (res : List (MetaCacheEntry μ)) : List (MetaCacheEntry μ) → List (MetaCacheEntry μ) × FilterEnd
  | [] => (res, if n < 0 ∨ res.length < n then brokenEnd pre named else .stopped)
  | e :: rest =>
    if n < 0 ∨ res.length < n then
      if !e.hasPrefix pre then (res, .eof)
      else if !inclDirs && e.isDir then readNBroken n inclDeleted inclDirs pre named res rest
      else if !inclDeleted && e.isLatestDeletemarker then
        readNBroken n inclDeleted inclDirs pre named res rest
      else readNBroken n inclDeleted inclDirs pre named (res ++ [e]) rest
    else (res, .stopped)

/-- `filter`, where the entries break off. -/
def filterBroken (o : ListPathOptions) (r : MetacacheReader μ) (named : Option Name) :
    Option (List (MetaCacheEntry μ) × FilterEnd) :=
  match (r.forwardTo o.namePrefix).bind (forwardTo · o.marker) with
  | none => some ([], .failed)
  | some r =>
    if o.recursive then
      if o.limit = 0 then some ([], .stopped)
      else
        match (r.forwardTo o.namePrefix).bind peek with
        | none => some ([], .failed)
        | some (next, rest) =>
          if !next.hasPrefix o.namePrefix then some ([], .eof)
          else
            let res :=
              if (o.inclDeleted || !next.isLatestDeletemarker) &&
                next.hasPrefix o.namePrefix && (o.includeDirectories || next.isObject)
              then [next] else []
            some (readNBroken o.limit o.inclDeleted o.includeDirectories o.namePrefix named
              res rest)
    else if o.limit < 0 then none
    else
      let (found, ended, _) := r.readFn (visit o) ([], false)
      some (found.1, if found.2 then .eof else if ended then .failed else .stopped)

end MetacacheReader

def ListPathOptions.past (o : ListPathOptions) (name : Name) : Bool :=
  decide (o.namePrefix ≤ name) && !o.namePrefix.isPrefixOf name

theorem ListPathOptions.past_iff {o : ListPathOptions} {name : Name} :
    o.past name = true ↔ o.namePrefix ≤ name ∧ ¬ o.namePrefix <+: name := by
  rw [ListPathOptions.past, Bool.and_eq_true, decide_eq_true_iff, Bool.not_eq_true',
    ← Bool.not_eq_true, List.isPrefixOf_iff_prefix]

def ListPathOptions.showsEnd (o : ListPathOptions) (l : List (MetaCacheEntry μ))
    (named : Option Name) : Bool :=
  l.any (fun e => o.past e.name) || (o.recursive && named.any o.past)

variable [ObjectMetadata μ] {o : ListPathOptions}

/-- What a listing of a block gets where the entries `l` are read and the others are not:
it has failed with what is kept of them, and nothing shows the end where that is anything;
or something shows the end, and it has all of the block; or it has reached the limit. -/
inductive BrokenRead (o : ListPathOptions) (kept found : List (MetaCacheEntry μ))
    (shown : Bool) (all : List (MetaCacheEntry μ)) : FilterEnd → Prop
  | failed (hfound : found = kept) (hshown : found ≠ [] → shown = false) :
      BrokenRead o kept found shown all .failed
  | eof (hshown : shown = true) (hfound : found = all) : BrokenRead o kept found shown all .eof
  | stopped (hfound : found <+: kept) (hlimit : o.limit ≤ found.length) :
      BrokenRead o kept found shown all .stopped

omit [ObjectMetadata μ] in
theorem ListPathOptions.showsEnd_cons {e : MetaCacheEntry μ} {l : List (MetaCacheEntry μ)}
    {named : Option Name} (hfront : o.namePrefix <+: e.name) :
    o.showsEnd (e :: l) named = o.showsEnd l named := by
  have hpast : o.past e.name = false := by
    rw [← Bool.not_eq_true, ListPathOptions.past_iff]
    exact fun hpast => hpast.2 hfront
  rw [ListPathOptions.showsEnd, List.any_cons, hpast, Bool.false_or, ListPathOptions.showsEnd]

omit [ObjectMetadata μ] in
theorem ListPathOptions.showsEnd_of_past {e : MetaCacheEntry μ} {l : List (MetaCacheEntry μ)}
    {named : Option Name} (hfrom : o.namePrefix ≤ e.name) (hnot : ¬ o.namePrefix <+: e.name) :
    o.showsEnd (e :: l) named = true := by
  rw [ListPathOptions.showsEnd, List.any_cons, ListPathOptions.past_iff.mpr ⟨hfrom, hnot⟩,
    Bool.true_or, Bool.true_or]

theorem BrokenRead.skip {skipped l missing : List (MetaCacheEntry μ)}
    {named : Option Name}
    (hordered : Ordered (skipped ++ l)) (hskipped : skipped.filter o.keeps = [])
    {found : List (MetaCacheEntry μ)} {ending : FilterEnd}
    (hread : BrokenRead o (l.filter o.keeps) found (o.showsEnd l named)
      ((l ++ missing).filter o.keeps) ending) :
    BrokenRead o ((skipped ++ l).filter o.keeps) found (o.showsEnd (skipped ++ l) named)
      ((skipped ++ l ++ missing).filter o.keeps) ending := by
  have hshows : o.showsEnd (skipped ++ l) named =
      (skipped.any (fun e => o.past e.name) || o.showsEnd l named) := by
    rw [ListPathOptions.showsEnd, List.any_append, Bool.or_assoc, ListPathOptions.showsEnd]
  rw [List.append_assoc, List.filter_append, List.filter_append, hskipped, List.nil_append,
    List.nil_append, hshows]
  cases hread with
  | failed hfound hshown =>
    refine .failed hfound fun hne => ?_
    rw [hshown hne, Bool.or_false, List.any_eq_false]
    intro e he hpast
    obtain ⟨hfrom, hnot⟩ := ListPathOptions.past_iff.mp hpast
    -- What is found comes later and has the prefix.
    obtain ⟨e', he'⟩ := List.exists_mem_of_ne_nil _ hne
    rw [hfound] at he'
    obtain ⟨hmem, hkeeps⟩ := List.mem_filter.mp he'
    have hle := (List.pairwise_append.mp hordered).2.2 e he e' hmem
    exact not_isPrefix_of_le hfrom hnot hle (o.keeps_iff.mp hkeeps).2.2.1
  | eof hshown hfound => exact .eof (by rw [hshown, Bool.or_true]) hfound
  | stopped hfound hlimit => exact .stopped hfound hlimit

namespace MetacacheReader

variable {rest missing : List (MetaCacheEntry μ)} {named : Option Name}

theorem brokenRead_readNBroken (hrecursive : o.recursive = true)
    (hordered : Ordered (rest ++ missing))
    (hfrom : ∀ e ∈ rest ++ missing, o.namePrefix ≤ e.name ∧ o.marker ≤ e.name)
    (hnamed : ∀ name ∈ named, missing.head?.map MetaCacheEntry.name = some name)
    (acc : List (MetaCacheEntry μ)) {found : List (MetaCacheEntry μ)} {ending : FilterEnd}
    (hread : readNBroken o.limit o.inclDeleted o.includeDirectories o.namePrefix named acc rest =
      (found, ending)) :
    BrokenRead o (acc ++ rest.filter o.keeps) found (o.showsEnd rest named)
      (acc ++ (rest ++ missing).filter o.keeps) ending := by
  induction rest generalizing acc with
  | nil =>
    rw [readNBroken] at hread
    split at hread
    next hroom =>
      obtain ⟨rfl, rfl⟩ := Prod.mk.inj hread
      rw [List.filter_nil, List.append_nil, List.nil_append, ListPathOptions.showsEnd,
        hrecursive, List.any_nil, Bool.false_or, Bool.true_and]
      cases named with
      | none => exact .failed rfl fun _ => rfl
      | some name =>
        obtain ⟨e, he, rfl⟩ := Option.map_eq_some_iff.mp (hnamed name rfl)
        obtain ⟨after, rfl⟩ := List.head?_eq_some_iff.mp he
        have hpast := (hfrom e List.mem_cons_self).1
        rw [brokenEnd, Option.any_some]
        split
        next hfront =>
          refine .failed rfl fun _ => ?_
          rw [← Bool.not_eq_true, ListPathOptions.past_iff]
          exact fun hpast => hpast.2 (List.isPrefixOf_iff_prefix.mp hfront)
        next hnot =>
          have hnot : ¬ o.namePrefix <+: e.name := by
            rwa [← List.isPrefixOf_iff_prefix]
          refine .eof (ListPathOptions.past_iff.mpr ⟨hpast, hnot⟩) ?_
          rw [filter_keeps_of_past hordered hpast hnot, List.append_nil]
    next hfull =>
      obtain ⟨rfl, rfl⟩ := Prod.mk.inj hread
      exact .stopped (List.prefix_append _ _) (Int.not_lt.mp (not_or.mp hfull).2)
  | cons e rest ih =>
    rw [List.cons_append] at hordered hfrom
    obtain ⟨-, htail⟩ := List.pairwise_cons.mp hordered
    obtain ⟨hpast, hmarker⟩ := hfrom e List.mem_cons_self
    have ih := ih htail fun e' he' => hfrom e' (List.mem_cons_of_mem _ he')
    have hkeeps := keeps_recursive hrecursive hmarker
    rw [readNBroken] at hread
    split at hread
    next hroom =>
      split at hread
      next hnot =>
        obtain ⟨rfl, rfl⟩ := Prod.mk.inj hread
        have hnone : ¬ o.namePrefix <+: e.name := by
          rw [← e.hasPrefix_iff]
          simpa using hnot
        refine .eof (ListPathOptions.showsEnd_of_past hpast hnone) ?_
        rw [List.cons_append, filter_keeps_of_past hordered hpast hnone, List.append_nil]
      next hfront =>
        have hfront' : o.namePrefix <+: e.name := by
          rw [← e.hasPrefix_iff]
          simpa using hfront
        rw [ListPathOptions.showsEnd_cons hfront', List.cons_append]
        split at hread
        next hdir =>
          have hskip : ¬ o.keeps e = true := by
            rw [hkeeps]
            simp_all [MetaCacheEntry.isObject_eq]
          rw [List.filter_cons_of_neg hskip, List.filter_cons_of_neg hskip]
          exact ih acc hread
        next hdir =>
          split at hread
          next hdeleted =>
            have hskip : ¬ o.keeps e = true := by
              rw [hkeeps]
              simp_all
            rw [List.filter_cons_of_neg hskip, List.filter_cons_of_neg hskip]
            exact ih acc hread
          next hdeleted =>
            have hkept : o.keeps e = true := by
              rw [hkeeps]
              cases hdirs : o.includeDirectories <;> cases hincl : o.inclDeleted <;>
                simp_all [MetaCacheEntry.isObject_eq]
            rw [List.filter_cons_of_pos hkept, List.filter_cons_of_pos hkept,
              List.append_cons acc e (rest.filter _),
              List.append_cons acc e ((rest ++ missing).filter _)]
            exact ih _ hread
    next hfull =>
      obtain ⟨rfl, rfl⟩ := Prod.mk.inj hread
      exact .stopped (List.prefix_append _ _) (Int.not_lt.mp (not_or.mp hfull).2)

def fnEnd (past ended : Bool) : FilterEnd :=
  if past then .eof else if ended then .failed else .stopped

theorem ReadsOn.brokenRead (hrecursive : o.recursive = false)
    {l found : List (MetaCacheEntry μ)} {past ended : Bool} {r : MetacacheReader μ}
    (hordered : Ordered (l ++ missing)) (hfrom : ∀ e ∈ l, o.namePrefix ≤ e.name)
    (hreads : ReadsOn o [] l ((found, past), ended, r)) :
    BrokenRead o (l.filter o.keeps) found (o.showsEnd l named)
      ((l ++ missing).filter o.keeps) (fnEnd past ended) := by
  cases hreads with
  | all hfront =>
    refine .failed rfl fun _ => ?_
    rw [ListPathOptions.showsEnd, hrecursive, Bool.false_and, Bool.or_false, List.any_eq_false]
    exact fun e he hpast => (ListPathOptions.past_iff.mp hpast).2 (hfront e he)
  | @past e hmem hnot =>
    refine .eof ?_ ?_
    · rw [ListPathOptions.showsEnd, List.any_eq_true.mpr ⟨e, hmem,
        ListPathOptions.past_iff.mpr ⟨hfrom e hmem, hnot⟩⟩, Bool.true_or]
    · have hnone : missing.filter o.keeps = [] := by
        refine List.filter_eq_nil_iff.mpr fun e' he' hkeeps => ?_
        have hle := (List.pairwise_append.mp hordered).2.2 e hmem e' he'
        exact not_isPrefix_of_le (hfrom e hmem) hnot hle (o.keeps_iff.mp hkeeps).2.2.1
      rw [List.filter_append, hnone, List.append_nil, List.nil_append]
  | stopped before after hsplit hlimit =>
    rw [hsplit, List.filter_append]
    exact .stopped (List.prefix_append _ _) hlimit

theorem brokenRead_readN (hrecursive : o.recursive = true) {e : MetaCacheEntry μ}
    (hordered : Ordered (e :: rest ++ missing))
    (hfrom : ∀ e' ∈ e :: rest ++ missing, o.namePrefix ≤ e'.name ∧ o.marker ≤ e'.name)
    (hnamed : ∀ name ∈ named, missing.head?.map MetaCacheEntry.name = some name)
    (hfront : o.namePrefix <+: e.name) {found : List (MetaCacheEntry μ)} {ending : FilterEnd}
    (hread : readNBroken o.limit o.inclDeleted o.includeDirectories o.namePrefix named
      ([e].filter o.keeps) rest = (found, ending)) :
    BrokenRead o ((e :: rest).filter o.keeps) found (o.showsEnd (e :: rest) named)
      ((e :: rest ++ missing).filter o.keeps) ending := by
  rw [List.cons_append] at hordered hfrom ⊢
  have hrest := fun e' he' => hfrom e' (List.mem_cons_of_mem _ he')
  have hsplit : ∀ l : List (MetaCacheEntry μ),
      (e :: l).filter o.keeps = [e].filter o.keeps ++ l.filter o.keeps := by
    intro l
    rw [← List.filter_append, List.singleton_append]
  rw [ListPathOptions.showsEnd_cons hfront, hsplit rest, hsplit (rest ++ missing)]
  exact brokenRead_readNBroken hrecursive (List.pairwise_cons.mp hordered).2 hrest hnamed _ hread

/-- What the reader of a block finds in it when the read fails behind the entries `l`. -/
theorem brokenRead_filterBroken (hlimit : 0 < o.limit) {l : List (MetaCacheEntry μ)}
    (hordered : Ordered (l ++ missing))
    (hnamed : ∀ name ∈ named, missing.head?.map MetaCacheEntry.name = some name) :
    ∃ found ending, filterBroken o (MetacacheReader.mk none l) named = some (found, ending) ∧
      BrokenRead o (l.filter o.keeps) found (o.showsEnd l named)
        ((l ++ missing).filter o.keeps) ending := by
  have hfail : l.filter o.keeps = [] → BrokenRead o (l.filter o.keeps) [] (o.showsEnd l named)
      ((l ++ missing).filter o.keeps) .failed :=
    fun hnil => .failed hnil.symm fun hne => absurd rfl hne
  have hforwarded := @forwardedBoth_forwardTo _ _ o (MetacacheReader.mk none l)
    (List.pairwise_append.mp hordered).1
  rw [filterBroken]
  generalize ((MetacacheReader.mk none l).forwardTo o.namePrefix).bind
    (forwardTo · o.marker) = forwarded at hforwarded
  have hentries : (MetacacheReader.mk none l).entries = l := rfl
  rw [hentries] at hforwarded
  cases hforwarded with
  | ended hnone => exact ⟨[], .failed, rfl, hfail hnone⟩
  | @found r skipped hsplit hskipped hfrom =>
    subst hsplit
    have hrest : Ordered (r.entries ++ missing) := by
      rw [List.append_assoc] at hordered
      exact (List.pairwise_append.mp hordered).2.1
    have hthis := (List.pairwise_append.mp hrest).1
    dsimp only
    rw [peek_forwardTo hthis fun e he => (hfrom e he).1, peek_eq]
    cases hnext : r.entries with
    | nil =>
      have hempty : r = ⟨none, []⟩ := by
        obtain ⟨current, rest⟩ := r
        cases current with
        | none => exact congrArg _ hnext
        | some e => cases hnext
      rw [hnext, List.append_nil] at hfail
      have hfail := hfail hskipped
      rw [List.append_nil]
      split
      · rw [if_neg (by omega)]
        exact ⟨[], .failed, rfl, hfail⟩
      · rw [if_neg (by omega), hempty]
        exact ⟨[], .failed, rfl, hfail⟩
    | cons e rest =>
      rw [hnext] at hrest hfrom hordered
      -- What is missing is behind an entry that is asked for.
      have hall : ∀ e' ∈ e :: rest ++ missing,
          o.namePrefix ≤ e'.name ∧ o.marker ≤ e'.name := by
        intro e' he'
        obtain ⟨hpast, hmarker⟩ := hfrom e List.mem_cons_self
        rcases List.mem_cons.mp he' with rfl | he'
        · exact ⟨hpast, hmarker⟩
        · have hle := (List.pairwise_cons.mp hrest).1 e' he'
          exact ⟨hpast.trans hle, hmarker.trans hle⟩
      have hskip := fun found ending => @BrokenRead.skip _ _ o skipped (e :: rest) missing named
        (List.pairwise_append.mp hordered).1 hskipped found ending
      split
      next hrecursive =>
        rw [if_neg (by omega)]
        dsimp only
        split
        next hnot =>
          have hnone : ¬ o.namePrefix <+: e.name := by
            rw [← e.hasPrefix_iff]
            simpa using hnot
          refine ⟨[], .eof, rfl, hskip _ _ (.eof ?_ ?_)⟩
          · exact ListPathOptions.showsEnd_of_past (hfrom e List.mem_cons_self).1 hnone
          · have hordered : Ordered (e :: (rest ++ missing)) := hrest
            rw [List.cons_append, filter_keeps_of_past hordered
              (hfrom e List.mem_cons_self).1 hnone]
        next hfront =>
          have hfront : o.namePrefix <+: e.name := by
            rw [← e.hasPrefix_iff]
            simpa using hfront
          rw [filter_peeked hrecursive (hfrom e List.mem_cons_self).2]
          refine ⟨_, _, rfl, hskip _ _ ?_⟩
          exact brokenRead_readN hrecursive hrest hall hnamed hfront rfl
      next hrecursive =>
        rw [Bool.not_eq_true] at hrecursive
        rw [if_neg (by omega)]
        refine ⟨_, _, rfl, hskip _ _ ?_⟩
        rw [← hnext] at hrest hfrom ⊢
        exact (readsOn_readFn hrecursive hthis hfrom).brokenRead hrecursive hrest
          fun e' he' => (hfrom e' he').1

end MetacacheReader

end Fs3.Listing

/-! ## Parts that are read again

The reader of a stored listing starts again while its first part cannot be read, and
reads a part again while it cannot be read to its end. What was found of a part that
broke off is kept.
-/

namespace Fs3.Listing

variable {μ : Type}

/-- What `toObjectErr` makes of the error of a read. -/
inductive ReadError where
  | objectNotFound
  | insufficientReadQuorum
  | other
  deriving DecidableEq

/-- What is wrong with a listing that is still being read. -/
inductive CacheError where
  | unreachable
  | fileNotFound
  | timeout
  | failed (error : String)
  deriving DecidableEq

/-- What is said of the listing where it is kept. -/
structure CacheReply where
  status : ScanStatus
  fileNotFound : Bool
  error : String
  lastUpdate : Time
  deriving DecidableEq

/-- `checkMetacacheState`, without what it tells of a listing that is too old. -/
def checkMetacacheState (now : Time) : Option CacheReply → Option CacheError
  | none => some .unreachable
  | some cache =>
    if cache.status = .none ∨ cache.fileNotFound then some .fileNotFound
    else if cache.status = .success ∨ cache.status = .started then
      if now - cache.lastUpdate > metacacheMaxRunningAge then some .timeout else none
    else if cache.error ≠ "" then some (.failed cache.error)
    else none

/-- Where the read of a block breaks off: after so many entries, and maybe after the
name of the next one. -/
structure Break where
  entries : Nat
  named : Bool
  error : ReadError
  deriving DecidableEq

def Break.name (broken : Break) (data : List (MetaCacheEntry μ)) : Option Name :=
  if broken.named then (data[broken.entries]?).map MetaCacheEntry.name else none

/-- What a pass of the loops finds: whether it is canceled, the state of the listing,
whether a drive is online and has the metadata of the part, what the drives together
say of the metadata, and where the read of the block breaks off. -/
structure Answers where
  canceled : Bool := false
  now : Time := 0
  cache : Option CacheReply := some ⟨.success, false, "", 0⟩
  online : Bool := true
  probe : Bool := true
  info : Option ReadError := none
  block : Option Break := none
  deriving DecidableEq

namespace Answers

variable (a : Answers)

def fine : Answers := {}

/-- The drives are asked one at a time first when something has failed before. -/
def answered (retries : Int) : Bool := decide (retries ≤ 0) || (a.online && a.probe)

def Transient : Prop :=
  a.info ≠ some .other ∧ ∀ broken ∈ a.block, broken.error ≠ .other

instance : Decidable a.Transient := inferInstanceAs (Decidable (_ ∧ _))

end Answers

/-- What `streamMetadataParts` returns with the entries: nothing, as there is more, or
that there is no more, or an error. -/
inductive StreamEnd where
  | more
  | eof
  | canceled
  | remoteListingCanceled (error : CacheError)
  | waitingForNextPart (partN : Nat) (error : CacheError)
  | readingFirstPart
  | readFailed
  | crashed
  deriving DecidableEq

def StreamEnd.ok : StreamEnd → Bool
  | .more | .eof => true
  | _ => false

/-- Where `streamMetadataParts` is between two passes of its loops. -/
inductive Progress (μ : Type) where
  | first (retries : Int) (entries : List (MetaCacheEntry μ))
  | part (partN loadedPart : Nat) (retries : Int) (entries : List (MetaCacheEntry μ))
  | done (entries : List (MetaCacheEntry μ)) (ending : StreamEnd)
  deriving DecidableEq

namespace ListPathOptions

variable (o : ListPathOptions) (blocks : List (MetacacheBlock μ))

/-- After many failures the state of the listing is looked at, and they are forgotten. -/
def recount (retries : Int) (a : Answers) (wrap : CacheError → StreamEnd) :
    Except StreamEnd Int :=
  if 10 < retries then
    match checkMetacacheState a.now a.cache with
    | some e => .error (wrap e)
    | none => .ok 1
  else .ok retries

def passFirst (retries : Int) (entries : List (MetaCacheEntry μ)) (a : Answers) : Progress μ :=
  if a.canceled then .done entries .canceled
  else
    match recount retries a .remoteListingCanceled with
    | .error e => .done entries e
    | .ok retries =>
      if !a.answered retries then .first (retries + 1) entries
      else
        match a.info with
        | some .other => .done entries .readingFirstPart
        | some _ => .first (retries + 1) entries
        | none =>
          match o.findFirstPart blocks with
          | .part partN => .part partN 0 retries entries
          | .fileNotFound => .part 0 0 retries entries
          | .eof => .done entries .eof
          | .unexpectedEOF =>
            if retries = 10 then
              match checkMetacacheState a.now a.cache with
              | some e => .done entries (.remoteListingCanceled e)
              | none => .first 0 entries
            else .first (retries + 1) entries

variable [ObjectMetadata μ]

def readBlock (bi : MetacacheBlock μ) : Option Break → Option (List (MetaCacheEntry μ) × FilterEnd)
  | none =>
    ((MetacacheReader.mk none bi.data).filter o).map fun read =>
      (read.1, if read.2 then .eof else .stopped)
  | some broken =>
    MetacacheReader.filterBroken o ⟨none, bi.data.take broken.entries⟩ (broken.name bi.data)

/-- What comes after a read of a block: it is kept what was found, however it ended. -/
def afterBlock (bi : MetacacheBlock μ) (partN : Nat) (retries : Int) (block : Option Break)
    (entries : List (MetaCacheEntry μ)) (ending : FilterEnd) : Progress μ :=
  if 0 < o.limit ∧ o.limit < entries.length then .done (entries.take o.limit.toNat) .more
  else
    match ending with
    | .stopped => .done entries .more
    | .failed =>
      if block.map Break.error = some .other then .done entries .readFailed
      else .part partN partN (retries + 1) entries
    | .eof =>
      if bi.eos then .done entries .eof
      else if bi.endedPrefix o.namePrefix then .done entries .eof
      else .part (partN + 1) partN 0 entries

def passBlock (bi : MetacacheBlock μ) (partN : Nat) (retries : Int)
    (entries : List (MetaCacheEntry μ)) (a : Answers) : Progress μ :=
  match o.readBlock bi a.block with
  | none => .done entries .crashed
  | some (e, ending) => o.afterBlock bi partN retries a.block (entries ++ e) ending

def passPart (partN loadedPart : Nat) (retries : Int) (entries : List (MetaCacheEntry μ))
    (a : Answers) : Progress μ :=
  if a.canceled then .done entries .canceled
  else if partN = loadedPart then
    match blocks[partN]? with
    | none => .part partN loadedPart (retries + 1) entries
    | some bi => o.passBlock bi partN retries entries a
  else
    match recount retries a (.waitingForNextPart partN) with
    | .error e => .done entries e
    | .ok retries =>
      if !a.answered retries || a.info.isSome then .part partN loadedPart (retries + 1) entries
      else
        match blocks[partN]? with
        | none => .part partN loadedPart (retries + 1) entries
        | some bi =>
          if bi.pastPrefix o.namePrefix then .done entries .eof
          else o.passBlock bi partN retries entries a

def pass : Progress μ → Answers → Progress μ
  | .first retries entries, a => o.passFirst blocks retries entries a
  | .part partN loadedPart retries entries, a =>
    o.passPart blocks partN loadedPart retries entries a
  | .done entries ending, _ => .done entries ending

/-- `streamMetadataParts`, as far as it gets with the answers. -/
def streamRetried (answers : List Answers) : Progress μ :=
  answers.foldl (o.pass blocks) (.first 0 [])

end ListPathOptions

end Fs3.Listing
