import Fs3.Listing.Entries

/-! # Stored blocks of a listing

A listing is stored in blocks of a bounded number of entries, each with the bounds that it records
of itself. -/

namespace Fs3.Listing

variable {μ : Type}

/-- `metacacheBlock`. -/
structure MetacacheBlock (μ : Type) where
  data : List (MetaCacheEntry μ) := []
  n : Nat := 0
  first : Name := []
  last : Name := []
  eos : Bool := false
  deriving DecidableEq

namespace MetacacheBlock

variable (b : MetacacheBlock μ)

def pastPrefix (pre : Name) : Bool :=
  if pre = [] ∨ pre <+: b.first then false else decide (pre < b.first)

def endedPrefix (pre : Name) : Bool :=
  if pre = [] ∨ pre <+: b.last then false else decide (pre < b.last)

/-- What `finishBlock` prepares for the next block. -/
def next : MetacacheBlock μ := { b with n := b.n + 1, data := [], first := [] }

end MetacacheBlock

/-- The loop of `newMetacacheBlockWriter` over its input, from a block that has `n`
entries, with the blocks that it stores. -/
def blockLoop (blockEntries : Nat) (current : MetacacheBlock μ) (n : Nat) :
    List (MetaCacheEntry μ) → List (MetacacheBlock μ)
  | [] => if 0 < n ∨ current.n = 0 then [{ current with eos := true }] else []
  | o :: rest =>
    let current := if current.first = [] then { current with first := o.name } else current
    if n ≥ blockEntries - 1 then
      current ::
        blockLoop blockEntries { current.next with data := [o], last := o.name } 1 rest
    else
      blockLoop blockEntries { current with data := current.data ++ [o], last := o.name } (n + 1)
        rest

/-- `newMetacacheBlockWriter`. -/
def newMetacacheBlockWriter (blockEntries : Nat) (stream : List (MetaCacheEntry μ)) :
    List (MetacacheBlock μ) := blockLoop blockEntries {} 0 stream

/-! ## The reader of a block -/

/-- `metacacheReader`: an entry that was peeked at, and what is behind it. -/
structure MetacacheReader (μ : Type) where
  current : Option (MetaCacheEntry μ) := none
  rest : List (MetaCacheEntry μ)

namespace MetacacheReader

variable (r : MetacacheReader μ)

def entries : List (MetaCacheEntry μ) := r.current.toList ++ r.rest

def seek (s : Name) (rest : List (MetaCacheEntry μ)) : Option (MetacacheReader μ) :=
  match rest.dropWhile fun e => decide (e.name < s) with
  | [] => none
  | e :: rest => some ⟨some e, rest⟩

/-- Forward to the first entry that is `s` or after it, unless the stream ends before. -/
def forwardTo (s : Name) : Option (MetacacheReader μ) :=
  if s = [] then some r
  else
    match r.current with
    | some e => if s ≤ e.name then some r else seek s r.rest
    | none => seek s r.rest

def nextEOF : Bool := r.entries.isEmpty

def peek : Option (MetaCacheEntry μ × List (MetaCacheEntry μ)) :=
  match r.current with
  | some e => some (e, r.rest)
  | none =>
    match r.rest with
    | [] => none
    | e :: rest => some (e, rest)

/-- Call `fn` with every entry as long as it asks for more. -/
def readLoop {σ : Type} (fn : σ → MetaCacheEntry μ → σ × Bool) (s : σ) :
    List (MetaCacheEntry μ) → σ × Bool × MetacacheReader μ
  | [] => (s, true, ⟨none, []⟩)
  | e :: rest =>
    match fn s e with
    | (s, true) => readLoop fn s rest
    | (s, false) => (s, false, ⟨none, rest⟩)

/-- `readFn`. What `fn` says of an entry that was peeked at is not looked at. -/
def readFn {σ : Type} (fn : σ → MetaCacheEntry μ → σ × Bool) (s : σ) :
    σ × Bool × MetacacheReader μ :=
  match r.current with
  | some e => readLoop fn (fn s e).1 r.rest
  | none => readLoop fn s r.rest

variable [ObjectMetadata μ]

/-- The loop of `readN`. -/
def readNLoop (n : Int) (inclDeleted inclDirs : Bool) (pre : Name)
    (res : List (MetaCacheEntry μ)) : List (MetaCacheEntry μ) → List (MetaCacheEntry μ) × Bool
  | [] => (res, decide (n < 0 ∨ res.length < n))
  | e :: rest =>
    if n < 0 ∨ res.length < n then
      if !e.hasPrefix pre then (res, true)
      else if !inclDirs && e.isDir then readNLoop n inclDeleted inclDirs pre res rest
      else if !inclDeleted && e.isLatestDeletemarker then
        readNLoop n inclDeleted inclDirs pre res rest
      else readNLoop n inclDeleted inclDirs pre (res ++ [e]) rest
    else (res, false)

/-- `readN`, with whether the stream or the prefix has ended. -/
def readN (n : Int) (inclDeleted inclDirs : Bool) (pre : Name) :
    List (MetaCacheEntry μ) × Bool :=
  if n = 0 then ([], false)
  else
    match (r.forwardTo pre).bind peek with
    | none => ([], true)
    | some (next, rest) =>
      if !next.hasPrefix pre then ([], true)
      else
        let res :=
          if (inclDeleted || !next.isLatestDeletemarker) && next.hasPrefix pre &&
            (inclDirs || next.isObject) then [next] else []
        readNLoop n inclDeleted inclDirs pre res rest

/-- What `filter` does with an entry, besides noting that it is past the prefix. -/
def visit (o : ListPathOptions) (found : List (MetaCacheEntry μ) × Bool)
    (entry : MetaCacheEntry μ) : (List (MetaCacheEntry μ) × Bool) × Bool :=
  if o.namePrefix ≠ [] ∧ entry.hasPrefix o.namePrefix = false then ((found.1, true), false)
  else if !o.includeDirectories && entry.isDir then (found, true)
  else if !entry.isInDir o.namePrefix o.separator then (found, true)
  else if !o.inclDeleted && entry.isObject && entry.isLatestDeletemarker then
    (found, decide (found.1.length < o.limit))
  else ((found.1 ++ [entry], found.2), decide ((found.1 ++ [entry]).length < o.limit))

/-- `filter`: the entries of the block, and whether there are no more with the same filter. -/
def filter (o : ListPathOptions) : Option (List (MetaCacheEntry μ) × Bool) :=
  match (r.forwardTo o.namePrefix).bind (forwardTo · o.marker) with
  | none => some ([], true)
  | some r =>
    if o.recursive then some (r.readN o.limit o.inclDeleted o.includeDirectories o.namePrefix)
    else if o.limit < 0 then none
    else
      let (found, ended, r) := r.readFn (visit o) ([], false)
      some (found.1, ended || found.2 || r.nextEOF)

end MetacacheReader

/-- Where `findFirstPart` says to start. -/
inductive FirstPart where
  | part (i : Nat)
  | fileNotFound
  | unexpectedEOF
  | eof
  deriving DecidableEq

namespace ListPathOptions

variable (o : ListPathOptions)

/-- The loop of `findFirstPart`, from the part `i` on. -/
def findPart (search : Name) (i : Nat) : List (MetacacheBlock μ) → FirstPart
  | [] => .unexpectedEOF
  | tmp :: rest =>
    if tmp.first = [] ∧ tmp.last = [] ∧ tmp.eos then .fileNotFound
    else if search ≤ tmp.first then .part i
    else if search ≤ tmp.last then .part i
    else if tmp.eos then .eof
    else findPart search (i + 1) rest

/-- `findFirstPart`. -/
def findFirstPart (blocks : List (MetacacheBlock μ)) : FirstPart :=
  let search := if o.marker = [] then o.namePrefix else o.marker
  if search = [] then .part 0 else findPart search 0 blocks

variable [ObjectMetadata μ]

/-- The loop of `streamMetadataParts` over the parts from `partN` on. The bounds of the part that
was loaded first are not looked at before it is read. -/
def readParts (loadedPart partN : Nat) (entries : List (MetaCacheEntry μ)) :
    List (MetacacheBlock μ) → Option (List (MetaCacheEntry μ))
  | [] => none
  | bi :: rest =>
    if partN ≠ loadedPart ∧ bi.pastPrefix o.namePrefix = true then some entries
    else
      match (MetacacheReader.mk none bi.data).filter o with
      | none => none
      | some (e, ended) =>
        let entries := entries ++ e
        if 0 < o.limit ∧ o.limit < entries.length then some (entries.take o.limit.toNat)
        else if !ended then some entries
        else if bi.eos then some entries
        else if bi.endedPrefix o.namePrefix then some entries
        else readParts partN (partN + 1) entries rest

/-- `streamMetadataParts` on blocks that are all stored. -/
def streamMetadataParts (blocks : List (MetacacheBlock μ)) : Option (List (MetaCacheEntry μ)) :=
  match o.findFirstPart blocks with
  | .part partN => o.readParts 0 partN [] (blocks.drop partN)
  | .fileNotFound => o.readParts 0 0 [] blocks
  | .unexpectedEOF => none
  | .eof => some []

end ListPathOptions

end Fs3.Listing

/-! ## What a reader gets from a block

Forwarding skips what is before the prefix or the marker, and reading stops at the
first entry past the prefix or at the limit. So a reader that comes to the end of
the listing has all entries of the block that are asked for, and another one has
the first of them and is at the limit.
-/

namespace Fs3.Listing

open Foundation

variable {μ : Type}

def Ordered (stream : List (MetaCacheEntry μ)) : Prop :=
  stream.Pairwise fun e e' => e.name ≤ e'.name

instance (stream : List (MetaCacheEntry μ)) : Decidable (Ordered stream) :=
  inferInstanceAs (Decidable (stream.Pairwise fun e e' => e.name ≤ e'.name))

/-- What forwarding to a name makes of the entries of a reader. -/
inductive Forwarded (s : Name) (l : List (MetaCacheEntry μ)) : Option (MetacacheReader μ) → Prop
  | ended (hbefore : ∀ e ∈ l, e.name < s) : Forwarded s l none
  | found {r : MetacacheReader μ} (skipped : List (MetaCacheEntry μ))
      (hsplit : l = skipped ++ r.entries) (hskipped : ∀ e ∈ skipped, e.name < s)
      (hfrom : ∀ e ∈ r.entries, s ≤ e.name) : Forwarded s l (some r)

variable {e : MetaCacheEntry μ}

theorem Forwarded.cons {s : Name} {rest : List (MetaCacheEntry μ)}
    {forwarded : Option (MetacacheReader μ)} (hlt : e.name < s) (hrest : Forwarded s rest forwarded)
     :
    Forwarded s (e :: rest) forwarded := by
  cases hrest with
  | ended hbefore =>
    refine .ended fun e' he' => ?_
    rcases List.mem_cons.mp he' with rfl | he'
    · exact hlt
    · exact hbefore e' he'
  | found skipped hsplit hskipped hfrom =>
    refine .found (e :: skipped) (by rw [hsplit, List.cons_append]) (fun e' he' => ?_) hfrom
    rcases List.mem_cons.mp he' with rfl | he'
    · exact hlt
    · exact hskipped e' he'

namespace MetacacheReader

variable {r : MetacacheReader μ} {s : Name}

theorem forwarded_seek {rest : List (MetaCacheEntry μ)} (hordered : Ordered rest) :
    Forwarded s rest (seek s rest) := by
  induction rest with
  | nil =>
    refine .ended fun e he => ?_
    cases he
  | cons e rest ih =>
    obtain ⟨hhead, htail⟩ := List.pairwise_cons.mp hordered
    by_cases hlt : e.name < s
    · have hseek : seek s (e :: rest) = seek s rest := by
        rw [seek, List.dropWhile_cons_of_pos (by simpa using hlt), seek]
      rw [hseek]
      exact (ih htail).cons hlt
    · have hseek : seek s (e :: rest) = some ⟨some e, rest⟩ := by
        rw [seek, List.dropWhile_cons_of_neg (by simpa using hlt)]
      rw [hseek]
      refine .found [] rfl (fun e' he' => by cases he') fun e' he' => ?_
      rcases List.mem_cons.mp he' with rfl | he'
      · exact name_not_lt.mp hlt
      · exact (name_not_lt.mp hlt).trans (hhead e' he')

theorem forwarded_forwardTo (hordered : Ordered r.entries) :
    Forwarded s r.entries (r.forwardTo s) := by
  have hstay : (∀ e ∈ r.entries, s ≤ e.name) → Forwarded s r.entries (some r) := by
    refine fun hfrom => .found [] rfl (fun e' he' => ?_) hfrom
    cases he'
  rw [forwardTo]
  split
  next hnil =>
    refine hstay fun e _ => ?_
    rw [hnil]
    exact le_of_isPrefix List.nil_prefix
  next =>
    obtain ⟨current, rest⟩ := r
    cases current with
    | none => exact forwarded_seek hordered
    | some e =>
      obtain ⟨hhead, htail⟩ := List.pairwise_cons.mp hordered
      dsimp only
      split
      next hle =>
        refine hstay fun e' he' => ?_
        rcases List.mem_cons.mp he' with rfl | he'
        · exact hle
        · exact hle.trans (hhead e' he')
      next hlt =>
        exact (forwarded_seek htail).cons (not_le.mp hlt)

theorem peek_eq (r : MetacacheReader μ) :
    r.peek = match r.entries with
      | [] => none
      | e :: rest => some (e, rest) := by
  obtain ⟨current, rest⟩ := r
  cases current with
  | none =>
    cases rest with
    | nil => rfl
    | cons e rest => rfl
  | some e => rfl

variable [ObjectMetadata μ] {o : ListPathOptions} {rest : List (MetaCacheEntry μ)}

/-! ## Reading on -/

theorem filter_keeps_of_past (hordered : Ordered (e :: rest)) (hpast : o.namePrefix ≤ e.name)
    (hnot : ¬ o.namePrefix <+: e.name) : (e :: rest).filter o.keeps = [] := by
  refine List.filter_eq_nil_iff.mpr fun e' he' hkeeps => ?_
  have hfront := (o.keeps_iff.mp hkeeps).2.2.1
  rcases List.mem_cons.mp he' with rfl | he'
  · exact hnot hfront
  · exact not_isPrefix_of_le hpast hnot ((List.pairwise_cons.mp hordered).1 e' he') hfront

/-- What a listing that is not recursive does with an entry from the marker on. -/
inductive Visited (o : ListPathOptions) (found : List (MetaCacheEntry μ) × Bool)
    (e : MetaCacheEntry μ) : (List (MetaCacheEntry μ) × Bool) × Bool → Prop
  | past (hnot : ¬ o.namePrefix <+: e.name) : Visited o found e ((found.1, true), false)
  | skipped (more : Bool) (hkeeps : o.keeps e = false)
      (hmore : more = false → o.limit ≤ found.1.length) : Visited o found e (found, more)
  | kept (hkeeps : o.keeps e = true) : Visited o found e
      ((found.1 ++ [e], found.2), decide ((found.1 ++ [e]).length < o.limit))

theorem visited_visit (hrecursive : o.recursive = false) (found : List (MetaCacheEntry μ) × Bool)
    (hmarker : o.marker ≤ e.name) : Visited o found e (visit o found e) := by
  rw [visit]
  split
  next hpast => exact .past fun hfront => by simp [e.hasPrefix_iff.mpr hfront] at hpast
  next hnotPast =>
    have hfront : e.hasPrefix o.namePrefix = true := by
      by_cases hnil : o.namePrefix = []
      · rw [hnil]
        exact e.hasPrefix_iff.mpr List.nil_prefix
      · simpa [hnil] using hnotPast
    split
    next hdir =>
      refine .skipped true ?_ fun h => by cases h
      simp_all [ListPathOptions.keeps, MetaCacheEntry.isObject_eq]
    next hdir =>
      split
      next hin =>
        refine .skipped true ?_ fun h => by cases h
        simp_all [ListPathOptions.keeps]
      next hin =>
        split
        next hdeleted =>
          refine .skipped _ ?_ fun h => ?_
          · simp_all [ListPathOptions.keeps]
          · simpa using h
        next hdeleted =>
          refine .kept ?_
          cases hobject : e.metadata with
          | none =>
            simp_all [ListPathOptions.keeps, MetaCacheEntry.isObject, MetaCacheEntry.isDir,
              MetaCacheEntry.isLatestDeletemarker]
          | some metadata =>
            cases hincl : o.inclDeleted <;>
              simp_all [ListPathOptions.keeps, MetaCacheEntry.isObject, MetaCacheEntry.isDir]

/-- What reading entries has found: all that is kept, when there is no more to come,
and otherwise as many as the limit asks for. -/
structure Reads (o : ListPathOptions) (kept found : List (MetaCacheEntry μ)) (ended : Bool) :
    Prop where
  all : ended = true → found = kept
  some : ended = false → found <+: kept ∧ o.limit ≤ found.length

theorem visit_of_past {found : List (MetaCacheEntry μ) × Bool} (hnot : ¬ o.namePrefix <+: e.name) :
    visit o found e = ((found.1, true), false) := by
  have hnil : o.namePrefix ≠ [] := fun hnil => hnot (hnil ▸ List.nil_prefix)
  rw [← e.hasPrefix_iff, Bool.not_eq_true] at hnot
  rw [visit, if_pos ⟨hnil, hnot⟩]

theorem readLoop_of_past {acc : List (MetaCacheEntry μ)}
    (hpast : ∀ e ∈ rest, ¬ o.namePrefix <+: e.name) :
    (readLoop (visit o) (acc, true) rest).1 = (acc, true) := by
  cases rest with
  | nil => rfl
  | cons e rest => rw [readLoop, visit_of_past (hpast e List.mem_cons_self)]

theorem visit_of_front (hrecursive : o.recursive = false) (acc : List (MetaCacheEntry μ))
    (hmarker : o.marker ≤ e.name) (hfront : o.namePrefix <+: e.name) :
    ∃ more, visit o (acc, false) e = ((acc ++ [e].filter o.keeps, false), more) ∧
      (more = false → o.limit ≤ (acc ++ [e].filter o.keeps).length) := by
  have hvisited := visited_visit hrecursive (acc, false) hmarker
  generalize visit o (acc, false) e = visited at hvisited
  cases hvisited with
  | past hnot => exact absurd hfront hnot
  | skipped more hkeeps hmore =>
    rw [List.filter_cons_of_neg (by simp [hkeeps]), List.filter_nil, List.append_nil]
    exact ⟨more, rfl, hmore⟩
  | kept hkeeps =>
    rw [List.filter_cons_of_pos hkeeps, List.filter_nil]
    exact ⟨_, rfl, fun hmore => by simpa using hmore⟩

/-- How far a listing that is not recursive reads the entries `l`: through all of them, to one
past the prefix, or to the limit. -/
inductive ReadsOn (o : ListPathOptions) (acc l : List (MetaCacheEntry μ)) :
    (List (MetaCacheEntry μ) × Bool) × Bool × MetacacheReader μ → Prop
  | all (hfront : ∀ e ∈ l, o.namePrefix <+: e.name) (r : MetacacheReader μ) :
      ReadsOn o acc l ((acc ++ l.filter o.keeps, false), true, r)
  | past {e : MetaCacheEntry μ} (hmem : e ∈ l) (hnot : ¬ o.namePrefix <+: e.name) (ended : Bool)
      (r : MetacacheReader μ) : ReadsOn o acc l ((acc ++ l.filter o.keeps, true), ended, r)
  | stopped (before after : List (MetaCacheEntry μ)) (hsplit : l = before ++ after)
      (hlimit : o.limit ≤ (acc ++ before.filter o.keeps).length) :
      ReadsOn o acc l ((acc ++ before.filter o.keeps, false), false, ⟨none, after⟩)

theorem ReadsOn.cons {acc l : List (MetaCacheEntry μ)} (hfront : o.namePrefix <+: e.name)
    {outcome : (List (MetaCacheEntry μ) × Bool) × Bool × MetacacheReader μ}
    (hrest : ReadsOn o (acc ++ [e].filter o.keeps) l outcome) : ReadsOn o acc (e :: l) outcome := by
  have hcons : ∀ l : List (MetaCacheEntry μ), acc ++ [e].filter o.keeps ++ l.filter o.keeps =
      acc ++ (e :: l).filter o.keeps := by
    intro l
    rw [List.append_assoc, ← List.filter_append, List.singleton_append]
  cases hrest with
  | all h r =>
    rw [hcons]
    exact .all (List.forall_mem_cons.mpr ⟨hfront, h⟩) r
  | past hmem hnot ended r =>
    rw [hcons]
    exact .past (List.mem_cons_of_mem _ hmem) hnot ended r
  | stopped before after hsplit hlimit =>
    rw [hcons] at hlimit ⊢
    exact .stopped (e :: before) after (by rw [hsplit, List.cons_append]) hlimit

theorem readsOn_readLoop (hrecursive : o.recursive = false) (hordered : Ordered rest)
    (hfrom : ∀ e ∈ rest, o.namePrefix ≤ e.name ∧ o.marker ≤ e.name)
    (acc : List (MetaCacheEntry μ)) :
    ReadsOn o acc rest (readLoop (visit o) (acc, false) rest) := by
  induction rest generalizing acc with
  | nil =>
    have hall := @ReadsOn.all _ _ o acc [] (by simp) ⟨none, []⟩
    rwa [List.filter_nil, List.append_nil] at hall
  | cons e rest ih =>
    obtain ⟨hpast, hmarker⟩ := hfrom e List.mem_cons_self
    rw [readLoop]
    by_cases hfront : o.namePrefix <+: e.name
    · obtain ⟨more, hvisit, hmore⟩ := visit_of_front hrecursive acc hmarker hfront
      rw [hvisit]
      cases more with
      | true =>
        exact .cons hfront (ih (List.pairwise_cons.mp hordered).2
          (fun e' he' => hfrom e' (List.mem_cons_of_mem _ he')) _)
      | false => exact .stopped [e] rest rfl (hmore rfl)
    · have hread := @ReadsOn.past _ _ o acc (e :: rest) e List.mem_cons_self hfront false
        ⟨none, rest⟩
      rw [filter_keeps_of_past hordered hpast hfront, List.append_nil] at hread
      rwa [visit_of_past hfront]

/-- The listing that is not recursive, from the first entry that is asked for. -/
theorem readsOn_readFn (hrecursive : o.recursive = false) (hordered : Ordered r.entries)
    (hfrom : ∀ e ∈ r.entries, o.namePrefix ≤ e.name ∧ o.marker ≤ e.name) :
    ReadsOn o [] r.entries (r.readFn (visit o) ([], false)) := by
  obtain ⟨current, rest⟩ := r
  cases current with
  | none => exact readsOn_readLoop hrecursive hordered hfrom []
  | some e =>
    have hordered : Ordered (e :: rest) := hordered
    obtain ⟨hhead, htail⟩ := List.pairwise_cons.mp hordered
    obtain ⟨hpast, hmarker⟩ := hfrom e List.mem_cons_self
    change ReadsOn o [] (e :: rest) (readLoop (visit o) (visit o ([], false) e).1 rest)
    by_cases hfront : o.namePrefix <+: e.name
    · obtain ⟨more, hvisit, -⟩ := visit_of_front hrecursive [] hmarker hfront
      rw [hvisit]
      exact .cons hfront (readsOn_readLoop hrecursive htail
        (fun e' he' => hfrom e' (List.mem_cons_of_mem _ he')) _)
    · have hloop := @readLoop_of_past _ _ o rest [] fun e' he' =>
        not_isPrefix_of_le hpast hfront (hhead e' he')
      rw [visit_of_past hfront]
      generalize readLoop (visit o) ([], true) rest = outcome at hloop
      obtain ⟨_, ended, r⟩ := outcome
      cases hloop
      have hread := @ReadsOn.past _ _ o [] (e :: rest) e List.mem_cons_self hfront ended r
      rwa [filter_keeps_of_past hordered hpast hfront] at hread

theorem ReadsOn.reads {acc l found : List (MetaCacheEntry μ)} {past ended : Bool}
    (hreads : ReadsOn o acc l ((found, past), ended, r)) :
    Reads o (acc ++ l.filter o.keeps) found (ended || past || r.nextEOF) := by
  cases hreads with
  | all => exact ⟨fun _ => rfl, fun h => by simp at h⟩
  | past => exact ⟨fun _ => rfl, fun h => by simp at h⟩
  | stopped before after hsplit hlimit =>
    rw [hsplit, List.filter_append, ← List.append_assoc]
    refine ⟨fun h => ?_, fun _ => ⟨List.prefix_append _ _, hlimit⟩⟩
    simp only [Bool.or_self, Bool.false_or, nextEOF, entries, Option.toList_none,
      List.nil_append, List.isEmpty_iff] at h
    rw [h, List.filter_nil, List.append_nil]

theorem keeps_recursive (hrecursive : o.recursive = true) (hmarker : o.marker ≤ e.name) :
    o.keeps e = ((o.includeDirectories || e.isObject) && e.hasPrefix o.namePrefix &&
      (o.inclDeleted || !e.isLatestDeletemarker)) := by
  rw [ListPathOptions.keeps, hrecursive, decide_eq_true hmarker, Bool.and_true, Bool.true_or,
    Bool.and_true]

theorem reads_readNLoop (hrecursive : o.recursive = true) (hordered : Ordered rest)
    (hfrom : ∀ e ∈ rest, o.namePrefix ≤ e.name ∧ o.marker ≤ e.name)
    (acc : List (MetaCacheEntry μ)) :
    Reads o (acc ++ rest.filter o.keeps)
      (readNLoop o.limit o.inclDeleted o.includeDirectories o.namePrefix acc rest).1
      (readNLoop o.limit o.inclDeleted o.includeDirectories o.namePrefix acc rest).2 := by
  induction rest generalizing acc with
  | nil =>
    rw [readNLoop, List.filter_nil, List.append_nil]
    refine ⟨fun _ => rfl, fun h => ⟨List.prefix_rfl, ?_⟩⟩
    simp only [decide_eq_false_iff_not, not_or] at h
    exact Int.not_lt.mp h.2
  | cons e rest ih =>
    obtain ⟨-, htail⟩ := List.pairwise_cons.mp hordered
    obtain ⟨hpast, hmarker⟩ := hfrom e List.mem_cons_self
    have ih := ih htail fun e' he' => hfrom e' (List.mem_cons_of_mem _ he')
    have hkeeps := keeps_recursive hrecursive hmarker
    rw [readNLoop]
    split
    next hroom =>
      split
      next hnot =>
        have hnone : ¬ o.namePrefix <+: e.name := by
          rw [← e.hasPrefix_iff]
          simpa using hnot
        rw [filter_keeps_of_past hordered hpast hnone, List.append_nil]
        exact ⟨fun _ => rfl, fun h => by cases h⟩
      next hfront =>
        split
        next hdir =>
          have hskip : o.keeps e = false := by
            rw [hkeeps]
            simp_all [MetaCacheEntry.isObject_eq]
          rw [List.filter_cons_of_neg (by simp [hskip])]
          exact ih acc
        next hdir =>
          split
          next hdeleted =>
            have hskip : o.keeps e = false := by
              rw [hkeeps]
              simp_all
            rw [List.filter_cons_of_neg (by simp [hskip])]
            exact ih acc
          next hdeleted =>
            have hkept : o.keeps e = true := by
              rw [hkeeps]
              cases hdirs : o.includeDirectories <;> cases hincl : o.inclDeleted <;>
                simp_all [MetaCacheEntry.isObject_eq]
            have hsplit : acc ++ (e :: rest).filter o.keeps =
                (acc ++ [e]) ++ rest.filter o.keeps := by
              rw [List.filter_cons_of_pos hkept, List.append_assoc, List.singleton_append]
            rw [hsplit]
            exact ih _
    next hfull =>
      refine ⟨?_, fun _ => ⟨List.prefix_append _ _, Int.not_lt.mp (not_or.mp hfull).2⟩⟩
      intro h
      cases h

omit [ObjectMetadata μ] in
theorem peek_forwardTo (hordered : Ordered r.entries) (hfrom : ∀ e ∈ r.entries, s ≤ e.name) :
    (r.forwardTo s).bind peek = r.peek := by
  have hforwarded := @forwarded_forwardTo _ r s hordered
  generalize r.forwardTo s = forwarded at hforwarded
  cases hforwarded with
  | ended hbefore =>
    rw [Option.bind_none, peek_eq]
    cases hentries : r.entries with
    | nil => rfl
    | cons e rest =>
      have hmem : e ∈ r.entries := by rw [hentries]; exact List.mem_cons_self
      exact absurd (hbefore e hmem) (not_lt.mpr (hfrom e hmem))
  | found skipped hsplit hskipped hfound =>
    cases skipped with
    | nil => rw [Option.bind_some, peek_eq, peek_eq, hsplit, List.nil_append]
    | cons e skipped =>
      have hmem : e ∈ r.entries := by rw [hsplit]; exact List.mem_cons_self
      exact absurd (hskipped e List.mem_cons_self) (not_lt.mpr (hfrom e hmem))

theorem filter_peeked (hrecursive : o.recursive = true) (hmarker : o.marker ≤ e.name) :
    (if (o.inclDeleted || !e.isLatestDeletemarker) && e.hasPrefix o.namePrefix &&
      (o.includeDirectories || e.isObject) then [e] else []) = [e].filter o.keeps := by
  have hsame : ((o.inclDeleted || !e.isLatestDeletemarker) &&
      e.hasPrefix o.namePrefix && (o.includeDirectories || e.isObject)) = o.keeps e := by
    rw [keeps_recursive hrecursive hmarker, Bool.and_comm, ← Bool.and_assoc,
      Bool.and_right_comm]
  rw [hsame, List.filter_singleton]
  cases o.keeps e <;> rfl

theorem reads_readN (hrecursive : o.recursive = true) (hlimit : 0 < o.limit)
    (hordered : Ordered r.entries)
    (hfrom : ∀ e ∈ r.entries, o.namePrefix ≤ e.name ∧ o.marker ≤ e.name) :
    Reads o (r.entries.filter o.keeps)
      (r.readN o.limit o.inclDeleted o.includeDirectories o.namePrefix).1
      (r.readN o.limit o.inclDeleted o.includeDirectories o.namePrefix).2 := by
  rw [readN, if_neg (by omega), peek_forwardTo hordered fun e he => (hfrom e he).1, peek_eq]
  cases hentries : r.entries with
  | nil => exact ⟨fun _ => rfl, fun h => by cases h⟩
  | cons e rest =>
    rw [hentries] at hordered hfrom
    obtain ⟨-, htail⟩ := List.pairwise_cons.mp hordered
    obtain ⟨hpast, hmarker⟩ := hfrom e List.mem_cons_self
    have hrest := fun e' he' => hfrom e' (List.mem_cons_of_mem _ he')
    dsimp only
    split
    next hnot =>
      have hnone : ¬ o.namePrefix <+: e.name := by
        rw [← e.hasPrefix_iff]
        simpa using hnot
      rw [filter_keeps_of_past hordered hpast hnone]
      exact ⟨fun _ => rfl, fun h => by cases h⟩
    next hfront =>
      rw [filter_peeked hrecursive hmarker, ← List.singleton_append, List.filter_append]
      exact reads_readNLoop hrecursive htail hrest _

/-- What forwarding to the prefix and to the marker makes of the entries of a block:
there is nothing that is asked for, or nothing before the reader is. -/
inductive ForwardedBoth (o : ListPathOptions) (l : List (MetaCacheEntry μ)) :
    Option (MetacacheReader μ) → Prop
  | ended (hnone : l.filter o.keeps = []) : ForwardedBoth o l none
  | found {r : MetacacheReader μ} (skipped : List (MetaCacheEntry μ))
      (hsplit : l = skipped ++ r.entries) (hskipped : skipped.filter o.keeps = [])
      (hfrom : ∀ e ∈ r.entries, o.namePrefix ≤ e.name ∧ o.marker ≤ e.name) :
      ForwardedBoth o l (some r)

theorem forwardedBoth_forwardTo {r : MetacacheReader μ} (hordered : Ordered r.entries) :
    ForwardedBoth o r.entries ((r.forwardTo o.namePrefix).bind (forwardTo · o.marker)) := by
  have hbeforePrefix : ∀ l : List (MetaCacheEntry μ), (∀ e ∈ l, e.name < o.namePrefix) →
      l.filter o.keeps = [] := by
    refine fun l hlt => List.filter_eq_nil_iff.mpr fun e he hkeeps => ?_
    exact absurd (hlt e he) (not_lt.mpr (le_of_isPrefix (o.keeps_iff.mp hkeeps).2.2.1))
  have hbeforeMarker : ∀ l : List (MetaCacheEntry μ), (∀ e ∈ l, e.name < o.marker) →
      l.filter o.keeps = [] := by
    refine fun l hlt => List.filter_eq_nil_iff.mpr fun e he hkeeps => ?_
    exact absurd (hlt e he) (not_lt.mpr (o.keeps_iff.mp hkeeps).2.1)
  have hforwarded := @forwarded_forwardTo _ r o.namePrefix hordered
  generalize r.forwardTo o.namePrefix = forwarded at hforwarded
  cases hforwarded with
  | ended hbefore => exact .ended (hbeforePrefix _ hbefore)
  | @found r' skipped hsplit hskipped hfrom =>
    have hrest : Ordered r'.entries := by
      rw [hsplit] at hordered
      exact (List.pairwise_append.mp hordered).2.1
    rw [Option.bind_some]
    have hforwarded := @forwarded_forwardTo _ r' o.marker hrest
    generalize r'.forwardTo o.marker = forwarded at hforwarded
    cases hforwarded with
    | ended hbefore =>
      refine .ended ?_
      rw [hsplit, List.filter_append, hbeforePrefix _ hskipped, hbeforeMarker _ hbefore,
        List.nil_append]
    | @found r'' skipped' hsplit' hskipped' hfrom' =>
      refine .found (skipped ++ skipped') (by rw [hsplit, hsplit', List.append_assoc]) ?_ ?_
      · rw [List.filter_append, hbeforePrefix _ hskipped, hbeforeMarker _ hskipped',
          List.nil_append]
      · refine fun e he => ⟨hfrom e ?_, hfrom' e he⟩
        rw [hsplit']
        exact List.mem_append_right _ he

theorem reads_filter (hlimit : 0 < o.limit) {data : List (MetaCacheEntry μ)}
    (hordered : Ordered data) :
    ∃ found ended, (MetacacheReader.mk none data).filter o = some (found, ended) ∧
      Reads o (data.filter o.keeps) found ended := by
  rw [filter]
  have hforwarded := @forwardedBoth_forwardTo _ _ o (MetacacheReader.mk none data) hordered
  generalize ((MetacacheReader.mk none data).forwardTo o.namePrefix).bind
    (forwardTo · o.marker) = forwarded at hforwarded
  have hdata : (MetacacheReader.mk none data).entries = data := rfl
  rw [hdata] at hforwarded
  cases hforwarded with
  | ended hnone =>
    refine ⟨[], true, rfl, ?_⟩
    rw [hnone]
    exact ⟨fun _ => rfl, fun h => by cases h⟩
  | @found r skipped hsplit hskipped hfrom =>
    have hrest : Ordered r.entries := by
      rw [hsplit] at hordered
      exact (List.pairwise_append.mp hordered).2.1
    rw [hsplit, List.filter_append, hskipped, List.nil_append]
    dsimp only
    split
    next hrecursive => exact ⟨_, _, rfl, reads_readN hrecursive hlimit hrest hfrom⟩
    next hrecursive =>
      rw [Bool.not_eq_true] at hrecursive
      rw [if_neg (by omega)]
      exact ⟨_, _, rfl, (readsOn_readFn hrecursive hrest hfrom).reads⟩

end MetacacheReader

end Fs3.Listing
