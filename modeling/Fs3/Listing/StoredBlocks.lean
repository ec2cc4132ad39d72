import Fs3.Listing.Blocks

/-! # What a reader gets from all blocks

A reader gets what is asked for, in order and up to the limit, unless a block whose recorded start
is past the prefix has an entry that is asked for: such a block is not read. -/

namespace Fs3.Listing

open Foundation

variable {μ : Type}

def lastName (name : Name) (data : List (MetaCacheEntry μ)) : Name :=
  (data.getLast?.map MetaCacheEntry.name).getD name

theorem lastName_le {name : Name} {data after : List (MetaCacheEntry μ)}
    (hordered : Ordered (data ++ after)) (hname : ∀ e ∈ data ++ after, name ≤ e.name) :
    ∀ e ∈ after, lastName name data ≤ e.name := by
  intro e he
  cases hlast : data.getLast? with
  | none =>
    rw [lastName, hlast]
    exact hname e (List.mem_append_right _ he)
  | some last =>
    rw [lastName, hlast]
    exact (List.pairwise_append.mp hordered).2.2 last (List.mem_of_getLast? hlast) e he

theorem le_lastName {name : Name} {data : List (MetaCacheEntry μ)} (hordered : Ordered data) :
    ∀ e ∈ data, e.name ≤ lastName name data := by
  intro e he
  induction data using List.reverseRecOn with
  | nil => cases he
  | append_singleton before last _ =>
    rw [lastName, List.getLast?_concat]
    rcases List.mem_append.mp he with he | he
    · exact (List.pairwise_append.mp hordered).2.2 e he last (List.mem_singleton_self last)
    · rw [List.mem_singleton.mp he]
      exact le_rfl

/-- Blocks that are numbered, know the last name so far and which of them is the last
one, and do not start after what follows them. -/
inductive Stored : Nat → Name → List (MetacacheBlock μ) → Prop
  | last {k : Nat} {name : Name} {b : MetacacheBlock μ} (hn : b.n = k)
      (hlast : b.last = lastName name b.data) (heos : b.eos = true) : Stored k name [b]
  | next {k : Nat} {name : Name} {b : MetacacheBlock μ} {rest : List (MetacacheBlock μ)}
      (hn : b.n = k) (hlast : b.last = lastName name b.data) (heos : b.eos = false)
      (hfirst : ∀ e ∈ rest.flatMap MetacacheBlock.data, b.first ≤ e.name)
      (hrest : Stored (k + 1) b.last rest) : Stored k name (b :: rest)

variable [ObjectMetadata μ] {o : ListPathOptions}

/-- Whether a block is passed over that has an entry that is asked for, before there
are enough. The first block may be one that is read in any case. -/
def Lost (o : ListPathOptions) : Bool → Nat → List (MetacacheBlock μ) → Prop
  | _, _, [] => False
  | checked, count, b :: rest =>
    (checked = true ∧ b.pastPrefix o.namePrefix = true ∧ b.data.filter o.keeps ≠ [] ∧
      count < o.limit.toNat) ∨
    Lost o true (count + (b.data.filter o.keeps).length) rest

theorem not_lost_of_limit {blocks : List (MetacacheBlock μ)} {checked : Bool} {count : Nat}
    (hcount : o.limit.toNat ≤ count) : ¬ Lost o checked count blocks := by
  induction blocks generalizing checked count with
  | nil => exact id
  | cons b rest ih =>
    rintro (⟨-, -, -, hlt⟩ | hrest)
    · omega
    · exact ih (by omega) hrest

theorem not_lost_of_nil {blocks : List (MetacacheBlock μ)} {checked : Bool} {count : Nat}
    (hnil : (blocks.flatMap MetacacheBlock.data).filter o.keeps = []) :
    ¬ Lost o checked count blocks := by
  induction blocks generalizing checked count with
  | nil => exact id
  | cons b rest ih =>
    rw [List.flatMap_cons, List.filter_append, List.append_eq_nil_iff] at hnil
    rintro (⟨-, -, hsome, -⟩ | hrest)
    · exact hsome hnil.1
    · exact ih hnil.2 hrest

/-! ## From part to part -/

theorem take_eq_of_isPrefix {α : Type} {l l' : List α} {n : Nat} (hfront : l <+: l')
    (hn : n ≤ l.length) : l'.take n = l.take n := by
  obtain ⟨rest, rfl⟩ := hfront
  exact List.take_append_of_le_length hn

theorem filter_keeps_eq_nil {name : Name} {l : List (MetaCacheEntry μ)}
    (hpast : o.namePrefix < name) (hnot : ¬ o.namePrefix <+: name)
    (hfrom : ∀ e ∈ l, name ≤ e.name) : l.filter o.keeps = [] := by
  refine List.filter_eq_nil_iff.mpr fun e he hkeeps => ?_
  exact not_isPrefix_of_le (le_of_lt hpast) hnot (hfrom e he) (o.keeps_iff.mp hkeeps).2.2.1

omit [ObjectMetadata μ] in
theorem of_pastPrefix {b : MetacacheBlock μ} {pre : Name} (hpast : b.pastPrefix pre = true) :
    pre < b.first ∧ ¬ pre <+: b.first := by
  rw [MetacacheBlock.pastPrefix] at hpast
  split at hpast
  · cases hpast
  next hnot => exact ⟨of_decide_eq_true hpast, fun hfront => hnot (Or.inr hfront)⟩

omit [ObjectMetadata μ] in
theorem of_endedPrefix {b : MetacacheBlock μ} {pre : Name} (hended : b.endedPrefix pre = true) :
    pre < b.last ∧ ¬ pre <+: b.last := by
  rw [MetacacheBlock.endedPrefix] at hended
  split at hended
  · cases hended
  next hnot => exact ⟨of_decide_eq_true hended, fun hfront => hnot (Or.inr hfront)⟩

/-- One part, before others that are read rightly. -/
theorem readParts_cons (hlimit : 0 < o.limit) {b : MetacacheBlock μ}
    {rest : List (MetacacheBlock μ)} {k loaded : Nat} (hordered : Ordered b.data)
    (hpast : b.pastPrefix o.namePrefix = true →
      (rest.flatMap MetacacheBlock.data).filter o.keeps = [])
    (hended : b.endedPrefix o.namePrefix = true →
      (rest.flatMap MetacacheBlock.data).filter o.keeps = [])
    (heos : b.eos = true → rest = [])
    (hrest : b.eos = false → ∀ acc : List (MetaCacheEntry μ), acc.length ≤ o.limit.toNat →
      ∃ entries, o.readParts k (k + 1) acc rest = some entries ∧
        (entries = (acc ++ (rest.flatMap MetacacheBlock.data).filter o.keeps).take
          o.limit.toNat ↔ ¬ Lost o true acc.length rest))
    {acc : List (MetaCacheEntry μ)} (hacc : acc.length ≤ o.limit.toNat) :
    ∃ entries, o.readParts loaded k acc (b :: rest) = some entries ∧
      (entries = (acc ++ ((b :: rest).flatMap MetacacheBlock.data).filter o.keeps).take
        o.limit.toNat ↔ ¬ Lost o (decide (k ≠ loaded)) acc.length (b :: rest)) := by
  rw [List.flatMap_cons, List.filter_append, ← List.append_assoc, ListPathOptions.readParts]
  split
  next hskipped =>
    obtain ⟨hchecked, hskipped⟩ := hskipped
    refine ⟨acc, rfl, ?_⟩
    rw [hpast hskipped, List.append_nil, Lost]
    have hlater := @not_lost_of_nil _ _ o rest true
      (acc.length + (b.data.filter o.keeps).length) (hpast hskipped)
    constructor
    · rintro heq (⟨-, -, hsome, hlt⟩ | hlost)
      · have hlength := congrArg List.length heq
        have hpos := List.length_pos_of_ne_nil hsome
        rw [List.length_take, List.length_append] at hlength
        omega
      · exact hlater hlost
    · intro hnot
      rcases Nat.lt_or_ge acc.length o.limit.toNat with hlt | hge
      · have hnil : b.data.filter o.keeps = [] := by
          by_contra hsome
          exact hnot (Or.inl ⟨decide_eq_true hchecked, hskipped, hsome, hlt⟩)
        rw [hnil, List.append_nil, List.take_of_length_le hacc]
      · rw [take_eq_of_isPrefix (List.prefix_append _ _) hge, List.take_of_length_le hacc]
  next hread =>
    obtain ⟨found, ended, hfilter, hreads⟩ := MetacacheReader.reads_filter hlimit hordered
    rw [hfilter]
    dsimp only
    have hhere : ∀ later : Prop, (decide (k ≠ loaded) = true ∧ b.pastPrefix o.namePrefix = true ∧
        b.data.filter o.keeps ≠ [] ∧ acc.length < o.limit.toNat ∨ later) ↔ later := by
      refine fun later => or_iff_right ?_
      rintro ⟨hchecked, hskipped, -, -⟩
      exact hread ⟨of_decide_eq_true hchecked, hskipped⟩
    rw [Lost, hhere]
    -- What is found is the first of what is asked for, so enough of it is enough.
    have hfront : found <+: b.data.filter o.keeps := by
      cases ended with
      | true => rw [hreads.all rfl]
      | false => exact (hreads.some rfl).1
    have henough : o.limit.toNat ≤ (acc ++ found).length →
        (acc ++ b.data.filter o.keeps ++ (rest.flatMap MetacacheBlock.data).filter o.keeps).take
            o.limit.toNat = (acc ++ found).take o.limit.toNat ∧
          ¬ Lost o true (acc.length + (b.data.filter o.keeps).length) rest := by
      intro hlength
      have hle := hfront.length_le
      rw [List.length_append] at hlength
      refine ⟨?_, not_lost_of_limit (by omega)⟩
      rw [List.append_assoc]
      refine take_eq_of_isPrefix ?_ (by rw [List.length_append]; exact hlength)
      exact (List.prefix_append_right_inj _).mpr (hfront.trans (List.prefix_append _ _))
    split
    next hover =>
      obtain ⟨htake, hnot⟩ := henough (by omega)
      exact ⟨_, rfl, iff_of_true htake.symm hnot⟩
    next hroom =>
      have hroom : (acc ++ found).length ≤ o.limit.toNat := by omega
      split
      next hgoing =>
        have hfalse : ended = false := by simpa using hgoing
        have hmany := (hreads.some hfalse).2
        obtain ⟨htake, hnot⟩ := henough (by rw [List.length_append]; omega)
        rw [List.take_of_length_le hroom] at htake
        exact ⟨_, rfl, iff_of_true htake.symm hnot⟩
      next hstopped =>
        have hall : found = b.data.filter o.keeps := hreads.all (by simpa using hstopped)
        subst hall
        have hdone : (rest.flatMap MetacacheBlock.data).filter o.keeps = [] →
            (acc ++ b.data.filter o.keeps = (acc ++ b.data.filter o.keeps ++
              (rest.flatMap MetacacheBlock.data).filter o.keeps).take o.limit.toNat ↔
              ¬ Lost o true (acc.length + (b.data.filter o.keeps).length) rest) := by
          intro hnil
          refine iff_of_true ?_ (not_lost_of_nil hnil)
          rw [hnil, List.append_nil, List.take_of_length_le hroom]
        split
        next hlast => exact ⟨_, rfl, hdone (by rw [heos hlast]; rfl)⟩
        next hmore =>
          split
          next hend => exact ⟨_, rfl, hdone (hended hend)⟩
          next =>
            rw [← List.length_append]
            exact hrest (by simpa using hmore) _ hroom

theorem readParts_eq (hlimit : 0 < o.limit) {blocks : List (MetacacheBlock μ)} {k loaded : Nat}
    {name : Name} (hstored : Stored k name blocks)
    (hordered : Ordered (blocks.flatMap MetacacheBlock.data))
    (hname : ∀ e ∈ blocks.flatMap MetacacheBlock.data, name ≤ e.name)
    {acc : List (MetaCacheEntry μ)} (hacc : acc.length ≤ o.limit.toNat) :
    ∃ entries, o.readParts loaded k acc blocks = some entries ∧
      (entries = (acc ++ (blocks.flatMap MetacacheBlock.data).filter o.keeps).take
        o.limit.toNat ↔ ¬ Lost o (decide (k ≠ loaded)) acc.length blocks) := by
  induction hstored generalizing acc loaded with
  | @last k name b hn hlast heos =>
    rw [List.flatMap_singleton] at hordered
    exact readParts_cons hlimit hordered (fun _ => rfl) (fun _ => rfl) (fun _ => rfl)
      (fun hfalse => by rw [heos] at hfalse; cases hfalse) hacc
  | @next k name b rest hn hlast heos hfirst hrest ih =>
    rw [List.flatMap_cons] at hordered hname
    have hlater := lastName_le hordered hname
    rw [← hlast] at hlater
    obtain ⟨hhere, hthere, -⟩ := List.pairwise_append.mp hordered
    refine readParts_cons hlimit hhere (fun hpast => ?_) (fun hended => ?_)
      (fun htrue => by rw [heos] at htrue; cases htrue) (fun _ acc hacc => ?_) hacc
    · obtain ⟨hlt, hnot⟩ := of_pastPrefix hpast
      exact filter_keeps_eq_nil hlt hnot hfirst
    · obtain ⟨hlt, hnot⟩ := of_endedPrefix hended
      exact filter_keeps_eq_nil hlt hnot hlater
    · have hih := @ih k hthere hlater acc hacc
      rwa [decide_eq_true (by omega : k + 1 ≠ k)] at hih

/-! ## The first part -/

/-- Where to start: no entry before is from the searched name on. -/
inductive Start (search : Name) (k i : Nat) (blocks : List (MetacacheBlock μ)) :
    FirstPart → Prop
  | part {name : Name} (before after : List (MetacacheBlock μ)) (hsplit : blocks = before ++ after)
      (hbefore : ∀ e ∈ before.flatMap MetacacheBlock.data, e.name < search)
      (hstored : Stored (k + before.length) name after)
      (hname : ∀ e ∈ after.flatMap MetacacheBlock.data, name ≤ e.name) :
      Start search k i blocks (.part (i + before.length))
  | fileNotFound (hnone : blocks.flatMap MetacacheBlock.data = []) :
      Start search k i blocks .fileNotFound
  | eof (hbefore : ∀ e ∈ blocks.flatMap MetacacheBlock.data, e.name < search) :
      Start search k i blocks .eof

omit [ObjectMetadata μ] in
theorem eq_nil_of_lastName {name : Name} {data : List (MetaCacheEntry μ)}
    (hordered : Ordered data) (hnil : lastName name data = []) : data = [] ∧ name = [] := by
  have hdata : data = [] := by
    refine List.eq_nil_iff_forall_not_mem.mpr fun e he => e.named ?_
    have hle := @le_lastName _ name _ hordered e he
    rw [hnil] at hle
    exact le_antisymm hle (le_of_isPrefix List.nil_prefix)
  subst hdata
  exact ⟨rfl, hnil⟩

omit [ObjectMetadata μ] in
theorem start_findPart {search : Name} {blocks : List (MetacacheBlock μ)} {k : Nat} {name : Name}
    (hstored : Stored k name blocks) (hordered : Ordered (blocks.flatMap MetacacheBlock.data))
    (hname : ∀ e ∈ blocks.flatMap MetacacheBlock.data, name ≤ e.name) (i : Nat) :
    Start search k i blocks (ListPathOptions.findPart search i blocks) ∧
      (ListPathOptions.findPart search i blocks = .fileNotFound → name = []) := by
  have hhere : Start search k i blocks (.part i) := .part [] blocks rfl (by simp) hstored hname
  induction hstored generalizing i with
  | @last k name b hn hlast heos =>
    rw [List.flatMap_singleton] at hordered
    rw [ListPathOptions.findPart]
    split
    next hempty =>
      obtain ⟨hdata, hnil⟩ := eq_nil_of_lastName hordered (hlast.symm.trans hempty.2.1)
      exact ⟨.fileNotFound (by rw [List.flatMap_singleton, hdata]), fun _ => hnil⟩
    next =>
      split
      · exact ⟨hhere, fun h => by cases h⟩
      · split
        · exact ⟨hhere, fun h => by cases h⟩
        next hlt =>
          refine ⟨.eof fun e he => ?_, fun h => by cases h⟩
          rw [List.flatMap_singleton] at he
          rw [hlast] at hlt
          exact lt_of_le_of_lt (le_lastName hordered e he) (not_le.mp hlt)
  | @next k name b rest hn hlast heos hfirst hrest ih =>
    rw [List.flatMap_cons] at hordered hname
    have hlater := lastName_le hordered hname
    rw [← hlast] at hlater
    obtain ⟨hdata, hthere, -⟩ := List.pairwise_append.mp hordered
    rw [ListPathOptions.findPart, if_neg (by simp [heos])]
    split
    · exact ⟨hhere, fun h => by cases h⟩
    · split
      · exact ⟨hhere, fun h => by cases h⟩
      next hlt =>
        have hbefore : ∀ e ∈ b.data, e.name < search := by
          intro e he
          rw [hlast] at hlt
          exact lt_of_le_of_lt (le_lastName hdata e he) (not_le.mp hlt)
        obtain ⟨hstart, hnone⟩ := ih hthere hlater (i + 1)
          (.part [] rest rfl (by simp) hrest hlater)
        rw [if_neg (by simp [heos])]
        generalize ListPathOptions.findPart search (i + 1) rest = found at hstart hnone
        refine ⟨?_, fun hfound => ?_⟩
        · cases hstart with
          | @part name' before after hsplit hskipped hstored hfrom =>
            have hindex : i + 1 + before.length = i + (b :: before).length := by
              rw [List.length_cons]
              omega
            have hnumber : k + 1 + before.length = k + (b :: before).length := by
              rw [List.length_cons]
              omega
            rw [hindex]
            rw [hnumber] at hstored
            refine .part (b :: before) after (congrArg (b :: ·) hsplit) (fun e he => ?_)
              hstored hfrom
            rw [List.flatMap_cons] at he
            rcases List.mem_append.mp he with he | he
            · exact hbefore e he
            · exact hskipped e he
          | fileNotFound hempty =>
            have hnil := (hlast.symm.trans (hnone rfl))
            rw [eq_nil_of_lastName hdata hnil |>.1] at hordered
            exact .fileNotFound (by
              rw [List.flatMap_cons, (eq_nil_of_lastName hdata hnil).1, hempty,
                List.append_nil])
          | eof hskipped =>
            refine .eof fun e he => ?_
            rw [List.flatMap_cons] at he
            rcases List.mem_append.mp he with he | he
            · exact hbefore e he
            · exact hskipped e he
        · exact (eq_nil_of_lastName hdata (hlast.symm.trans (hnone hfound))).2

theorem lost_append {before after : List (MetacacheBlock μ)}
    (hnone : (before.flatMap MetacacheBlock.data).filter o.keeps = []) (checked : Bool)
    (count : Nat) :
    Lost o checked count (before ++ after) ↔
      Lost o (checked || !before.isEmpty) count after := by
  induction before generalizing checked with
  | nil => simp
  | cons b before ih =>
    rw [List.flatMap_cons, List.filter_append, List.append_eq_nil_iff] at hnone
    rw [List.cons_append, Lost, hnone.1, List.length_nil, Nat.add_zero, ih hnone.2]
    simp

theorem filter_keeps_of_lt {l : List (MetaCacheEntry μ)}
    (hlt : ∀ e ∈ l, e.name < if o.marker = [] then o.namePrefix else o.marker) :
    l.filter o.keeps = [] := by
  refine List.filter_eq_nil_iff.mpr fun e he hkeeps => ?_
  obtain ⟨-, hmarker, hfront, -, -⟩ := o.keeps_iff.mp hkeeps
  have hlt := hlt e he
  split at hlt
  · exact absurd hlt (not_lt.mpr (le_of_isPrefix hfront))
  · exact absurd hlt (not_lt.mpr hmarker)

/-- A reader gets what is asked for of the blocks, unless one of them is lost. -/
theorem streamMetadataParts_eq (hlimit : 0 < o.limit) {blocks : List (MetacacheBlock μ)}
    (hstored : Stored 0 [] blocks) (hordered : Ordered (blocks.flatMap MetacacheBlock.data)) :
    ∃ entries, o.streamMetadataParts blocks = some entries ∧
      (entries = (o.gatherResults (blocks.flatMap MetacacheBlock.data)).1 ↔
        ¬ Lost o false 0 blocks) := by
  have hname : ∀ e ∈ blocks.flatMap MetacacheBlock.data, ([] : Name) ≤ e.name :=
    fun e _ => le_of_isPrefix List.nil_prefix
  rw [ListPathOptions.gatherResults,
    o.gatherLoop_fst hlimit _ (by rw [List.length_nil]; exact Nat.zero_le _)]
  have hall := @readParts_eq _ _ _ hlimit _ 0 0 [] hstored hordered hname [] (Nat.zero_le _)
  rw [ListPathOptions.streamMetadataParts, ListPathOptions.findFirstPart]
  generalize hsearch : (if o.marker = [] then o.namePrefix else o.marker) = search
  by_cases hnil : search = []
  · rw [if_pos hnil]
    exact hall
  · rw [if_neg hnil]
    have hbefore : ∀ l : List (MetaCacheEntry μ), (∀ e ∈ l, e.name < search) →
        l.filter o.keeps = [] := fun l hlt => filter_keeps_of_lt (hsearch ▸ hlt)
    have hstart := (@start_findPart _ search _ _ _ hstored hordered hname 0).1
    generalize ListPathOptions.findPart search 0 blocks = found at hstart
    cases hstart with
    | @part name before after hsplit hskipped hrest hfrom =>
      have hnone := hbefore _ hskipped
      subst hsplit
      rw [List.flatMap_append] at hordered
      obtain ⟨entries, hread, hiff⟩ := @readParts_eq _ _ _ hlimit _ (0 + before.length) 0 name
        hrest (List.pairwise_append.mp hordered).2.1 hfrom [] (Nat.zero_le _)
      refine ⟨entries, ?_, ?_⟩
      · rw [Nat.zero_add] at hread ⊢
        dsimp only
        rwa [List.drop_left]
      · rw [lost_append hnone, List.flatMap_append, List.filter_append, hnone, List.nil_append]
        have hchecked : (false || !before.isEmpty) = decide (0 + before.length ≠ 0) := by
          cases before <;> simp
        rw [hchecked]
        exact hiff
    | fileNotFound hempty => exact hall
    | eof hskipped =>
      refine ⟨[], rfl, ?_⟩
      have hnone := hbefore _ hskipped
      rw [hnone, List.append_nil, List.take_nil]
      exact iff_of_true rfl (not_lost_of_nil hnone)

end Fs3.Listing

/-! ## The blocks that are written

When a block is full, its writer clears the recorded start of the next block after
it has seen the entry that the next block starts with. The start that is recorded
is the name of the entry behind it. A prefix or a marker that ends there is taken to
be past, and the entry is lost.
-/

namespace Fs3.Listing

open Foundation

variable {μ : Type}

def secondName (l : List (MetaCacheEntry μ)) : Name := (l[1]?.map MetaCacheEntry.name).getD []

/-- The blocks after the first one, from the block `k` on. -/
inductive Later (size : Nat) :
    Nat → List (MetaCacheEntry μ) → List (MetacacheBlock μ) → Prop
  | last {k : Nat} {l : List (MetaCacheEntry μ)} {b : MetacacheBlock μ} (hne : l ≠ [])
      (hsize : l.length ≤ size) (hn : b.n = k) (hdata : b.data = l)
      (hfirst : b.first = secondName l) (hlast : b.last = lastName [] l)
      (heos : b.eos = true) : Later size k l [b]
  | next {k : Nat} {l rest : List (MetaCacheEntry μ)} {b : MetacacheBlock μ}
      {blocks : List (MetacacheBlock μ)} (hne : l ≠ []) (hsize : l.length = size) (hn : b.n = k)
      (hdata : b.data = l) (hfirst : b.first = secondName (l ++ rest))
      (hlast : b.last = lastName [] l) (heos : b.eos = false)
      (hrest : Later size (k + 1) rest blocks) : Later size k (l ++ rest) (b :: blocks)

/-- The blocks of a stream. -/
inductive Written (blockEntries : Nat) :
    List (MetaCacheEntry μ) → List (MetacacheBlock μ) → Prop
  | empty : Written blockEntries [] [⟨[], 0, [], [], true⟩]
  | single {f : MetaCacheEntry μ} {rest : List (MetaCacheEntry μ)}
      (hfits : (f :: rest).length < blockEntries) :
      Written blockEntries (f :: rest) [⟨f :: rest, 0, f.name, lastName [] (f :: rest), true⟩]
  | many {f : MetaCacheEntry μ} {data rest : List (MetaCacheEntry μ)}
      {blocks : List (MetacacheBlock μ)} (hsize : (f :: data).length = blockEntries - 1)
      (hlater : Later (blockEntries - 1) 1 rest blocks) :
      Written blockEntries (f :: data ++ rest)
        (⟨f :: data, 0, f.name, lastName [] (f :: data), false⟩ :: blocks)
  | tiny {f : MetaCacheEntry μ} {rest : List (MetaCacheEntry μ)}
      {blocks : List (MetacacheBlock μ)} (hsize : blockEntries ≤ 1)
      (hlater : Later 1 1 (f :: rest) blocks) :
      Written blockEntries (f :: rest) (⟨[], 0, f.name, [], false⟩ :: blocks)

/-! ## Writing -/

@[simp]
theorem lastName_concat (name : Name) (l : List (MetaCacheEntry μ)) (e : MetaCacheEntry μ) :
    lastName name (l ++ [e]) = e.name := by
  rw [lastName, List.getLast?_concat]
  rfl

theorem recorded_first {l rest : List (MetaCacheEntry μ)} (hne : l ≠ []) (e : MetaCacheEntry μ) :
    (if secondName l = [] then e.name else secondName l) = secondName (l ++ e :: rest) := by
  cases l with
  | nil => exact absurd rfl hne
  | cons f l =>
    cases l with
    | nil => rfl
    | cons s l =>
      have hsecond : secondName (f :: s :: l) = s.name := rfl
      rw [hsecond, if_neg s.named]
      rfl

variable {l : List (MetaCacheEntry μ)}

theorem later_blockLoop {blockEntries size : Nat} (hsize : size = max (blockEntries - 1) 1)
    (rest : List (MetaCacheEntry μ)) (hne : l ≠ []) (hle : l.length ≤ size) (k : Nat) :
    Later size k (l ++ rest)
      (blockLoop blockEntries ⟨l, k, secondName l, lastName [] l, false⟩ l.length rest) := by
  have hpos := List.length_pos_of_ne_nil hne
  induction rest generalizing l k with
  | nil =>
    rw [List.append_nil, blockLoop, if_pos (Or.inl hpos)]
    exact .last hne hle rfl rfl rfl rfl rfl
  | cons e rest ih =>
    have hcurrent : (if secondName l = [] then
          (⟨l, k, e.name, lastName [] l, false⟩ : MetacacheBlock μ)
        else ⟨l, k, secondName l, lastName [] l, false⟩) =
        ⟨l, k, secondName (l ++ e :: rest), lastName [] l, false⟩ := by
      rw [← recorded_first hne e]
      split <;> rfl
    rw [blockLoop]
    dsimp only
    rw [hcurrent]
    split
    next hfull =>
      refine .next hne (by omega) rfl rfl rfl rfl rfl ?_
      exact ih (List.cons_ne_nil e []) (by simp; omega) (k + 1) (by simp)
    next hroom =>
      have hsecond : secondName (l ++ e :: rest) = secondName (l ++ [e]) := by
        rw [← recorded_first hne e, ← recorded_first hne e]
      have hih := @ih (l ++ [e]) (by simp) (by simp; omega) k (by simp)
      rw [List.append_assoc, List.singleton_append, List.length_append, List.length_singleton,
        lastName_concat] at hih
      rw [hsecond]
      exact hih

theorem written_blockLoop {blockEntries : Nat} (hentries : 2 ≤ blockEntries)
    (rest : List (MetaCacheEntry μ)) (f : MetaCacheEntry μ) {data : List (MetaCacheEntry μ)}
    (hle : (f :: data).length ≤ blockEntries - 1) :
    Written blockEntries (f :: data ++ rest)
      (blockLoop blockEntries ⟨f :: data, 0, f.name, lastName [] (f :: data), false⟩
        (f :: data).length rest) := by
  induction rest generalizing data with
  | nil =>
    rw [List.append_nil, blockLoop, if_pos (Or.inr rfl)]
    exact .single (by omega)
  | cons e rest ih =>
    rw [blockLoop]
    dsimp only
    rw [if_neg f.named]
    split
    next hfull =>
      refine .many (by omega) ?_
      exact later_blockLoop (by omega) rest (List.cons_ne_nil e []) (by simp; omega) 1
    next hroom =>
      have hih := @ih (data ++ [e]) (by simp at hroom ⊢; omega)
      rw [← List.cons_append, List.append_assoc, List.singleton_append, List.length_append,
        List.length_singleton, lastName_concat] at hih
      exact hih

theorem written_newMetacacheBlockWriter (blockEntries : Nat) (stream : List (MetaCacheEntry μ)) :
    Written blockEntries stream (newMetacacheBlockWriter blockEntries stream) := by
  rw [newMetacacheBlockWriter]
  cases stream with
  | nil =>
    rw [blockLoop, if_pos (Or.inr rfl)]
    exact .empty
  | cons f rest =>
    rw [blockLoop]
    dsimp only
    rw [if_pos rfl]
    split
    next hfull =>
      refine .tiny (by omega) ?_
      have hsize : 1 = max (blockEntries - 1) 1 := by omega
      exact later_blockLoop hsize rest (List.cons_ne_nil f []) (by simp) 1
    next hroom => exact @written_blockLoop _ _ (by omega) rest f [] (by simp; omega)

variable {blocks : List (MetacacheBlock μ)}

theorem Later.data_eq {size k : Nat} (hlater : Later size k l blocks) :
    blocks.flatMap MetacacheBlock.data = l := by
  induction hlater with
  | last hne hsize hn hdata hfirst hlast heos => rw [List.flatMap_singleton, hdata]
  | next hne hsize hn hdata hfirst hlast heos hrest ih => rw [List.flatMap_cons, ih, hdata]

theorem Written.data_eq {blockEntries : Nat} {stream : List (MetaCacheEntry μ)}
    (hwritten : Written blockEntries stream blocks) :
    blocks.flatMap MetacacheBlock.data = stream := by
  cases hwritten with
  | empty => rfl
  | single hfits => rw [List.flatMap_singleton]
  | many hsize hlater => rw [List.flatMap_cons, hlater.data_eq]
  | tiny hsize hlater => rw [List.flatMap_cons, hlater.data_eq, List.nil_append]

theorem lastName_eq (hne : l ≠ []) (name : Name) : lastName name l = lastName [] l := by
  rw [lastName, lastName, List.getLast?_eq_some_getLast hne]
  rfl

theorem secondName_le {l rest : List (MetaCacheEntry μ)} (hordered : Ordered (l ++ rest))
    (hne : l ≠ []) : ∀ e ∈ rest, secondName (l ++ rest) ≤ e.name := by
  intro e he
  cases l with
  | nil => exact absurd rfl hne
  | cons f l =>
    cases l with
    | nil =>
      cases rest with
      | nil => cases he
      | cons s rest =>
        rcases List.mem_cons.mp he with rfl | he
        · exact le_rfl
        · have htail := (List.pairwise_cons.mp hordered).2
          exact (List.pairwise_cons.mp htail).1 e he
    | cons s l =>
      have htail := (List.pairwise_cons.mp hordered).2
      exact (List.pairwise_cons.mp htail).1 e (List.mem_append_right _ he)

theorem Later.stored {size k : Nat} (hlater : Later size k l blocks) (hordered : Ordered l)
    (name : Name) : Stored k name blocks := by
  induction hlater generalizing name with
  | last hne hsize hn hdata hfirst hlast heos =>
    refine .last hn ?_ heos
    rw [hlast, hdata, lastName_eq hne name]
  | next hne hsize hn hdata hfirst hlast heos hrest ih =>
    refine .next hn ?_ heos ?_ (ih (List.pairwise_append.mp hordered).2.1 _)
    · rw [hlast, hdata, lastName_eq hne name]
    · rw [hrest.data_eq, hfirst]
      exact secondName_le hordered hne

theorem Written.stored {blockEntries : Nat} {stream : List (MetaCacheEntry μ)}
    (hwritten : Written blockEntries stream blocks) (hordered : Ordered stream) :
    Stored 0 [] blocks := by
  cases hwritten with
  | empty => exact .last rfl rfl rfl
  | single hfits => exact .last rfl rfl rfl
  | many hsize hlater =>
    obtain ⟨hdata, hrest, -⟩ := List.pairwise_append.mp hordered
    refine .next rfl rfl rfl (fun e he => ?_) (hlater.stored hrest _)
    rw [hlater.data_eq] at he
    exact (List.pairwise_cons.mp hordered).1 e (List.mem_append_right _ he)
  | tiny hsize hlater =>
    refine .next rfl rfl rfl (fun e he => ?_) (hlater.stored hordered _)
    rw [hlater.data_eq] at he
    rcases List.mem_cons.mp he with rfl | he
    · exact le_rfl
    · exact (List.pairwise_cons.mp hordered).1 e he

/-! ## The bounds -/

/-- The bounds that a block records are the names of its first and last entries. -/
def Bounded (b : MetacacheBlock μ) : Prop :=
  b.first = (b.data.head?.map MetaCacheEntry.name).getD [] ∧
    b.last = (b.data.getLast?.map MetaCacheEntry.name).getD []

/-- Where a block after the first one starts, the name of the entry is repeated. -/
def Repeats (size : Nat) (l : List (MetaCacheEntry μ)) : Prop :=
  ∀ before f after, l = before ++ f :: after → size ∣ before.length →
    after.head?.map MetaCacheEntry.name = some f.name

theorem secondName_eq_iff {f : MetaCacheEntry μ} {after : List (MetaCacheEntry μ)} :
    secondName (f :: after) = f.name ↔ after.head?.map MetaCacheEntry.name = some f.name := by
  cases after with
  | nil =>
    refine iff_of_false (fun heq => f.named heq.symm) fun hsome => ?_
    cases hsome
  | cons s after => exact Option.some_inj.symm

theorem split_after {α : Type} {size : Nat} {l rest before after : List α} {a : α}
    (hsize : l.length = size) (hsplit : l ++ rest = before ++ a :: after)
    (hdvd : size ∣ before.length) (hne : before ≠ []) :
    ∃ before', before = l ++ before' ∧ rest = before' ++ a :: after ∧
      size ∣ before'.length := by
  have hle : l.length ≤ before.length := by
    rw [hsize]
    exact Nat.le_of_dvd (List.length_pos_of_ne_nil hne) hdvd
  obtain ⟨before', rfl⟩ : l <+: before :=
    List.prefix_of_prefix_length_le (hsplit ▸ List.prefix_append _ _)
      (List.prefix_append _ _) hle
  rw [List.append_assoc, List.append_cancel_left_eq] at hsplit
  refine ⟨before', rfl, hsplit, ?_⟩
  rw [List.length_append, hsize] at hdvd
  exact (Nat.dvd_add_right (Nat.dvd_refl size)).mp hdvd

theorem bounded_iff {l rest : List (MetaCacheEntry μ)} {b : MetacacheBlock μ} (hdata : b.data = l)
    (hfirst : b.first = secondName (l ++ rest)) (hlast : b.last = lastName [] l)
    {f : MetaCacheEntry μ} {after : List (MetaCacheEntry μ)} (hne : l ≠ [])
    (hsplit : l ++ rest = f :: after) :
    Bounded b ↔ after.head?.map MetaCacheEntry.name = some f.name := by
  have hhead : (b.data.head?.map MetaCacheEntry.name).getD [] = f.name := by
    rw [hdata]
    cases l with
    | nil => exact absurd rfl hne
    | cons e l =>
      cases hsplit
      rfl
  rw [Bounded, hhead, hfirst, hsplit, secondName_eq_iff, hlast, hdata]
  exact and_iff_left rfl

theorem Later.forall_bounded_iff {size k : Nat} (hlater : Later size k l blocks) :
    (∀ b ∈ blocks, Bounded b) ↔ Repeats size l := by
  induction hlater with
  | @last k l b hne hsize hn hdata hfirst hlast heos =>
    obtain ⟨f, after, rfl⟩ := List.exists_cons_of_ne_nil hne
    have hiff := bounded_iff hdata (by rwa [List.append_nil]) hlast hne
      (List.append_nil (f :: after))
    rw [List.forall_mem_singleton, hiff]
    constructor
    · intro hrepeats before f' after' hsplit hdvd
      cases before with
      | nil =>
        cases hsplit
        exact hrepeats
      | cons e before =>
        -- Another block would be too far behind.
        have hlength := congrArg List.length hsplit
        have hle := Nat.le_of_dvd (Nat.succ_pos _) hdvd
        simp only [List.length_append, List.length_cons] at hlength hle hsize
        omega
    · exact fun hrepeats => hrepeats [] f after rfl (Nat.dvd_zero size)
  | @next k l rest b blocks hne hsize hn hdata hfirst hlast heos hrest ih =>
    have hne' : l ++ rest ≠ [] := by simp [hne]
    obtain ⟨f, after, hcons⟩ := List.exists_cons_of_ne_nil hne'
    rw [List.forall_mem_cons, bounded_iff hdata hfirst hlast hne hcons, ih]
    constructor
    · rintro ⟨hhere, hlater⟩ before f' after' hsplit hdvd
      cases before with
      | nil =>
        rw [hcons] at hsplit
        cases hsplit
        exact hhere
      | cons e before =>
        obtain ⟨before', -, hsplit', hdvd'⟩ :=
          split_after hsize hsplit hdvd (List.cons_ne_nil e before)
        exact hlater before' f' after' hsplit' hdvd'
    · intro hrepeats
      refine ⟨hrepeats [] f after hcons (Nat.dvd_zero size), ?_⟩
      intro before f' after' hsplit hdvd
      refine hrepeats (l ++ before) f' after' (by rw [hsplit, List.append_assoc]) ?_
      rw [List.length_append, hsize]
      exact (Nat.dvd_add_right (Nat.dvd_refl size)).mpr hdvd

/-! ## What is lost -/

variable [ObjectMetadata μ] {o : ListPathOptions}

/-- An entry that is asked for, before there are enough, starts a block and is the last
one with the prefix. -/
def Drops (o : ListPathOptions) (size count : Nat) (l : List (MetaCacheEntry μ)) : Prop :=
  ∃ before f s after, l = before ++ f :: s :: after ∧ size ∣ before.length ∧
    o.keeps f = true ∧ ¬ o.namePrefix <+: s.name ∧
    count + (before.filter o.keeps).length < o.limit.toNat

/-- A block that is passed over and has an entry that is asked for has it at its start. -/
theorem past_iff {l rest : List (MetaCacheEntry μ)} {b : MetacacheBlock μ} (hdata : b.data = l)
    (hfirst : b.first = secondName (l ++ rest)) (hne : l ≠ [])
    (hordered : Ordered (l ++ rest)) :
    (b.pastPrefix o.namePrefix = true ∧ b.data.filter o.keeps ≠ []) ↔
      ∃ f s after, l ++ rest = f :: s :: after ∧ o.keeps f = true ∧
        ¬ o.namePrefix <+: s.name := by
  obtain ⟨f, l, rfl⟩ := List.exists_cons_of_ne_nil hne
  rw [hdata]
  constructor
  · rintro ⟨hpast, hsome⟩
    obtain ⟨hlt, hnot⟩ := of_pastPrefix hpast
    rw [hfirst] at hlt hnot
    cases hafter : l ++ rest with
    | nil =>
      rw [List.cons_append, hafter] at hlt
      exact absurd hlt (List.not_lt_nil _)
    | cons s after =>
      rw [List.cons_append, hafter] at hlt hnot hordered
      refine ⟨f, s, after, by rw [List.cons_append, hafter], ?_, hnot⟩
      obtain ⟨e, he⟩ := List.exists_mem_of_ne_nil _ hsome
      obtain ⟨hmem, hkeeps⟩ := List.mem_filter.mp he
      rcases List.mem_cons.mp hmem with rfl | hmem
      · exact hkeeps
      · have hle : s.name ≤ e.name := by
          have hmem' : e ∈ s :: after := hafter ▸ List.mem_append_left rest hmem
          rcases List.mem_cons.mp hmem' with rfl | hmem'
          · exact le_rfl
          · exact (List.pairwise_cons.mp (List.pairwise_cons.mp hordered).2).1 e hmem'
        exact absurd (o.keeps_iff.mp hkeeps).2.2.1 (not_isPrefix_of_le hlt.le hnot hle)
  · rintro ⟨f', s, after, hsplit, hkeeps, hnot⟩
    rw [List.cons_append] at hsplit
    obtain ⟨rfl, hafter⟩ := List.cons.inj hsplit
    refine ⟨?_, List.ne_nil_of_mem (List.mem_filter.mpr ⟨List.mem_cons_self, hkeeps⟩)⟩
    have hsecond : b.first = s.name := by rw [hfirst, List.cons_append, hafter]; rfl
    have hfront := (o.keeps_iff.mp hkeeps).2.2.1
    have hle : f.name ≤ s.name := by
      rw [List.cons_append, hafter] at hordered
      exact (List.pairwise_cons.mp hordered).1 s List.mem_cons_self
    have hne' : o.namePrefix ≠ [] := fun hnil => hnot (hnil ▸ List.nil_prefix)
    rw [MetacacheBlock.pastPrefix, hsecond, if_neg (not_or.mpr ⟨hne', hnot⟩)]
    refine decide_eq_true (lt_of_le_of_ne ((le_of_isPrefix hfront).trans hle) ?_)
    exact fun heq => hnot (heq ▸ List.prefix_rfl)

theorem Later.lost_iff {size k : Nat} (hlater : Later size k l blocks) (hordered : Ordered l)
    (count : Nat) : Lost o true count blocks ↔ Drops o size count l := by
  induction hlater generalizing count with
  | @last k l b hne hsize hn hdata hfirst hlast heos =>
    have hpast := @past_iff _ _ o _ _ _ hdata (by rwa [List.append_nil]) hne
      (by rwa [List.append_nil])
    rw [List.append_nil] at hpast
    rw [Lost, Lost, or_false]
    constructor
    · rintro ⟨-, hskipped, hsome, hlt⟩
      obtain ⟨f, s, after, rfl, hkeeps, hnot⟩ := hpast.mp ⟨hskipped, hsome⟩
      exact ⟨[], f, s, after, rfl, Nat.dvd_zero size, hkeeps, hnot, hlt⟩
    · rintro ⟨before, f, s, after, rfl, hdvd, hkeeps, hnot, hlt⟩
      cases before with
      | nil =>
        obtain ⟨hskipped, hsome⟩ := hpast.mpr ⟨f, s, after, rfl, hkeeps, hnot⟩
        exact ⟨rfl, hskipped, hsome, hlt⟩
      | cons e before =>
        have hle := Nat.le_of_dvd (Nat.succ_pos _) hdvd
        simp only [List.length_append, List.length_cons] at hle hsize
        omega
  | @next k l rest b blocks hne hsize hn hdata hfirst hlast heos hrest ih =>
    rw [Lost, ih (List.pairwise_append.mp hordered).2.1, hdata]
    have hpast := @past_iff _ _ o _ _ _ hdata hfirst hne hordered
    rw [hdata] at hpast
    constructor
    · rintro (⟨-, hskipped, hsome, hlt⟩ | ⟨before, f, s, after, rfl, hdvd, hkeeps, hnot, hlt⟩)
      · obtain ⟨f, s, after, hsplit, hkeeps, hnot⟩ := hpast.mp ⟨hskipped, hsome⟩
        exact ⟨[], f, s, after, hsplit, Nat.dvd_zero size, hkeeps, hnot, hlt⟩
      · refine ⟨l ++ before, f, s, after, (List.append_assoc _ _ _).symm, ?_, hkeeps, hnot, ?_⟩
        · rw [List.length_append, hsize]
          exact (Nat.dvd_add_right (Nat.dvd_refl size)).mpr hdvd
        · rw [List.filter_append, List.length_append]
          omega
    · rintro ⟨before, f, s, after, hsplit, hdvd, hkeeps, hnot, hlt⟩
      cases before with
      | nil =>
        obtain ⟨hskipped, hsome⟩ := hpast.mpr ⟨f, s, after, hsplit, hkeeps, hnot⟩
        exact Or.inl ⟨rfl, hskipped, hsome, hlt⟩
      | cons e before =>
        obtain ⟨before', hbefore, hsplit', hdvd'⟩ :=
          split_after hsize hsplit hdvd (List.cons_ne_nil e before)
        refine Or.inr ⟨before', f, s, after, hsplit', hdvd', hkeeps, hnot, ?_⟩
        rw [hbefore, List.filter_append, List.length_append] at hlt
        omega

end Fs3.Listing
