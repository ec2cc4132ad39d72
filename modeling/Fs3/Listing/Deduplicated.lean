import Fs3.Foundation.SortedLists
import Fs3.Listing.Entries
import Fs3.Runtime.Text

/-! # Entries of one name in a listing

A sorted list may have several entries of one name. They are taken together in the array that holds
them: what is kept is written over what was there, always at or before the entry that is looked at.
-/

namespace Fs3.Listing

open Foundation

/-- The metadata of an object. -/
abbrev MetaBytes := {bytes : Bytes // bytes ≠ []}

/-- An entry with its metadata as it was read. -/
abbrev RawEntry := MetaCacheEntry MetaBytes

namespace RawEntry

def metadataLen (e : RawEntry) : Nat :=
  match e.metadata with
  | none => 0
  | some metadata => metadata.1.length

def likelyMatches (e other : RawEntry) : Bool :=
  if e.metadataLen ≠ other.metadataLen ∨ e.name ≠ other.name then false else true

end RawEntry

/-- Whether the existing entry should be replaced with the other. -/
abbrev CompareMeta := RawEntry → RawEntry → Bool

/-- Where `deduplicate` is: the array `m.o`, how much of it is `dst`, and what it will answer. -/
structure Dedup where
  entries : List RawEntry
  kept : Nat
  dupesLeft : Bool

def Dedup.dst (s : Dedup) : List RawEntry := s.entries.take s.kept

variable (compareMeta : Option CompareMeta)

/-- The inner loop, from `i` on, with whether the entry was found. There is no result when it leaves
`dst`. -/
def findExisting (obj : RawEntry) (s : Dedup) (i : Int) : Option (Bool × Dedup) :=
  if 0 ≤ i then
    if hi : i.toNat < s.dst.length then
      let existing := s.dst[i.toNat]
      if existing.name ≠ obj.name then some (false, s)
      else
        match compareMeta with
        | some replace =>
          if replace existing obj then
            some (true, { s with entries := s.entries.set i.toNat obj })
          else some (true, s)
        | none =>
          if obj.likelyMatches existing then some (true, s)
          else findExisting obj { s with dupesLeft := true } (i + 1)
    else none
  else some (false, s)
termination_by s.dst.length - i.toNat
decreasing_by
  simp only [Dedup.dst] at hi ⊢
  omega

/-- One turn of the outer loop. What is appended to `dst` is written to the array, which has
room for it. -/
def dedupTurn (s : Dedup) (j : Nat) : Option Dedup := do
  let obj ← s.entries[j]?
  let (found, s) ← findExisting compareMeta obj s (s.dst.length - 1)
  if found then some s
  else some { s with entries := s.entries.set s.kept obj, kept := s.kept + 1 }

/-- `deduplicate`: what is left of the entries, and whether duplicates may be left. -/
def deduplicate (entries : List RawEntry) : Option (List RawEntry × Bool) :=
  ((List.range entries.length).foldlM (dedupTurn compareMeta) ⟨entries, 0, false⟩).map
    fun s => (s.dst, s.dupesLeft)

def resolve (existing obj : RawEntry) : RawEntry :=
  match compareMeta with
  | some replace => if replace existing obj then obj else existing
  | none => existing

theorem resolve_eq_or (existing obj : RawEntry) :
    resolve compareMeta existing obj = existing ∨ resolve compareMeta existing obj = obj := by
  unfold resolve
  split
  next replace =>
    split
    next => exact Or.inr rfl
    next => exact Or.inl rfl
  next => exact Or.inl rfl

variable {compareMeta}

theorem name_resolve {existing obj : RawEntry} (hname : existing.name = obj.name) :
    (resolve compareMeta existing obj).name = obj.name := by
  rcases resolve_eq_or compareMeta existing obj with hfirst | hsecond
  · rw [hfirst, hname]
  · rw [hsecond]

/-! ## One turn -/

/-- Where the loop is before the entry at `j`, which is the first of `rest`. -/
structure Dedup.Holds (s : Dedup) (j : Nat) (dst rest : List RawEntry) : Prop where
  dst_eq : s.dst = dst
  rest_eq : s.entries.drop j = rest
  kept_le : s.kept ≤ j
  resolved : s.dupesLeft = false

variable {s : Dedup} {j : Nat} {dst rest init : List RawEntry} {obj e : RawEntry}

namespace Dedup.Holds

theorem start (entries : List RawEntry) : Holds ⟨entries, 0, false⟩ 0 [] entries :=
  ⟨List.take_zero, List.drop_zero, Nat.le_refl 0, rfl⟩

variable (hholds : s.Holds j dst (obj :: rest))

include hholds

theorem getElem_eq : s.entries[j]? = some obj := by
  rw [← List.head?_drop, hholds.rest_eq]
  rfl

theorem lt_length : j < s.entries.length := by
  by_contra hle
  have hrest := hholds.rest_eq
  rw [List.drop_eq_nil_of_le (Nat.le_of_not_lt hle)] at hrest
  cases hrest

theorem length_dst : dst.length = s.kept := by
  rw [← hholds.dst_eq, Dedup.dst, List.length_take]
  have := hholds.lt_length
  have := hholds.kept_le
  omega

theorem drop_succ : s.entries.drop (j + 1) = rest := by
  rw [← List.tail_drop, hholds.rest_eq]
  rfl

theorem append :
    Holds { s with entries := s.entries.set s.kept obj, kept := s.kept + 1 } (j + 1)
      (dst ++ [obj]) rest := by
  have hkept : s.kept < s.entries.length := Nat.lt_of_le_of_lt hholds.kept_le hholds.lt_length
  refine ⟨?_, ?_, Nat.succ_le_succ hholds.kept_le, hholds.resolved⟩
  · rw [Dedup.dst, List.take_add_one, List.take_set_of_le (Nat.le_refl _),
      List.getElem?_set_self hkept]
    exact congrArg (· ++ [obj]) hholds.dst_eq
  · rw [List.drop_set_of_lt (Nat.lt_succ_of_le hholds.kept_le), hholds.drop_succ]

theorem skip : s.Holds (j + 1) dst rest :=
  ⟨hholds.dst_eq, hholds.drop_succ, Nat.le_succ_of_le hholds.kept_le, hholds.resolved⟩

end Dedup.Holds

theorem Dedup.Holds.replace (hholds : s.Holds j (init ++ [e]) (obj :: rest)) :
    Dedup.Holds { s with entries := s.entries.set init.length obj } (j + 1)
      (init ++ [obj]) rest := by
  have hlength := hholds.length_dst
  rw [List.length_append, List.length_singleton] at hlength
  have hkept := hholds.kept_le
  refine ⟨?_, ?_, Nat.le_succ_of_le hkept, hholds.resolved⟩
  · have hdst := hholds.dst_eq
    rw [Dedup.dst] at hdst ⊢
    rw [List.take_set, hdst, List.set_append_right _ _ (Nat.le_refl _), Nat.sub_self]
    rfl
  · rw [List.drop_set_of_lt (by omega), hholds.drop_succ]

theorem findExisting_nil (hdst : s.dst = []) :
    findExisting compareMeta obj s (s.dst.length - 1) = some (false, s) := by
  rw [findExisting, hdst]
  rfl

theorem findExisting_last (compareMeta : Option CompareMeta) (obj : RawEntry)
    (hdst : s.dst = init ++ [e]) :
    findExisting compareMeta obj s (s.dst.length - 1) =
      if e.name ≠ obj.name then some (false, s)
      else
        match compareMeta with
        | some replace =>
          if replace e obj then some (true, { s with entries := s.entries.set init.length obj })
          else some (true, s)
        | none => if obj.likelyMatches e then some (true, s) else none := by
  have hlength : s.dst.length = init.length + 1 := by
    rw [hdst, List.length_append, List.length_singleton]
  have hindex : ((s.dst.length : Int) - 1) = (init.length : Int) := by omega
  have hlt : init.length < s.dst.length := by omega
  have hlast : s.dst[init.length] = e := by
    simp only [hdst, List.getElem_concat_length]
  rw [hindex, findExisting, if_pos (Int.natCast_nonneg _)]
  simp only [Int.toNat_natCast, hlt, dif_pos, hlast]
  split
  next => rfl
  next hname =>
    split
    next replace => rfl
    next =>
      split
      next => rfl
      next =>
        have hout : ¬ ((init.length : Int) + 1).toNat < s.dst.length := by omega
        rw [findExisting, if_pos (by omega)]
        exact dif_neg hout

/-- Whether the two may stand for one entry: without a way to resolve them, their metadata
has to be of one length. -/
def Resolvable (compareMeta : Option CompareMeta) (e obj : RawEntry) : Prop :=
  compareMeta = none → obj.metadataLen = e.metadataLen

theorem dedupTurn_found {s' : Dedup} (hholds : s.Holds j dst (obj :: rest))
    (hfind : findExisting compareMeta obj s (s.dst.length - 1) = some (true, s')) :
    dedupTurn compareMeta s j = some s' := by
  rw [dedupTurn, hholds.getElem_eq]
  simp only [Option.bind_eq_bind, Option.bind_some, hfind, if_true]

theorem dedupTurn_new (compareMeta : Option CompareMeta) (hholds : s.Holds j dst (obj :: rest))
    (hnew : ∀ e ∈ dst, e.name ≠ obj.name) :
    ∃ s', dedupTurn compareMeta s j = some s' ∧ s'.Holds (j + 1) (dst ++ [obj]) rest := by
  have hfind : findExisting compareMeta obj s (s.dst.length - 1) = some (false, s) := by
    rcases List.eq_nil_or_concat dst with hnil | ⟨init, e, hlast⟩
    · exact findExisting_nil (hholds.dst_eq.trans hnil)
    · rw [List.concat_eq_append] at hlast
      rw [findExisting_last compareMeta obj (hholds.dst_eq.trans hlast), if_pos]
      refine hnew e ?_
      rw [hlast]
      exact List.mem_concat_self
  refine ⟨_, ?_, hholds.append⟩
  rw [dedupTurn, hholds.getElem_eq]
  simp only [Option.bind_eq_bind, Option.bind_some, hfind, Bool.false_eq_true, if_false]

theorem dedupTurn_same (hholds : s.Holds j (init ++ [e]) (obj :: rest))
    (hname : e.name = obj.name) (hresolvable : Resolvable compareMeta e obj) :
    ∃ s', dedupTurn compareMeta s j = some s' ∧
      s'.Holds (j + 1) (init ++ [resolve compareMeta e obj]) rest := by
  have hfind := findExisting_last compareMeta obj hholds.dst_eq
  rw [if_neg (not_not.mpr hname)] at hfind
  cases compareMeta with
  | some replace =>
    dsimp only at hfind
    rw [resolve]
    split at hfind
    next hreplace =>
      rw [if_pos hreplace]
      exact ⟨_, dedupTurn_found hholds hfind, hholds.replace⟩
    next hreplace =>
      rw [if_neg hreplace]
      exact ⟨s, dedupTurn_found hholds hfind, hholds.skip⟩
  | none =>
    have hmatches : obj.likelyMatches e = true := by
      rw [RawEntry.likelyMatches, if_neg]
      rw [not_or, not_not, not_not]
      exact ⟨hresolvable rfl, hname.symm⟩
    dsimp only at hfind
    rw [if_pos hmatches] at hfind
    exact ⟨s, dedupTurn_found hholds hfind, hholds.skip⟩

/-! ## All turns -/

/-- Without a way to resolve them, the entries of one name have metadata of one length. -/
def OneLength (compareMeta : Option CompareMeta) (entries : List RawEntry) : Prop :=
  compareMeta = none → ∀ e ∈ entries, ∀ e' ∈ entries, e.name = e'.name →
    e.metadataLen = e'.metadataLen

variable {done : List RawEntry}

/-- The turns that are left come to the end where all entries can be resolved. -/
theorem turns_collapse (hholds : s.Holds j dst rest)
    (hcollapsed : Collapsed MetaCacheEntry.name (resolve compareMeta) done dst)
    (hsorted : SortedBy MetaCacheEntry.name (done ++ rest))
    (hlength : OneLength compareMeta (done ++ rest)) :
    ∃ s' dst', (List.range' j rest.length).foldlM (dedupTurn compareMeta) s = some s' ∧
      s'.Holds (j + rest.length) dst' [] ∧
      Collapsed MetaCacheEntry.name (resolve compareMeta) (done ++ rest) dst' := by
  induction rest generalizing s j dst done with
  | nil =>
    rw [List.append_nil]
    exact ⟨s, dst, rfl, hholds, hcollapsed⟩
  | cons obj rest ih =>
    have hle : ∀ e ∈ done, e.name ≤ obj.name := fun e he =>
      (List.pairwise_append.mp hsorted).2.2 e he obj List.mem_cons_self
    have hturn : ∃ s' dst', dedupTurn compareMeta s j = some s' ∧ s'.Holds (j + 1) dst' rest ∧
        Collapsed MetaCacheEntry.name (resolve compareMeta) (done ++ [obj]) dst' := by
      rcases hcollapsed.new_or_same hle with hnew | ⟨init, e, rfl, hname⟩
      · obtain ⟨s', hturn, hholds'⟩ := dedupTurn_new compareMeta hholds fun e he => (hnew e he).ne
        exact ⟨s', _, hturn, hholds', hcollapsed.append_new hnew⟩
      · have he : e ∈ done := hcollapsed.subset (resolve_eq_or compareMeta) List.mem_concat_self
        have hresolvable : Resolvable compareMeta e obj := fun hnone =>
          hlength hnone obj (List.mem_append_right done List.mem_cons_self) e
            (List.mem_append_left _ he) hname.symm
        obtain ⟨s', hturn, hholds'⟩ := dedupTurn_same hholds hname hresolvable
        exact ⟨s', _, hturn, hholds', hcollapsed.append_same hname (name_resolve hname)⟩
    obtain ⟨s', dst', hturn, hholds', hcollapsed'⟩ := hturn
    rw [List.append_cons] at hsorted hlength ⊢
    obtain ⟨last, dst'', hrun, hlast, hall⟩ := ih hholds' hcollapsed' hsorted hlength
    refine ⟨last, dst'', ?_, ?_, hall⟩
    · rw [List.length_cons, List.range'_succ, List.foldlM_cons, hturn]
      exact hrun
    · rw [List.length_cons, Nat.add_comm rest.length, ← Nat.add_assoc]
      exact hlast

/-- Where they can, one of each name is left, and the answer says that no duplicates are. -/
theorem deduplicate_collapses (compareMeta : Option CompareMeta) (entries : List RawEntry)
    (hsorted : SortedBy MetaCacheEntry.name entries) (hlength : OneLength compareMeta entries) :
    ∃ kept, deduplicate compareMeta entries = some (kept, false) ∧
      Collapsed MetaCacheEntry.name (resolve compareMeta) entries kept := by
  obtain ⟨s, kept, hrun, hholds, hcollapsed⟩ :=
    turns_collapse (Dedup.Holds.start entries) Collapsed.nil hsorted hlength
  refine ⟨kept, ?_, hcollapsed⟩
  rw [deduplicate, List.range_eq_range', hrun, Option.map_some, hholds.dst_eq, hholds.resolved]

/-- An object of the name `x` with one byte of metadata. -/
def entryX (byte : UInt8) : RawEntry :=
  ⟨['x'], some ⟨[byte], List.cons_ne_nil byte []⟩, List.cons_ne_nil 'x' []⟩

/-- Of three entries of a name the first is left where nothing resolves them. -/
theorem entryX_collapses : ∃ kept,
    deduplicate none [entryX 1, entryX 2, entryX 1] = some (kept, false) ∧
      Collapsed MetaCacheEntry.name (resolve none) [entryX 1, entryX 2, entryX 1] kept :=
  deduplicate_collapses none [entryX 1, entryX 2, entryX 1] (by decide) fun _ => by decide

/-- One of two copies is removed, and the answer does not say so. -/
theorem copies_not_reported : ¬ ∃ kept removed,
    deduplicate none [entryX 1, entryX 1] = some (kept, removed) ∧
      (removed = true ↔ kept ≠ [entryX 1, entryX 1]) := by
  rintro ⟨kept, removed, hanswer, hreport⟩
  have hrun : deduplicate none [entryX 1, entryX 1] = some ([entryX 1], false) := by
    have hfirst : dedupTurn none ⟨[entryX 1, entryX 1], 0, false⟩ 0 =
        some ⟨[entryX 1, entryX 1], 1, false⟩ := by
      simp [dedupTurn, findExisting, Dedup.dst]
    have hsecond : dedupTurn none ⟨[entryX 1, entryX 1], 1, false⟩ 1 =
        some ⟨[entryX 1, entryX 1], 1, false⟩ := by
      simp [dedupTurn, findExisting, Dedup.dst, RawEntry.likelyMatches]
    rw [deduplicate, List.range_eq_range']
    simp only [List.length_cons, List.length_nil, List.range'_succ, List.range'_zero,
      List.foldlM_cons, List.foldlM_nil, hfirst, hsecond, Option.bind_eq_bind, Option.bind_some]
    rfl
  rw [hrun] at hanswer
  cases hanswer
  exact absurd (hreport.mpr (by decide)) Bool.false_ne_true

end Fs3.Listing
