import Fs3.Foundation.BinarySearch
import Fs3.Foundation.SortedLists
import Fs3.Journal.History
import Fs3.Journal.InlineReads
import Fs3.Listing.AllVersions

/-! # Objects and common prefixes of a page

A page of a listing is cut out of sorted entries: a binary search finds where the marker and the
prefix begin, and a walk finds where the prefix ends. From what is left, `fileInfos` and
`fileInfoVersions` show the objects that have no delimiter behind the prefix, and, in place of all
that share a name up to their first delimiter, that name. -/

namespace Fs3.Listing

open Foundation

section Index

variable {sub name name' : Name} {i : Nat}

theorem index_add_length_le (hindex : index sub name = some i) :
    i + sub.length ≤ name.length := by
  induction name generalizing i with
  | nil =>
    rw [index] at hindex
    split at hindex
    next hsub =>
      cases hindex
      rw [hsub]
      rfl
    · cases hindex
  | cons c rest ih =>
    rw [index] at hindex
    split at hindex
    next hpre =>
      cases hindex
      rw [Nat.zero_add]
      exact (List.isPrefixOf_iff_prefix.mp hpre).length_le
    next =>
      obtain ⟨j, hj, rfl⟩ := Option.map_eq_some_iff.mp hindex
      have hle := ih hj
      rw [List.length_cons]
      omega

/-- Where a text first occurs depends on nothing behind it. -/
theorem index_of_prefix (hindex : index sub name = some i)
    (hpre : name.take (i + sub.length) <+: name') : index sub name' = some i := by
  induction name generalizing i name' with
  | nil =>
    rw [index] at hindex
    split at hindex
    next hsub =>
      cases hindex
      rw [hsub]
      cases name' <;> rfl
    · cases hindex
  | cons c rest ih =>
    rw [index] at hindex
    split at hindex
    next hsub =>
      cases hindex
      have hsub' := List.isPrefixOf_iff_prefix.mp hsub
      rw [Nat.zero_add, ← List.prefix_iff_eq_take.mp hsub'] at hpre
      cases name' with
      | nil => rw [index, if_pos (List.prefix_nil.mp hpre)]
      | cons c' rest' => rw [index, if_pos (List.isPrefixOf_iff_prefix.mpr hpre)]
    next hsub =>
      obtain ⟨j, hj, rfl⟩ := Option.map_eq_some_iff.mp hindex
      have hlen := index_add_length_le hj
      rw [show j + 1 + sub.length = j + sub.length + 1 by omega, List.take_succ_cons] at hpre
      obtain ⟨behind, rfl⟩ := hpre
      have hnot : ¬ sub.isPrefixOf (c :: (rest.take (j + sub.length) ++ behind)) = true := by
        intro hfirst
        rw [List.isPrefixOf_iff_prefix] at hfirst hsub
        rw [← List.cons_append] at hfirst
        have hshort : sub <+: c :: rest.take (j + sub.length) := by
          refine List.prefix_of_prefix_length_le hfirst (List.prefix_append _ _) ?_
          rw [List.length_cons, List.length_take]
          omega
        have hlong : c :: rest.take (j + sub.length) <+: c :: rest :=
          (List.prefix_cons_inj c).mpr (List.take_prefix _ _)
        exact hsub (hshort.trans hlong)
      rw [List.cons_append, index, if_neg hnot, ih hj (List.prefix_append _ _)]
      rfl

end Index

section CommonPrefix

variable {namePrefix delimiter name name' c c' : Name}

def folderOf (namePrefix delimiter name : Name) : Option Name :=
  if delimiter = [] then none else commonPrefix namePrefix delimiter name

theorem trimPrefix_append (namePrefix rest : Name) :
    trimPrefix (namePrefix ++ rest) namePrefix = rest := by
  have hpre : namePrefix.isPrefixOf (namePrefix ++ rest) = true :=
    List.isPrefixOf_iff_prefix.mpr (List.prefix_append _ _)
  rw [trimPrefix, if_pos hpre, List.drop_left]

theorem folderOf_eq_some_iff {rest : Name} :
    folderOf namePrefix delimiter (namePrefix ++ rest) = some c ↔
      delimiter ≠ [] ∧ ∃ idx, index delimiter rest = some idx ∧
        c = namePrefix ++ rest.take (idx + delimiter.length) := by
  rw [folderOf]
  split
  next hdelimiter => simp [hdelimiter]
  next hdelimiter =>
    rw [commonPrefix, trimPrefix_append, Option.map_eq_some_iff]
    simp only [Nat.add_assoc, List.take_length_add_append, hdelimiter, ne_eq, not_false_eq_true,
      true_and, eq_comm]

theorem isPrefix_of_folderOf (hpre : namePrefix <+: name)
    (hfolder : folderOf namePrefix delimiter name = some c) : c <+: name ∧ c ≠ [] := by
  obtain ⟨rest, rfl⟩ := hpre
  obtain ⟨hdelimiter, idx, hidx, rfl⟩ := folderOf_eq_some_iff.mp hfolder
  refine ⟨(List.prefix_append_right_inj _).mpr (List.take_prefix _ _), fun hnil => ?_⟩
  have hlen := index_add_length_le hidx
  have hpos : 0 < delimiter.length := List.length_pos_iff.mpr hdelimiter
  have hzero := congrArg List.length hnil
  rw [List.length_append, List.length_take, List.length_nil] at hzero
  omega

theorem folderOf_of_isPrefix (hpre : namePrefix <+: name)
    (hfolder : folderOf namePrefix delimiter name = some c) (hc : c <+: name') :
    folderOf namePrefix delimiter name' = some c := by
  obtain ⟨rest, rfl⟩ := hpre
  obtain ⟨hdelimiter, idx, hidx, rfl⟩ := folderOf_eq_some_iff.mp hfolder
  obtain ⟨behind, rfl⟩ := hc
  have hlen := index_add_length_le hidx
  rw [List.append_assoc, folderOf_eq_some_iff]
  refine ⟨hdelimiter, idx, index_of_prefix hidx (List.prefix_append _ _), ?_⟩
  rw [List.take_append_of_le_length (by rw [List.length_take]; omega), List.take_take, min_self]

end CommonPrefix

/-! ## The range of a page -/

section Range

variable {μ : Type} (namePrefix marker : Name) (o : List (MetaCacheEntry μ))

/-- `metaCacheEntriesSorted.forwardTo`. -/
def forwardTo (s : Name) (o : List (MetaCacheEntry μ)) : List (MetaCacheEntry μ) :=
  if s = [] then o else o.drop (search o.length (holdsAt (fun e => decide (s ≤ e.name)) o))

/-- `metaCacheEntriesSorted.filterPrefix`. -/
def filterPrefix (s : Name) (o : List (MetaCacheEntry μ)) : List (MetaCacheEntry μ) :=
  if s = [] then o else (forwardTo s o).takeWhile fun e => e.hasPrefix s

def inRange : List (MetaCacheEntry μ) :=
  o.filter fun e => e.hasPrefix namePrefix && decide (marker ≤ e.name)

variable {o}

theorem mem_inRange {e : MetaCacheEntry μ} :
    e ∈ inRange namePrefix marker o ↔ e ∈ o ∧ namePrefix <+: e.name ∧ marker ≤ e.name := by
  rw [inRange, List.mem_filter, Bool.and_eq_true, decide_eq_true_eq, e.hasPrefix_iff]

theorem forwardTo_eq_filter (hsorted : SortedBy MetaCacheEntry.name o) (s : Name) :
    forwardTo s o = o.filter fun e => decide (s ≤ e.name) := by
  have hmono : o.Pairwise fun e e' => decide (s ≤ e.name) = true → decide (s ≤ e'.name) = true :=
    hsorted.imp fun hle hs => decide_eq_true ((of_decide_eq_true hs).trans hle)
  rw [forwardTo]
  split
  next hs =>
    subst hs
    refine (List.filter_eq_self.mpr fun e _ => ?_).symm
    exact decide_eq_true (le_of_isPrefix List.nil_prefix)
  next =>
    rw [drop_search hmono]
    clear hmono
    induction o with
    | nil => rfl
    | cons e rest ih =>
      obtain ⟨hhead, hrest⟩ := List.pairwise_cons.mp hsorted
      by_cases hs : s ≤ e.name
      · rw [List.dropWhile_cons_of_neg (by simpa using hs)]
        refine (List.filter_eq_self.mpr fun e' he' => ?_).symm
        rcases List.mem_cons.mp he' with rfl | he'
        · exact decide_eq_true hs
        · exact decide_eq_true (hs.trans (hhead e' he'))
      · rw [List.dropWhile_cons_of_pos (by simpa using hs),
          List.filter_cons_of_neg (by simpa using hs), ih hrest]

/-- The cut at the end keeps all that have the prefix, because these stand together. -/
theorem filterPrefix_eq_filter (hsorted : SortedBy MetaCacheEntry.name o) (s : Name) :
    filterPrefix s o = o.filter fun e => e.hasPrefix s := by
  have hfilter : o.filter (fun e => e.hasPrefix s) =
      (o.filter fun e => decide (s ≤ e.name)).filter fun e => e.hasPrefix s := by
    rw [List.filter_filter]
    refine List.filter_congr fun e _ => ?_
    by_cases hpre : e.hasPrefix s = true
    · rw [hpre, decide_eq_true (le_of_isPrefix (e.hasPrefix_iff.mp hpre))]
      rfl
    · rw [Bool.not_eq_true] at hpre
      rw [hpre]
      rfl
  rw [filterPrefix]
  split
  next hs =>
    subst hs
    exact (List.filter_eq_self.mpr fun e _ => e.hasPrefix_iff.mpr List.nil_prefix).symm
  next =>
    rw [hfilter, forwardTo_eq_filter hsorted]
    have hbehind : ∀ e ∈ o.filter (fun e => decide (s ≤ e.name)), s ≤ e.name :=
      fun e he => of_decide_eq_true (List.mem_filter.mp he).2
    have hrange := hsorted.filter fun e => decide (s ≤ e.name)
    generalize o.filter (fun e => decide (s ≤ e.name)) = l at hbehind hrange ⊢
    induction l with
    | nil => rfl
    | cons e rest ih =>
      obtain ⟨hhead, hrest⟩ := List.pairwise_cons.mp hrange
      by_cases hpre : e.hasPrefix s = true
      · rw [List.takeWhile_cons, if_pos hpre, List.filter_cons, if_pos hpre,
          ih (fun e' he' => hbehind e' (List.mem_cons_of_mem _ he')) hrest]
      · rw [List.takeWhile_cons, if_neg hpre, List.filter_cons, if_neg hpre]
        refine (List.filter_eq_nil_iff.mpr fun e' he' hpre' => ?_).symm
        rw [e.hasPrefix_iff] at hpre
        exact not_isPrefix_of_le (hbehind e List.mem_cons_self) hpre (hhead e' he')
          (e'.hasPrefix_iff.mp hpre')

variable (hsorted : SortedBy MetaCacheEntry.name o)
include hsorted

theorem forwardTo_filterPrefix :
    forwardTo marker (filterPrefix namePrefix o) = inRange namePrefix marker o := by
  rw [filterPrefix_eq_filter hsorted, forwardTo_eq_filter (hsorted.filter _), List.filter_filter,
    inRange]
  exact List.filter_congr fun e _ => Bool.and_comm _ _

theorem filterPrefix_forwardTo :
    filterPrefix namePrefix (forwardTo marker o) = inRange namePrefix marker o := by
  rw [forwardTo_eq_filter hsorted, filterPrefix_eq_filter (hsorted.filter _), List.filter_filter,
    inRange]

end Range

/-! ## What a page shows -/

/-- What stands in a page: the name that some have in common, or an object. -/
inductive PageItem (μ : Type)
  | folder (name : Name)
  | object (entry : MetaCacheEntry μ)

namespace PageItem

variable {μ : Type}

def name : PageItem μ → Name
  | folder name => name
  | object entry => entry.name

def folder? : PageItem μ → Option Name
  | folder name => some name
  | object _ => none

def object? : PageItem μ → Option (MetaCacheEntry μ)
  | folder _ => none
  | object entry => some entry

end PageItem

/-- A page of the entries in range, for a prefix and a delimiter. -/
structure IsPage {μ : Type} (namePrefix delimiter : Name) (entries : List (MetaCacheEntry μ))
    (items : List (PageItem μ)) : Prop where
  /-- It has the objects without a delimiter behind the prefix. -/
  objects : items.filterMap PageItem.object? =
    entries.filter fun e => e.isObject && (folderOf namePrefix delimiter e.name).isNone
  /-- It has no common prefix twice. -/
  once : (items.filterMap PageItem.folder?).Nodup
  folders : ∀ c, c ∈ items.filterMap PageItem.folder? ↔
    ∃ e ∈ entries, folderOf namePrefix delimiter e.name = some c
  inOrder : SortedBy PageItem.name items

section Items

variable {μ : Type} (namePrefix delimiter : Name)

def itemOf (e : MetaCacheEntry μ) : Option (PageItem μ) :=
  match folderOf namePrefix delimiter e.name with
  | some c => some (.folder c)
  | none => if e.isObject then some (.object e) else none

def itemsAfter (prevPrefix : Name) (entries : List (MetaCacheEntry μ)) : List (PageItem μ) :=
  dropRepeats PageItem.folder? prevPrefix (entries.filterMap (itemOf namePrefix delimiter))

variable {namePrefix delimiter}

theorem itemOf_cases {e : MetaCacheEntry μ} {item : PageItem μ}
    (hitem : itemOf namePrefix delimiter e = some item) :
    (∃ c, folderOf namePrefix delimiter e.name = some c ∧ item = .folder c) ∨
      folderOf namePrefix delimiter e.name = none ∧ item = .object e := by
  rw [itemOf] at hitem
  split at hitem
  next c hc =>
    cases hitem
    exact Or.inl ⟨c, hc, rfl⟩
  next hc =>
    split at hitem
    · cases hitem
      exact Or.inr ⟨hc, rfl⟩
    · cases hitem

theorem itemOf_mono {e e' : MetaCacheEntry μ} {item item' : PageItem μ}
    (hpre : namePrefix <+: e.name) (hpre' : namePrefix <+: e'.name) (hle : e.name ≤ e'.name)
    (hitem : itemOf namePrefix delimiter e = some item)
    (hitem' : itemOf namePrefix delimiter e' = some item') : item.name ≤ item'.name := by
  -- A common prefix of the later entry that stands in front of the other is its own.
  have hfolder : ∀ {c}, folderOf namePrefix delimiter e'.name = some c → c < e.name →
      folderOf namePrefix delimiter e.name = some c := by
    intro c hc hlt
    have hcpre := (isPrefix_of_folderOf hpre' hc).1
    exact folderOf_of_isPrefix hpre' hc (isPrefix_of_le_of_le hlt.le hle hcpre)
  rcases itemOf_cases hitem with ⟨c, hc, rfl⟩ | ⟨hc, rfl⟩
  · have hcle := le_of_isPrefix (isPrefix_of_folderOf hpre hc).1
    rcases itemOf_cases hitem' with ⟨c', hc', rfl⟩ | ⟨-, rfl⟩
    · rw [PageItem.name, PageItem.name, ← not_lt]
      intro hlt
      have hsame := hfolder hc' (hlt.trans_le hcle)
      rw [hc, Option.some.injEq] at hsame
      exact absurd hsame hlt.ne'
    · exact hcle.trans hle
  · rcases itemOf_cases hitem' with ⟨c', hc', rfl⟩ | ⟨-, rfl⟩
    · rw [PageItem.name, PageItem.name, ← not_lt]
      intro hlt
      have hsame := hfolder hc' hlt
      rw [hc] at hsame
      cases hsame
    · exact hle

theorem filterMap_items_folder? (entries : List (MetaCacheEntry μ)) :
    (entries.filterMap (itemOf namePrefix delimiter)).filterMap PageItem.folder? =
      entries.filterMap fun e => folderOf namePrefix delimiter e.name := by
  rw [List.filterMap_filterMap]
  refine List.filterMap_congr fun e _ => ?_
  rw [itemOf]
  cases folderOf namePrefix delimiter e.name with
  | some c => rfl
  | none => cases e.isObject <;> rfl

theorem filterMap_items_object? (entries : List (MetaCacheEntry μ)) :
    (entries.filterMap (itemOf namePrefix delimiter)).filterMap PageItem.object? =
      entries.filter fun e => e.isObject && (folderOf namePrefix delimiter e.name).isNone := by
  rw [List.filterMap_filterMap, ← List.filterMap_eq_filter]
  refine List.filterMap_congr fun e _ => ?_
  rw [itemOf]
  cases hc : folderOf namePrefix delimiter e.name with
  | some c => simp [hc, PageItem.object?, Option.guard]
  | none => cases hobject : e.isObject <;> simp [hc, hobject, PageItem.object?, Option.guard]

/-- What the loops show is a page. -/
theorem isPage_itemsAfter {entries : List (MetaCacheEntry μ)}
    (hsorted : SortedBy MetaCacheEntry.name entries)
    (hpre : ∀ e ∈ entries, namePrefix <+: e.name) :
    IsPage namePrefix delimiter entries (itemsAfter namePrefix delimiter [] entries) := by
  have hitems : SortedBy PageItem.name (entries.filterMap (itemOf namePrefix delimiter)) := by
    refine List.pairwise_filterMap.mpr ((List.pairwise_iff_forall_sublist.mpr ?_))
    intro e e' hsub item hitem item' hitem'
    exact itemOf_mono (hpre e (hsub.subset List.mem_cons_self))
      (hpre e' (hsub.subset (List.mem_cons_of_mem _ List.mem_cons_self)))
      (List.pairwise_iff_forall_sublist.mp hsorted hsub) hitem hitem'
  have hkeys : (([] : Name) ::
      (entries.filterMap (itemOf namePrefix delimiter)).filterMap PageItem.folder?).Pairwise
        (· ≤ ·) := by
    refine List.pairwise_cons.mpr ⟨fun c _ => le_of_isPrefix List.nil_prefix, ?_⟩
    refine List.pairwise_filterMap.mpr (hitems.imp ?_)
    intro item item' hle c hc c' hc'
    cases item with
    | object e => cases hc
    | folder c =>
      cases hc
      cases item' with
      | object e => cases hc'
      | folder c' =>
        cases hc'
        exact hle
  obtain ⟨hlt, hmem⟩ := keys_dropRepeats hkeys
  constructor
  · rw [itemsAfter, filterMap_dropRepeats (fun item hitem => ?_), filterMap_items_object?]
    cases item with
    | folder c => rfl
    | object e => exact absurd rfl hitem
  · exact (List.pairwise_cons.mp hlt).2.imp ne_of_lt
  · intro c
    rw [itemsAfter, hmem, filterMap_items_folder?, List.mem_filterMap]
    refine ⟨And.left, fun hc => ⟨hc, ?_⟩⟩
    obtain ⟨e, he, hc⟩ := hc
    exact (isPrefix_of_folderOf (hpre e he) hc).2
  · exact hitems.sublist (dropRepeats_sublist _ _ _)

end Items

/-! ## The loops over the entries -/

/-- How a listing reads the metadata of an object: its latest version, and all of them. -/
structure EntryReader (μ : Type) where
  getFileInfo : μ → Name → Except StorageErr FileInfo
  getFileInfoVersions : μ → Name → Except StorageErr (List FileInfo)

def VersionLister.entryReader (v : VersionLister)
    (versionSorter : DescendingSort XlMetaV2Version.modTime) : EntryReader XlMetaV2 where
  getFileInfo z name := z.getFileInfo v.uuid v.bucket (String.ofList name) versionSorter "" false
  getFileInfoVersions := v.getFileInfoVersions

/-- An item whose metadata has been read. -/
inductive ReadItem
  | folder (name : Name)
  | versions (name : Name) (versions : List FileInfo)

namespace ReadItem

def isObject : ReadItem → Bool
  | folder _ => false
  | versions _ _ => true

def after (afterV : String) : ReadItem → ReadItem
  | folder name => folder name
  | versions name fivs => versions name (VersionLister.versionsAfter fivs afterV)

def shown (v : VersionLister) : ReadItem → List ListedObject
  | folder name => [{ name, isDir := true }]
  | versions name fivs => fivs.map (v.toObjectInfo · name)

def cutFirst (afterV : String) (items : List ReadItem) : List ReadItem :=
  (replaceFirst isObject (fun item => some (item.after afterV)) items).getD items

theorem cutFirst_folder (afterV : String) (name : Name) (items : List ReadItem) :
    cutFirst afterV (folder name :: items) = folder name :: cutFirst afterV items := by
  rw [cutFirst, replaceFirst, if_neg (by simp [isObject]), cutFirst]
  cases replaceFirst isObject (fun item => some (item.after afterV)) items <;> rfl

theorem cutFirst_versions (afterV : String) (name : Name) (fivs : List FileInfo)
    (items : List ReadItem) :
    cutFirst afterV (versions name fivs :: items) =
      versions name (VersionLister.versionsAfter fivs afterV) :: items := rfl

theorem cutFirst_empty (items : List ReadItem) : cutFirst "" items = items := by
  induction items with
  | nil => rfl
  | cons item items ih =>
    cases item with
    | folder name => rw [cutFirst_folder, ih]
    | versions name fivs => rfl

end ReadItem

namespace EntryReader

variable {μ : Type} (r : EntryReader μ) (v : VersionLister)

def latest (e : MetaCacheEntry μ) : List ListedObject :=
  match e.metadata with
  | none => []
  | some metadata =>
    match r.getFileInfo metadata e.name with
    | .error _ => []
    | .ok fi => [v.toObjectInfo fi e.name]

/-- `metaCacheEntriesSorted.fileInfos`. -/
def fileInfos (namePrefix delimiter : Name) : Name → List (MetaCacheEntry μ) → List ListedObject
  | _, [] => []
  | prevPrefix, entry :: rest =>
    match folderOf namePrefix delimiter entry.name with
    | some currPrefix =>
      if currPrefix = prevPrefix then fileInfos namePrefix delimiter prevPrefix rest
      else
        { name := currPrefix, isDir := true } ::
          fileInfos namePrefix delimiter currPrefix rest
    | none => r.latest v entry ++ fileInfos namePrefix delimiter prevPrefix rest

/-- `metaCacheEntriesSorted.fileInfoVersions`. -/
def fileInfoVersions (namePrefix delimiter : Name) :
    Name → String → List (MetaCacheEntry μ) → List ListedObject
  | _, _, [] => []
  | prevPrefix, afterV, entry :: rest =>
    match folderOf namePrefix delimiter entry.name, entry.metadata with
    | some currPrefix, _ =>
      if currPrefix = prevPrefix then
        fileInfoVersions namePrefix delimiter prevPrefix afterV rest
      else
        { name := currPrefix, isDir := true } ::
          fileInfoVersions namePrefix delimiter currPrefix afterV rest
    | none, none => fileInfoVersions namePrefix delimiter prevPrefix afterV rest
    | none, some metadata =>
      match r.getFileInfoVersions metadata entry.name with
      | .error _ => fileInfoVersions namePrefix delimiter prevPrefix afterV rest
      | .ok fiVersions =>
        (VersionLister.versionsAfter fiVersions afterV).map (v.toObjectInfo · entry.name) ++
          fileInfoVersions namePrefix delimiter prevPrefix "" rest

def readItem : PageItem μ → Option ReadItem
  | .folder c => some (.folder c)
  | .object e =>
    match e.metadata with
    | none => none
    | some metadata => (r.getFileInfoVersions metadata e.name).toOption.map (.versions e.name)

def latestShown : PageItem μ → List ListedObject
  | .folder name => [{ name, isDir := true }]
  | .object e => r.latest v e

section Loops

variable {r v} {namePrefix delimiter prevPrefix : Name}

theorem itemsAfter_cons_folder {e : MetaCacheEntry μ} {c : Name} (rest : List (MetaCacheEntry μ))
    (hc : folderOf namePrefix delimiter e.name = some c) :
    itemsAfter namePrefix delimiter prevPrefix (e :: rest) =
      if c = prevPrefix then itemsAfter namePrefix delimiter prevPrefix rest
      else .folder c :: itemsAfter namePrefix delimiter c rest := by
  rw [itemsAfter, List.filterMap_cons, itemOf, hc]
  dsimp only
  rw [dropRepeats]
  dsimp only [PageItem.folder?]
  by_cases hsame : c = prevPrefix
  · rw [if_pos hsame, if_pos hsame]
    rfl
  · rw [if_neg hsame, if_neg hsame]
    rfl

theorem itemsAfter_cons_object {e : MetaCacheEntry μ} (rest : List (MetaCacheEntry μ))
    (hc : folderOf namePrefix delimiter e.name = none) :
    itemsAfter namePrefix delimiter prevPrefix (e :: rest) =
      (if e.isObject then [.object e] else []) ++
        itemsAfter namePrefix delimiter prevPrefix rest := by
  rw [itemsAfter, List.filterMap_cons, itemOf, hc]
  cases e.isObject with
  | false => rfl
  | true => rfl

variable (r v namePrefix delimiter prevPrefix)

theorem fileInfos_eq (entries : List (MetaCacheEntry μ)) :
    r.fileInfos v namePrefix delimiter prevPrefix entries =
      (itemsAfter namePrefix delimiter prevPrefix entries).flatMap (r.latestShown v) := by
  induction entries generalizing prevPrefix with
  | nil => rfl
  | cons e rest ih =>
    rw [fileInfos]
    cases hc : folderOf namePrefix delimiter e.name with
    | some c =>
      rw [itemsAfter_cons_folder rest hc]
      dsimp only
      split
      · exact ih prevPrefix
      · rw [ih c]
        rfl
    | none =>
      rw [itemsAfter_cons_object rest hc, List.flatMap_append]
      dsimp only
      rw [ih prevPrefix]
      cases hmetadata : e.metadata with
      | none => simp [latest, MetaCacheEntry.isObject, hmetadata]
      | some metadata => simp [MetaCacheEntry.isObject, hmetadata, latestShown]

/-- `fileInfoVersions` shows the items that can be read, the first object from behind
the id on. -/
theorem fileInfoVersions_eq (afterV : String) (entries : List (MetaCacheEntry μ)) :
    r.fileInfoVersions v namePrefix delimiter prevPrefix afterV entries =
      (ReadItem.cutFirst afterV
        ((itemsAfter namePrefix delimiter prevPrefix entries).filterMap r.readItem)).flatMap
          (ReadItem.shown v) := by
  induction entries generalizing prevPrefix afterV with
  | nil => rfl
  | cons e rest ih =>
    rw [fileInfoVersions]
    cases hc : folderOf namePrefix delimiter e.name with
    | some c =>
      rw [itemsAfter_cons_folder rest hc]
      dsimp only
      split
      · exact ih prevPrefix afterV
      · rw [ih c afterV, List.filterMap_cons]
        dsimp only [readItem]
        rw [ReadItem.cutFirst_folder]
        rfl
    | none =>
      rw [itemsAfter_cons_object rest hc]
      cases hmetadata : e.metadata with
      | none =>
        rw [if_neg (by simp [MetaCacheEntry.isObject, hmetadata]), List.nil_append]
        exact ih prevPrefix afterV
      | some metadata =>
        rw [if_pos (by simp [MetaCacheEntry.isObject, hmetadata]), List.singleton_append,
          List.filterMap_cons, readItem, hmetadata]
        dsimp only
        cases r.getFileInfoVersions metadata e.name with
        | error err => exact ih prevPrefix afterV
        | ok fivs =>
          dsimp only [Except.toOption, Option.map_some]
          rw [ReadItem.cutFirst_versions, ih prevPrefix "", ReadItem.cutFirst_empty]
          rfl

end Loops

end EntryReader

theorem VersionLister.fileInfoVersions_eq_entryReader (v : VersionLister)
    (versionSorter : DescendingSort XlMetaV2Version.modTime)
    (namePrefix delimiter prevPrefix : Name) (afterV : String)
    (entries : List (MetaCacheEntry XlMetaV2)) :
    v.fileInfoVersions namePrefix delimiter prevPrefix afterV entries =
      (v.entryReader versionSorter).fileInfoVersions v namePrefix delimiter prevPrefix afterV
        entries := by
  induction entries generalizing prevPrefix afterV with
  | nil => rfl
  | cons e rest ih =>
    rw [VersionLister.fileInfoVersions, EntryReader.fileInfoVersions]
    simp only [ih]
    rw [← folderOf]
    cases folderOf namePrefix delimiter e.name with
    | some c => rfl
    | none =>
      cases e.metadata with
      | none => rfl
      | some z =>
        cases hv : v.getFileInfoVersions z e.name <;>
          simp only [VersionLister.entryReader, hv]

/-! ## Pages -/

/-- Both loops show a page of the entries that a list has in range. -/
theorem EntryReader.shows_page {μ : Type} (r : EntryReader μ) (v : VersionLister)
    {o page : List (MetaCacheEntry μ)} (namePrefix marker delimiter : Name)
    (hsorted : SortedBy MetaCacheEntry.name o)
    (hpage : page = forwardTo marker (filterPrefix namePrefix o) ∨
      page = filterPrefix namePrefix (forwardTo marker o)) :
    ∃ items, IsPage namePrefix delimiter (inRange namePrefix marker o) items ∧
      r.fileInfos v namePrefix delimiter [] page = items.flatMap (r.latestShown v) ∧
      ∀ afterV, r.fileInfoVersions v namePrefix delimiter [] afterV page =
        (ReadItem.cutFirst afterV (items.filterMap r.readItem)).flatMap (ReadItem.shown v) := by
  have hrange : page = inRange namePrefix marker o := by
    rcases hpage with rfl | rfl
    · exact forwardTo_filterPrefix namePrefix marker hsorted
    · exact filterPrefix_forwardTo namePrefix marker hsorted
  rw [hrange]
  refine ⟨itemsAfter namePrefix delimiter [] (inRange namePrefix marker o), ?_, ?_, ?_⟩
  · refine isPage_itemsAfter (hsorted.filter _) fun e he => ?_
    exact ((mem_inRange namePrefix marker).mp he).2.1
  · exact r.fileInfos_eq v namePrefix delimiter [] _
  · intro afterV
    exact r.fileInfoVersions_eq v namePrefix delimiter [] afterV _

def EntryReader.ShowsPast {μ : Type} (r : EntryReader μ) (v : VersionLister) : Prop :=
  ∀ (o : List (MetaCacheEntry μ)) (namePrefix marker delimiter : Name),
    SortedBy MetaCacheEntry.name o →
      let page := forwardTo marker (filterPrefix namePrefix o)
      ∃ items, IsPage namePrefix delimiter
          (o.filter fun e => e.hasPrefix namePrefix && decide (marker < e.name)) items ∧
        r.fileInfos v namePrefix delimiter [] page = items.flatMap (r.latestShown v) ∧
        ∀ afterV, r.fileInfoVersions v namePrefix delimiter [] afterV page =
          (ReadItem.cutFirst afterV (items.filterMap r.readItem)).flatMap (ReadItem.shown v)

theorem IsPage.eq_nil {μ : Type} {namePrefix delimiter : Name} {items : List (PageItem μ)}
    (hpage : IsPage namePrefix delimiter [] items) : items = [] := by
  refine List.eq_nil_iff_forall_not_mem.mpr fun item hitem => ?_
  cases item with
  | folder c =>
    have hc : c ∈ items.filterMap PageItem.folder? := List.mem_filterMap.mpr ⟨_, hitem, rfl⟩
    obtain ⟨e, he, -⟩ := (hpage.folders c).mp hc
    cases he
  | object e =>
    have he : e ∈ items.filterMap PageItem.object? := List.mem_filterMap.mpr ⟨_, hitem, rfl⟩
    rw [hpage.objects] at he
    cases he

namespace EntryReader

open VersionLister

def versioned : EntryReader XlMetaV2 := versionedLister.entryReader (.stable _)

theorem a_named : ['a'] ≠ ([] : Name) := List.cons_ne_nil _ _

theorem bc_named : ['b', '/', 'c'] ≠ ([] : Name) := List.cons_ne_nil _ _

def aAndB : List (MetaCacheEntry XlMetaV2) :=
  [journalEntry ['a'] a_named twoVersions, journalEntry ['b', '/', 'c'] bc_named twoVersions]

theorem aAndB_sorted : SortedBy MetaCacheEntry.name aAndB := by decide

/-- A page from the first object on has it, and the folder of the other. -/
theorem aAndB_shows_page :
    ∃ items, IsPage [] slashSeparator (inRange [] ['a'] aAndB) items ∧
      versioned.fileInfos versionedLister [] slashSeparator []
          (forwardTo ['a'] (filterPrefix [] aAndB)) =
        items.flatMap (versioned.latestShown versionedLister) ∧
      ∀ afterV, versioned.fileInfoVersions versionedLister [] slashSeparator [] afterV
          (forwardTo ['a'] (filterPrefix [] aAndB)) =
        (ReadItem.cutFirst afterV (items.filterMap versioned.readItem)).flatMap
          (ReadItem.shown versionedLister) :=
  versioned.shows_page versionedLister [] ['a'] slashSeparator aAndB_sorted (Or.inl rfl)

/-- An object that the marker names is listed again. -/
theorem not_showsPast : ¬ versioned.ShowsPast versionedLister := by
  intro hpast
  obtain ⟨items, hitems, hshown, -⟩ := hpast [journalEntry ['a'] (by decide) twoVersions]
    [] ['a'] [] (List.pairwise_singleton _ _)
  have hnil : items = [] := hitems.eq_nil
  rw [hnil, forwardTo_filterPrefix [] ['a'] (List.pairwise_singleton _ _)] at hshown
  exact absurd hshown (by decide)

end EntryReader

end Fs3.Listing
