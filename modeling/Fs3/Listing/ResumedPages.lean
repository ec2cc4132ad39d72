import Fs3.Listing.VersionPages

/-! # Where a page starts

What the markers of the page before select from the versions of one object: behind the version they
name, if the journal knows it under its printed id. -/

namespace Fs3.Listing

open Foundation

/-- What a listing of an object's versions is known to be. -/
structure VersionLister.Lists (v : VersionLister) (e : MetaCacheEntry XlMetaV2)
    (versions : List FileInfo) : Prop where
  ok : ∃ z, e.metadata = some z ∧ v.getFileInfoVersions z e.name = .ok versions
  ne : versions ≠ []
  nodup : (versions.map FileInfo.versionID).Nodup
  nullOnce : "" ∈ versions.map FileInfo.versionID →
    nullVersionID ∉ versions.map FileInfo.versionID
  newestFirst : versions.Pairwise fun fi fi' => fi'.modTime ≤ fi.modTime
  journal : (versions.map fun fi => (e.name, fi.toObjectInfo v.versioning)).Perm
    (v.journalVersions e)

section Journal

variable {uuid : UuidPackage} {volume path : String} {z : XlMetaV2}

theorem nodup_versionIDs (hwell : z.WellFormed) :
    (z.versions.map fun version => (version.fileInfo uuid volume path).versionID).Nodup := by
  refine List.Nodup.of_map (parseVersionID uuid) ?_
  have huuid : (z.versions.map fun version =>
      (version.fileInfo uuid volume path).versionID).map (parseVersionID uuid) =
        (z.versions.map XlMetaV2Version.uuid).map some := by
    rw [List.map_map, List.map_map]
    exact List.map_congr_left fun version hmem =>
      XlMetaV2.parseVersionID_fileInfo (hwell.allValid version hmem)
  rw [huuid]
  exact hwell.nodup.map (Option.some_injective _)

theorem not_both_null (hwell : z.WellFormed)
    (hempty : "" ∈ z.versions.map fun version => (version.fileInfo uuid volume path).versionID) :
    nullVersionID ∉ z.versions.map fun version =>
      (version.fileInfo uuid volume path).versionID := by
  intro hnull
  obtain ⟨version, hmem, hid⟩ := List.mem_map.mp hempty
  obtain ⟨version', hmem', hid'⟩ := List.mem_map.mp hnull
  have huuid := @XlMetaV2.parseVersionID_fileInfo uuid volume path _
    (hwell.allValid version hmem)
  have huuid' := @XlMetaV2.parseVersionID_fileInfo uuid volume path _
    (hwell.allValid version' hmem')
  rw [hid, parseVersionID_empty] at huuid
  rw [hid', parseVersionID_null] at huuid'
  have hsame := List.inj_on_of_nodup_map hwell.nodup hmem hmem'
    (Option.some.inj (huuid.symm.trans huuid'))
  rw [← hsame, hid] at hid'
  exact absurd hid' (by decide)

end Journal

namespace VersionLister

variable {v : VersionLister} {b : VersionedBucket}

theorem exists_lists {e : MetaCacheEntry XlMetaV2} (he : e ∈ b.objects) :
    ∃ versions, v.Lists e versions := by
  obtain ⟨hstream, hobject⟩ := List.mem_filter.mp he
  obtain ⟨z, hz⟩ := Option.isSome_iff_exists.mp hobject
  obtain ⟨hwell, hne⟩ := b.readable e hstream z hz
  obtain ⟨versions, modTime, hok, hversions, hperm, htimes⟩ :=
    @XlMetaV2.listVersions_of_wellFormed v.uuid v.bucket (String.ofList e.name) z v.sorter hwell hne
  have hids := hperm.map FileInfo.versionID
  rw [List.map_map, List.map_map] at hids
  have hlisted : versions.map (FileInfo.versionID ∘ FileInfo.static) =
      versions.map FileInfo.versionID := rfl
  rw [hlisted] at hids
  refine ⟨versions, ⟨z, hz, ?_⟩, hversions, ?_, fun hempty hnull => ?_, htimes, ?_⟩
  · rw [getFileInfoVersions, hok]
    rfl
  · exact hids.nodup_iff.mpr (nodup_versionIDs hwell)
  · exact not_both_null hwell (hids.mem_iff.mp hempty) (hids.mem_iff.mp hnull)
  · have hinfos := hperm.map fun fi => (e.name, fi.toObjectInfo v.versioning)
    rw [List.map_map, List.map_map] at hinfos
    rw [journalVersions, hz]
    exact hinfos

theorem Lists.storedVersions {e : MetaCacheEntry XlMetaV2} {versions : List FileInfo}
    (h : v.Lists e versions) : v.storedVersions e = versions.map (StoredVersion.mk e.name) := by
  obtain ⟨z, hz, hok⟩ := h.ok
  simp only [VersionLister.storedVersions, hz, hok]

theorem storedVersions_ne_nil {e : MetaCacheEntry XlMetaV2} (he : e ∈ b.objects) :
    v.storedVersions e ≠ [] := by
  obtain ⟨versions, hlists⟩ := @exists_lists v b e he
  rw [hlists.storedVersions]
  exact fun hnil => hlists.ne (List.map_eq_nil_iff.mp hnil)

section After

variable {versions before rest : List FileInfo} {last : FileInfo}

theorem versionsAfter_versionID (hsplit : versions = before ++ last :: rest)
    (hnodup : (versions.map FileInfo.versionID).Nodup) (hid : last.versionID ≠ "") :
    versionsAfter versions last.versionID = rest := by
  have hbefore : ∀ fi ∈ before, fi.versionID ≠ last.versionID := by
    intro fi hmem heq
    rw [hsplit, List.map_append, List.map_cons] at hnodup
    exact List.disjoint_left.mp (List.nodup_append'.mp hnodup).2.2
      (List.mem_map_of_mem hmem) (heq ▸ List.mem_cons_self)
  have hfind : findVersionIndex versions last.versionID = some before.length := by
    rw [findVersionIndex, if_neg hid, hsplit, List.findIdx?_append, List.findIdx?_cons,
      if_pos (beq_self_eq_true _)]
    rw [List.findIdx?_eq_none_iff.mpr fun fi hmem => beq_eq_false_iff_ne.mpr (hbefore fi hmem)]
    simp
  rw [versionsAfter, hfind, hsplit]
  change (before ++ last :: rest).drop (before.length + 1) = rest
  rw [List.drop_append, List.drop_eq_nil_of_le (Nat.le_succ _), List.nil_append,
    Nat.add_sub_cancel_left]
  rfl

theorem versionsAfter_of_not_mem {id : String} (hid : id ∉ versions.map FileInfo.versionID) :
    versionsAfter versions id = versions := by
  have hfind : findVersionIndex versions id = none := by
    rw [findVersionIndex]
    split
    next => rfl
    next =>
      refine List.findIdx?_eq_none_iff.mpr fun fi hmem => beq_eq_false_iff_ne.mpr fun heq => ?_
      exact hid (heq ▸ List.mem_map_of_mem hmem)
  rw [versionsAfter, hfind]

end After

end VersionLister

/-! ## The entries of a page -/

namespace VersionLister

variable {b : VersionedBucket}

theorem filter_keeps (marker : Name) (limit : Int) :
    b.stream.filter (listPathOptions [] marker [] limit true).keeps =
      b.objects.filter fun e => decide (marker ≤ e.name) := by
  rw [VersionedBucket.objects, List.filter_filter]
  refine List.filter_congr fun e _ => ?_
  rw [Bool.eq_iff_iff, ListPathOptions.keeps_iff]
  simp [listPathOptions, slashSeparator, and_comm]

theorem listPath_eq (marker : Name) {limit : Int} (hlimit : 0 < limit) :
    listPath b.stream [] marker [] limit true =
      ((b.objects.filter fun e => decide (marker ≤ e.name)).take limit.toNat,
        decide ((b.objects.filter fun e => decide (marker ≤ e.name)).length ≤ limit.toNat)) := by
  have hslash : ¬ slashSeparator.isPrefixOf ([] : Name) = true := by decide
  have hlimit' : (listPathOptions [] marker [] limit true).limit = limit := rfl
  rw [listPath, if_neg (fun h => h.2.1 rfl), if_neg hlimit.ne', if_neg hslash,
    ListPathOptions.gatherResults]
  refine Prod.ext ?_ ?_
  · rw [ListPathOptions.gatherLoop_fst _ hlimit _ (Nat.zero_le _), filter_keeps, hlimit',
      List.nil_append]
  · rw [ListPathOptions.gatherLoop_snd _ hlimit _ (Nat.zero_le _), filter_keeps, hlimit',
      List.length_nil, Nat.zero_add]

theorem objects_sorted : b.objects.Pairwise fun e e' => e.name < e'.name :=
  b.sorted.filter _

variable {earlier later : List (MetaCacheEntry XlMetaV2)} {e : MetaCacheEntry XlMetaV2}

theorem filter_le_name (hsplit : b.objects = earlier ++ e :: later) :
    (b.objects.filter fun e' => decide (e.name ≤ e'.name)) = e :: later := by
  have hsorted := @objects_sorted b
  rw [hsplit] at hsorted
  obtain ⟨-, htail, hbefore⟩ := List.pairwise_append.mp hsorted
  have hfrom := (List.pairwise_cons.mp htail).1
  rw [hsplit, List.filter_append, List.filter_eq_nil_iff.mpr, List.nil_append,
    List.filter_eq_self.mpr]
  · intro e' he'
    rcases List.mem_cons.mp he' with rfl | he'
    · exact decide_eq_true le_rfl
    · exact decide_eq_true (hfrom e' he').le
  · intro e' he'
    rw [decide_eq_true_iff, ← name_not_lt, not_not]
    exact hbefore e' he' e List.mem_cons_self

theorem forwardPast_cons (hsplit : b.objects = earlier ++ e :: later) (n : Nat) :
    forwardPast e.name (e :: later.take n) = later.take n := by
  have hsorted := @objects_sorted b
  rw [hsplit] at hsorted
  have hfrom := (List.pairwise_cons.mp (List.pairwise_append.mp hsorted).2.1).1
  rw [forwardPast, if_neg e.named, List.dropWhile_cons, if_pos (decide_eq_true le_rfl)]
  cases htake : later.take n with
  | nil => rfl
  | cons e' rest =>
    rw [List.dropWhile_cons, if_neg]
    rw [decide_eq_true_iff, ← name_not_lt, not_not]
    exact hfrom e' (List.mem_of_mem_take (htake ▸ List.mem_cons_self))

variable {v : VersionLister}

theorem fileInfoVersions_cons {versions : List FileInfo} (hlists : v.Lists e versions)
    (id : String) (rest : List (MetaCacheEntry XlMetaV2)) :
    v.fileInfoVersions [] [] [] id (e :: rest) =
      ((versionsAfter versions id).map (StoredVersion.mk e.name)).map v.shown ++
        v.fileInfoVersions [] [] [] "" rest := by
  obtain ⟨z, hz, hok⟩ := hlists.ok
  rw [VersionLister.fileInfoVersions]
  simp only [if_true, hz, hok, List.map_map]
  rfl

theorem fileInfoVersions_eq {entries : List (MetaCacheEntry XlMetaV2)}
    (hentries : ∀ e ∈ entries, e ∈ b.objects) :
    v.fileInfoVersions [] [] [] "" entries = (entries.flatMap v.storedVersions).map v.shown := by
  induction entries with
  | nil => rfl
  | cons e rest ih =>
    obtain ⟨versions, hlists⟩ := @VersionLister.exists_lists v b e
      (hentries e List.mem_cons_self)
    have hall : versionsAfter versions "" = versions := rfl
    rw [fileInfoVersions_cons hlists, hall, ← hlists.storedVersions,
      ih fun e' he' => hentries e' (List.mem_cons_of_mem _ he'), List.flatMap_cons,
      List.map_append]

end VersionLister

/-! ## The page of a place -/

namespace PagePlace

variable (v : VersionLister) (maxKeys : Int) (p : PagePlace)

def objectLimit : Nat := (maxKeysPlusOne maxKeys false).toNat

def info : ListObjectVersionsInfo where
  isTruncated := p.Truncated v maxKeys
  nextMarker :=
    if p.Truncated v maxKeys then
      (p.page v maxKeys).getLast?.elim [] fun last => (v.shown last).name
    else []
  nextVersionIDMarker :=
    if p.Truncated v maxKeys then
      (p.page v maxKeys).getLast?.elim "" fun last => (v.shown last).versionID
    else ""
  objects := (p.page v maxKeys).map v.shown
  prefixes := []

def ResumesAt (b : VersionedBucket) (marker : Name) (versionMarker : String) : Prop :=
  v.listObjectVersions b.stream [] marker versionMarker [] maxKeys = some (p.info v maxKeys)

variable {v maxKeys p} {b : VersionedBucket}

theorem one_le_objectLimit (hkeys : 1 ≤ maxKeys) : 1 ≤ objectLimit maxKeys := by
  unfold objectLimit maxKeysPlusOne maxObjectList
  simp only [Bool.false_eq_true, if_false]
  split <;> omega

theorem remaining_eq :
    p.remaining v =
      p.window v maxKeys ++ (p.later.drop (objectLimit maxKeys)).flatMap v.storedVersions := by
  rw [remaining, window, List.append_assoc, ← List.flatMap_append, objectLimit,
    List.take_append_drop]

/-- What is left is cut off by the page's length, or more objects follow. -/
theorem truncated_iff (hkeys : 1 ≤ maxKeys) (hlater : ∀ e ∈ p.later, e ∈ b.objects) :
    p.Truncated v maxKeys ↔
      maxKeys < (p.window v maxKeys).length ∨
        objectLimit maxKeys < p.later.length ∧ p.window v maxKeys ≠ [] := by
  have hlimit := one_le_objectLimit hkeys
  have hlength : (p.remaining v).length = (p.window v maxKeys).length +
      ((p.later.drop (objectLimit maxKeys)).flatMap v.storedVersions).length := by
    rw [remaining_eq, List.length_append]
  have hrest : 0 < ((p.later.drop (objectLimit maxKeys)).flatMap v.storedVersions).length ↔
      objectLimit maxKeys < p.later.length := by
    have hdropped := @List.length_drop _ (objectLimit maxKeys) p.later
    cases hdrop : p.later.drop (objectLimit maxKeys) with
    | nil =>
      rw [hdrop, List.length_nil] at hdropped
      simp only [List.flatMap_nil, List.length_nil]
      omega
    | cons e rest =>
      rw [hdrop, List.length_cons] at hdropped
      have hmem : e ∈ p.later := List.mem_of_mem_drop (hdrop ▸ List.mem_cons_self)
      have hne := List.length_pos_iff.mpr
        (@VersionLister.storedVersions_ne_nil v b e (hlater e hmem))
      simp only [List.flatMap_cons, List.length_append]
      omega
  have hwindow : objectLimit maxKeys < p.later.length → p.window v maxKeys ≠ [] := by
    intro hlt hnil
    cases hl : p.later with
    | nil =>
      rw [hl, List.length_nil] at hlt
      exact absurd hlt (Nat.not_lt_zero _)
    | cons e rest =>
      obtain ⟨k, hk⟩ := Nat.exists_eq_add_of_le' hlimit
      rw [window, ← objectLimit, hl, hk, List.take_succ_cons, List.flatMap_cons] at hnil
      exact @VersionLister.storedVersions_ne_nil v b e (hlater e (hl ▸ List.mem_cons_self))
        (List.append_eq_nil_iff.mp (List.append_eq_nil_iff.mp hnil).2).1
  rw [Truncated, page, List.length_take, hlength]
  constructor
  · intro hlt
    by_cases hcut : maxKeys < (p.window v maxKeys).length
    · exact Or.inl hcut
    · have hmore := hrest.mp (by omega)
      exact Or.inr ⟨hmore, hwindow hmore⟩
  · rintro (hcut | ⟨hmore, -⟩)
    · omega
    · have := hrest.mpr hmore
      omega

/-- The page that is made of the entries at a place. -/
theorem pageInfo_window (hkeys : 1 ≤ maxKeys) (hlater : ∀ e ∈ p.later, e ∈ b.objects) :
    pageInfo [] maxKeys (decide (p.later.length ≤ objectLimit maxKeys))
      ((p.window v maxKeys).map v.shown) = p.info v maxKeys := by
  have htruncated := @truncated_iff v maxKeys p b hkeys hlater
  have hpage : (if 0 < maxKeys ∧ maxKeys < ((p.window v maxKeys).map v.shown).length then
      ((p.window v maxKeys).map v.shown).take maxKeys.toNat
    else (p.window v maxKeys).map v.shown) = (p.page v maxKeys).map v.shown := by
    rw [page, List.map_take]
    split
    next => rfl
    next hall =>
      refine (List.take_of_length_le ?_).symm
      rw [not_and] at hall
      have := hall (by omega)
      omega
  have hcut : (decide (0 < maxKeys ∧ maxKeys < ((p.window v maxKeys).map v.shown).length) ||
      (!decide (p.later.length ≤ objectLimit maxKeys) &&
        (p.window v maxKeys).map v.shown != [])) = decide (p.Truncated v maxKeys) := by
    rw [Bool.eq_iff_iff]
    simp only [Bool.or_eq_true, Bool.and_eq_true, decide_eq_true_eq, Bool.not_eq_true',
      decide_eq_false_iff_not, not_le, bne_iff_ne, ne_eq, List.map_eq_nil_iff, List.length_map,
      htruncated]
    constructor
    · rintro (⟨-, hlt⟩ | hmore)
      · exact Or.inl hlt
      · exact Or.inr hmore
    · rintro (hlt | hmore)
      · exact Or.inl ⟨by omega, hlt⟩
      · exact Or.inr hmore
  unfold pageInfo info
  simp only [decide_eq_true_eq, hpage, hcut]
  simp [List.getLast?_map]
  constructor <;> split <;> rfl

theorem resumesAt_of_window (hkeys : 1 ≤ maxKeys) (hlater : ∀ e ∈ p.later, e ∈ b.objects)
    {marker : Name} {versionMarker : String} (hmarker : marker = [] → versionMarker = "")
    {merged : List (MetaCacheEntry XlMetaV2)}
    (hpath : listPath b.stream [] marker [] (maxKeysPlusOne maxKeys (marker ≠ [])) true =
      (merged, decide (p.later.length ≤ objectLimit maxKeys)))
    (hwindow : v.fileInfoVersions [] [] [] versionMarker
      (if versionMarker = "" then forwardPast marker merged else merged) =
        (p.window v maxKeys).map v.shown) :
    ResumesAt v maxKeys p b marker versionMarker := by
  rw [ResumesAt, VersionLister.listObjectVersions, if_neg fun h => h.2 (hmarker h.1), hpath]
  simp only
  rw [hwindow, pageInfo_window hkeys hlater]

theorem resumesAt_start (hkeys : 1 ≤ maxKeys) : ResumesAt v maxKeys (start b) b [] "" := by
  have hlimit := one_le_objectLimit hkeys
  have hall : (b.objects.filter fun e => decide ([] ≤ e.name)) = b.objects :=
    List.filter_eq_self.mpr fun e _ => decide_eq_true (le_of_isPrefix List.nil_prefix)
  have hpath := @VersionLister.listPath_eq b [] (maxKeysPlusOne maxKeys false)
    (by unfold objectLimit at hlimit; omega)
  rw [hall] at hpath
  refine resumesAt_of_window hkeys (fun e he => he) (fun _ => rfl) hpath ?_
  rw [if_pos rfl, forwardPast, if_pos rfl,
    VersionLister.fileInfoVersions_eq fun e he => List.mem_of_mem_take he]
  rfl

section Object

variable {earlier later : List (MetaCacheEntry XlMetaV2)} {e : MetaCacheEntry XlMetaV2}

theorem listPath_of_split (hkeys : 1 ≤ maxKeys) (hsplit : b.objects = earlier ++ e :: later) :
    listPath b.stream [] e.name [] (maxKeysPlusOne maxKeys (e.name ≠ [])) true =
      (e :: later.take (objectLimit maxKeys),
        decide (later.length ≤ objectLimit maxKeys)) := by
  have hlimit := one_le_objectLimit hkeys
  have hplus : maxKeysPlusOne maxKeys (e.name ≠ []) = maxKeysPlusOne maxKeys false + 1 := by
    rw [decide_eq_true e.named]
    rfl
  have hnat : (maxKeysPlusOne maxKeys false + 1).toNat = objectLimit maxKeys + 1 := by
    unfold objectLimit at hlimit ⊢
    omega
  rw [hplus, VersionLister.listPath_eq _ (by unfold objectLimit at hlimit; omega),
    VersionLister.filter_le_name hsplit, hnat, List.take_succ_cons, List.length_cons,
    decide_eq_decide.mpr Nat.succ_le_succ_iff]

theorem mem_objects_of_split (hsplit : b.objects = earlier ++ e :: later) :
    ∀ e' ∈ later, e' ∈ b.objects := by
  intro e' he'
  rw [hsplit]
  exact List.mem_append_right _ (List.mem_cons_of_mem _ he')

theorem resumesAt_object (hkeys : 1 ≤ maxKeys) (hsplit : b.objects = earlier ++ e :: later)
    {versions : List FileInfo} (hlists : v.Lists e versions) {id : String} (hid : id ≠ "")
    (done : List StoredVersion) :
    ResumesAt v maxKeys
      ⟨done, (VersionLister.versionsAfter versions id).map (StoredVersion.mk e.name), later⟩ b
        e.name id := by
  refine resumesAt_of_window hkeys (mem_objects_of_split hsplit) (fun h => absurd h e.named)
    (listPath_of_split hkeys hsplit) ?_
  rw [if_neg hid, VersionLister.fileInfoVersions_cons hlists,
    VersionLister.fileInfoVersions_eq fun e' he' =>
      mem_objects_of_split hsplit e' (List.mem_of_mem_take he'), ← List.map_append]
  rfl

theorem resumesAt_past (hkeys : 1 ≤ maxKeys) (hsplit : b.objects = earlier ++ e :: later)
    (done : List StoredVersion) : ResumesAt v maxKeys ⟨done, [], later⟩ b e.name "" := by
  refine resumesAt_of_window hkeys (mem_objects_of_split hsplit) (fun _ => rfl)
    (listPath_of_split hkeys hsplit) ?_
  rw [if_pos rfl, VersionLister.forwardPast_cons hsplit,
    VersionLister.fileInfoVersions_eq fun e' he' =>
      mem_objects_of_split hsplit e' (List.mem_of_mem_take he')]
  rfl

end Object

end PagePlace

end Fs3.Listing

/-! ## Listing all versions page by page

A client that takes up each page where the one before it ended is shown every
version once, and comes to an end. The markers take up a page there unless the
version before it has no id in the journal; then a version is shown twice, over and
over, or never.
-/

namespace Fs3.Listing

open Foundation

namespace PagePlace

variable {v : VersionLister} {maxKeys : Int} {b : VersionedBucket} {p : PagePlace}

/-- The place is behind a version that is listed, and these are all before it. -/
structure Follows (v : VersionLister) (b : VersionedBucket) (p : PagePlace)
    (listed : List StoredVersion) : Prop where
  split : ∃ earlier e, b.objects = earlier ++ e :: p.later ∧
    v.storedVersions e = p.done ++ p.left ∧ listed = earlier.flatMap v.storedVersions ++ p.done
  done_ne : p.done ≠ []

def Reached (v : VersionLister) (b : VersionedBucket) (p : PagePlace)
    (listed : List StoredVersion) : Prop :=
  p = start b ∧ listed = [] ∨ p.Follows v b listed

theorem Reached.listed_append {listed : List StoredVersion} (h : p.Reached v b listed) :
    listed ++ p.remaining v = b.objects.flatMap v.storedVersions := by
  rcases h with ⟨rfl, rfl⟩ | h
  · rfl
  · obtain ⟨earlier, e, hsplit, hstored, rfl⟩ := h.split
    rw [hsplit, List.flatMap_append, List.flatMap_cons, hstored, remaining]
    simp only [List.append_assoc]

theorem Reached.later_subset {listed : List StoredVersion} (h : p.Reached v b listed) :
    ∀ e ∈ p.later, e ∈ b.objects := by
  rcases h with ⟨rfl, rfl⟩ | h
  · exact fun e he => he
  · obtain ⟨earlier, e, hsplit, -⟩ := h.split
    exact mem_objects_of_split hsplit

/-- After some versions more a place is behind the last one of them. -/
theorem follows_after {later : List (MetaCacheEntry XlMetaV2)} {n : Nat}
    {done left listed : List StoredVersion} (earlier : List (MetaCacheEntry XlMetaV2))
    (hn : 0 < n) (hle : n ≤ (left ++ later.flatMap v.storedVersions).length)
    (hsplit : b.objects = earlier ++ later)
    (hearlier : earlier.flatMap v.storedVersions = listed ++ left)
    (hleft : left ≠ [] → ∃ before e, earlier = before ++ [e] ∧
      v.storedVersions e = done ++ left ∧ listed = before.flatMap v.storedVersions ++ done) :
    (after v n done left later).Follows v b
      (listed ++ (left ++ later.flatMap v.storedVersions).take n) := by
  -- The versions that are still left of the object in hand.
  have hwithin : ∀ {later : List (MetaCacheEntry XlMetaV2)} {n : Nat}
      {done left listed : List StoredVersion} {earlier : List (MetaCacheEntry XlMetaV2)},
      0 < n → n ≤ left.length → b.objects = earlier ++ later →
      (left ≠ [] → ∃ before e, earlier = before ++ [e] ∧ v.storedVersions e = done ++ left ∧
        listed = before.flatMap v.storedVersions ++ done) →
      Follows v b ⟨done ++ left.take n, left.drop n, later⟩
        (listed ++ (left ++ later.flatMap v.storedVersions).take n) := by
    intro later n done left listed earlier hn hle hsplit hleft
    have hne : left ≠ [] := by
      rw [← List.length_pos_iff]
      omega
    obtain ⟨before, e, rfl, hstored, rfl⟩ := hleft hne
    refine ⟨⟨before, e, ?_, ?_, ?_⟩, ?_⟩
    · rw [hsplit, List.append_assoc]
      rfl
    · rw [hstored, List.append_assoc, List.take_append_drop]
    · rw [List.take_append_of_le_length hle, List.append_assoc]
    · have htake : left.take n ≠ [] := by
        rw [← List.length_pos_iff, List.length_take]
        omega
      exact fun hnil => htake (List.append_eq_nil_iff.mp hnil).2
  induction later generalizing n done left listed earlier with
  | nil =>
    rw [List.flatMap_nil, List.append_nil] at hle
    exact hwithin hn hle hsplit hleft
  | cons e later ih =>
    rw [after]
    split
    next hshort => exact hwithin hn hshort hsplit hleft
    next hlong =>
      rw [not_le] at hlong
      have htake : (left ++ (e :: later).flatMap v.storedVersions).take n =
          left ++ (v.storedVersions e ++ later.flatMap v.storedVersions).take
            (n - left.length) := by
        rw [List.flatMap_cons, List.take_append, List.take_of_length_le hlong.le]
      rw [htake, ← List.append_assoc]
      rw [List.flatMap_cons, List.length_append] at hle
      refine ih (earlier ++ [e]) (by omega) (by omega) ?_ ?_ fun _ => ⟨earlier, e, rfl, rfl, ?_⟩
      · rw [hsplit, List.append_assoc]
        rfl
      · rw [List.flatMap_append, hearlier, List.flatMap_singleton]
      · rw [hearlier, List.append_nil]

theorem page_eq_take : p.page v maxKeys = (p.remaining v).take (p.page v maxKeys).length := by
  refine List.prefix_iff_eq_take.mp ?_
  rw [@remaining_eq v maxKeys p]
  exact (List.take_prefix _ _).trans (List.prefix_append _ _)

theorem page_ne_nil (hkeys : 1 ≤ maxKeys) (hlater : ∀ e ∈ p.later, e ∈ b.objects)
    (htruncated : p.Truncated v maxKeys) : p.page v maxKeys ≠ [] := by
  have hwindow : p.window v maxKeys ≠ [] := by
    rcases (truncated_iff hkeys hlater).mp htruncated with hlt | ⟨-, hne⟩
    · rw [← List.length_pos_iff]
      omega
    · exact hne
  rw [← List.length_pos_iff] at hwindow ⊢
  rw [page, List.length_take]
  omega

theorem Reached.follows_afterPage {listed : List StoredVersion} (hkeys : 1 ≤ maxKeys)
    (h : p.Reached v b listed) (htruncated : p.Truncated v maxKeys) :
    (p.afterPage v maxKeys).Follows v b (listed ++ p.page v maxKeys) := by
  have hpos := List.length_pos_iff.mpr (page_ne_nil hkeys h.later_subset htruncated)
  rw [afterPage]
  conv =>
    enter [4, 2]
    rw [page_eq_take]
  rcases h with ⟨rfl, rfl⟩ | h
  · exact follows_after [] hpos htruncated.le rfl rfl fun hne => absurd rfl hne
  · obtain ⟨earlier, e, hsplit, hstored, hlisted⟩ := h.split
    refine follows_after (earlier ++ [e]) hpos htruncated.le ?_ ?_ fun _ =>
      ⟨earlier, e, rfl, hstored, hlisted⟩
    · rw [hsplit, List.append_assoc]
      rfl
    · rw [List.flatMap_append, List.flatMap_singleton, hstored, hlisted, List.append_assoc]

theorem Between.reached (hkeys : 1 ≤ maxKeys) (hp : Between v maxKeys b p) :
    ∃ listed, p.Reached v b listed := by
  induction hp with
  | start => exact ⟨[], Or.inl ⟨rfl, rfl⟩⟩
  | next hp htruncated ih =>
    obtain ⟨listed, hreached⟩ := ih
    exact ⟨_, Or.inr (hreached.follows_afterPage hkeys htruncated)⟩

theorem Reached.nextMarkers {listed : List StoredVersion} (hkeys : 1 ≤ maxKeys)
    (h : p.Reached v b listed) (htruncated : p.Truncated v maxKeys) :
    ∃ last ∈ (p.afterPage v maxKeys).done.getLast?,
      (p.info v maxKeys).nextMarker = (v.shown last).name ∧
        (p.info v maxKeys).nextVersionIDMarker = (v.shown last).versionID := by
  have hfollows := h.follows_afterPage hkeys htruncated
  obtain ⟨earlier, e, -, -, hlisted⟩ := hfollows.split
  have hpage := page_ne_nil hkeys h.later_subset htruncated
  have hsame : (p.page v maxKeys).getLast? = (p.afterPage v maxKeys).done.getLast? := by
    rw [← List.getLast?_append_of_ne_nil listed hpage, hlisted,
      List.getLast?_append_of_ne_nil _ hfollows.done_ne]
  refine ⟨(p.page v maxKeys).getLast hpage, ?_, ?_, ?_⟩
  · rw [← hsame]
    exact List.getLast?_eq_some_getLast hpage
  · simp only [info, htruncated, if_true, List.getLast?_eq_some_getLast hpage, Option.elim_some]
  · simp only [info, htruncated, if_true, List.getLast?_eq_some_getLast hpage, Option.elim_some]

section Next

variable {listed : List StoredVersion} {last : StoredVersion}

theorem Follows.split_last (h : p.Follows v b listed) (hlast : last ∈ p.done.getLast?) :
    ∃ earlier e versions before rest, b.objects = earlier ++ e :: p.later ∧
      v.Lists e versions ∧ v.storedVersions e = p.done ++ p.left ∧
      listed = earlier.flatMap v.storedVersions ++ p.done ∧
      versions = before ++ last.fileInfo :: rest ∧ last.object = e.name ∧
      p.left = rest.map (StoredVersion.mk e.name) := by
  obtain ⟨earlier, e, hsplit, hstored, hlisted⟩ := h.split
  have he : e ∈ b.objects := by
    rw [hsplit]
    exact List.mem_append_right _ List.mem_cons_self
  obtain ⟨versions, hlists⟩ := @VersionLister.exists_lists v b e he
  obtain ⟨init, hinit⟩ := List.getLast?_eq_some_iff.mp hlast
  have hmap := hlists.storedVersions
  rw [hstored, hinit, List.append_assoc, List.singleton_append] at hmap
  obtain ⟨before, others, hversions, hbefore, hothers⟩ := List.append_eq_map_iff.mp hmap
  obtain ⟨fi, rest, rfl, hfi, hrest⟩ := List.map_eq_cons_iff.mp hothers
  refine ⟨earlier, e, versions, before, rest, hsplit, hlists, hstored, hlisted, ?_, ?_, hrest.symm⟩
  · rw [hversions, ← hfi]
  · rw [← hfi]

theorem shown_name {e : MetaCacheEntry XlMetaV2} (he : e ∈ b.objects) {stored : StoredVersion}
    (hobject : stored.object = e.name) : (v.shown stored).name = e.name := by
  rw [VersionLister.shown, VersionLister.toObjectInfo, hobject]
  exact b.decoded e (List.mem_filter.mp he).1

theorem shown_versionID (stored : StoredVersion) :
    (v.shown stored).versionID =
      if v.versioning ≠ .unversioned ∧ stored.fileInfo.versionID = "" then nullVersionID
      else stored.fileInfo.versionID := rfl

theorem Follows.resumesAt_of_kept (hkeys : 1 ≤ maxKeys) (h : p.Follows v b listed)
    (hlast : last ∈ p.done.getLast?) (hkept : p.Kept v) :
    ResumesAt v maxKeys p b (v.shown last).name (v.shown last).versionID := by
  obtain ⟨earlier, e, versions, before, rest, hsplit, hlists, -, -, hversions, hobject, hleft⟩ :=
    h.split_last hlast
  have he : e ∈ b.objects := by
    rw [hsplit]
    exact List.mem_append_right _ List.mem_cons_self
  rw [shown_name he hobject, shown_versionID]
  by_cases hid : last.fileInfo.versionID = ""
  · obtain ⟨hunversioned, hnil⟩ := (hkept last hlast).resolve_left (not_not.mpr hid)
    rw [if_neg fun hversioned => hversioned.1 hunversioned, hid]
    have hpast := @resumesAt_past v maxKeys b _ _ _ hkeys hsplit p.done
    rw [← hnil] at hpast
    exact hpast
  · rw [if_neg fun hversioned => hid hversioned.2]
    have hobject' := resumesAt_object hkeys hsplit hlists hid p.done
    rw [VersionLister.versionsAfter_versionID hversions hlists.nodup hid, ← hleft] at hobject'
    exact hobject'

/-- Without an id they lead to the first version of the object, or behind all of them. -/
theorem Follows.resumesAt_of_not_kept (hkeys : 1 ≤ maxKeys) (h : p.Follows v b listed)
    (hlast : last ∈ p.done.getLast?) (hlost : ¬ p.Kept v) :
    ResumesAt v maxKeys ⟨[], p.done ++ p.left, p.later⟩ b (v.shown last).name
        (v.shown last).versionID ∨
      (v.shown last).versionID = "" ∧ (v.shown last).name ≠ [] ∧ ∃ next ∈ p.left,
        (v.shown next).name = (v.shown last).name := by
  obtain ⟨earlier, e, versions, before, rest, hsplit, hlists, hstored, -, hversions, hobject,
    hleft⟩ := h.split_last hlast
  have he : e ∈ b.objects := by
    rw [hsplit]
    exact List.mem_append_right _ List.mem_cons_self
  have hlost' : last.fileInfo.versionID = "" ∧
      (v.versioning = .unversioned → p.left ≠ []) := by
    by_contra hnot
    refine hlost fun other hother => ?_
    rw [Option.mem_unique hother hlast]
    by_cases hid : last.fileInfo.versionID = ""
    · have hnot' := not_and.mp hnot hid
      rw [Classical.not_imp, not_not] at hnot'
      exact Or.inr hnot'
    · exact Or.inl hid
  obtain ⟨hid, hmore⟩ := hlost'
  rw [shown_name he hobject, shown_versionID]
  by_cases hunversioned : v.versioning = .unversioned
  · rw [if_neg fun hversioned => hversioned.1 hunversioned]
    refine Or.inr ⟨hid, e.named, ?_⟩
    obtain ⟨next, others, hnext⟩ := List.exists_cons_of_ne_nil (hmore hunversioned)
    rw [hnext] at hleft
    obtain ⟨fi, _, _, rfl, -⟩ := List.map_eq_cons_iff.mp hleft.symm
    exact ⟨_, hnext ▸ List.mem_cons_self, shown_name he rfl⟩
  · rw [if_pos ⟨hunversioned, hid⟩]
    have hempty : "" ∈ versions.map FileInfo.versionID := by
      rw [hversions, List.map_append, List.map_cons, hid]
      exact List.mem_append_right _ List.mem_cons_self
    have hfirst := resumesAt_object hkeys hsplit hlists (show nullVersionID ≠ "" by decide) []
    rw [VersionLister.versionsAfter_of_not_mem (hlists.nullOnce hempty),
      ← hlists.storedVersions, hstored] at hfirst
    exact Or.inl hfirst

end Next

end PagePlace

end Fs3.Listing
