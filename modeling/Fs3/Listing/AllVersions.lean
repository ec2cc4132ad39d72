import Fs3.Listing.ResumedPages

/-! # When a paged listing shows every version

The listing of a bucket shows every version once, and comes to an end, exactly when no page ends at
a version without an id in the journal. -/

namespace Fs3.Listing

open Foundation

namespace VersionLister

variable {v : VersionLister} {b : VersionedBucket} {e : MetaCacheEntry XlMetaV2}

theorem object_of_mem {stored : StoredVersion} (hmem : stored ∈ v.storedVersions e) :
    stored.object = e.name := by
  rw [storedVersions] at hmem
  split at hmem
  next => cases hmem
  next =>
    split at hmem
    next => cases hmem
    next =>
      obtain ⟨fi, -, rfl⟩ := List.mem_map.mp hmem
      rfl

theorem shown_name_of_mem (he : e ∈ b.objects) {stored : StoredVersion}
    (hmem : stored ∈ v.storedVersions e) : (v.shown stored).name = e.name :=
  PagePlace.shown_name he (object_of_mem hmem)

theorem map_version_storedVersions (he : e ∈ b.objects) :
    ((v.storedVersions e).map fun stored => (v.shown stored).version).Perm
      (v.journalVersions e) := by
  obtain ⟨versions, hlists⟩ := @exists_lists v b e he
  have hversion : ∀ fi, (v.shown ⟨e.name, fi⟩).version = (e.name, fi.toObjectInfo v.versioning) :=
    fun fi => Prod.ext (@PagePlace.shown_name v b e he ⟨e.name, fi⟩ rfl) rfl
  rw [hlists.storedVersions, List.map_map]
  refine (List.Perm.of_eq (List.map_congr_left fun fi _ => ?_)).trans hlists.journal
  exact hversion fi

theorem flatMap_journalVersions :
    b.stream.flatMap v.journalVersions = b.objects.flatMap v.journalVersions := by
  rw [VersionedBucket.objects]
  induction b.stream with
  | nil => rfl
  | cons e rest ih =>
    cases hobject : e.isObject with
    | true => rw [List.filter_cons_of_pos hobject, List.flatMap_cons, List.flatMap_cons, ih]
    | false =>
      have hnone : e.metadata = none := by
        rw [MetaCacheEntry.isObject, Option.isSome_eq_false_iff] at hobject
        exact Option.isNone_iff_eq_none.mp hobject
      rw [List.filter_cons_of_neg (by simp [hobject]), List.flatMap_cons, journalVersions,
        hnone, ih]
      rfl

theorem listsEvery_all (v : VersionLister) (b : VersionedBucket) :
    v.ListsEvery b ((b.objects.flatMap v.storedVersions).map v.shown) := by
  have hnames : b.objects.Pairwise fun e e' => ∀ stored ∈ v.storedVersions e,
      ∀ stored' ∈ v.storedVersions e', (v.shown stored).name < (v.shown stored').name := by
    refine objects_sorted.imp_of_mem fun he he' hlt stored hmem stored' hmem' => ?_
    rw [shown_name_of_mem he hmem, shown_name_of_mem he' hmem']
    exact hlt
  refine ⟨?_, ?_, ?_⟩
  · rw [List.pairwise_map, List.pairwise_flatMap]
    refine ⟨fun e he => ?_, hnames.imp fun hlt stored hmem stored' hmem' =>
      (hlt stored hmem stored' hmem').le⟩
    refine List.pairwise_iff_forall_sublist.mpr fun hsub => ?_
    have hmem := hsub.subset List.mem_cons_self
    have hmem' := hsub.subset (List.mem_cons_of_mem _ List.mem_cons_self)
    rw [shown_name_of_mem he hmem, shown_name_of_mem he hmem']
  · rw [List.pairwise_map, List.pairwise_flatMap]
    refine ⟨fun e he => ?_, hnames.imp fun hlt stored hmem stored' hmem' heq =>
      absurd heq (hlt stored hmem stored' hmem').ne⟩
    obtain ⟨versions, hlists⟩ := @exists_lists v b e he
    rw [hlists.storedVersions, List.pairwise_map]
    refine hlists.newestFirst.imp fun htime _ => ?_
    exact htime
  · rw [flatMap_journalVersions, List.map_map, List.map_flatMap]
    exact List.Perm.flatMap_left _ fun e he => map_version_storedVersions he

theorem nodup_version_storedVersions (he : e ∈ b.objects) :
    ((v.storedVersions e).map fun stored => (v.shown stored).version).Nodup := by
  obtain ⟨versions, hlists⟩ := @exists_lists v b e he
  refine List.Nodup.of_map (fun version => version.2.versionID) ?_
  have hids : ((v.storedVersions e).map fun stored => (v.shown stored).version).map
      (fun version => version.2.versionID) =
        (versions.map FileInfo.versionID).map fun id =>
          if v.versioning ≠ .unversioned ∧ id = "" then nullVersionID else id := by
    rw [hlists.storedVersions, List.map_map, List.map_map, List.map_map]
    rfl
  rw [hids]
  refine hlists.nodup.map_on fun id hid id' hid' heq => ?_
  split at heq
  next hnull =>
    rw [hnull.2] at hid ⊢
    split at heq
    next hnull' => exact hnull'.2.symm
    next =>
      rw [← heq] at hid'
      exact absurd hid' (hlists.nullOnce hid)
  next =>
    split at heq
    next hnull' =>
      rw [hnull'.2] at hid'
      rw [heq] at hid
      exact absurd hid (hlists.nullOnce hid')
    next => exact heq

theorem nodup_version_all (v : VersionLister) (b : VersionedBucket) :
    ((b.objects.flatMap v.storedVersions).map fun stored => (v.shown stored).version).Nodup := by
  rw [List.map_flatMap, List.nodup_flatMap]
  refine ⟨fun e he => nodup_version_storedVersions he, ?_⟩
  refine objects_sorted.imp_of_mem fun he he' hlt => List.disjoint_left.mpr fun version hv hv' => ?_
  obtain ⟨stored, hmem, rfl⟩ := List.mem_map.mp hv
  obtain ⟨stored', hmem', heq⟩ := List.mem_map.mp hv'
  have hname : (v.shown stored').name = (v.shown stored).name := congrArg Prod.fst heq
  rw [shown_name_of_mem he hmem, shown_name_of_mem he' hmem'] at hname
  exact hlt.ne hname.symm

section Runs

variable {maxKeys : Int} {p : PagePlace} {marker : Name} {versionMarker : String}

theorem listAll_succ (hresumes : p.ResumesAt v maxKeys b marker versionMarker) (fuel : Nat) :
    v.listAll b.stream maxKeys (fuel + 1) marker versionMarker =
      if p.Truncated v maxKeys then
        (v.listAll b.stream maxKeys fuel (p.info v maxKeys).nextMarker
          (p.info v maxKeys).nextVersionIDMarker).map ((p.page v maxKeys).map v.shown ++ ·)
      else some ((p.page v maxKeys).map v.shown) := by
  rw [listAll, hresumes]
  by_cases htruncated : p.Truncated v maxKeys
  · simp only [PagePlace.info, htruncated, decide_true, if_true]
  · simp only [PagePlace.info, htruncated, decide_false, if_false, Bool.false_eq_true]

/-- From a place between two pages on a client is shown all that is left. -/
theorem exists_listAll (hkeys : 1 ≤ maxKeys) (hcuts : v.CutsKept b maxKeys) :
    ∀ {n : Nat} {p : PagePlace} {marker : Name} {versionMarker : String},
      (p.remaining v).length = n → PagePlace.Between v maxKeys b p →
      p.ResumesAt v maxKeys b marker versionMarker →
      ∃ fuel, v.listAll b.stream maxKeys fuel marker versionMarker =
        some ((p.remaining v).map v.shown) := by
  intro n
  induction n using Nat.strong_induction_on with
  | h n ih =>
    intro p marker versionMarker hn hp hresumes
    have hsucc := fun fuel => listAll_succ hresumes fuel
    by_cases htruncated : p.Truncated v maxKeys
    · obtain ⟨listed, hreached⟩ := hp.reached hkeys
      have hfollows := hreached.follows_afterPage hkeys htruncated
      have hall := hreached.listed_append
      rw [← PagePlace.Reached.listed_append (Or.inr hfollows), List.append_assoc,
        List.append_cancel_left_eq] at hall
      have hpage := List.length_pos_iff.mpr
        (PagePlace.page_ne_nil hkeys hreached.later_subset htruncated)
      obtain ⟨last, hlast, hname, hid⟩ := hreached.nextMarkers hkeys htruncated
      have hnext := hfollows.resumesAt_of_kept hkeys hlast (hcuts p hp htruncated)
      have hlength := congrArg List.length hall
      rw [List.length_append] at hlength
      obtain ⟨fuel, hrest⟩ := ih _ (by omega) rfl (hp.next htruncated) hnext
      refine ⟨fuel + 1, ?_⟩
      rw [hsucc, if_pos htruncated, hname, hid, hrest, hall, List.map_append]
      rfl
    · refine ⟨1, ?_⟩
      rw [hsucc, if_neg htruncated]
      rw [PagePlace.Truncated, not_lt] at htruncated
      rw [PagePlace.page_eq_take, List.take_of_length_le htruncated]

theorem exists_cons_of_listAll {fuel : Nat} {l : List ListedObject} (hkeys : 1 ≤ maxKeys)
    (hresumes : p.ResumesAt v maxKeys b marker versionMarker)
    (hrun : v.listAll b.stream maxKeys fuel marker versionMarker = some l)
    {first : StoredVersion} {others : List StoredVersion} (hleft : p.left = first :: others) :
    ∃ rest, l = v.shown first :: rest := by
  cases fuel with
  | zero => cases hrun
  | succ fuel =>
    obtain ⟨k, hk⟩ := Int.eq_ofNat_of_zero_le (show 0 ≤ maxKeys - 1 by omega)
    have hto : maxKeys.toNat = k + 1 := by omega
    have hpage : ∃ rest, p.page v maxKeys = first :: rest := by
      rw [PagePlace.page, PagePlace.window, hleft, hto]
      exact ⟨_, rfl⟩
    obtain ⟨rest, hpage⟩ := hpage
    rw [listAll_succ hresumes, hpage] at hrun
    split at hrun
    next =>
      obtain ⟨l', -, rfl⟩ := Option.map_eq_some_iff.mp hrun
      exact ⟨_, rfl⟩
    next =>
      cases hrun
      exact ⟨_, rfl⟩

end Runs

/-! ## Listings only go forward -/

theorem mem_pageInfo {maxKeys : Int} {eof : Bool} {objects : List ListedObject}
    {obj : ListedObject} (hmem : obj ∈ (pageInfo [] maxKeys eof objects).objects) :
    obj ∈ objects := by
  unfold pageInfo at hmem
  simp only at hmem
  have hobj := (List.mem_filter.mp hmem).1
  split at hobj
  next => exact List.mem_of_mem_take hobj
  next => exact hobj

theorem nextMarker_pageInfo {maxKeys : Int} {eof : Bool} {objects : List ListedObject}
    (hkeys : 1 ≤ maxKeys) (htruncated : (pageInfo [] maxKeys eof objects).isTruncated = true) :
    ∃ obj ∈ objects, (pageInfo [] maxKeys eof objects).nextMarker = obj.name := by
  unfold pageInfo at htruncated ⊢
  simp only at htruncated ⊢
  rw [if_pos htruncated]
  have hne : (if decide (0 < maxKeys ∧ maxKeys < objects.length) = true then
      objects.take maxKeys.toNat else objects) ≠ [] := by
    split
    next hcut =>
      rw [decide_eq_true_iff] at hcut
      rw [← List.length_pos_iff, List.length_take]
      omega
    next hall =>
      rw [Bool.not_eq_true] at hall
      rw [hall, Bool.false_or, Bool.and_eq_true, bne_iff_ne] at htruncated
      exact htruncated.2
  refine ⟨_, ?_, by rw [List.getLast?_eq_some_getLast hne]; rfl⟩
  have hsub : ∀ obj ∈ (if decide (0 < maxKeys ∧ maxKeys < objects.length) = true then
      objects.take maxKeys.toNat else objects), obj ∈ objects := by
    intro obj hmem
    split at hmem
    next => exact List.mem_of_mem_take hmem
    next => exact hmem
  exact hsub _ (List.getLast_mem hne)

theorem mem_fileInfoVersions {entries : List (MetaCacheEntry XlMetaV2)} {id : String}
    {obj : ListedObject} (hmem : obj ∈ v.fileInfoVersions [] [] [] id entries) :
    ∃ e ∈ entries, obj.name = decodeDirObject e.name := by
  induction entries generalizing id with
  | nil => cases hmem
  | cons e rest ih =>
    have htail : ∀ {id : String}, obj ∈ v.fileInfoVersions [] [] [] id rest →
        ∃ e' ∈ e :: rest, obj.name = decodeDirObject e'.name := by
      intro id hrest
      obtain ⟨e', he', hname⟩ := ih hrest
      exact ⟨e', List.mem_cons_of_mem _ he', hname⟩
    rw [fileInfoVersions] at hmem
    simp only [if_true] at hmem
    cases hmetadata : e.metadata with
    | none =>
      simp only [hmetadata] at hmem
      exact htail hmem
    | some z =>
      simp only [hmetadata] at hmem
      cases hversions : v.getFileInfoVersions z e.name with
      | error err =>
        simp only [hversions] at hmem
        exact htail hmem
      | ok versions =>
        simp only [hversions] at hmem
        rcases List.mem_append.mp hmem with hfirst | hrest
        · obtain ⟨fi, -, rfl⟩ := List.mem_map.mp hfirst
          exact ⟨e, List.mem_cons_self, rfl⟩
        · exact htail hrest

theorem lt_of_mem_forwardPast {s : Name} {entries : List (MetaCacheEntry XlMetaV2)}
    (hsorted : entries.Pairwise fun e e' => e.name < e'.name) (hs : s ≠ [])
    (he : e ∈ forwardPast s entries) : s < e.name := by
  rw [forwardPast, if_neg hs] at he
  induction entries with
  | nil => cases he
  | cons first rest ih =>
    obtain ⟨hfirst, hrest⟩ := List.pairwise_cons.mp hsorted
    rw [List.dropWhile_cons] at he
    split at he
    next => exact ih hrest he
    next hpast =>
      rw [decide_eq_true_iff, ← name_not_lt, not_not] at hpast
      rcases List.mem_cons.mp he with rfl | he
      · exact hpast
      · exact hpast.trans (hfirst e he)

def Forward (marker : Name) (versionMarker : String) (obj : ListedObject) : Prop :=
  marker ≤ obj.name ∧ (versionMarker = "" → marker ≠ [] → marker < obj.name)

theorem forward_of_listObjectVersions {maxKeys : Int} (hkeys : 1 ≤ maxKeys) {marker : Name}
    {versionMarker : String} {loi : ListObjectVersionsInfo}
    (hloi : v.listObjectVersions b.stream [] marker versionMarker [] maxKeys = some loi) :
    (∀ obj ∈ loi.objects, Forward marker versionMarker obj) ∧
      (loi.isTruncated = true →
        ∃ obj, Forward marker versionMarker obj ∧ loi.nextMarker = obj.name) := by
  have hlimit : 0 < maxKeysPlusOne maxKeys (marker ≠ []) := by
    have hone := PagePlace.one_le_objectLimit hkeys
    unfold PagePlace.objectLimit at hone
    unfold maxKeysPlusOne at hone ⊢
    simp only [Bool.false_eq_true, if_false] at hone
    simp only
    split <;> omega
  rw [listObjectVersions] at hloi
  split at hloi
  next => cases hloi
  next =>
  rw [listPath_eq marker hlimit] at hloi
  simp only [Option.some.injEq] at hloi
  generalize hmerged : (b.objects.filter fun e => decide (marker ≤ e.name)).take
    (maxKeysPlusOne maxKeys (marker ≠ [])).toNat = merged at hloi
  have hfrom : ∀ e ∈ merged, e ∈ b.objects ∧ marker ≤ e.name := by
    intro e he
    rw [← hmerged] at he
    obtain ⟨he, hle⟩ := List.mem_filter.mp (List.mem_of_mem_take he)
    exact ⟨he, of_decide_eq_true hle⟩
  have hsorted : merged.Pairwise fun e e' => e.name < e'.name := by
    rw [← hmerged]
    exact (objects_sorted.filter _).sublist (List.take_sublist _ _)
  have hfound : ∀ obj ∈ v.fileInfoVersions [] [] [] versionMarker
      (if versionMarker = "" then forwardPast marker merged else merged),
      Forward marker versionMarker obj := by
    intro obj hobj
    obtain ⟨e, he, hname⟩ := mem_fileInfoVersions hobj
    have hmem : e ∈ merged := by
      split at he
      next =>
        rw [forwardPast] at he
        split at he
        next => exact he
        next => exact (List.dropWhile_sublist _).subset he
      next => exact he
    obtain ⟨hobject, hle⟩ := hfrom e hmem
    rw [Forward, hname, b.decoded e (List.mem_filter.mp hobject).1]
    refine ⟨hle, fun hempty hne => ?_⟩
    rw [if_pos hempty] at he
    exact lt_of_mem_forwardPast hsorted hne he
  rw [← hloi]
  refine ⟨fun obj hobj => hfound obj (mem_pageInfo hobj), fun htruncated => ?_⟩
  obtain ⟨obj, hobj, hnext⟩ := nextMarker_pageInfo hkeys htruncated
  exact ⟨obj, hfound obj hobj, hnext⟩

theorem forward_of_listAll {maxKeys : Int} (hkeys : 1 ≤ maxKeys) {fuel : Nat} {marker : Name}
    {versionMarker : String} {l : List ListedObject}
    (hrun : v.listAll b.stream maxKeys fuel marker versionMarker = some l) :
    ∀ obj ∈ l, Forward marker versionMarker obj := by
  induction fuel generalizing marker versionMarker l with
  | zero => cases hrun
  | succ fuel ih =>
    rw [listAll] at hrun
    cases hloi : v.listObjectVersions b.stream [] marker versionMarker [] maxKeys with
    | none =>
      rw [hloi] at hrun
      cases hrun
    | some loi =>
      obtain ⟨hpage, hnext⟩ := forward_of_listObjectVersions hkeys hloi
      simp only [hloi] at hrun
      split at hrun
      next htruncated =>
        obtain ⟨rest, hrest, rfl⟩ := Option.map_eq_some_iff.mp hrun
        obtain ⟨last, hlast, hname⟩ := hnext htruncated
        intro obj hobj
        rcases List.mem_append.mp hobj with hobj | hobj
        · exact hpage obj hobj
        · have hlater := (ih hrest obj hobj).1
          rw [hname] at hlater
          exact ⟨hlast.1.trans hlater,
            fun hempty hne => (hlast.2 hempty hne).trans_le hlater⟩
      next =>
        cases hrun
        exact hpage

/-! ## Lost places -/

section Lost

variable {maxKeys : Int} {p : PagePlace} {listed : List StoredVersion} {fuel : Nat}
  {l rest : List ListedObject}

/-- Once a page ends at a version without an id, a version is shown twice or never. -/
theorem kept_of_listsEvery (hkeys : 1 ≤ maxKeys) (hreached : p.Reached v b listed)
    (htruncated : p.Truncated v maxKeys)
    (hrest : v.listAll b.stream maxKeys fuel (p.info v maxKeys).nextMarker
      (p.info v maxKeys).nextVersionIDMarker = some rest)
    (hl : l = (listed ++ p.page v maxKeys).map v.shown ++ rest) (hevery : v.ListsEvery b l) :
    (p.afterPage v maxKeys).Kept v := by
  by_contra hlost
  have hfollows := hreached.follows_afterPage hkeys htruncated
  have hall := PagePlace.Reached.listed_append (Or.inr hfollows)
  have hnodup := nodup_version_all v b
  have honce : (l.map ListedObject.version).Perm
      ((b.objects.flatMap v.storedVersions).map fun stored => (v.shown stored).version) := by
    have hsame := (listsEvery_all v b).once
    rw [List.map_map] at hsame
    exact hevery.once.trans hsame.symm
  obtain ⟨earlier, e, -, -, hlisted⟩ := hfollows.split
  obtain ⟨last, hlast, hname, hid⟩ := hreached.nextMarkers hkeys htruncated
  rw [hname, hid] at hrest
  rcases hfollows.resumesAt_of_not_kept hkeys hlast hlost with
    hagain | ⟨hempty, hnamed, next, hnext, hsame⟩
  · -- The first version of the object is shown again.
    obtain ⟨first, others, hdone⟩ := List.exists_cons_of_ne_nil hfollows.done_ne
    obtain ⟨rest', hrest'⟩ := exists_cons_of_listAll hkeys hagain hrest
      (show (p.afterPage v maxKeys).done ++ (p.afterPage v maxKeys).left =
        first :: (others ++ (p.afterPage v maxKeys).left) by rw [hdone, List.cons_append])
    have hbefore : first ∈ listed ++ p.page v maxKeys := by
      rw [hlisted, hdone]
      exact List.mem_append_right _ List.mem_cons_self
    have hl' := honce.nodup_iff.mpr hnodup
    rw [hl, hrest', List.map_append] at hl'
    exact List.disjoint_left.mp (List.nodup_append'.mp hl').2.2
      (List.mem_map_of_mem (List.mem_map_of_mem hbefore)) List.mem_cons_self
  · -- A version that is left of the object is not shown any more.
    have hleft : next ∈ (p.afterPage v maxKeys).remaining v := List.mem_append_left _ hnext
    have hshown : (v.shown next).version ∈ l.map ListedObject.version := by
      refine honce.mem_iff.mpr (List.mem_map_of_mem ?_)
      rw [← hall]
      exact List.mem_append_right _ hleft
    obtain ⟨obj, hobj, hversion⟩ := List.mem_map.mp hshown
    rw [hl] at hobj
    rcases List.mem_append.mp hobj with hbefore | hafter
    · obtain ⟨stored, hstored, rfl⟩ := List.mem_map.mp hbefore
      rw [← hall, List.map_append] at hnodup
      refine List.disjoint_left.mp (List.nodup_append'.mp hnodup).2.2
        (List.mem_map_of_mem hstored) ?_
      rw [hversion]
      exact List.mem_map.mpr ⟨_, hleft, rfl⟩
    · have hpast := (forward_of_listAll hkeys hrest obj hafter).2 hempty hnamed
      have hobjname : obj.name = (v.shown next).name := congrArg Prod.fst hversion
      rw [hobjname, hsame] at hpast
      exact lt_irrefl _ hpast

/-- As long as all places are kept, a listing passes through them. -/
theorem passes_between (hkeys : 1 ≤ maxKeys)
    (hrun : v.listAll b.stream maxKeys fuel [] "" = some l) (hevery : v.ListsEvery b l)
    (hp : PagePlace.Between v maxKeys b p) :
    ∃ fuel marker versionMarker listed rest, p.Reached v b listed ∧
      p.ResumesAt v maxKeys b marker versionMarker ∧
      v.listAll b.stream maxKeys (fuel + 1) marker versionMarker = some rest ∧
      l = listed.map v.shown ++ rest := by
  have hpositive : ∀ {fuel : Nat} {marker : Name} {versionMarker : String}
      {rest : List ListedObject},
      v.listAll b.stream maxKeys fuel marker versionMarker = some rest →
        ∃ k, fuel = k + 1 := by
    intro fuel marker versionMarker rest hrest
    cases fuel with
    | zero => cases hrest
    | succ k => exact ⟨k, rfl⟩
  induction hp with
  | start =>
    obtain ⟨k, rfl⟩ := hpositive hrun
    exact ⟨k, [], "", [], l, Or.inl ⟨rfl, rfl⟩, PagePlace.resumesAt_start hkeys, hrun, rfl⟩
  | @next p hp htruncated ih =>
    obtain ⟨fuel, marker, versionMarker, listed, rest, hreached, hresumes, hrest, hl⟩ := ih
    rw [listAll_succ hresumes, if_pos htruncated] at hrest
    obtain ⟨rest', hrest', rfl⟩ := Option.map_eq_some_iff.mp hrest
    have hl' : l = (listed ++ p.page v maxKeys).map v.shown ++ rest' := by
      rw [hl, List.map_append, List.append_assoc]
    have hkept := kept_of_listsEvery hkeys hreached htruncated hrest' hl' hevery
    have hfollows := hreached.follows_afterPage hkeys htruncated
    obtain ⟨last, hlast, hname, hid⟩ := hreached.nextMarkers hkeys htruncated
    obtain ⟨k, rfl⟩ := hpositive hrest'
    rw [hname, hid] at hrest'
    exact ⟨k, _, _, _, rest', Or.inr hfollows,
      hfollows.resumesAt_of_kept hkeys hlast hkept, hrest', hl'⟩

end Lost

theorem cutsKept_of_listsEvery {maxKeys : Int} (hkeys : 1 ≤ maxKeys) {fuel : Nat}
    {l : List ListedObject} (hrun : v.listAll b.stream maxKeys fuel [] "" = some l)
    (hevery : v.ListsEvery b l) : v.CutsKept b maxKeys := by
  intro p hp htruncated
  obtain ⟨fuel, marker, versionMarker, listed, rest, hreached, hresumes, hrest, hl⟩ :=
    passes_between hkeys hrun hevery hp
  rw [listAll_succ hresumes, if_pos htruncated] at hrest
  obtain ⟨rest', hrest', rfl⟩ := Option.map_eq_some_iff.mp hrest
  refine kept_of_listsEvery hkeys hreached htruncated hrest' ?_ hevery
  rw [hl, List.map_append, List.append_assoc]

/-- A client that lists a bucket page by page comes to an end and is shown every version
once, in order, exactly when no page before the last one ends at a version without an id. -/
theorem listAll_every_iff (v : VersionLister) (b : VersionedBucket) {maxKeys : Int}
    (hkeys : 1 ≤ maxKeys) :
    (∃ fuel listed, v.listAll b.stream maxKeys fuel [] "" = some listed ∧
      v.ListsEvery b listed) ↔ v.CutsKept b maxKeys := by
  constructor
  · rintro ⟨fuel, l, hrun, hevery⟩
    exact cutsKept_of_listsEvery hkeys hrun hevery
  · intro hcuts
    obtain ⟨fuel, hrun⟩ := exists_listAll hkeys hcuts rfl PagePlace.Between.start
      (PagePlace.resumesAt_start hkeys)
    exact ⟨fuel, _, hrun, listsEvery_all v b⟩

def versionedLister : VersionLister := ⟨.google, .stable _, "bucket", .enabled⟩

def journalEntry (name : Name) (named : name ≠ []) (z : XlMetaV2) : MetaCacheEntry XlMetaV2 :=
  ⟨name, some z, named⟩

def olderNullAt (name : Name) (named : name ≠ []) : MetaCacheEntry XlMetaV2 :=
  journalEntry name named XlMetaV2.olderNull

theorem olderNull_readable : XlMetaV2.olderNull.WellFormed ∧ XlMetaV2.olderNull.versions ≠ [] :=
  ⟨⟨by decide, by decide⟩, by decide⟩

def oneObject : VersionedBucket where
  stream := [olderNullAt ['a'] (by decide)]
  sorted := List.pairwise_singleton _ _
  readable := by
    intro e he z hz
    cases List.mem_singleton.mp he
    cases hz
    exact olderNull_readable
  decoded := by decide

def twoObjects : VersionedBucket where
  stream := [olderNullAt ['a'] (by decide), olderNullAt ['b'] (by decide)]
  sorted := by decide
  readable := by
    intro e he z hz
    have hjournal : e.metadata = some XlMetaV2.olderNull := by
      rcases List.mem_cons.mp he with rfl | he
      · rfl
      · cases List.mem_singleton.mp he
        rfl
    cases hjournal.symm.trans hz
    exact olderNull_readable
  decoded := by decide

theorem oneObject_cutsKept : versionedLister.CutsKept oneObject 1 := by
  have hbetween : ∀ p, PagePlace.Between versionedLister 1 oneObject p →
      p = .start oneObject ∨ p = (PagePlace.start oneObject).afterPage versionedLister 1 := by
    intro p hp
    induction hp with
    | start => exact Or.inl rfl
    | next _ htruncated ih =>
      rcases ih with rfl | rfl
      · exact Or.inr rfl
      · exact absurd htruncated (by decide)
  intro p hp htruncated
  rcases hbetween p hp with rfl | rfl
  · decide
  · exact absurd htruncated (by decide)

theorem oneObject_listsEvery :
    ∃ fuel listed, versionedLister.listAll oneObject.stream 1 fuel [] "" = some listed ∧
      versionedLister.ListsEvery oneObject listed :=
  (listAll_every_iff versionedLister oneObject (show (1 : Int) ≤ 1 by decide)).mpr
    oneObject_cutsKept

/-- Two versions to a page: the second page is the first one again. -/
theorem twoObjects_not_listsEvery :
    ¬ ∃ fuel listed, versionedLister.listAll twoObjects.stream 2 fuel [] "" = some listed ∧
      versionedLister.ListsEvery twoObjects listed := by
  rintro ⟨fuel, listed, hrun, hevery⟩
  have hcuts := cutsKept_of_listsEvery (show (1 : Int) ≤ 2 by decide) hrun hevery
  have hkept := hcuts _ PagePlace.Between.start (by decide)
  revert hkept
  decide

end VersionLister

end Fs3.Listing
