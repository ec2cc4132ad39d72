import Fs3.Foundation.Histories
import Fs3.Journal.LatestMarker

/-! # The latest version by place and by time

A listing asks whether the latest version of an object is a delete marker and looks at the last
entry of its journal. -/

namespace Fs3

open Foundation XlMetaV2Version

/-- A `metaCacheEntry` of an object whose metadata is a journal. -/
structure JournalEntry where
  metadata : XlMetaV2
  cached : Option FileInfo := none

namespace JournalEntry

variable (e : JournalEntry)

/-- `metaCacheEntry.isLatestDeletemarker`. -/
def isLatestDeletemarker : Bool :=
  match e.cached with
  | some fi => fi.deleted
  | none =>
    match e.metadata.versions.getLast? with
    | none => true
    | some version => version.isDeleteMarker

/-- `metaCacheEntry.fileInfo`: what it returns, and the entry that keeps it. -/
def fileInfo (uuid : UuidPackage) (sorter : DescendingSort XlMetaV2Version.modTime)
    (bucket name : String) : Except StorageErr (FileInfo × JournalEntry) :=
  match e.cached with
  | some fi => .ok (fi, e)
  | none => (e.metadata.toFileInfo uuid bucket name sorter "").map fun fi =>
    (fi, { e with cached := some fi })

end JournalEntry

/-- The listing takes for the latest version what a lookup reads, before and
after the entry keeps it. -/
def LatestAgrees (uuid : UuidPackage) (z : XlMetaV2) : Prop :=
  ∀ sorter bucket name fi e', JournalEntry.fileInfo { metadata := z } uuid sorter bucket name =
      .ok (fi, e') →
    JournalEntry.isLatestDeletemarker { metadata := z } = fi.deleted ∧
      e'.isLatestDeletemarker = fi.deleted

/-- Wherever a delete marker and another version are stored, the one behind is newer. -/
def KindOrdered (versions : List XlMetaV2Version) : Prop :=
  versions.Pairwise fun first second =>
    first.isDeleteMarker ≠ second.isDeleteMarker → first.modTime < second.modTime

theorem fileInfo_deleted {uuid : UuidPackage} {volume path : String} (version : XlMetaV2Version) :
    (version.fileInfo uuid volume path).deleted = version.isDeleteMarker := by
  cases version <;> rfl

theorem KindOrdered.getLast {versions : List XlMetaV2Version} (hordered : KindOrdered versions)
    {latest last : XlMetaV2Version} (hmem : latest ∈ versions)
    (hnewest : ∀ version ∈ versions, version.modTime ≤ latest.modTime)
    (hlast : versions.getLast? = some last) : last.isDeleteMarker = latest.isDeleteMarker := by
  by_contra hkinds
  obtain ⟨before, rfl⟩ := List.getLast?_eq_some_iff.mp hlast
  rcases List.mem_append.mp hmem with hbefore | hself
  · have hlater := (List.pairwise_append.mp hordered).2.2 latest hbefore last
      List.mem_cons_self (Ne.symm hkinds)
    exact absurd (hnewest last (List.mem_append_right _ List.mem_cons_self)) (not_le.mpr hlater)
  · exact hkinds (congrArg isDeleteMarker (List.mem_singleton.mp hself).symm)

theorem KindOrdered.latestAgrees {uuid : UuidPackage} {z : XlMetaV2}
    (hordered : KindOrdered z.versions) : LatestAgrees uuid z := by
  intro sorter bucket name fi e' hread
  unfold JournalEntry.fileInfo at hread
  dsimp only at hread
  cases hlookup : z.toFileInfo uuid bucket name sorter "" with
  | error err =>
    rw [hlookup] at hread
    cases hread
  | ok found =>
    rw [hlookup] at hread
    cases hread
    refine ⟨?_, rfl⟩
    obtain ⟨latest, rest, hsort, hstatic⟩ := XlMetaV2.latest_of_toFileInfo hlookup
    have hdeleted : fi.deleted = latest.isDeleteMarker := by
      rw [← @fileInfo_deleted uuid bucket name latest, ← hstatic]
      rfl
    have hmem : latest ∈ z.versions := sorter.mem_sort.mp (hsort ▸ List.mem_cons_self)
    unfold JournalEntry.isLatestDeletemarker
    dsimp only
    cases hlast : z.versions.getLast? with
    | none =>
      rw [List.getLast?_eq_none_iff] at hlast
      rw [hlast] at hmem
      cases hmem
    | some last =>
      rw [hdeleted]
      exact hordered.getLast hmem (sorter.key_le_head hsort) hlast

/-! ## The events of a journal -/

/-- A call that adds or deletes a version. -/
inductive VersionEvent where
  | addVersion (fi : FileInfo)
  | deleteVersion (fi : FileInfo)

def XlMetaV2.after (uuid : UuidPackage) (clock : Clock) (z : XlMetaV2) : VersionEvent → XlMetaV2
  | .addVersion fi =>
    match z.addVersion uuid fi with
    | .ok z' => z'
    | .error _ => z
  | .deleteVersion fi =>
    match z.deleteVersion uuid clock fi with
    | .ok (z', _, _) => z'
    | .error _ => z

/-- A version of a kind and a time is in the order of the kinds between others. -/
structure BetweenKinds (isMarker : Bool) (modTime : Time)
    (before after : List XlMetaV2Version) : Prop where
  older : ∀ version ∈ before, version.isDeleteMarker ≠ isMarker → version.modTime < modTime
  newer : ∀ version ∈ after, version.isDeleteMarker ≠ isMarker → modTime < version.modTime

/-- Whether a delete of `uv` puts its delete marker at the end of the journal. -/
def FileInfo.AppendsMarker (fi : FileInfo) (uv : UUID) (versions : List XlMetaV2Version) : Prop :=
  fi.deleted = true ∧
    (fi.updateVersion = true → ∀ version ∈ versions, version.isNewerOf uv = false) ∧
    ((∃ version ∈ versions, version.isMarkerOf uv = true) →
      fi.markDeleted = true ∧ fi.versionPurgeStatus ≠ purgeComplete)

/-- Whether a delete of `uv` removes an object that has the entries `before` in
front of it. -/
def FileInfo.RemovesObject (fi : FileInfo) (uv : UUID) (versions before : List XlMetaV2Version)
    (object : XlMetaV2Object) : Prop :=
  object.versionID = uv ∧ (∀ version ∈ before, version.isObjectOf uv = false) ∧
    (∀ version ∈ versions, version.isMarkerOf uv = false) ∧ fi.updateVersion = false ∧
    fi.keptObject object = []

/-- A call keeps the order of the kinds: an added version is newer than what is
stored in front of it and older than what is behind, as far as that is of the
other kind; and a delete marker that a delete adds is newer than every version
that is not a delete marker and that stays. -/
def VersionEvent.InOrder (uuid : UuidPackage) (z : XlMetaV2) : VersionEvent → Prop
  | addVersion fi => ∀ uv, parseVersionID uuid fi.versionID = some uv →
      (∀ before old after, z.versions = before ++ old :: after →
        (∀ version ∈ before, version.answersTo uv (normalizeID fi.versionID) = false) →
        old.answersTo uv (normalizeID fi.versionID) = true →
        BetweenKinds fi.deleted fi.modTime before after) ∧
      ((∀ version ∈ z.versions, version.answersTo uv (normalizeID fi.versionID) = false) →
        BetweenKinds fi.deleted fi.modTime z.versions [])
  | deleteVersion fi => ∀ uv, parseVersionID uuid fi.versionID = some uv →
      fi.AppendsMarker uv z.versions → ∀ before version after,
        z.versions = before ++ version :: after → version.isDeleteMarker = false →
        (∃ object, version = .objectType object ∧ fi.RemovesObject uv z.versions before object) ∨
          version.modTime < fi.modTime

namespace KindOrdered

variable {before after versions : List XlMetaV2Version} {old new : XlMetaV2Version}

theorem sublist {versions' : List XlMetaV2Version} (hordered : KindOrdered versions)
    (hsub : versions'.Sublist versions) : KindOrdered versions' :=
  List.Pairwise.sublist hsub hordered

theorem replace (hordered : KindOrdered (before ++ old :: after))
    (hkind : new.isDeleteMarker = old.isDeleteMarker) (htime : new.modTime = old.modTime) :
    KindOrdered (before ++ new :: after) := by
  unfold KindOrdered at *
  rw [List.pairwise_append, List.pairwise_cons] at *
  obtain ⟨hbefore, ⟨hold, hafter⟩, hcross⟩ := hordered
  refine ⟨hbefore, ⟨fun version hmem => ?_, hafter⟩, fun first hfirst second hsecond => ?_⟩
  · rw [hkind, htime]
    exact hold version hmem
  · rcases List.mem_cons.mp hsecond with rfl | hsecond
    · rw [hkind, htime]
      exact hcross first hfirst old List.mem_cons_self
    · exact hcross first hfirst second (List.mem_cons_of_mem _ hsecond)

theorem insert (hordered : KindOrdered (before ++ after))
    (hbetween : BetweenKinds new.isDeleteMarker new.modTime before after) :
    KindOrdered (before ++ new :: after) := by
  unfold KindOrdered at *
  rw [List.pairwise_append] at *
  obtain ⟨hbefore, hafter, hcross⟩ := hordered
  refine ⟨hbefore, List.pairwise_cons.mpr ⟨fun version hmem hkinds => ?_, hafter⟩,
    fun first hfirst second hsecond => ?_⟩
  · exact hbetween.newer version hmem (Ne.symm hkinds)
  · rcases List.mem_cons.mp hsecond with rfl | hsecond
    · exact hbetween.older first hfirst
    · exact hcross first hfirst second hsecond

end KindOrdered

/-- Either some entry has no type, and no lookup reads the journal any more, or
the kinds are in order. -/
def KindsKept (z : XlMetaV2) : Prop :=
  .invalid ∈ z.versions ∨ KindOrdered z.versions

theorem KindsKept.latestAgrees {uuid : UuidPackage} {z : XlMetaV2} (hkept : KindsKept z) :
    LatestAgrees uuid z := by
  rcases hkept with hinvalid | hordered
  · intro sorter bucket name fi e' hread
    unfold JournalEntry.fileInfo at hread
    dsimp only at hread
    cases hlookup : z.toFileInfo uuid bucket name sorter "" with
    | error err =>
      rw [hlookup] at hread
      cases hread
    | ok found => cases XlMetaV2.allValid_of_toFileInfo hlookup .invalid hinvalid
  · exact hordered.latestAgrees

theorem toVersion_isDeleteMarker {fi : FileInfo} {uv dd : UUID} :
    (fi.toVersion uv dd).isDeleteMarker = fi.deleted := by
  unfold FileInfo.toVersion
  cases fi.deleted <;> rfl

variable {uuid : UuidPackage} {clock : Clock} {z z' : XlMetaV2} {fi : FileInfo}

theorem kindsKept_addVersion (hkept : KindsKept z)
    (hgood : VersionEvent.InOrder uuid z (.addVersion fi))
    (hadd : z.addVersion uuid fi = .ok z') : KindsKept z' := by
  obtain ⟨uv, dd, hparse, -, hvalid, -, hcase⟩ := XlMetaV2.addVersion_cases hadd
  obtain ⟨hreplace, happend⟩ := hgood uv hparse
  have hkind : (fi.toVersion uv dd).isDeleteMarker = fi.deleted := toVersion_isDeleteMarker
  have htime := FileInfo.toVersion_modTime hvalid
  unfold KindsKept at *
  generalize z'.versions = versions' at hcase
  cases hcase with
  | replace before old after hversions hbefore hold =>
    have hbetween := hreplace before old after hversions hbefore hold
    rw [hversions] at hkept
    rcases hkept with hinvalid | hordered
    · left
      rcases List.mem_append.mp hinvalid with hmem | hmem
      · exact List.mem_append_left _ hmem
      · rcases List.mem_cons.mp hmem with rfl | hmem
        · cases hold
        · exact List.mem_append_right _ (List.mem_cons_of_mem _ hmem)
    · right
      refine
        (hordered.sublist (List.Sublist.append_left (List.sublist_cons_self _ _) _)).insert ?_
      rw [hkind, htime]
      exact hbetween
  | append hnone =>
    rcases hkept with hinvalid | hordered
    · exact Or.inl (List.mem_append_left _ hinvalid)
    · right
      refine KindOrdered.insert (by rwa [List.append_nil]) ?_
      rw [hkind, htime]
      exact happend hnone

theorem mem_of_ne_middle {before after rest : List XlMetaV2Version} {old version : XlMetaV2Version}
    (hmem : version ∈ before ++ old :: after) (hne : version ≠ old)
    (hrest : ∀ other ∈ after, other ∈ rest) : version ∈ before ++ rest := by
  rcases List.mem_append.mp hmem with hbefore | hmem
  · exact List.mem_append_left _ hbefore
  · rcases List.mem_cons.mp hmem with rfl | hafter
    · exact absurd rfl hne
    · exact List.mem_append_right _ (hrest version hafter)

variable {version : XlMetaV2Version}

theorem mem_appendEntry_of_mem {uv : UUID} {versions : List XlMetaV2Version}
    (hmem : version ∈ versions) : version ∈ appendEntry fi uv versions := by
  unfold appendEntry
  split
  · exact List.mem_append_left _ hmem
  · exact hmem

theorem DeleteCase.invalid_mem {uv : UUID} {versions versions' : List XlMetaV2Version}
    {freed : Option XlMetaV2Object} (hcase : DeleteCase fi uv versions versions' freed)
    (hmem : .invalid ∈ versions) : .invalid ∈ versions' := by
  cases hcase with
  | markMarker before _ after hversions _ _ _ | markObject before _ after hversions _ _ _ =>
    rw [hversions] at hmem
    exact mem_of_ne_middle hmem nofun fun _ h => List.mem_cons_of_mem _ h
  | dropMarker before marker after hversions hbefore huuid hupdate =>
    rw [hversions] at hmem
    exact mem_of_ne_middle hmem nofun fun _ h => List.mem_append_left _ h
  | dropObject before object after hversions hmarkers hbefore huuid hupdate =>
    rw [hversions] at hmem
    exact mem_of_ne_middle hmem nofun fun _ h =>
      mem_appendEntry_of_mem (List.mem_append_right _ h)
  | addMarker hversions hdeleted => exact List.mem_append_left _ hmem

theorem of_mem_keptObject {object : XlMetaV2Object} (hmem : version ∈ fi.keptObject object) :
    version.isDeleteMarker = false ∧ version.modTime = (objectType object).modTime := by
  unfold FileInfo.keptObject at hmem
  split at hmem
  · rw [List.mem_singleton.mp hmem]
    exact ⟨rfl, rfl⟩
  · split at hmem
    · rw [List.mem_singleton.mp hmem]
      exact ⟨rfl, rfl⟩
    · cases hmem

theorem length_keptObject_le (object : XlMetaV2Object) : (fi.keptObject object).length ≤ 1 := by
  unfold FileInfo.keptObject
  split
  · exact Nat.le_refl 1
  · split
    · exact Nat.le_refl 1
    · exact Nat.zero_le 1

theorem KindOrdered.appendMarker {versions : List XlMetaV2Version} {uv : UUID}
    (hordered : KindOrdered versions) (hdeleted : fi.deleted = true)
    (hvalid : (fi.deleteEntry uv).valid = true)
    (holder : ∀ version ∈ versions, version.isDeleteMarker = false → version.modTime < fi.modTime) :
    KindOrdered (versions ++ [fi.deleteEntry uv]) := by
  have hentry : fi.deleteEntry uv = .deleteType
      { versionID := uv, modTime := fi.modTime.unixNano, metaSys := fi.putStatus ∅ } :=
    if_pos hdeleted
  rw [hentry] at hvalid ⊢
  have htime : Time.ofUnixNano fi.modTime.unixNano = fi.modTime :=
    Time.unixNano_of_pos (of_decide_eq_true hvalid)
  refine KindOrdered.insert (by rwa [List.append_nil]) ⟨fun version hmem hkinds => ?_,
    fun version hmem => absurd hmem List.not_mem_nil⟩
  have hobject : version.isDeleteMarker = false := by
    simpa [isDeleteMarker] using hkinds
  rw [modTime, htime]
  exact holder version hmem hobject

/-- A delete keeps the order of the kinds where its marker is in order. -/
theorem DeleteCase.kindOrdered {uv : UUID} {versions versions' : List XlMetaV2Version}
    {freed : Option XlMetaV2Object} (hcase : DeleteCase fi uv versions versions' freed)
    (hentry : fi.deleted = true → (fi.deleteEntry uv).valid = true)
    (hgood : fi.AppendsMarker uv versions → ∀ (before : List XlMetaV2Version)
      (version : XlMetaV2Version) (after : List XlMetaV2Version),
      versions = before ++ version :: after → version.isDeleteMarker = false →
      (∃ object, version = .objectType object ∧ fi.RemovesObject uv versions before object) ∨
        version.modTime < fi.modTime)
    (hordered : KindOrdered versions) : .invalid ∈ versions' ∨ KindOrdered versions' := by
  cases hcase with
  | markMarker before _ after hversions _ _ _ | markObject before _ after hversions _ _ _ =>
    rw [hversions] at hordered
    exact Or.inr (hordered.replace rfl rfl)
  | dropMarker before marker after hversions hbefore huuid hupdate =>
    have hleft : KindOrdered (before ++ after) := by
      rw [hversions] at hordered
      exact hordered.sublist (List.Sublist.append_left (List.sublist_cons_self _ _) _)
    have hmarker : (XlMetaV2Version.deleteType marker).isMarkerOf uv = true :=
      beq_iff_eq.mpr huuid
    split
    next hmark =>
      rw [← List.append_assoc]
      cases hdeleted : fi.deleted with
      | false =>
        left
        rw [FileInfo.deleteEntry, if_neg (by rw [hdeleted]; decide)]
        exact List.mem_append_right _ List.mem_cons_self
      | true =>
        right
        refine hleft.appendMarker hdeleted (hentry hdeleted) fun version hmem hkind => ?_
        have hmem' : version ∈ versions := by
          rw [hversions]
          exact (List.Sublist.append_left (List.sublist_cons_self _ _) _).subset hmem
        obtain ⟨front, back, hsplit⟩ := List.append_of_mem hmem'
        refine (hgood ⟨hdeleted, fun h => ?_, fun _ => hmark⟩ front version back hsplit
          hkind).resolve_left ?_
        · rw [hupdate] at h
          cases h
        · rintro ⟨object, -, -, -, hnone, -⟩
          rw [hnone (.deleteType marker) (by simp [hversions])] at hmarker
          cases hmarker
    next =>
      rw [List.append_nil]
      exact Or.inr hleft
  | dropObject before object after hversions hmarkers hbefore huuid hupdate =>
    right
    have hkept : KindOrdered (before ++ (fi.keptObject object ++ after)) := by
      rw [hversions] at hordered
      cases hkeep : fi.keptObject object with
      | nil =>
        rw [List.nil_append]
        exact hordered.sublist (List.Sublist.append_left (List.sublist_cons_self _ _) _)
      | cons kept rest =>
        have hlength := @length_keptObject_le fi object
        rw [hkeep, List.length_cons] at hlength
        have hnil : rest = [] := List.length_eq_zero_iff.mp (by omega)
        obtain ⟨hkind, htime⟩ := of_mem_keptObject (hkeep ▸ List.mem_cons_self)
        rw [hnil, List.singleton_append]
        exact hordered.replace hkind htime
    unfold appendEntry
    split
    next hdeleted =>
      rw [← List.append_assoc]
      refine hkept.appendMarker hdeleted (hentry hdeleted) fun version hmem hkind => ?_
      have happends : fi.AppendsMarker uv versions := by
        refine ⟨hdeleted, fun h => ?_, fun hexists => ?_⟩
        · rw [hupdate] at h
          cases h
        · obtain ⟨marked, hmarked, hmarker⟩ := hexists
          rw [hmarkers marked hmarked] at hmarker
          cases hmarker
      have holder : ∀ front version back, versions = front ++ version :: back →
          version.isDeleteMarker = false → (∀ object', version = .objectType object' →
            ¬ fi.RemovesObject uv versions front object') → version.modTime < fi.modTime := by
        intro front version back hsplit hkind hstays
        refine (hgood happends front version back hsplit hkind).resolve_left ?_
        rintro ⟨object', rfl, hremoves⟩
        exact hstays object' rfl hremoves
      rcases List.mem_append.mp hmem with hfront | hmem
      · obtain ⟨front, back, rfl⟩ := List.append_of_mem hfront
        refine holder front version (back ++ .objectType object :: after)
          (by rw [hversions, List.append_assoc, List.cons_append]) hkind ?_
        rintro object' rfl ⟨hid, -⟩
        have hnone := hbefore (.objectType object') (by simp)
        simp [isObjectOf, hid] at hnone
      · rcases List.mem_append.mp hmem with hkeep | hback
        · rw [(of_mem_keptObject hkeep).2]
          refine holder before (.objectType object) after hversions rfl ?_
          rintro object' ⟨⟩ ⟨-, -, -, -, hnothing⟩
          rw [hnothing] at hkeep
          cases hkeep
        · obtain ⟨front, back, rfl⟩ := List.append_of_mem hback
          refine holder (before ++ .objectType object :: front) version back
            (by rw [hversions, List.append_assoc, List.cons_append]) hkind ?_
          rintro object' rfl ⟨-, hfirst, -⟩
          have hnone := hfirst (.objectType object) (by simp)
          simp [isObjectOf, huuid] at hnone
    next => exact hkept
  | addMarker hversions hdeleted =>
    right
    refine hordered.appendMarker hdeleted (hentry hdeleted) fun version hmem hkind => ?_
    obtain ⟨front, back, hsplit⟩ := List.append_of_mem hmem
    refine (hgood ⟨hdeleted, fun _ => hversions, fun hexists => ?_⟩ front
      version back hsplit hkind).resolve_left ?_
    · obtain ⟨marked, hmarked, hmarker⟩ := hexists
      have hnone := hversions marked hmarked
      rw [isNewerOf, hmarker] at hnone
      cases hnone
    · rintro ⟨object, rfl, hid, -⟩
      have hnone := hversions (.objectType object) hmem
      simp [isNewerOf, isMarkerOf, isObjectOf, hid] at hnone

theorem kindsKept_deleteVersion (hkept : KindsKept z)
    (hgood : VersionEvent.InOrder uuid z (.deleteVersion fi)) {dataDir : String}
    {lastVersion : Bool}
    (hdelete : z.deleteVersion uuid clock fi = .ok (z', dataDir, lastVersion)) :
    KindsKept z' := by
  obtain ⟨uv, freed, hparse, hentry, -, hcase, -, -⟩ := XlMetaV2.deleteVersion_cases hdelete
  rcases hkept with hinvalid | hordered
  · exact Or.inl (hcase.invalid_mem hinvalid)
  · exact hcase.kindOrdered hentry (hgood uv hparse) hordered

/-- In every history from the empty journal whose calls keep the order of the
kinds, the listing takes for the latest version what a lookup reads, throughout. -/
theorem latestAgrees_of_inOrder (uuid : UuidPackage) (clock : Clock) (events : List VersionEvent)
    (hgood : Guarded (XlMetaV2.after uuid clock) (VersionEvent.InOrder uuid) {} events) :
    Always (XlMetaV2.after uuid clock) (LatestAgrees uuid) {} events := by
  have hstep : ∀ z event, KindsKept z → VersionEvent.InOrder uuid z event →
      KindsKept (z.after uuid clock event) := by
    intro z event hkept hgood
    cases event with
    | addVersion fi =>
      dsimp only [XlMetaV2.after]
      cases hadd : z.addVersion uuid fi with
      | error err => exact hkept
      | ok z' => exact kindsKept_addVersion hkept hgood hadd
    | deleteVersion fi =>
      dsimp only [XlMetaV2.after]
      cases hdelete : z.deleteVersion uuid clock fi with
      | error err => exact hkept
      | ok result => exact kindsKept_deleteVersion hkept hgood hdelete
  exact (hgood.always hstep (Or.inr List.Pairwise.nil)).imp fun z hkept => hkept.latestAgrees

def laterMarker : FileInfo where
  deleted := true
  modTime := (2 : Int)

def earlierVersion : FileInfo where
  versionID := UuidPackage.google.print 1
  modTime := (1 : Int)
  size := 1
  erasure := { dataBlocks := 2, parityBlocks := 2, index := 1, distribution := [1, 2, 3, 4] }

/-- A version that is replicated after a later delete marker is the last entry
of the journal and not its latest version. -/
theorem not_latestAgrees_earlierVersion :
    ¬ Always (XlMetaV2.after .google ⟨(0 : Int), fun _ => none⟩) (LatestAgrees .google) {}
      [.addVersion laterMarker, .addVersion earlierVersion] := by
  intro halways
  have hagrees := halways _ List.prefix_rfl (DescendingSort.stable _) "bucket" "object" _ _ rfl
  exact absurd hagrees.1 (by decide)

theorem inOrder_empty (uuid : UuidPackage) (fi : FileInfo) :
    VersionEvent.InOrder uuid {} (.addVersion fi) := by
  intro uv _
  refine ⟨fun before old after hsplit => ?_, fun _ => ⟨fun version hmem => ?_,
    fun version hmem => ?_⟩⟩
  · exact absurd hsplit (by simp)
  · exact absurd hmem List.not_mem_nil
  · exact absurd hmem List.not_mem_nil

theorem inOrder_single {uuid : UuidPackage} {fi : FileInfo} {z : XlMetaV2}
    (hversions : z.versions = [version]) (hnew : ∀ uv, parseVersionID uuid fi.versionID = some uv →
      version.answersTo uv (normalizeID fi.versionID) = false)
    (hnewer : version.modTime < fi.modTime) : VersionEvent.InOrder uuid z (.addVersion fi) := by
  intro uv hparse
  rw [hversions]
  refine ⟨fun before old after hsplit _ hanswers => ?_, fun _ => ⟨fun other hmem _ => ?_,
    fun other hmem => ?_⟩⟩
  · have hold : old = version := List.mem_singleton.mp (by rw [hsplit]; simp)
    rw [hold, hnew uv hparse] at hanswers
    cases hanswers
  · rw [List.mem_singleton.mp hmem]
    exact hnewer
  · exact absurd hmem List.not_mem_nil

theorem laterMarker_inOrder {z : XlMetaV2}
    (hversions : z.versions = [earlierVersion.toVersion 1 0]) :
    VersionEvent.InOrder .google z (.addVersion laterMarker) := by
  refine inOrder_single hversions (fun uv hparse => ?_) (by decide)
  obtain rfl : (0 : UUID) = uv := Option.some.inj hparse
  rw [FileInfo.toVersion_answersTo]
  decide

/-- In the order of their times both are in order. -/
theorem latestAgrees_inTime :
    Always (XlMetaV2.after .google ⟨(0 : Int), fun _ => none⟩) (LatestAgrees .google) {}
      [.addVersion earlierVersion, .addVersion laterMarker] := by
  have hafter : (XlMetaV2.after .google ⟨(0 : Int), fun _ => none⟩ {}
      (.addVersion earlierVersion)).versions = [earlierVersion.toVersion 1 0] := rfl
  apply latestAgrees_of_inOrder
  rw [guarded_cons, guarded_cons]
  exact ⟨inOrder_empty .google earlierVersion, laterMarker_inOrder hafter, guarded_nil⟩

end Fs3
