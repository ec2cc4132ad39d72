import Fs3.Journal.Record
import Fs3.Journal.SharedDataDir

/-! # Journals as finite maps

A journal grows from the empty one by calls of its four operations. -/

namespace Fs3

open Foundation XlMetaV2

/-- A call of one of the operations that change a journal. -/
inductive JournalCall where
  | addVersion (fi : FileInfo)
  | addLegacy (m : XlMetaV1Object)
  | updateObjectVersion (fi : FileInfo)
  | deleteVersion (fi : FileInfo)

/-- Run a call; a delete also reports a directory, which the journal forgets. -/
def XlMetaV2.call (uuid : UuidPackage) (clock : Clock) (z : XlMetaV2) :
    JournalCall → Except StorageErr XlMetaV2
  | .addVersion fi => z.addVersion uuid fi
  | .addLegacy m => z.addLegacy m
  | .updateObjectVersion fi => z.updateObjectVersion uuid fi
  | .deleteVersion fi => (z.deleteVersion uuid clock fi).map Prod.fst

def XlMetaV2.HasLegacy (z : XlMetaV2) : Prop := ∃ version ∈ z.versions, version.isLegacy = true

/-- A call that does not put a second version under an id, or an unreadable
one: the null version is not added past a legacy object, a delete marker is not
added beside an object that is kept, a delete marker is not exchanged for an
entry with no type, and an update sets no time before the epoch. -/
def JournalCall.Regular (uuid : UuidPackage) (z : XlMetaV2) : JournalCall → Prop
  | addVersion fi => parseVersionID uuid fi.versionID = some 0 →
      normalizeID fi.versionID ≠ nullVersionID → ¬ z.HasLegacy
  | addLegacy _ => True
  | updateObjectVersion fi => fi.modTime = Time.zero ∨ 0 < fi.modTime.unixNano
  | deleteVersion fi => ∀ uv, parseVersionID uuid fi.versionID = some uv →
      if fi.deleted then
        (uv = 0 → ¬ z.HasLegacy) ∧
          ∀ object, deletedObject fi uv z.versions = some object → fi.keptObject object = []
      else (∃ version ∈ z.versions, version.isMarkerOf uv = true) →
        fi.updateVersion = false → ¬ (fi.markDeleted = true ∧ fi.versionPurgeStatus ≠ purgeComplete)

/-- The journals that regular calls build. -/
inductive Reachable (uuid : UuidPackage) (clock : Clock) : XlMetaV2 → Prop
  | empty : Reachable uuid clock {}
  | call {z z' : XlMetaV2} (call : JournalCall) (hreach : Reachable uuid clock z)
      (hregular : call.Regular uuid z) (hcall : z.call uuid clock call = .ok z') :
      Reachable uuid clock z'

/-! ## One call -/

def Distinct (versions : List XlMetaV2Version) : Prop :=
  (∀ version ∈ versions, version.valid = true) ∧ (versions.map XlMetaV2Version.uuid).Nodup

theorem wellFormed_iff {z : XlMetaV2} : z.WellFormed ↔ Distinct z.versions :=
  ⟨fun h => ⟨h.allValid, h.nodup⟩, fun h => ⟨h.1, h.2⟩⟩

namespace Distinct

variable {before after versions : List XlMetaV2Version} {old new : XlMetaV2Version}

theorem replace (h : Distinct (before ++ old :: after)) (hvalid : new.valid = true)
    (huuid : new.uuid = old.uuid) : Distinct (before ++ new :: after) := by
  refine ⟨forall_mem_replaced h.1 hvalid, ?_⟩
  have hmap := h.2
  simp only [List.map_append, List.map_cons] at hmap ⊢
  rwa [huuid]

theorem remove (h : Distinct (before ++ old :: after)) : Distinct (before ++ after) := by
  have hsublist : (before ++ after).Sublist (before ++ old :: after) :=
    List.Sublist.append_left (List.sublist_cons_self _ _) _
  exact ⟨fun version hmem => h.1 version (hsublist.subset hmem),
    h.2.sublist (hsublist.map _)⟩

theorem append (h : Distinct versions) (hvalid : new.valid = true)
    (hnew : ∀ version ∈ versions, version.uuid ≠ new.uuid) : Distinct (versions ++ [new]) := by
  refine ⟨fun version hmem => ?_, ?_⟩
  · rcases List.mem_append.mp hmem with hold | hlast
    · exact h.1 version hold
    · rwa [List.mem_singleton.mp hlast]
  · rw [List.map_append, List.nodup_append]
    refine ⟨h.2, by simp, ?_⟩
    intro uuid huuid uuid' huuid' heq
    obtain ⟨version, hmem, rfl⟩ := List.mem_map.mp huuid
    obtain rfl : uuid' = new.uuid := by simpa using huuid'
    exact hnew version hmem heq

theorem move (h : Distinct (before ++ old :: after)) (hvalid : new.valid = true)
    (huuid : new.uuid = old.uuid) : Distinct (before ++ after ++ [new]) := by
  refine h.remove.append hvalid fun version hmem heq => ?_
  have hnodup := h.2
  rw [List.map_append, List.map_cons, List.nodup_middle, ← List.map_append] at hnodup
  rw [huuid] at heq
  exact (List.nodup_cons.mp hnodup).1 (heq ▸ List.mem_map_of_mem hmem)

theorem eq_of_uuid_eq (h : Distinct versions) {first second : XlMetaV2Version}
    (hfirst : first ∈ versions) (hsecond : second ∈ versions) (huuid : first.uuid = second.uuid) :
    first = second :=
  List.inj_on_of_nodup_map h.2 hfirst hsecond huuid

end Distinct

theorem uuid_ne_of_not_isNewerOf {uv : UUID} {version : XlMetaV2Version}
    (hvalid : version.valid = true) (hnewer : version.isNewerOf uv = false)
    (hlegacy : version.isLegacy = true → uv ≠ 0) : version.uuid ≠ uv := by
  intro huuid
  have hinvalid : version ≠ .invalid := by
    rintro rfl
    cases hvalid
  cases hkind : version.isLegacy with
  | false =>
    rw [XlMetaV2Version.isNewerOf_iff.mpr ⟨hinvalid, hkind, huuid⟩] at hnewer
    cases hnewer
  | true =>
    apply hlegacy hkind
    rw [← huuid]
    cases version with
    | legacyType => rfl
    | invalid | objectType | deleteType => cases hkind

variable {versionID : String}

theorem PutCase.distinct {uuid : UuidPackage} {uv : UUID} {ventry : XlMetaV2Version}
    {versions versions' : List XlMetaV2Version}
    (hcase : PutCase uv versionID ventry versions versions') (h : Distinct versions)
    (hparse : parseVersionID uuid versionID = some uv) (hvalid : ventry.valid = true)
    (huuid : ventry.uuid = uv) (hregular : uv = 0 → versionID ≠ nullVersionID →
      ¬ ∃ version ∈ versions, version.isLegacy = true) : Distinct versions' := by
  cases hcase with
  | replace before old after hversions hbefore hold =>
    rw [hversions] at h
    exact h.replace hvalid
      (huuid.trans (XlMetaV2Version.uuid_eq_of_answersTo hparse hold).symm)
  | append hnone =>
    refine h.append hvalid fun version hmem heq => ?_
    rw [huuid] at heq
    have hanswers := hnone version hmem
    cases hkind : version.isLegacy with
    | false =>
      rw [(XlMetaV2Version.answersTo_of_not_legacy (h.1 version hmem) hkind).mpr heq]
        at hanswers
      cases hanswers
    | true =>
      cases version with
      | invalid | objectType | deleteType => cases hkind
      | legacyType object =>
        have hnull : versionID ≠ nullVersionID := fun hid => by
          rw [XlMetaV2Version.answersTo_legacy.mpr hid] at hanswers
          cases hanswers
        exact hregular heq.symm hnull ⟨_, hmem, rfl⟩

/-- A regular delete keeps ids distinct. -/
theorem DeleteCase.distinct {fi : FileInfo} {uv : UUID}
    {versions versions' : List XlMetaV2Version} {freed : Option XlMetaV2Object}
    (hcase : DeleteCase fi uv versions versions' freed) (h : Distinct versions)
    (hentry : fi.deleted = true → (fi.deleteEntry uv).valid = true)
    (hregular : if fi.deleted then
        (uv = 0 → ¬ ∃ version ∈ versions, version.isLegacy = true) ∧
          ∀ object, deletedObject fi uv versions = some object → fi.keptObject object = []
      else (∃ version ∈ versions, version.isMarkerOf uv = true) →
        fi.updateVersion = false →
          ¬ (fi.markDeleted = true ∧ fi.versionPurgeStatus ≠ purgeComplete)) :
    Distinct versions' := by
  have hfreed := hcase.freed_eq
  have hentryUuid : fi.deleted = true → (fi.deleteEntry uv).uuid = uv := fun hdeleted =>
    deleteEntry_uuid fun heq => by
      have hvalid := hentry hdeleted
      rw [heq] at hvalid
      cases hvalid
  cases hcase with
  | markMarker before marker after hversions hbefore huuid hupdate =>
    rw [hversions] at h
    exact h.replace (h.1 (.deleteType marker) (by simp)) rfl
  | markObject before object after hversions hbefore huuid hupdate =>
    rw [hversions] at h
    exact h.replace (h.1 (.objectType object) (by simp)) rfl
  | dropMarker before marker after hversions hbefore huuid hupdate =>
    rw [hversions] at h
    split
    next hmark =>
      rw [← List.append_assoc]
      cases hdeleted : fi.deleted with
      | true => exact h.move (hentry hdeleted) ((hentryUuid hdeleted).trans huuid.symm)
      | false =>
        rw [hdeleted] at hregular
        exact absurd hmark (hregular ⟨.deleteType marker, by simp [hversions], by
          simp [XlMetaV2Version.isMarkerOf, huuid]⟩ hupdate)
    · rw [List.append_nil]
      exact h.remove
  | dropObject before object after hversions hmarkers hbefore huuid hupdate =>
    rw [hversions] at h
    cases hdeleted : fi.deleted with
    | true =>
      rw [if_pos hdeleted] at hregular
      rw [hregular.2 object hfreed.symm, List.nil_append, appendEntry_eq, if_pos hdeleted,
        ← List.append_assoc]
      exact h.move (hentry hdeleted) ((hentryUuid hdeleted).trans huuid.symm)
    | false =>
      rw [appendEntry_eq, if_neg (by simp [hdeleted]), List.append_nil, FileInfo.keptObject]
      have hvalid := h.1 (.objectType object) (by simp)
      split
      · exact h.replace hvalid rfl
      · split
        · exact h.replace hvalid rfl
        · exact h.remove
  | addMarker hversions hdeleted =>
    rw [if_pos hdeleted] at hregular
    refine h.append (hentry hdeleted) fun version hmem => ?_
    rw [hentryUuid hdeleted]
    exact uuid_ne_of_not_isNewerOf (h.1 version hmem) (hversions version hmem)
      fun hlegacy hzero => hregular.1 hzero ⟨version, hmem, hlegacy⟩

variable {uuid : UuidPackage} {clock : Clock} {z z' : XlMetaV2} {fi : FileInfo}

theorem addVersion_wellFormed (hwell : z.WellFormed)
    (hregular : (JournalCall.addVersion fi).Regular uuid z)
    (hadd : z.addVersion uuid fi = .ok z') : z'.WellFormed := by
  obtain ⟨uv, dd, hparse, _, hvalid, _, hcase⟩ := addVersion_cases hadd
  rw [wellFormed_iff] at hwell ⊢
  refine hcase.distinct hwell ((parseVersionID_normalizeID uuid fi.versionID).trans hparse) hvalid
    (fi.toVersion_uuid uv dd) fun hzero hnull => ?_
  exact hregular (by rw [hparse, hzero]) hnull

/-- Every regular call keeps the journal a finite map. -/
theorem call_wellFormed {call : JournalCall} (hwell : z.WellFormed)
    (hregular : call.Regular uuid z) (hcall : z.call uuid clock call = .ok z') :
    z'.WellFormed := by
  cases call with
  | addVersion fi => exact addVersion_wellFormed hwell hregular hcall
  | addLegacy m =>
    rw [XlMetaV2.call, addLegacy] at hcall
    split at hcall
    next hvalid =>
      cases hcall
      rw [wellFormed_iff]
      exact ⟨fun version hmem => by rw [List.mem_singleton.mp hmem]; exact hvalid, by simp⟩
    · cases hcall
  | updateObjectVersion fi =>
    obtain ⟨uv, before, object, after, _, hversions, _, rfl⟩ := updateObjectVersion_cases hcall
    rw [wellFormed_iff] at hwell ⊢
    rw [hversions] at hwell
    refine hwell.replace ?_ rfl
    have hvalid := hwell.1 (.objectType object) (by simp)
    simp only [XlMetaV2Version.valid, Bool.and_eq_true, decide_eq_true_eq] at hvalid ⊢
    refine ⟨hvalid.1, ?_⟩
    unfold XlMetaV2Object.update
    rcases hregular with hzero | hpos
    · simpa [hzero] using hvalid.2
    · split
      · exact hvalid.2
      · exact hpos
  | deleteVersion fi =>
    rw [XlMetaV2.call] at hcall
    cases hdelete : z.deleteVersion uuid clock fi with
    | error err => rw [hdelete] at hcall; cases hcall
    | ok result =>
      obtain ⟨z'', dataDir, lastVersion⟩ := result
      rw [hdelete] at hcall
      obtain rfl : z'' = z' := Except.ok.inj hcall
      obtain ⟨uv, freed, hparse, hentry, _, hcase, _, _⟩ := deleteVersion_cases hdelete
      rw [wellFormed_iff] at hwell ⊢
      exact hcase.distinct hwell hentry (hregular uv hparse)

/-! ## Whole histories -/

theorem Reachable.wellFormed (hreach : Reachable uuid clock z) : z.WellFormed := by
  induction hreach with
  | empty => exact ⟨fun _ hmem => absurd hmem List.not_mem_nil, List.nodup_nil⟩
  | call call _ hregular hcall ih => exact call_wellFormed ih hregular hcall

theorem determinate_of_wellFormed {volume path : String} (hwell : z.WellFormed) {uv : UUID}
    (hparse : parseVersionID uuid versionID = some uv) :
    z.Determinate uuid volume path uv versionID :=
  determinate_of_unique fun _ hfirst _ hsecond hanswers hanswers' =>
    (wellFormed_iff.mp hwell).eq_of_uuid_eq hfirst hsecond
      ((XlMetaV2Version.uuid_eq_of_answersTo hparse hanswers).trans
        (XlMetaV2Version.uuid_eq_of_answersTo hparse hanswers').symm)

theorem PutCase.mem {uv : UUID} {ventry : XlMetaV2Version}
    {versions versions' : List XlMetaV2Version}
    (hcase : PutCase uv versionID ventry versions versions') : ventry ∈ versions' := by
  cases hcase <;> simp

theorem addVersion_recorded (volume path : String) (sorter : DescendingSort XlMetaV2Version.modTime)
    (hwell : z'.WellFormed) (hadd : z.addVersion uuid fi = .ok z') (hne : versionID ≠ "")
    (hparse : parseVersionID uuid versionID = parseVersionID uuid fi.versionID) :
    ∃ got, z'.toFileInfo uuid volume path sorter versionID = .ok got ∧ fi.Recorded uuid got := by
  obtain ⟨uv, dd, huv, hdir, hvalid, _, hcase⟩ := addVersion_cases hadd
  rw [huv] at hparse
  have hrecord := record_of_unique volume path sorter
    hwell.allValid hparse hne hcase.mem (by simp) fun other hmem hanswers =>
      (wellFormed_iff.mp hwell).eq_of_uuid_eq hmem hcase.mem
        ((XlMetaV2Version.uuid_eq_of_answersTo hparse hanswers).trans
          (fi.toVersion_uuid uv dd).symm)
  unfold record at hrecord
  cases hgot : z'.toFileInfo uuid volume path sorter versionID with
  | error err => rw [hgot] at hrecord; cases hrecord
  | ok got =>
    rw [hgot] at hrecord
    refine ⟨got, rfl, FileInfo.Recorded.static ?_⟩
    rw [Except.ok.inj hrecord]
    exact fi.recorded_toVersion uuid volume path hdir hvalid

theorem addVersion_frame (volume path : String) (sorter : DescendingSort XlMetaV2Version.modTime)
    (hwell : z.WellFormed) (hwell' : z'.WellFormed) (hadd : z.addVersion uuid fi = .ok z')
    (hne : versionID ≠ "")
    (hother : parseVersionID uuid versionID ≠ parseVersionID uuid fi.versionID) :
    z'.record uuid volume path sorter versionID = z.record uuid volume path sorter versionID := by
  obtain ⟨uv, dd, huv, _, _, _, hcase⟩ := addVersion_cases hadd
  rw [huv] at hother
  refine record_congr hwell.allValid hwell'.allValid hne ?_ hother fun uv' hparse =>
    determinate_of_wellFormed hwell hparse
  exact hcase.agreeExcept ((parseVersionID_normalizeID uuid fi.versionID).trans huv)
    (fi.toVersion_uuid uv dd)

def newerVersion : FileInfo where
  versionID := UuidPackage.google.print 1
  dataDir := UuidPackage.google.print 7
  modTime := (2 : Int)
  size := 3
  parts := [{ number := 1, size := 3, actualSize := 3 }]
  erasure := { dataBlocks := 2, parityBlocks := 2, index := 1, distribution := [1, 2, 3, 4] }

def olderNullVersion : FileInfo :=
  { newerVersion with
    versionID := ""
    dataDir := UuidPackage.google.print 8
    modTime := (1 : Int) }

def twoVersions : XlMetaV2 where
  versions := [newerVersion.toVersion 1 7, olderNullVersion.toVersion 0 8]

end Fs3
