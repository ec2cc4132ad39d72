import Fs3.Multipart.BackgroundAppend

/-! # An append file holds the parts of its list

The lock of an append file keeps its runs and the completion that takes it apart, and a file that
was taken is never found in the map again. -/

namespace Fs3.FsUpload

open Foundation

namespace Run

def holds (run : Run) (file : Nat) : Prop :=
  match run with
  | .background (.looping f _ _) => f = file
  | .completing _ _ (.looping f _ _) => f = file
  | .copying _ _ f _ _ => f = some file
  | .appended _ f => f = file
  | _ => False

def owns (run : Run) (file : Nat) : Prop :=
  match run with
  | .comparing _ _ f => f = file
  | .copying _ _ f _ _ => f = some file
  | .appended _ f => f = file
  | _ => False

variable {run : Run} {phase : Appending}

theorem not_owns_advance (next : Appending) (file : Nat) : ¬ (run.advance next).owns file := by
  cases run <;> exact id

theorem not_owns_finish (file : Nat) : ¬ run.finish.owns file := by
  cases run <;> exact id

theorem not_holds_finish (file : Nat) : ¬ run.finish.holds file := by
  cases run <;> exact id

theorem holds_advance_looping {file other : Nat} {entries : List PartName} {next : Nat} :
    (run.advance (.looping file entries next)).holds other ↔ file = other := by
  cases run <;> exact Iff.rfl

theorem appending_advance : (run.advance phase).appending = some phase := by
  cases run <;> rfl

theorem holds_of_looping {file : Nat} {entries : List PartName} {next : Nat}
    (happending : run.appending = some (.looping file entries next)) : run.holds file := by
  cases run with
  | background phase | completing _ _ phase =>
    injection happending with hphase
    rw [hphase]
    rfl
  | _ => exact nomatch happending

end Run

namespace State

def Known (s : State) (key : Nat × String) : Prop := ∃ entry ∈ s.dir, entry.1.key = key

def Relies (s : State) : Run → Prop
  | .comparing _ _ file => (s.files file).gone = false
  | .copying parts _ _ rest copied =>
    ∃ front, parts = front ++ rest ∧ copied.getD [] = s.concat (front.map AskedPart.key) ∧
      ∀ part ∈ front, s.Known part.key
  | .appended parts file =>
    (s.files file).gone = false ∧
      (s.files file).parts.map PartName.key = parts.map AskedPart.key
  | _ => True

/-- What holds in every state as long as no failing append leaves bytes behind. -/
structure Inv (s : State) : Prop where
  /-- A number and an etag name one sequence of bytes. -/
  unique : ∀ a ∈ s.dir, ∀ b ∈ s.dir, a.1.key = b.1.key → a.2 = b.2
  appended : ∀ file, (s.files file).gone = false →
    (s.files file).bytes = s.concat ((s.files file).parts.map PartName.key)
  known : ∀ file, ∀ name ∈ (s.files file).parts, s.Known name.key
  current : ∀ file, s.current = some file → file < s.fileCount ∧ (s.files file).gone = false
  locked : ∀ run file, (s.runs run).holds file → s.locks file = some run
  owned : ∀ run file, (s.runs run).owns file → file < s.fileCount ∧ s.current ≠ some file
  owner : ∀ run run' file, (s.runs run).owns file → (s.runs run').owns file → run = run'
  fresh : ∀ file, s.fileCount ≤ file → (s.files file).gone = false
  relies : ∀ run, s.Relies (s.runs run)
  made : ∀ object ∈ s.made, object.2 = s.concat (object.1.map AskedPart.key) ∧
    ∀ part ∈ object.1, s.Known part.key

/-- Every append file that is in use is the concatenation of the parts in its list,
and every object is the concatenation of the parts it was asked for. -/
def Faithful (s : State) : Prop :=
  (∀ file, s.current = some file →
    (s.files file).bytes = s.concat ((s.files file).parts.map PartName.key)) ∧
  (∀ run parts file, s.runs run = .appended parts file →
    (s.files file).bytes = s.concat ((s.files file).parts.map PartName.key)) ∧
  ∀ object ∈ s.made, object.2 = s.concat (object.1.map AskedPart.key)

end State

/-- An upload does not put other bytes under the number and etag of a part that is
there, and an append that fails leaves nothing in an append file that is still there. -/
def Good (s : State) : Event → Prop
  | .upload name bytes _ => ∀ entry ∈ s.dir, entry.1.key = name.key → entry.2 = bytes
  | .append run (some count) =>
    ∀ file name rest, (s.runs run).appending = some (.looping file (name :: rest)
      name.partNumber) →
      (s.files file).gone = true ∨ ∀ bytes, s.read name = some bytes → bytes.take count = []
  | _ => True

namespace State

variable {s : State}

section Parts

theorem content_of_mem
    (hunique : ∀ a ∈ s.dir, ∀ b ∈ s.dir, a.1.key = b.1.key → a.2 = b.2)
    {entry : PartName × Bytes} (hmem : entry ∈ s.dir) : s.content entry.1.key = entry.2 := by
  unfold content
  split
  next found hfound =>
    have hkey : found.1.key = entry.1.key := by simpa using List.find?_some hfound
    exact hunique found (List.mem_of_find?_eq_some hfound) entry hmem hkey
  next hnone => exact absurd (List.find?_eq_none.mp hnone entry hmem) (by simp)

theorem content_of_read (hunique : ∀ a ∈ s.dir, ∀ b ∈ s.dir, a.1.key = b.1.key → a.2 = b.2)
    {name : PartName} {bytes : Bytes} (hread : s.read name = some bytes) :
    s.Known name.key ∧ s.content name.key = bytes := by
  unfold read at hread
  split at hread
  next =>
    obtain ⟨entry, hfound, rfl⟩ := Option.map_eq_some_iff.mp hread
    have hname : entry.1 = name := by simpa using List.find?_some hfound
    have hmem := List.mem_of_find?_eq_some hfound
    rw [← hname]
    exact ⟨⟨entry, hmem, rfl⟩, content_of_mem hunique hmem⟩
  next => exact nomatch hread

theorem concat_append (keys keys' : List (Nat × String)) :
    s.concat (keys ++ keys') = s.concat keys ++ s.concat keys' :=
  List.flatMap_append

theorem concat_congr {s' : State} {keys : List (Nat × String)}
    (hsame : ∀ key ∈ keys, s.content key = s'.content key) : s.concat keys = s'.concat keys :=
  List.flatMap_congr hsame

end Parts

/-! ## What keeps the invariant -/

namespace Inv

theorem setRun (hinv : s.Inv) {run : Nat} {next : Run}
    (hholds : ∀ file, next.holds file → s.locks file = some run)
    (howns : ∀ file, next.owns file → (s.runs run).owns file) (hrelies : s.Relies next) :
    (s.setRun run next).Inv := by
  have howns' : ∀ run' file, ((s.setRun run next).runs run').owns file →
      (s.runs run').owns file :=
    (Function.forall_update_iff s.runs fun run' r =>
      ∀ file, r.owns file → (s.runs run').owns file).mpr ⟨howns, fun _ _ _ => id⟩
  exact { hinv with
    locked := (Function.forall_update_iff s.runs fun run' r =>
      ∀ file, r.holds file → s.locks file = some run').mpr ⟨hholds, fun run' _ => hinv.locked run'⟩
    owned := fun run' file howned => hinv.owned run' file (howns' run' file howned)
    owner := fun r r' file hr hr' => hinv.owner r r' file (howns' r file hr) (howns' r' file hr')
    relies := (Function.forall_update_iff s.runs fun _ => s.Relies).mpr
      ⟨hrelies, fun run' _ => hinv.relies run'⟩ }

theorem lock (hinv : s.Inv) {file : Nat} (hfree : s.locks file = none) (run : Nat) :
    (s.setLock file (some run)).Inv := by
  refine { hinv with locked := fun run' other hheld => ?_ }
  have hlocked := hinv.locked run' other hheld
  have hother : other ≠ file := by
    rintro rfl
    rw [hfree] at hlocked
    exact nomatch hlocked
  simpa [State.setLock, hother] using hlocked

theorem release (hinv : s.Inv) {file : Nat} (hfree : ∀ run, ¬ (s.runs run).holds file) :
    (s.setLock file none).Inv := by
  refine { hinv with locked := fun run' other hheld => ?_ }
  have hother : other ≠ file := by
    rintro rfl
    exact hfree run' hheld
  simpa [State.setLock, hother] using hinv.locked run' other hheld

theorem free (hinv : s.Inv) {run file : Nat} {next : Run} (hlocked : s.locks file = some run)
    (hholds : ¬ next.holds file) (other : Nat) :
    ¬ (Function.update s.runs run next other).holds file :=
  (Function.forall_update_iff s.runs fun _ r => ¬ r.holds file).mpr ⟨hholds, fun other hne hheld =>
    hne (Option.some.inj (hlocked.symm.trans (hinv.locked other file hheld))).symm⟩ other

theorem stop (hinv : s.Inv) {run file : Nat} {next : Run} (hlocked : s.locks file = some run)
    (hholds : ∀ other, ¬ next.holds other) (howns : ∀ other, ¬ next.owns other)
    (hrelies : s.Relies next) : ((s.setRun run next).setLock file none).Inv := by
  have hnext : (s.setRun run next).Inv := hinv.setRun (fun other h => absurd h (hholds other))
    (fun other h => absurd h (howns other)) hrelies
  exact hnext.release (hinv.free hlocked (hholds file))

/-- What lies at the path of a file changes. -/
theorem setFile (hinv : s.Inv) {file : Nat} {contents : AppendFile}
    (hgone : contents.gone = (s.files file).gone)
    (happended : contents.gone = false →
      contents.bytes = s.concat (contents.parts.map PartName.key))
    (hknown : ∀ name ∈ contents.parts, s.Known name.key)
    (hparts : ∀ run parts, s.runs run = .appended parts file →
      contents.parts = (s.files file).parts) : (s.setFile file contents).Inv := by
  have hsame : ∀ other, ((s.setFile file contents).files other).gone = (s.files other).gone := by
    intro other
    by_cases hother : other = file
    · rw [hother]
      simpa [State.setFile] using hgone
    · simp [State.setFile, hother]
  refine { hinv with
    appended := fun other hother => ?_
    known := fun other name hname => ?_
    current := fun other hcurrent => ?_
    fresh := fun other hfresh => ?_
    relies := fun run => ?_ }
  · change _ = s.concat _
    by_cases heq : other = file
    · rw [heq] at hother ⊢
      rw [hsame] at hother
      simpa [State.setFile] using happended (hgone.trans hother)
    · rw [hsame] at hother
      simpa [State.setFile, heq] using hinv.appended other hother
  · change s.Known _
    by_cases heq : other = file
    · rw [heq] at hname
      exact hknown name (by simpa [State.setFile] using hname)
    · exact hinv.known other name (by simpa [State.setFile, heq] using hname)
  · rw [hsame]
    exact hinv.current other hcurrent
  · rw [hsame]
    exact hinv.fresh other hfresh
  · have hrelies := hinv.relies run
    change (s.setFile file contents).Relies (s.runs run)
    cases hrun : s.runs run with
    | comparing parts entries other =>
      rw [hrun] at hrelies
      exact (hsame other).trans hrelies
    | appended parts other =>
      rw [hrun] at hrelies
      refine ⟨(hsame other).trans hrelies.1, ?_⟩
      by_cases heq : other = file
      · subst heq
        have hsame' := hparts run parts hrun
        simpa [State.setFile, hsame'] using hrelies.2
      · simpa [State.setFile, heq] using hrelies.2
    | copying parts entries other rest copied =>
      rw [hrun] at hrelies
      exact hrelies
    | _ => trivial

/-- A file that a completion has taken is removed, once nothing relies on it. -/
theorem removeFile (hinv : s.Inv) {file : Nat} (hfile : file < s.fileCount)
    (htaken : s.current ≠ some file)
    (hrelies : ∀ run, (s.runs run).owns file → ∃ parts entries other rest copied,
      s.runs run = .copying parts entries other rest copied) : (s.removeFile file).Inv := by
  have hsame : ∀ other, other ≠ file → (s.removeFile file).files other = s.files other := by
    intro other hother
    simp [State.removeFile, State.setFile, hother]
  have hgone : ((s.removeFile file).files file).gone = true := by
    simp [State.removeFile, State.setFile]
  refine { hinv with
    appended := fun other hother => ?_
    known := fun other name hname => ?_
    current := fun other hcurrent => ?_
    fresh := fun other hfresh => ?_
    relies := fun run => ?_ }
  · by_cases heq : other = file
    · rw [heq, hgone] at hother
      exact nomatch hother
    · rw [hsame other heq] at hother ⊢
      exact hinv.appended other hother
  · change s.Known _
    by_cases heq : other = file
    · rw [heq] at hname
      exact hinv.known file name (by simpa [State.removeFile, State.setFile] using hname)
    · exact hinv.known other name (by rwa [hsame other heq] at hname)
  · have hother : other ≠ file := by
      rintro rfl
      exact htaken hcurrent
    rw [hsame other hother]
    exact hinv.current other hcurrent
  · rw [hsame other (by rintro rfl; exact absurd hfile (Nat.not_lt.mpr hfresh))]
    exact hinv.fresh other hfresh
  · have hold := hinv.relies run
    change (s.removeFile file).Relies (s.runs run)
    cases hrun : s.runs run with
    | comparing parts entries other =>
      rw [hrun] at hold
      have hother : other ≠ file := by
        rintro rfl
        obtain ⟨_, _, _, _, _, hcopying⟩ := hrelies run (by rw [hrun]; rfl)
        rw [hrun] at hcopying
        exact nomatch hcopying
      change ((s.removeFile file).files other).gone = false
      rw [hsame other hother]
      exact hold
    | appended parts other =>
      rw [hrun] at hold
      have hother : other ≠ file := by
        rintro rfl
        obtain ⟨_, _, _, _, _, hcopying⟩ := hrelies run (by rw [hrun]; rfl)
        rw [hrun] at hcopying
        exact nomatch hcopying
      change ((s.removeFile file).files other).gone = false ∧
        ((s.removeFile file).files other).parts.map _ = _
      rw [hsame other hother]
      exact hold
    | copying parts entries other rest copied =>
      rw [hrun] at hold
      exact hold
    | _ => trivial

/-- A part is uploaded under a name that gives its bytes. -/
theorem upload (hinv : s.Inv) {name : PartName} {bytes : Bytes}
    (hgood : ∀ entry ∈ s.dir, entry.1.key = name.key → entry.2 = bytes) :
    State.Inv { s with dir := (name, bytes) :: s.dir.filter fun entry => entry.1 != name } := by
  let s' : State := { s with dir := (name, bytes) :: s.dir.filter fun entry => entry.1 != name }
  have hdir : ∀ entry,
      entry ∈ s'.dir ↔ entry = (name, bytes) ∨ (entry ∈ s.dir ∧ entry.1 ≠ name) := by
    intro entry
    simp [s']
  have hunique : ∀ a ∈ s'.dir, ∀ b ∈ s'.dir, a.1.key = b.1.key → a.2 = b.2 := by
    intro a ha b hb hkey
    rcases (hdir a).mp ha with rfl | ⟨ha, _⟩ <;> rcases (hdir b).mp hb with rfl | ⟨hb, _⟩
    · rfl
    · exact (hgood b hb hkey.symm).symm
    · exact hgood a ha hkey
    · exact hinv.unique a ha b hb hkey
  -- A part that was there before keeps its bytes, also where it is uploaded again.
  have hkeeps : ∀ key, s.Known key → s'.Known key ∧ s.content key = s'.content key := by
    rintro key ⟨entry, hentry, rfl⟩
    rw [content_of_mem hinv.unique hentry]
    by_cases hname : entry.1 = name
    · have hnew : (name, bytes) ∈ s'.dir := (hdir _).mpr (.inl rfl)
      have hcontent := content_of_mem hunique hnew
      rw [hname]
      exact ⟨⟨_, hnew, rfl⟩, (hgood entry hentry (by rw [hname])).trans hcontent.symm⟩
    · have hold : entry ∈ s'.dir := (hdir _).mpr (.inr ⟨hentry, hname⟩)
      exact ⟨⟨_, hold, rfl⟩, (content_of_mem hunique hold).symm⟩
  have hconcat : ∀ keys, (∀ key ∈ keys, s.Known key) → s.concat keys = s'.concat keys :=
    fun keys hknown => concat_congr fun key hkey => (hkeeps key (hknown key hkey)).2
  have hnames : ∀ names : List PartName, (∀ name ∈ names, s.Known name.key) →
      s.concat (names.map PartName.key) = s'.concat (names.map PartName.key) :=
    fun names hknown => hconcat _ (List.forall_mem_map.mpr hknown)
  have hparts : ∀ parts : List AskedPart, (∀ part ∈ parts, s.Known part.key) →
      s.concat (parts.map AskedPart.key) = s'.concat (parts.map AskedPart.key) :=
    fun parts hknown => hconcat _ (List.forall_mem_map.mpr hknown)
  refine { hinv with
    unique := hunique
    appended := fun file hgone => (hinv.appended file hgone).trans (hnames _ (hinv.known file))
    known := fun file name hname => (hkeeps _ (hinv.known file name hname)).1
    relies := fun run => ?_
    made := fun object hobject => ?_ }
  · have hrelies := hinv.relies run
    change s'.Relies (s.runs run)
    cases hrun : s.runs run with
    | copying parts entries file rest copied =>
      rw [hrun] at hrelies
      obtain ⟨front, hfront, hcopied, hknown⟩ := hrelies
      exact ⟨front, hfront, hcopied.trans (hparts _ hknown),
        fun part hpart => (hkeeps _ (hknown part hpart)).1⟩
    | comparing parts entries file =>
      rw [hrun] at hrelies
      exact hrelies
    | appended parts file =>
      rw [hrun] at hrelies
      exact hrelies
    | _ => trivial
  · obtain ⟨hbytes, hknown⟩ := hinv.made object hobject
    exact ⟨hbytes.trans (hparts _ hknown), fun part hpart => (hkeeps _ (hknown part hpart)).1⟩

theorem makeObject (hinv : s.Inv) (run : Nat) {parts : List AskedPart} {bytes : Bytes}
    (purged : Bool) (hbytes : bytes = s.concat (parts.map AskedPart.key))
    (hknown : ∀ part ∈ parts, s.Known part.key) :
    (makeObject s run parts bytes purged).Inv := by
  have hidle : (s.setRun run .idle).Inv := hinv.setRun nofun nofun trivial
  refine { hidle with made := fun object hobject => ?_ }
  rcases List.mem_cons.mp hobject with rfl | hold
  · exact ⟨hbytes, hknown⟩
  · exact hinv.made object hold

end Inv

end State

/-! ## One step -/

section Step

variable {s : State}

open State

theorem inv_upload (hinv : s.Inv) (name : PartName) (bytes : Bytes) (run : Nat)
    (hgood : Good s (.upload name bytes run)) : (step s (.upload name bytes run)).Inv := by
  unfold step
  simp only
  split
  next =>
    split
    next =>
      have hnext : (s.setRun run (.background .start)).Inv := hinv.setRun nofun nofun trivial
      exact hnext.upload hgood
    next => exact hinv
  next => exact hinv

theorem inv_complete (hinv : s.Inv) (parts : List AskedPart) (files : List PartName) (run : Nat) :
    (step s (.complete parts files run)).Inv := by
  unfold step
  simp only
  split
  next =>
    split
    next => exact hinv.setRun nofun nofun trivial
    next => exact hinv
  next => exact hinv

theorem relies_advance (run : Run) (phase : Appending) : s.Relies (run.advance phase) := by
  cases run <;> trivial

theorem relies_finish (run : Run) : s.Relies run.finish := by
  cases run <;> trivial

theorem not_holds_advance_waiting (run : Run) (file other : Nat) :
    ¬ (run.advance (.waiting file)).holds other := by
  cases run <;> exact id

theorem inv_waiting (hinv : s.Inv) (run file : Nat) :
    (s.setRun run ((s.runs run).advance (.waiting file))).Inv :=
  hinv.setRun (fun other h => absurd h (not_holds_advance_waiting _ file other))
    (fun other h => absurd h (Run.not_owns_advance _ other)) (relies_advance _ _)

theorem inv_find (hinv : s.Inv) (run : Nat) : (step s (.find run)).Inv := by
  unfold step
  simp only
  split
  next =>
    split
    next file _ => exact inv_waiting hinv run file
    next hnone =>
      have hnext := inv_waiting hinv run s.fileCount
      refine { hnext with
        current := fun file hfile => ?_
        owned := fun other file howned => ?_
        fresh := fun file hfile => ?_ }
      · rw [← Option.some.inj hfile]
        exact ⟨Nat.lt_succ_self _, hinv.fresh _ (Nat.le_refl _)⟩
      · obtain ⟨hlt, _⟩ := hnext.owned other file howned
        change file < s.fileCount at hlt
        refine ⟨Nat.lt_succ_of_lt hlt, fun hcurrent => ?_⟩
        rw [← Option.some.inj hcurrent] at hlt
        exact Nat.lt_irrefl _ hlt
      · exact hinv.fresh file (Nat.le_of_succ_le hfile)
  next => exact hinv

theorem inv_list (hinv : s.Inv) (run : Nat) (readable : Bool) :
    (step s (.list run readable)).Inv := by
  unfold step
  simp only
  split
  next file hwaiting =>
    split
    next => exact hinv
    next hfree =>
      split
      next =>
        refine (hinv.lock hfree run).setRun (fun other hheld => ?_)
          (fun other h => absurd h (Run.not_owns_advance _ other)) (relies_advance _ _)
        rw [← Run.holds_advance_looping.mp hheld]
        simp [setLock]
      next =>
        exact hinv.setRun (fun other h => absurd h (Run.not_holds_finish other))
          (fun other h => absurd h (Run.not_owns_finish other)) (relies_finish _)
  next => exact hinv

section Append

variable {run file : Nat} {entries : List PartName} {next : Nat}

section

variable (hinv : s.Inv) (hlooping : (s.runs run).appending = some (.looping file entries next))
include hinv hlooping

theorem inv_done : ((s.setRun run (s.runs run).finish).setLock file none).Inv :=
  hinv.stop (hinv.locked run file (Run.holds_of_looping hlooping)) (Run.not_holds_finish)
    (Run.not_owns_finish) (relies_finish _)

theorem inv_looping (rest : List PartName) (next' : Nat) :
    (s.setRun run ((s.runs run).advance (.looping file rest next'))).Inv := by
  refine hinv.setRun (fun other hheld => ?_)
    (fun other h => absurd h (Run.not_owns_advance _ other)) (relies_advance _ _)
  rw [← Run.holds_advance_looping.mp hheld]
  exact hinv.locked run file (Run.holds_of_looping hlooping)

theorem not_appended_of_looping (other : Nat) (parts : List AskedPart) :
    s.runs other ≠ .appended parts file := by
  intro happended
  have hlocked := hinv.locked run file (Run.holds_of_looping hlooping)
  have hother := hinv.locked other file (by rw [happended]; rfl)
  rw [hlocked] at hother
  rw [Option.some.inj hother, happended] at hlooping
  exact nomatch hlooping

end

end Append

theorem inv_append (hinv : s.Inv) (run : Nat) (failsAfter : Option Nat)
    (hgood : Good s (.append run failsAfter)) : (step s (.append run failsAfter)).Inv := by
  unfold step
  simp only
  split
  next file entries next hlooping =>
    unfold appendEntry
    simp only
    split
    next => exact inv_done hinv hlooping
    next name rest =>
      split
      next => exact inv_looping hinv hlooping rest next
      next hge =>
        split
        next => exact inv_done hinv hlooping
        next hle =>
          have hnumber : next = name.partNumber := by omega
          split
          next => exact inv_done hinv hlooping
          next bytes hread =>
            obtain ⟨hknown, hcontent⟩ := content_of_read hinv.unique hread
            refine (inv_looping hinv hlooping rest (next + 1)).setFile rfl (fun hthere => ?_)
              (fun other hother => ?_) (fun other parts happended => ?_)
            · change _ = s.concat _
              rw [List.map_append, concat_append, ← hinv.appended file hthere]
              simp [concat, hcontent]
            · change s.Known other.key
              rcases List.mem_append.mp hother with hold | hnew
              · exact hinv.known file other hold
              · rw [List.mem_singleton.mp hnew]
                exact hknown
            · have hnext : ((s.setRun run ((s.runs run).advance
                  (.looping file rest (next + 1)))).runs run).appending =
                  some (.looping file rest (next + 1)) := by
                simp [setRun, Run.appending_advance]
              exact absurd happended
                (not_appended_of_looping (inv_looping hinv hlooping rest (next + 1)) hnext _ _)
          next bytes count hread =>
            refine (inv_done hinv hlooping).setFile rfl (fun hthere => ?_)
              (hinv.known file) (fun _ _ _ => rfl)
            rw [hnumber] at hlooping
            -- The file is still there, so nothing is left behind in it.
            have hnothing : bytes.take count = [] := by
              rcases hgood file name rest hlooping with hgone | hempty
              · rw [hgone] at hthere
                exact nomatch hthere
              · exact hempty bytes hread
            change _ = s.concat _
            rw [hnothing, List.append_nil]
            exact hinv.appended file hthere
  next => exact hinv

theorem inv_take (hinv : s.Inv) (run : Nat) : (step s (.take run)).Inv := by
  unfold step
  simp only
  split
  next parts entries htaking =>
    split
    next file hcurrent =>
      obtain ⟨hlt, hthere⟩ := hinv.current file hcurrent
      -- Nobody else has taken the file that is found in the map.
      have hnew : ∀ other f, ((s.setRun run (.comparing parts entries file)).runs other).owns f →
          (other = run ∧ f = file) ∨ (other ≠ run ∧ (s.runs other).owns f) :=
        (Function.forall_update_iff s.runs fun other r => ∀ f, r.owns f →
          (other = run ∧ f = file) ∨ (other ≠ run ∧ (s.runs other).owns f)).mpr
            ⟨fun _ howned => .inl ⟨rfl, Eq.symm howned⟩, fun _ hne _ howned => .inr ⟨hne, howned⟩⟩
      have hnot : ∀ other, ¬ (s.runs other).owns file :=
        fun other howned => (hinv.owned other file howned).2 hcurrent
      refine { hinv with
        current := nofun
        locked := fun other f hheld => ?_
        owned := fun other f howned => ?_
        owner := fun r r' f hr hr' => ?_
        relies := fun other => ?_ }
      · exact (Function.forall_update_iff s.runs fun other r => r.holds f → s.locks f = some other).mpr
          ⟨False.elim, fun other _ => hinv.locked other f⟩ other hheld
      · refine ⟨?_, nofun⟩
        rcases hnew other f howned with ⟨_, rfl⟩ | ⟨_, hold⟩
        · exact hlt
        · exact (hinv.owned other f hold).1
      · rcases hnew r f hr with ⟨rfl, rfl⟩ | ⟨_, hold⟩ <;>
          rcases hnew r' f hr' with ⟨hrun, hfile⟩ | ⟨_, hold'⟩
        · exact hrun.symm
        · exact absurd hold' (hnot r')
        · rw [hfile] at hold
          exact absurd hold (hnot r)
        · exact hinv.owner r r' f hold hold'
      · refine (Function.forall_update_iff s.runs fun _ => s.Relies).mpr
          ⟨?_, fun other _ => hinv.relies other⟩ other
        exact hthere
    next hnone =>
      refine hinv.setRun nofun nofun ⟨[], rfl, rfl, nofun⟩
  next => exact hinv

theorem inv_compare (hinv : s.Inv) (run : Nat) : (step s (.compare run)).Inv := by
  unfold step
  simp only
  split
  next parts entries file hcomparing =>
    have howned : (s.runs run).owns file := by rw [hcomparing]; rfl
    obtain ⟨hlt, htaken⟩ := hinv.owned run file howned
    have hthere : (s.files file).gone = false := by
      have hrelies := hinv.relies run
      rw [hcomparing] at hrelies
      exact hrelies
    split
    next => exact hinv
    next hfree =>
      have hlocked := hinv.lock hfree run
      split
      next hparts =>
        refine hlocked.setRun (fun other hheld => ?_) (fun other hother => ?_) ⟨hthere, ?_⟩
        · rw [← (hheld : file = other)]
          simp [setLock]
        · rw [← (hother : file = other)]
          exact howned
        · unfold hasParts at hparts
          simp only [Bool.and_eq_true, beq_iff_eq] at hparts
          exact hparts.2
      next =>
        have hcopying : ((s.setLock file (some run)).setRun run
            (.copying parts entries (some file) parts none)).Inv := by
          refine hlocked.setRun (fun other hheld => ?_) (fun other hother => ?_)
            ⟨[], rfl, rfl, nofun⟩
          · rw [← Option.some.inj (hheld : some file = some other)]
            simp [setLock]
          · rw [← Option.some.inj (hother : some file = some other)]
            exact howned
        refine hcopying.removeFile hlt htaken fun other hother => ?_
        have hsame := hcopying.owner other run file hother
          (by simp [setRun, Run.owns])
        exact ⟨parts, entries, some file, parts, none, by simp [setRun, hsame]⟩
  next => exact hinv

theorem inv_unlock (hinv : s.Inv) {run : Nat} {parts : List AskedPart} {entries : List PartName}
    {file : Option Nat} {rest : List AskedPart} {copied : Option Bytes}
    (hcopying : s.runs run = .copying parts entries file rest copied) :
    ((s.setRun run .idle).unlock file).Inv := by
  cases file with
  | none => exact hinv.setRun nofun nofun trivial
  | some file =>
    refine hinv.stop (hinv.locked run file ?_) (fun _ => id) (fun _ => id) trivial
    rw [hcopying]
    rfl

theorem inv_copy (hinv : s.Inv) (run : Nat) (name : PartName) (failsAfter : Option Nat) :
    (step s (.copy run name failsAfter)).Inv := by
  unfold step
  simp only
  split
  next parts entries file part rest copied hcopying =>
    split
    next hname =>
      simp only [Bool.and_eq_true, beq_iff_eq] at hname
      split
      next bytes hread =>
        obtain ⟨hknown, hcontent⟩ := content_of_read hinv.unique hread
        have hrelies := hinv.relies run
        rw [hcopying] at hrelies
        obtain ⟨front, hparts, hcopied, hfront⟩ := hrelies
        refine hinv.setRun (fun other hheld => hinv.locked run other ?_) (fun other howned => ?_)
          ⟨front ++ [part], ?_, ?_, fun other hother => ?_⟩
        · rw [hcopying]
          exact hheld
        · rw [hcopying]
          exact howned
        · rw [hparts, List.append_assoc]
          rfl
        · rw [List.map_append, concat_append, ← hcopied]
          simp [concat, ← hname.2, hcontent]
        · rcases List.mem_append.mp hother with hold | hnew
          · exact hfront other hold
          · rw [List.mem_singleton.mp hnew, ← hname.2]
            exact hknown
      next => exact inv_unlock hinv hcopying
    next => exact hinv
  next => exact hinv

theorem inv_commit (hinv : s.Inv) (run : Nat) (succeeds purged : Bool) :
    (step s (.commit run succeeds purged)).Inv := by
  unfold step
  simp only
  split
  next parts file happended =>
    have hholds : (s.runs run).holds file := by rw [happended]; rfl
    have howned : (s.runs run).owns file := by rw [happended]; rfl
    have hlocked := hinv.locked run file hholds
    split
    next =>
      have hrelies := hinv.relies run
      rw [happended] at hrelies
      obtain ⟨hthere, hparts⟩ := hrelies
      have hknown : ∀ part ∈ parts, s.Known part.key := by
        have hnames := List.forall_mem_map.mpr (hinv.known file)
        rw [hparts] at hnames
        exact List.forall_mem_map.mp hnames
      have hobject := hinv.makeObject run purged
        ((hinv.appended file hthere).trans (congrArg s.concat hparts)) hknown
      obtain ⟨hlt, htaken⟩ := hinv.owned run file howned
      have hremoved := hobject.removeFile hlt htaken fun other hother => by
        -- The one that has taken the file is done.
        by_cases hsame : other = run
        · rw [hsame] at hother
          have : Run.idle.owns file := by simpa [FsUpload.makeObject, setRun] using hother
          exact this.elim
        · have hold : (s.runs other).owns file := by
            simpa [FsUpload.makeObject, setRun, hsame] using hother
          exact absurd (hinv.owner other run file hold howned) hsame
      exact hremoved.release (hinv.free hlocked id)
    next => exact hinv.stop hlocked (fun _ => id) (fun _ => id) trivial
  next parts entries file copied hcopying =>
    split
    next bytes =>
      split
      next =>
        have hrelies := hinv.relies run
        rw [hcopying] at hrelies
        obtain ⟨front, hparts, hcopied, hknown⟩ := hrelies
        rw [List.append_nil] at hparts
        subst hparts
        have hobject := hinv.makeObject run purged hcopied hknown
        cases file with
        | none => exact hobject
        | some file =>
          have hlocked := hinv.locked run file (by rw [hcopying]; rfl)
          exact hobject.release (hinv.free hlocked id)
      next => exact inv_unlock hinv hcopying
    next => exact inv_unlock hinv hcopying
  next => exact hinv

theorem inv_abort (hinv : s.Inv) : (step s .abort).Inv := by
  unfold step
  simp only
  split
  next file hcurrent =>
    obtain ⟨hlt, _⟩ := hinv.current file hcurrent
    have htaken : State.Inv { s with current := none } :=
      { hinv with
        current := nofun
        owned := fun run other howned => ⟨(hinv.owned run other howned).1, nofun⟩ }
    have hremoved := htaken.removeFile hlt nofun fun run howned =>
      absurd hcurrent (hinv.owned run file howned).2
    exact { hremoved with }
  next => exact { hinv with }

theorem inv_step (s : State) (event : Event) (hinv : s.Inv) (hgood : Good s event) :
    (step s event).Inv := by
  cases event with
  | upload name bytes run => exact inv_upload hinv name bytes run hgood
  | complete parts files run => exact inv_complete hinv parts files run
  | find run => exact inv_find hinv run
  | list run readable => exact inv_list hinv run readable
  | append run failsAfter => exact inv_append hinv run failsAfter hgood
  | take run => exact inv_take hinv run
  | compare run => exact inv_compare hinv run
  | copy run name failsAfter => exact inv_copy hinv run name failsAfter
  | commit run succeeds purged => exact inv_commit hinv run succeeds purged
  | abort => exact inv_abort hinv

theorem inv_start : State.Inv {} where
  unique := nofun
  appended _ _ := rfl
  known := nofun
  current := nofun
  locked := nofun
  owned := nofun
  owner := nofun
  fresh _ _ := rfl
  relies _ := trivial
  made := nofun

theorem faithful_of_inv (s : State) (hinv : s.Inv) : s.Faithful := by
  refine ⟨fun file hcurrent => hinv.appended file (hinv.current file hcurrent).2,
    fun run parts file happended => ?_, fun object hobject => (hinv.made object hobject).1⟩
  have hrelies := hinv.relies run
  rw [happended] at hrelies
  exact hinv.appended file hrelies.1

end Step

/-- In every history of good events, whatever runs it interleaves, the append file in
use is the concatenation of the parts in its list, and every object is the
concatenation of the parts that were asked for, in their order. -/
theorem always_faithful {events : List Event} (hgood : Guarded step Good {} events) :
    Always step State.Faithful {} events :=
  (hgood.always inv_step inv_start).imp faithful_of_inv

section Examples

/-- Part 1 is uploaded and appended by its background run, which fails after `failsAfter` bytes. -/
def appendTwice (failsAfter : Nat) : List Event :=
  [.upload ⟨1, "e", 2⟩ [7, 8] 0, .find 0, .list 0 true, .append 0 (some failsAfter),
    .complete [⟨1, "e"⟩] [⟨1, "e", 2⟩] 1, .find 1, .list 1 true, .append 1 none, .append 1 none,
    .take 1, .compare 1, .commit 1 true true]

theorem appendTwice_faithful : Always step State.Faithful {} (appendTwice 0) := by
  apply always_faithful
  unfold appendTwice
  simp only [guarded_cons]
  exact ⟨nofun, trivial, trivial, fun _ _ _ _ => .inr fun _ _ => rfl, trivial, trivial, trivial,
    trivial, trivial, trivial, trivial, trivial, guarded_nil⟩

/-- The first byte is in the object twice. -/
theorem appendTwice_not_faithful :
    ((appendTwice 1).foldl step {}).made = [([⟨1, "e"⟩], [7, 7, 8])] ∧
      ¬ Always step State.Faithful {} (appendTwice 1) := by
  have hmade : ((appendTwice 1).foldl step {}).made = [([⟨1, "e"⟩], [7, 7, 8])] := by decide
  refine ⟨hmade, fun halways => ?_⟩
  have hobject := (halways _ List.prefix_rfl).2.2 ([⟨1, "e"⟩], [7, 7, 8])
    (by rw [hmade]; exact List.mem_singleton.mpr rfl)
  exact absurd hobject (by decide)

end Examples

end Fs3.FsUpload
