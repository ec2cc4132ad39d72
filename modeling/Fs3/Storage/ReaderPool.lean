import Mathlib.Data.Fintype.Basic
import Fs3.Foundation.Histories
import Fs3.Foundation.Tally

/-! # Sharing read handles

`fsIOPool` keeps one open file for all readers of a path and counts them. `Open` looks the path up,
opens the file without the pool's lock where it is not there, and looks the path up again before it
saves what it opened. Every step under the lock, and every acquisition of a file lock, is one step
here. What a path names is up to the file system. -/

namespace Fs3.ReaderPool

open Foundation

/-- `RLockedFile`, whose fd holds a shared lock on an inode while it is open. -/
structure RLockedFile (ι : Type) where
  inode : ι
  refs : Nat
  fdOpen : Bool

/-- Where a goroutine is. The last one holds the file of `Write` or `Create`. -/
inductive Phase (π ι : Type)
  | idle
  | opening (path : π)
  | opened (path : π) (file : Nat)
  | reading (path : π) (file : Nat)
  | writing (inode : ι)
  deriving DecidableEq

structure State (τ π ι : Type) where
  readersMap : π → Option Nat
  files : Nat → RLockedFile ι
  /-- The files from here on are not made yet. -/
  next : Nat
  phase : τ → Phase π ι

variable {τ π ι : Type} [DecidableEq τ] [DecidableEq π] [DecidableEq ι]

def RLockedFile.isClosed (file : RLockedFile ι) : Bool := file.refs == 0

def RLockedFile.incLockRef (file : RLockedFile ι) : RLockedFile ι :=
  { file with refs := file.refs + 1 }

def RLockedFile.close (file : RLockedFile ι) : RLockedFile ι :=
  if file.refs = 0 then file
  else { file with refs := file.refs - 1, fdOpen := file.fdOpen && file.refs - 1 != 0 }

namespace State

variable (s : State τ π ι)

def update (file : Nat) (f : RLockedFile ι → RLockedFile ι) : State τ π ι :=
  { s with files := Function.update s.files file (f (s.files file)) }

def setMap (path : π) (file : Option Nat) : State τ π ι :=
  { s with readersMap := Function.update s.readersMap path file }

def setPhase (t : τ) (phase : Phase π ι) : State τ π ι :=
  { s with phase := Function.update s.phase t phase }

def lookupToRead (path : π) : State τ π ι × Option Nat :=
  match s.readersMap path with
  | none => (s, none)
  | some file =>
    if (s.files file).isClosed then (s.setMap path none, none)
    else (s.update file RLockedFile.incLockRef, some file)

/-- The second half of `Open`, with the file just opened. -/
def save (path : π) (newRlkFile : Nat) : State τ π ι × Nat :=
  match s.lookupToRead path with
  | (s, some file) => ((s.update newRlkFile RLockedFile.close).setMap path (some file), file)
  | (s, none) => (s.setMap path (some newRlkFile), newRlkFile)

/-- `Close`, for a path that is not too long. -/
def close (path : π) : State τ π ι :=
  match s.readersMap path with
  | none => s
  | some file =>
    if ((s.files file).close).isClosed then
      (s.update file RLockedFile.close).setMap path none
    else s.update file RLockedFile.close

def Shared (inode : ι) : Prop :=
  ∃ file < s.next, (s.files file).fdOpen = true ∧ (s.files file).inode = inode

def Exclusive (inode : ι) : Prop := ∃ t, s.phase t = .writing inode

end State

open State

/-- What the pool and the goroutines can do. `proper` asks that `Close` is called by a
reader that is not done yet. -/
inductive Step (proper : Bool) (s : State τ π ι) : State τ π ι → Prop
  | found {t : τ} {path : π} {file : Nat} (hidle : s.phase t = .idle)
    (hlookup : (s.lookupToRead path).2 = some file) :
    Step proper s ((s.lookupToRead path).1.setPhase t (.reading path file))
  | notFound {t : τ} {path : π} (hidle : s.phase t = .idle)
    (hlookup : (s.lookupToRead path).2 = none) :
    Step proper s ((s.lookupToRead path).1.setPhase t (.opening path))
  | openFails {t : τ} {path : π} (hopening : s.phase t = .opening path) :
    Step proper s (s.setPhase t .idle)
  | opens {t : τ} {path : π} {inode : ι} (hopening : s.phase t = .opening path)
    (hfree : ¬ s.Exclusive inode) :
    Step proper s { s with
      files := Function.update s.files s.next ⟨inode, 1, true⟩
      next := s.next + 1
      phase := Function.update s.phase t (.opened path s.next) }
  | abandon {t : τ} {path : π} {file : Nat} (hopened : s.phase t = .opened path file) :
    Step proper s ((s.update file RLockedFile.close).setPhase t .idle)
  | save {t : τ} {path : π} {file : Nat} (hopened : s.phase t = .opened path file) :
    Step proper s ((s.save path file).1.setPhase t (.reading path (s.save path file).2))
  | close {t : τ} {path : π} {file : Nat} (hreading : s.phase t = .reading path file) :
    Step proper s ((s.close path).setPhase t .idle)
  | strayClose {path : π} (hstray : proper = false) : Step proper s (s.close path)
  | lock {t : τ} {inode : ι} (hidle : s.phase t = .idle) (hshared : ¬ s.Shared inode)
    (hfree : ¬ s.Exclusive inode) : Step proper s (s.setPhase t (.writing inode))
  | unlock {t : τ} {inode : ι} (hwriting : s.phase t = .writing inode) :
    Step proper s (s.setPhase t .idle)

def readers [Fintype τ] (s : State τ π ι) (path : π) (file : Nat) : Nat :=
  population (fun phase : Phase π ι => phase = .reading path file) s.phase

/-- What the pool promises in a state. -/
structure Sound [Fintype τ] (s : State τ π ι) : Prop where
  /-- A file in the map is open and its count is that of its readers. -/
  counted : ∀ path file, s.readersMap path = some file →
    (s.files file).fdOpen = true ∧ (s.files file).refs = readers s path file ∧
      0 < readers s path file
  /-- A handle in use is open and in the map. -/
  inUse : ∀ t path file, s.phase t = .reading path file →
    (s.files file).fdOpen = true ∧ s.readersMap path = some file
  /-- An open file is in the map, or about to be looked up again. -/
  closed : ∀ file < s.next, (s.files file).fdOpen = true →
    (∃ path, s.readersMap path = some file) ∨ ∃ t path, s.phase t = .opened path file
  excluded : ∀ file < s.next, (s.files file).fdOpen = true →
    ∀ t, s.phase t ≠ .writing (s.files file).inode

/-- What every proper step keeps. -/
structure Inv [Fintype τ] (s : State τ π ι) : Prop where
  counted : ∀ path file, s.readersMap path = some file →
    file < s.next ∧ (s.files file).refs = readers s path file ∧ 0 < readers s path file
  reading : ∀ t path file, s.phase t = .reading path file → s.readersMap path = some file
  opened : ∀ t path file, s.phase t = .opened path file →
    file < s.next ∧ (s.files file).refs = 1 ∧ ∀ path', s.readersMap path' ≠ some file
  openedOnce : ∀ t t' path path' file, s.phase t = .opened path file →
    s.phase t' = .opened path' file → t = t'
  mappedOnce : ∀ path path' file, s.readersMap path = some file →
    s.readersMap path' = some file → path = path'
  isOpen : ∀ file < s.next, ((s.files file).fdOpen = true ↔ 0 < (s.files file).refs)
  kept : ∀ file < s.next, 0 < (s.files file).refs →
    (∃ path, s.readersMap path = some file) ∨ ∃ t path, s.phase t = .opened path file
  excluded : ∀ file < s.next, (s.files file).fdOpen = true →
    ∀ t, s.phase t ≠ .writing (s.files file).inode

variable [Fintype τ] {s s' : State τ π ι}

omit [DecidableEq τ] in
theorem Inv.sound (hinv : Inv s) : Sound s where
  counted path file hmap := by
    obtain ⟨hlt, hrefs, hpos⟩ := hinv.counted path file hmap
    exact ⟨(hinv.isOpen file hlt).mpr (by omega), hrefs, hpos⟩
  inUse t path file hreading := by
    have hmap := hinv.reading t path file hreading
    obtain ⟨hlt, hrefs, hpos⟩ := hinv.counted path file hmap
    exact ⟨(hinv.isOpen file hlt).mpr (by omega), hmap⟩
  closed file hlt hopen := hinv.kept file hlt ((hinv.isOpen file hlt).mp hopen)
  excluded := hinv.excluded

/-- What a step does, seen from each field. -/
structure Moves (s s' : State τ π ι) (t : τ) (phase : Phase π ι) (next : Nat)
    (files : Nat → RLockedFile ι) (readersMap : π → Option Nat) : Prop where
  next : s'.next = next
  files : ∀ file, s'.files file = files file
  readersMap : ∀ path, s'.readersMap path = readersMap path
  phase : ∀ u, s'.phase u = if u = t then phase else s.phase u

variable {t : τ}

theorem Moves.count {phase : Phase π ι} {next : Nat} {files : Nat → RLockedFile ι}
    {readersMap : π → Option Nat} (hmoves : Moves s s' t phase next files readersMap) (path : π)
    (file : Nat) :
    readers s' path file + (if s.phase t = .reading path file then 1 else 0) =
      readers s path file + if phase = .reading path file then 1 else 0 := by
  have hphase : s'.phase = Function.update s.phase t phase := funext fun u => by
    rw [hmoves.phase, Function.update_apply]
  rw [readers, readers, hphase]
  exact population_update t phase

/-- A goroutine that neither was reading or had opened a file, nor comes to. -/
theorem Inv.outside (hinv : Inv s) {phase : Phase π ι}
    (hmoves : Moves s s' t phase s.next s.files s.readersMap)
    (hold : ∀ path file, s.phase t ≠ .reading path file ∧ s.phase t ≠ .opened path file)
    (hnew : ∀ path file, phase ≠ .reading path file ∧ phase ≠ .opened path file)
    (hfree : ∀ file < s.next, (s.files file).fdOpen = true → phase ≠ .writing (s.files file).inode)
     :
    Inv s' := by
  have hreaders : ∀ path file, readers s' path file = readers s path file := by
    intro path file
    have := hmoves.count path file
    rwa [if_neg (hold path file).1, if_neg (hnew path file).1] at this
  obtain ⟨hnext, hfiles, hmap, hphase⟩ := hmoves
  obtain ⟨hcounted, hreading, hopened, honce, hmapped, hisOpen, hkept, hexcluded⟩ := hinv
  constructor <;> grind

variable {path : π} {file : Nat}

/-- A goroutine becomes a reader of a file in the map. -/
theorem Inv.join (hinv : Inv s) (hmoves : Moves s s' t (.reading path file) s.next
      (fun other => if other = file then (s.files file).incLockRef else s.files other)
      s.readersMap) (hidle : s.phase t = .idle) (hmap : s.readersMap path = some file) :
    Inv s' := by
  have hreaders := hmoves.count
  obtain ⟨hnext, hfiles, hmap', hphase⟩ := hmoves
  obtain ⟨hcounted, hreading, hopened, honce, hmapped, hisOpen, hkept, hexcluded⟩ := hinv
  constructor <;> grind [RLockedFile.incLockRef]

/-- A file is opened for reading, with a lock of its own. -/
theorem Inv.opens (hinv : Inv s) {inode : ι}
    (hmoves : Moves s s' t (.opened path s.next) (s.next + 1)
      (fun other => if other = s.next then ⟨inode, 1, true⟩ else s.files other) s.readersMap)
    (hopening : s.phase t = .opening path) (hfree : ∀ u, s.phase u ≠ .writing inode) : Inv s' := by
  have hreaders := hmoves.count
  obtain ⟨hnext, hfiles, hmap', hphase⟩ := hmoves
  obtain ⟨hcounted, hreading, hopened, honce, hmapped, hisOpen, hkept, hexcluded⟩ := hinv
  constructor <;> grind

/-- A file that was opened is closed again. -/
theorem Inv.abandon (hinv : Inv s) (hmoves : Moves s s' t .idle s.next
      (fun other => if other = file then (s.files file).close else s.files other) s.readersMap)
    (hopened : s.phase t = .opened path file) : Inv s' := by
  have hreaders := hmoves.count
  obtain ⟨hnext, hfiles, hmap', hphase⟩ := hmoves
  obtain ⟨hcounted, hreading, hopened, honce, hmapped, hisOpen, hkept, hexcluded⟩ := hinv
  constructor <;> grind [RLockedFile.close]

/-- A file that was opened comes into the map. -/
theorem Inv.enter (hinv : Inv s) (hmoves : Moves s s' t (.reading path file) s.next s.files
      (fun other => if other = path then some file else s.readersMap other))
    (hopened : s.phase t = .opened path file) (hmap : s.readersMap path = none) : Inv s' := by
  have hreaders := hmoves.count
  -- nobody reads a path that is not in the map
  have hnone : readers s path file = 0 := by
    refine population_eq_zero.mpr fun u hu => ?_
    have hsome := hinv.reading u path file hu
    rw [hmap] at hsome
    cases hsome
  obtain ⟨hnext, hfiles, hmap', hphase⟩ := hmoves
  obtain ⟨hcounted, hreading, hopened, honce, hmapped, hisOpen, hkept, hexcluded⟩ := hinv
  constructor <;> grind

/-- A reader is done: the file goes with the last one. -/
theorem Inv.leave (hinv : Inv s) (hmoves : Moves s s' t .idle s.next
      (fun other => if other = file then (s.files file).close else s.files other)
      (fun other => if other = path ∧ (s.files file).refs ≤ 1 then none else s.readersMap other))
    (hreading : s.phase t = .reading path file) : Inv s' := by
  have hreaders := hmoves.count
  have hmap := hinv.reading t path file hreading
  have hcount := (hinv.counted path file hmap).2.1
  -- with one reference there was one reader
  have hlast : (s.files file).refs ≤ 1 → ∀ u, s'.phase u ≠ .reading path file := by
    intro hone
    have hat := hreaders path file
    rw [if_pos hreading, if_neg nofun] at hat
    have hzero : readers s' path file = 0 := by omega
    exact population_eq_zero.mp hzero
  obtain ⟨hnext, hfiles, hmap', hphase⟩ := hmoves
  obtain ⟨hcounted, hreading, hopened, honce, hmapped, hisOpen, hkept, hexcluded⟩ := hinv
  constructor <;> grind [RLockedFile.close]

omit [DecidableEq τ] in
theorem Inv.lookupToRead (hinv : Inv s) (hmap : s.readersMap path = some file) :
    s.lookupToRead path = (s.update file RLockedFile.incLockRef, some file) := by
  have hpos := hinv.counted path file hmap
  have hopen : (s.files file).isClosed = false := beq_false_of_ne (by omega)
  simp [State.lookupToRead, hmap, hopen]

omit [DecidableEq τ] [DecidableEq ι] [Fintype τ] in
theorem lookupToRead_none (hmap : s.readersMap path = none) : s.lookupToRead path = (s, none) := by
  simp [State.lookupToRead, hmap]

theorem Inv.save (hinv : Inv s) (hopened : s.phase t = .opened path file) :
    Inv ((s.save path file).1.setPhase t (.reading path (s.save path file).2)) := by
  cases hmap : s.readersMap path with
  | none =>
    rw [State.save, lookupToRead_none hmap]
    exact hinv.enter ⟨rfl, fun _ => rfl, fun _ => Function.update_apply _ _ _ _,
      fun _ => Function.update_apply _ _ _ _⟩ hopened hmap
  | some shared =>
    have hne : shared ≠ file := by
      rintro rfl
      exact (hinv.opened t path shared hopened).2.2 path hmap
    rw [State.save, hinv.lookupToRead hmap]
    -- the new file is closed, and then the goroutine joins those of the shared one
    have hclosed : Inv ((s.update file RLockedFile.close).setPhase t .idle) :=
      hinv.abandon ⟨rfl, fun _ => Function.update_apply _ _ _ _, fun _ => rfl,
        fun _ => Function.update_apply _ _ _ _⟩ hopened
    refine hclosed.join ⟨rfl, fun other => ?_, fun other => ?_, fun u => ?_⟩
      (Function.update_self _ _ _) hmap
    · simp only [State.setPhase, State.setMap, State.update, Function.update_apply]
      grind
    · simp only [State.setPhase, State.setMap, State.update, Function.update_apply]
      grind
    · simp only [State.setPhase, State.setMap, State.update, Function.update_apply]
      grind

theorem Inv.close (hinv : Inv s) (hreading : s.phase t = .reading path file) :
    Inv ((s.close path).setPhase t .idle) := by
  have hmap := hinv.reading t path file hreading
  have hpos := hinv.counted path file hmap
  have hclosed : ((s.files file).close).isClosed = decide ((s.files file).refs ≤ 1) := by
    grind [RLockedFile.close, RLockedFile.isClosed]
  have hclose : s.close path = if (s.files file).refs ≤ 1 then
      (s.update file RLockedFile.close).setMap path none else s.update file RLockedFile.close := by
    simp [State.close, hmap, hclosed]
  rw [hclose]
  refine hinv.leave ?_ hreading
  by_cases hlast : (s.files file).refs ≤ 1
  · rw [if_pos hlast]
    exact ⟨rfl, fun _ => Function.update_apply _ _ _ _, fun other => by
      simp [State.setPhase, State.setMap, State.update, Function.update_apply, hlast],
      fun _ => Function.update_apply _ _ _ _⟩
  · rw [if_neg hlast]
    exact ⟨rfl, fun _ => Function.update_apply _ _ _ _, fun other => by
      simp [State.setPhase, State.update, hlast], fun _ => Function.update_apply _ _ _ _⟩

theorem Inv.step (hinv : Inv s) (hstep : Step true s s') : Inv s' := by
  cases hstep with
  | @found t path file hidle hlookup =>
    cases hmap : s.readersMap path with
    | none =>
      rw [lookupToRead_none hmap] at hlookup
      cases hlookup
    | some shared =>
      rw [hinv.lookupToRead hmap] at hlookup ⊢
      obtain rfl := Option.some.inj hlookup
      exact hinv.join ⟨rfl, fun _ => Function.update_apply _ _ _ _, fun _ => rfl,
        fun _ => Function.update_apply _ _ _ _⟩ hidle hmap
  | @notFound t path hidle hlookup =>
    cases hmap : s.readersMap path with
    | none =>
      rw [lookupToRead_none hmap]
      exact hinv.outside ⟨rfl, fun _ => rfl, fun _ => rfl, fun _ => Function.update_apply _ _ _ _⟩
        (by simp [hidle]) (by simp) (by simp)
    | some shared =>
      rw [hinv.lookupToRead hmap] at hlookup
      cases hlookup
  | openFails hopening =>
    exact hinv.outside ⟨rfl, fun _ => rfl, fun _ => rfl, fun _ => Function.update_apply _ _ _ _⟩
      (by simp [hopening]) (by simp) (by simp)
  | opens hopening hfree =>
    exact hinv.opens ⟨rfl, fun _ => Function.update_apply _ _ _ _, fun _ => rfl,
      fun _ => Function.update_apply _ _ _ _⟩ hopening fun u hu => hfree ⟨u, hu⟩
  | abandon hopened =>
    exact hinv.abandon ⟨rfl, fun _ => Function.update_apply _ _ _ _, fun _ => rfl,
      fun _ => Function.update_apply _ _ _ _⟩ hopened
  | save hopened => exact hinv.save hopened
  | close hreading => exact hinv.close hreading
  | strayClose hstray => cases hstray
  | lock hidle hshared hfree =>
    refine hinv.outside ⟨rfl, fun _ => rfl, fun _ => rfl, fun _ => Function.update_apply _ _ _ _⟩
      (by simp [hidle]) (by simp) fun file hlt hopen heq => ?_
    exact hshared ⟨file, hlt, hopen, (Phase.writing.inj heq).symm⟩
  | unlock hwriting =>
    exact hinv.outside ⟨rfl, fun _ => rfl, fun _ => rfl, fun _ => Function.update_apply _ _ _ _⟩
      (by simp [hwriting]) (by simp) (by simp)

/-- A pool that nobody has used. -/
structure Fresh (s : State τ π ι) : Prop where
  readersMap : ∀ path, s.readersMap path = none
  next : s.next = 0
  phase : ∀ t, s.phase t = .idle

omit [DecidableEq τ] in
theorem Fresh.inv (hfresh : Fresh s) : Inv s := by
  obtain ⟨hmap, hnext, hphase⟩ := hfresh
  constructor <;> simp [hmap, hnext, hphase]

/-- In every run whose closes are all made by readers that are not done, the pool
keeps its promises in every state. -/
theorem proper_runs_sound (hfresh : Fresh s) (hruns : Runs (Step true) s s') : Sound s' :=
  (Runs.invariant (fun _ _ hinv hstep => hinv.step hstep) hruns hfresh.inv).sound

def unused : State (Fin 2) Unit Unit where
  readersMap _ := none
  files _ := ⟨(), 0, false⟩
  next := 0
  phase _ := .idle

theorem unused_fresh : Fresh unused := ⟨fun _ => rfl, rfl, fun _ => rfl⟩

def opening : State (Fin 2) Unit Unit := (unused.lookupToRead ()).1.setPhase ⟨0, Nat.two_pos⟩ (.opening ())

def opened : State (Fin 2) Unit Unit :=
  { opening with
    files := Function.update opening.files opening.next ⟨(), 1, true⟩
    next := opening.next + 1
    phase := Function.update opening.phase ⟨0, Nat.two_pos⟩ (.opened () opening.next) }

def oneReader : State (Fin 2) Unit Unit :=
  (opened.save () 0).1.setPhase ⟨0, Nat.two_pos⟩ (.reading () (opened.save () 0).2)

theorem oneReader_runs (proper : Bool) : Runs (Step proper) unused oneReader := by
  have hnone : ¬ opening.Exclusive () := by
    rintro ⟨t, ht⟩
    exact absurd ht ((by decide : ∀ t, opening.phase t ≠ .writing ()) t)
  exact .tail (.tail (.tail .refl (.notFound rfl rfl)) (.opens rfl hnone)) (.save rfl)

theorem oneReader_sound : Sound oneReader :=
  proper_runs_sound unused_fresh (oneReader_runs true)

/-- The other goroutine, whose `Open` found no file, closes the path all the same: the
handle of the reader is gone. -/
theorem oneReader_closed : ¬ ∀ s : State (Fin 2) Unit Unit, Runs (Step false) unused s → Sound s := by
  intro hsound
  have hreader := hsound (oneReader.close ()) (.tail (oneReader_runs false) (.strayClose rfl))
  have hmap : (oneReader.close ()).readersMap () = none := rfl
  have hsome := (hreader.inUse 0 () 0 rfl).2
  rw [hmap] at hsome
  cases hsome

end Fs3.ReaderPool
