import Fs3.Erasure.Quorum
import Fs3.Foundation.Histories

/-! # Objects below objects

Before an object is written the layer asks the drives whether the directory it will be in is an
object. -/

namespace Fs3.ParentCheck

open Foundation

/-- The name of an object, by the components of its path. -/
abbrev Path := List String

/-- `path.Dir`; no component stands for `.`. -/
def dir (path : Path) : Path := path.dropLast

def errPathNotFound : StorageErr := .unexpected "path not found"

def errFileNameTooLong : StorageErr := .unexpected "file name too long"

/-- What `CheckFile` finds out about the bucket on a drive. `Lstat` says whether a file is
there, and if so whether it is a regular one. -/
structure Drive where
  /-- The error of a drive that is not there or does not have the bucket. -/
  err : Option StorageErr := none
  formatLegacy : Bool := false
  pathTooLong : Path → Bool := fun _ => false
  xlMeta : Path → Option Bool := fun _ => none
  xlMetaV1 : Path → Option Bool := fun _ => none

/-- `CheckFile`. -/
def Drive.checkFile (drive : Drive) (path : Path) : Option StorageErr :=
  match drive.err with
  | some err => some err
  | none =>
    if path = [] then some errPathNotFound
    else if drive.pathTooLong path then some errFileNameTooLong
    else
      -- With a file or without one the answer is given here. The call for the directory
      -- above stands behind both.
      match drive.xlMeta path with
      | some isRegular => if !isRegular then some .errFileNotFound else none
      | none =>
        if !drive.formatLegacy then some errPathNotFound
        else
          match drive.xlMetaV1 path with
          | none => some errPathNotFound
          | some isRegular => if !isRegular then some .errFileNotFound else none

def getDefaultParityBlocks (drive : Nat) : Int :=
  if drive = 3 ∨ drive = 2 then 1
  else if drive = 4 ∨ drive = 5 then 2
  else if drive = 6 ∨ drive = 7 then 3
  else 4

def getReadQuorum (drive : Nat) : Int := drive - getDefaultParityBlocks drive

/-- `erasureObjects.parentDirIsObject`, from the answers of the drives. -/
def parentDirIsObject (orders : MapOrders) (answers : List (Option StorageErr)) : Bool :=
  reduceReadQuorumErrs orders answers objectOpIgnoredErrs (getReadQuorum answers.length) == none

/-- A write that has passed the check. -/
structure Writer where
  name : Path
  named : name ≠ []
  /-- What the drives answered about the directory of the name. -/
  answers : List (Option StorageErr)

variable {ι : Type} [DecidableEq ι]

/-- A bucket: the objects that were written and not deleted, the drives of each erasure
set, and the writes between their check and their commit. -/
structure Bucket (ι : Type) where
  names : List Path := []
  drives : ι → List Drive
  writers : List Writer := []

/-- What happens in a bucket. -/
inductive Event (ι : Type) where
  /-- `PutObject` or `CompleteMultipartUpload` asks about the parent directory. -/
  | check (name : Path) (named : name ≠ [])
  /-- One that passed moves its files in place on some drives, and succeeds if these are
  as many as its write quorum. -/
  | commit (writer : Nat) (reached : Nat → Bool) (writeQuorum : Nat)
  /-- An object is deleted. -/
  | delete (name : Path)
  /-- A drive fails, comes back, is healed or loses files. -/
  | drive (set : ι) (index : Nat) (drive : Drive)

-- The set of an object is found by a hash of its name.
variable (getHashedSet : Path → ι) (orders : MapOrders)

/-- `erasureSets.parentDirIsObject`. -/
def Bucket.parentDirIsObject (b : Bucket ι) (parent : Path) : Bool :=
  if parent = [] then false
  else
    ParentCheck.parentDirIsObject orders
      ((b.drives (getHashedSet parent)).map fun drive => drive.checkFile parent)

def writeFiles (name : Path) (reached : Nat → Bool) (drives : List Drive) : List Drive :=
  drives.mapIdx fun i drive =>
    if reached i then
      { drive with xlMeta := fun path => if path = name then some true else drive.xlMeta path }
    else drive

def succeeds (reached : Nat → Bool) (writeQuorum : Nat) (drives : List Drive) : Bool :=
  writeQuorum ≤ (List.range drives.length).countP reached

def Bucket.step (b : Bucket ι) : Event ι → Bucket ι
  | .check name named =>
    if b.parentDirIsObject getHashedSet orders (dir name) then b
    else
      { b with writers := b.writers ++ [{
          name
          named
          answers := (b.drives (getHashedSet (dir name))).map fun drive =>
            drive.checkFile (dir name) }] }
  | .commit writer reached writeQuorum =>
    match b.writers[writer]? with
    | none => b
    | some w =>
      let set := getHashedSet w.name
      { b with
        names := if succeeds reached writeQuorum (b.drives set) then w.name :: b.names
          else b.names
        drives := Function.update b.drives set (writeFiles w.name reached (b.drives set))
        writers := b.writers.eraseIdx writer }
  | .delete name => { b with names := b.names.filter fun other => other ≠ name }
  | .drive set index drive =>
    { b with drives := Function.update b.drives set ((b.drives set).set index drive) }

def Bucket.writes (b : Bucket ι) : Event ι → Option Writer
  | .commit writer reached writeQuorum =>
    match b.writers[writer]? with
    | none => none
    | some w =>
      if succeeds reached writeQuorum (b.drives (getHashedSet w.name)) then some w else none
  | _ => none

def Bucket.NoneBelow (b : Bucket ι) : Prop :=
  ∀ name ∈ b.names, ∀ other ∈ b.names, name <+: other → name = other

def Bucket.NotBelow (b : Bucket ι) (event : Event ι) : Prop :=
  ∀ w ∈ b.writes getHashedSet event, ∀ name ∈ b.names, name <+: w.name → name = w.name

/-- The answers of the drives that make the check see an object: most of them, and a read
quorum, have its file. -/
def Seen (answers : List (Option StorageErr)) : Prop :=
  answers.length < 2 * occurrences answers none ∧
    getReadQuorum answers.length ≤ occurrences answers none

/-- What a write that succeeds must find besides its check: no object further up than its
directory, none below itself, and its directory an object only if the drives said so. -/
structure Bucket.Regular (b : Bucket ι) (w : Writer) : Prop where
  further : ∀ name ∈ b.names, name <+: w.name → name = w.name ∨ name = dir w.name
  below : ∀ name ∈ b.names, w.name <+: name → name = w.name
  parent : dir w.name ∈ b.names → Seen w.answers

def Bucket.AllRegular (b : Bucket ι) (event : Event ι) : Prop :=
  ∀ w ∈ b.writes getHashedSet event, b.Regular w

/-! ## What the check says -/

theorem parentDirIsObject_of_seen {answers : List (Option StorageErr)} (hseen : Seen answers) :
    parentDirIsObject orders answers = true := by
  rw [parentDirIsObject, reduceReadQuorumErrs,
    reduceQuorumErrs_of_majority orders hseen.1 hseen.2]
  rfl

/-- Only writes that the check let pass are under way. -/
structure Bucket.Passed (b : Bucket ι) : Prop where
  passed : ∀ w ∈ b.writers, dir w.name ≠ [] →
    ParentCheck.parentDirIsObject orders w.answers = false
  named : ∀ name ∈ b.names, name ≠ []

theorem dir_isPrefix (name : Path) : dir name <+: name := List.dropLast_prefix name

theorem dir_ne {name : Path} (hne : name ≠ []) : dir name ≠ name := by
  intro heq
  have hlength := congrArg List.length heq
  have hpos := List.length_pos_of_ne_nil hne
  rw [dir, List.length_dropLast] at hlength
  omega

variable {getHashedSet orders}
variable {b : Bucket ι} {event : Event ι}

theorem mem_names_step {name : Path} (hname : name ∈ (b.step getHashedSet orders event).names) :
    name ∈ b.names ∨ ∃ w ∈ b.writes getHashedSet event, name = w.name := by
  cases event with
  | check other hne =>
    rw [Bucket.step] at hname
    split at hname
    next => exact Or.inl hname
    next => exact Or.inl hname
  | commit writer reached writeQuorum =>
    rw [Bucket.step] at hname
    split at hname
    next hnone => exact Or.inl hname
    next w hw =>
        dsimp only at hname
        split at hname
        next hsucceeds =>
            have hwrites : b.writes getHashedSet
              (.commit writer reached writeQuorum) = some w := by
              rw [Bucket.writes, hw]
              exact if_pos hsucceeds
            rw [hwrites]
            rcases List.mem_cons.mp hname with h | h
            · exact Or.inr ⟨w, rfl, h⟩
            · exact Or.inl h
        next => exact Or.inl hname
  | delete other => exact Or.inl (List.mem_filter.mp hname).1
  | drive set index drive => exact Or.inl hname

theorem names_of_writes {b : Bucket ι} {event : Event ι} {w : Writer}
    (hw : w ∈ b.writes getHashedSet event) :
    (b.step getHashedSet orders event).names = w.name :: b.names ∧ w ∈ b.writers := by
  cases event with
  | commit writer reached writeQuorum =>
    rw [Bucket.writes] at hw
    split at hw
    next hnone => nomatch hw
    next found hfound =>
        rw [Bucket.step, hfound]
        split at hw
        next hsucceeds =>
            obtain rfl := Option.some.inj hw
            dsimp only
            rw [if_pos hsucceeds]
            exact ⟨rfl, List.mem_of_getElem? hfound⟩
        next => nomatch hw
  | check name hne => nomatch hw
  | delete name => nomatch hw
  | drive set index drive => nomatch hw

theorem mem_writers_step {w : Writer} (hw : w ∈ (b.step getHashedSet orders event).writers) :
    w ∈ b.writers ∨ (dir w.name ≠ [] →
      ParentCheck.parentDirIsObject orders w.answers = false) := by
  cases event with
  | check name hne =>
    rw [Bucket.step] at hw
    split at hw
    next => exact Or.inl hw
    next hpass =>
        rcases List.mem_append.mp hw with h | h
        · exact Or.inl h
        · refine Or.inr fun hdir => ?_
          rw [List.mem_singleton.mp h] at hdir ⊢
          rw [Bucket.parentDirIsObject, if_neg hdir] at hpass
          exact Bool.not_eq_true _ ▸ hpass
  | commit writer reached writeQuorum =>
    rw [Bucket.step] at hw
    split at hw
    next => exact Or.inl hw
    next => exact Or.inl (List.mem_of_mem_eraseIdx hw)
  | delete name => exact Or.inl hw
  | drive set index drive => exact Or.inl hw

theorem passed_step (hpassed : b.Passed orders) :
    (b.step getHashedSet orders event).Passed orders := by
  constructor
  · intro w hw
    rcases mem_writers_step hw with h | h
    · exact hpassed.passed w h
    · exact h
  · intro name hname
    rcases mem_names_step hname with h | ⟨w, -, rfl⟩
    · exact hpassed.named name h
    · exact w.named

omit [DecidableEq ι] in
theorem Bucket.Regular.parent_not_mem {w : Writer} (hregular : b.Regular w)
    (hpassed : b.Passed orders) (hw : w ∈ b.writers) : dir w.name ∉ b.names := by
  intro hparent
  have hpass := hpassed.passed w hw (hpassed.named _ hparent)
  rw [parentDirIsObject_of_seen orders (hregular.parent hparent)] at hpass
  nomatch hpass

theorem noneBelow_step (hpassed : b.Passed orders) (hnone : b.NoneBelow)
    (hregular : b.AllRegular getHashedSet event) :
    (b.step getHashedSet orders event).NoneBelow := by
  have hbeside : ∀ w ∈ b.writes getHashedSet event, ∀ name ∈ b.names, name <+: w.name →
      name = w.name := by
    intro w hw name hname hfront
    rcases (hregular w hw).further name hname hfront with h | h
    · exact h
    · have hparent :=
      (hregular w hw).parent_not_mem hpassed (@names_of_writes _ _ getHashedSet orders _ _ _ hw).2
      exact absurd (h ▸ hname) hparent
  intro name hname other hother hfront
  rcases mem_names_step hname with hold | ⟨w, hw, rfl⟩
  · rcases mem_names_step hother with hold' | ⟨w', hw', rfl⟩
    · exact hnone name hold other hold' hfront
    · exact hbeside w' hw' name hold hfront
  · rcases mem_names_step hother with hold' | ⟨w', hw', rfl⟩
    · exact ((hregular w hw).below other hold' hfront).symm
    · rw [Option.some.inj (hw.symm.trans hw')]

theorem not_noneBelow_step (hirregular : ¬ b.AllRegular getHashedSet event) :
    ¬ (b.step getHashedSet orders event).NoneBelow := by
  intro hnone
  refine hirregular fun w hw => ?_
  have hnames := (@names_of_writes _ _ getHashedSet orders _ _ _ hw).1
  have hself : w.name ∈ (b.step getHashedSet orders event).names := by
    rw [hnames]
    exact List.mem_cons_self
  have hold : ∀ name ∈ b.names, name ∈ (b.step getHashedSet orders event).names := by
    intro name hname
    rw [hnames]
    exact List.mem_cons_of_mem _ hname
  constructor
  · intro name hname hfront
    exact Or.inl (hnone name (hold name hname) _ hself hfront)
  · intro name hname hfront
    exact (hnone _ hself name (hold name hname) hfront).symm
  · intro hparent
    exact absurd (hnone _ (hold _ hparent) _ hself (dir_isPrefix w.name)) (dir_ne w.named)

theorem notBelow_of_noneBelow (hnone : (b.step getHashedSet orders event).NoneBelow) :
    b.NotBelow getHashedSet event := by
  intro w hw name hname hfront
  have hnames := (@names_of_writes _ _ getHashedSet orders _ _ _ hw).1
  refine hnone name ?_ w.name ?_ hfront
  · rw [hnames]
    exact List.mem_cons_of_mem _ hname
  · rw [hnames]
    exact List.mem_cons_self

def fourDrives : Bucket Unit where
  drives := fun _ => List.replicate 4 {}

def everyDrive : Nat → Bool := fun _ => true

/-- `a` is written, and then `a/b/c`. -/
def twoLevels : List (Event Unit) :=
  [.check ["a"] (by decide), .commit 0 everyDrive 3, .check ["a", "b", "c"] (by decide),
    .commit 0 everyDrive 3]

end Fs3.ParentCheck
