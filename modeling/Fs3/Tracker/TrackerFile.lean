import Mathlib.Data.List.MinMax
import Fs3.Foundation.Msgp
import Fs3.Runtime.Time
import Fs3.Tracker.NoFalseClean

/-! # The file of the tracker

Each drive has a copy of the tracker: a version, the time of the save, the current filter and the
history. Reading does not take over the time, so it is at its zero value after the first copy, and
every later copy is read as well. -/

namespace Fs3.Tracker

open Foundation

def dataUpdateTrackerVersion : UInt8 := 5

/-- `binary.LittleEndian.PutUint64`. -/
def putUint64 (n : Nat) : List UInt8 := (Msgp.bigEndian 8 n).reverse

def readUint64 (src : List UInt8) : Option (Nat × List UInt8) :=
  if 8 ≤ src.length then some (Msgp.ofBigEndian (src.take 8).reverse, src.drop 8) else none

theorem readUint64_append {n : Nat} (hn : n < 2 ^ 64) (rest : List UInt8) :
    readUint64 (putUint64 n ++ rest) = some (n, rest) := by
  have hlength : (putUint64 n).length = 8 := by
    rw [putUint64, List.length_reverse, Msgp.bigEndian_length]
  rw [readUint64, if_pos (by rw [List.length_append, hlength]; exact Nat.le_add_right _ _),
    List.take_left' hlength, List.drop_left' hlength, putUint64, List.reverse_reverse,
    Msgp.ofBigEndian_bigEndian, Nat.mod_eq_of_lt (lt_of_lt_of_eq hn (by norm_num))]

section Codec

variable {φ : Type} (codec : StreamCodec φ)

def serializeFilter (f : DataUpdateFilter φ) : List UInt8 := putUint64 f.idx ++ codec.encode f.bf

def readFilter (src : List UInt8) : Option (DataUpdateFilter φ × List UInt8) :=
  match readUint64 src with
  | none => none
  | some (idx, src) =>
    match codec.decode src with
    | none => none
    | some (bf, src) => some ({ idx, bf }, src)

def readHistory : Nat → List UInt8 → Option (List (DataUpdateFilter φ) × List UInt8)
  | 0, src => some ([], src)
  | n + 1, src =>
    match readFilter codec src with
    | none => none
    | some (f, src) => (readHistory n src).map fun (history, src) => (f :: history, src)

theorem readFilter_append {f : DataUpdateFilter φ} (hidx : f.idx < 2 ^ 64) (rest : List UInt8) :
    readFilter codec (serializeFilter codec f ++ rest) = some (f, rest) := by
  simp only [readFilter, serializeFilter, List.append_assoc, readUint64_append hidx,
    codec.decode_encode]

theorem readHistory_append {history : List (DataUpdateFilter φ)}
    (hhistory : ∀ f ∈ history, f.idx < 2 ^ 64) (rest : List UInt8) :
    readHistory codec history.length (history.flatMap (serializeFilter codec) ++ rest) =
      some (history, rest) := by
  induction history with
  | nil => rfl
  | cons f history ih =>
    obtain ⟨hf, hhistory⟩ := List.forall_mem_cons.mp hhistory
    simp only [List.length_cons, readHistory, List.flatMap_cons, List.append_assoc,
      readFilter_append codec hf, ih hhistory, Option.map_some]

end Codec

/-! ## The tracker -/

inductive TrackerErr where
  | eof
  | unknownVersion
  deriving DecidableEq

namespace DataUpdateTracker

variable {env : Env} (codec : StreamCodec env.filters.Filter)
  (d : DataUpdateTracker env.filters.Filter)

/-- `serialize`. -/
def serializeBytes : List UInt8 :=
  dataUpdateTrackerVersion :: (putUint64 (d.saved % 2 ^ 64).toNat ++
    (serializeFilter codec d.current ++
      (putUint64 d.history.length ++ d.history.flatMap (serializeFilter codec))))

/-- What is behind the time: the current filter, the length of the history, and the history. -/
def readFilters (src : List UInt8) :
    Option (DataUpdateFilter env.filters.Filter × List (DataUpdateFilter env.filters.Filter)) :=
  match readFilter codec src with
  | none => none
  | some (current, src) =>
    match readUint64 src with
    | none => none
    | some (n, src) => (readHistory codec n src).map fun (history, _) => (current, history)

/-- `deserialize`, and its error. What is assigned to `Saved` was never set. -/
def deserializeBytes (src : List UInt8) (newerThan : Int) :
    DataUpdateTracker env.filters.Filter × Option TrackerErr :=
  match src with
  | [] => (d, some .eof)
  | version :: src =>
    if version ∈ [1, 2, 3, 4] then (d, none)
    else if version ≠ dataUpdateTrackerVersion then (d, some .unknownVersion)
    else
      match readUint64 src with
      | none => (d, some .eof)
      | some (t, src) =>
        if wrap64 t ≤ newerThan then (d, none)
        else
          match readFilters codec src with
          | none => (d, some .eof)
          | some (current, history) => ({ d with current, history, saved := zeroTime }, none)

/-- `load`, from what the drives have of the file. -/
def loadBytes (files : List (Option (List UInt8))) : DataUpdateTracker env.filters.Filter :=
  files.foldl (fun d file => file.elim d fun src => (d.deserializeBytes codec src d.saved).1) d

/-- The fields are in the ranges of their types. -/
structure Fits : Prop where
  saved : IsInt64 d.saved
  current : d.current.idx < 2 ^ 64
  history : ∀ f ∈ d.history, f.idx < 2 ^ 64
  length : d.history.length < 2 ^ 63

variable {codec}

theorem deserializeBytes_serializeBytes {file : DataUpdateTracker env.filters.Filter}
    (hfits : file.Fits) (newerThan : Int) :
    d.deserializeBytes codec (file.serializeBytes codec) newerThan =
      (if file.saved ≤ newerThan then d
        else { d with current := file.current, history := file.history, saved := zeroTime },
        none) := by
  have htime : (file.saved % 2 ^ 64).toNat < 2 ^ 64 := by omega
  have hback : wrap64 ((file.saved % 2 ^ 64).toNat : Int) = file.saved := by
    obtain ⟨hlow, hhigh⟩ := hfits.saved
    rw [Int.toNat_of_nonneg (by omega)]
    obtain ⟨turns, hturns, _, _⟩ := wrap64_spec (file.saved % 2 ^ 64)
    omega
  have hlength : file.history.length < 2 ^ 64 := by
    have hlt := hfits.length
    omega
  have hfilters : readFilters codec (serializeFilter codec file.current ++
      (putUint64 file.history.length ++ file.history.flatMap (serializeFilter codec))) =
        some (file.current, file.history) := by
    have hhistory := readHistory_append codec hfits.history []
    rw [List.append_nil] at hhistory
    simp only [readFilters, readFilter_append codec hfits.current, readUint64_append hlength,
      hhistory, Option.map_some]
  unfold serializeBytes deserializeBytes
  dsimp only
  rw [if_neg (by decide), if_neg (fun hne => hne rfl), readUint64_append htime]
  dsimp only
  rw [hback, hfilters]
  split
  · rfl
  · rfl

/-- Of whole files, the drives load as their contents do. -/
theorem loadBytes_serializeBytes {files : List (DataUpdateTracker env.filters.Filter)}
    (hfits : ∀ file ∈ files, file.Fits) :
    d.loadBytes codec (files.map fun file => some (file.serializeBytes codec)) =
      d.load (files.map fun file => some (file.serialize file.saved)) := by
  unfold loadBytes load
  induction files generalizing d with
  | nil => rfl
  | cons file files ih =>
    obtain ⟨hfile, hfits⟩ := List.forall_mem_cons.mp hfits
    rw [List.map_cons, List.map_cons, List.foldl_cons, List.foldl_cons, Option.elim_some,
      Option.elim_some, deserializeBytes_serializeBytes d hfile, ← ih _ hfits]
    congr 1
    unfold deserialize serialize
    split
    next hle => rw [if_neg (not_lt.mpr hle)]
    next hlt => rw [if_pos (not_le.mp hlt)]

def content {φ : Type} (d : DataUpdateTracker φ) : DataUpdateFilter φ × List (DataUpdateFilter φ) :=
  (d.current, d.history)

theorem content_load (hzero : d.saved = zeroTime)
    (files : List (DataUpdateTracker env.filters.Filter)) :
    (d.load (files.map fun file => some (file.serialize file.saved))).content =
      ((files.reverse.find? fun file => decide (zeroTime < file.saved)).getD d).content := by
  obtain ⟨-, hcurrent, hhistory⟩ :=
    System.load_eq d hzero (files.map fun file => some (file.serialize file.saved, []))
  have hlast : lastFile (files.map fun file => some (file.serialize file.saved, [])) =
      (files.reverse.find? fun file => decide (zeroTime < file.saved)).map
        fun file => (file.serialize file.saved, []) := by
    simp [lastFile, List.find?_map, Function.comp_def, serialize, ← List.map_reverse]
  rw [hlast] at hcurrent hhistory
  simp only [List.map_map, Function.comp_def, Option.map_some] at hcurrent hhistory
  unfold content
  rw [hcurrent, hhistory]
  cases files.reverse.find? fun file => decide (zeroTime < file.saved) with
  | none => rfl
  | some file => rfl

/-! ## Restoring and loading -/

/-- What is read from the tracker's file is the tracker, its save time included. -/
def Restores (codec : StreamCodec env.filters.Filter) : Prop :=
  ∀ (other : DataUpdateTracker env.filters.Filter) newerThan, newerThan < d.saved →
    let read := (other.deserializeBytes codec (d.serializeBytes codec) newerThan).1
    read.content = d.content ∧ read.saved = d.saved

variable {d} in
theorem restores_iff (hfits : d.Fits) : d.Restores codec ↔ d.saved = zeroTime := by
  have hread (other : DataUpdateTracker env.filters.Filter) {newerThan : Int}
      (hnewer : newerThan < d.saved) :
      other.deserializeBytes codec (d.serializeBytes codec) newerThan =
        ({ other with current := d.current, history := d.history, saved := zeroTime }, none) := by
    rw [deserializeBytes_serializeBytes other hfits, if_neg (not_le.mpr hnewer)]
  constructor
  · intro hrestores
    obtain ⟨-, hsaved⟩ := hrestores d (d.saved - 1) (by omega)
    rw [hread d (by omega)] at hsaved
    exact hsaved.symm
  · intro hzero other newerThan hnewer
    dsimp only
    rw [hread other hnewer]
    exact ⟨rfl, hzero.symm⟩

end DataUpdateTracker

open DataUpdateTracker

variable {env : Env} (codec : StreamCodec env.filters.Filter)
  (files : List (DataUpdateTracker env.filters.Filter))

/-- In every order of the drives, a new tracker loads the newest of their files. -/
def LoadsNewest : Prop :=
  ∃ newest ∈ newDataUpdateTracker env :: files,
    (∀ file ∈ newDataUpdateTracker env :: files, file.saved ≤ newest.saved) ∧
    ∀ order : List (DataUpdateTracker env.filters.Filter), order.Perm files →
      ((newDataUpdateTracker env).loadBytes codec
        (order.map fun file => some (file.serializeBytes codec))).content = newest.content

def SameFilters : Prop :=
  ∀ file ∈ files, ∀ other ∈ files, zeroTime < file.saved → zeroTime < other.saved →
    file.content = other.content

variable {files}

theorem loadsNewest_iff (hfits : ∀ file ∈ files, file.Fits) :
    LoadsNewest codec files ↔ SameFilters files := by
  have hload (order : List (DataUpdateTracker env.filters.Filter)) (horder : order.Perm files) :
      ((newDataUpdateTracker env).loadBytes codec
        (order.map fun file => some (file.serializeBytes codec))).content =
      ((order.reverse.find? fun file => decide (zeroTime < file.saved)).getD
        (newDataUpdateTracker env)).content := by
    rw [loadBytes_serializeBytes _ fun file hfile => hfits file (horder.mem_iff.mp hfile)]
    exact content_load _ rfl order
  constructor
  · rintro ⟨newest, -, -, hnewest⟩
    -- A file that the last drive has is the one that is loaded.
    have hlast : ∀ file ∈ files, zeroTime < file.saved → file.content = newest.content := by
      intro file hfile htime
      obtain ⟨before, after, rfl⟩ := List.append_of_mem hfile
      have hperm : (before ++ after ++ [file]).Perm (before ++ file :: after) := by
        rw [List.append_assoc]
        exact (List.perm_append_singleton file after).append_left before
      have hcontent := hnewest _ hperm
      rw [hload _ hperm, List.reverse_append, List.reverse_singleton, List.singleton_append] at hcontent
      simpa only [List.find?_cons, decide_eq_true htime, Option.getD_some] using hcontent
    intro file hfile other hother htime htime'
    rw [hlast file hfile htime, hlast other hother htime']
  · intro hsame
    cases hfiles : files.filter fun file => decide (zeroTime < file.saved) with
    | nil =>
      have hnone : ∀ file ∈ files, ¬ zeroTime < file.saved := by
        simpa [List.filter_eq_nil_iff] using hfiles
      refine ⟨newDataUpdateTracker env, List.mem_cons_self, ?_, ?_⟩
      · intro file hfile
        rcases List.mem_cons.mp hfile with rfl | hfile
        · exact le_rfl
        · exact not_lt.mp (hnone file hfile)
      · intro order horder
        have hfind : (order.reverse.find? fun file => decide (zeroTime < file.saved)) = none := by
          apply List.find?_eq_none.mpr
          intro file hfile
          simpa using hnone file (horder.mem_iff.mp (List.mem_reverse.mp hfile))
        rw [hload order horder, hfind]
        rfl
    | cons first rest =>
      obtain ⟨newest, hnewest⟩ : ∃ newest, newest ∈ List.argmax DataUpdateTracker.saved
          (first :: rest) := Option.ne_none_iff_exists'.mp (by
        rw [Ne, List.argmax_eq_none]
        exact List.cons_ne_nil first rest)
      have hmem := List.argmax_mem hnewest
      rw [← hfiles] at hmem hnewest
      obtain ⟨hfile, htime⟩ := List.mem_filter.mp hmem
      rw [decide_eq_true_eq] at htime
      refine ⟨newest, List.mem_cons_of_mem _ hfile, ?_, ?_⟩
      · intro file hmem
        by_cases hafter : zeroTime < file.saved
        · rcases List.mem_cons.mp hmem with rfl | hmem
          · exact absurd hafter (lt_irrefl _)
          · exact List.le_of_mem_argmax
              (List.mem_filter.mpr ⟨hmem, decide_eq_true hafter⟩) hnewest
        · exact (not_lt.mp hafter).trans htime.le
      · intro order horder
        rw [hload order horder]
        cases hfind : order.reverse.find? fun file => decide (zeroTime < file.saved) with
        | none =>
          have habsent := List.find?_eq_none.mp hfind newest
            (List.mem_reverse.mpr (horder.mem_iff.mpr hfile))
          exact absurd (decide_eq_true htime) habsent
        | some file =>
          have hloaded := List.mem_reverse.mp (List.mem_of_find?_eq_some hfind)
          have hafter : zeroTime < file.saved := by simpa using List.find?_some hfind
          exact hsame file (horder.mem_iff.mp hloaded) newest hfile hafter htime

/-- A file restores its tracker up to the save time, which stays at zero; for want of it the
newest file is only loaded, in every order of the drives, where all have the same filters. -/
theorem trackerFile_restores_iff (env : Env) (codec : StreamCodec env.filters.Filter) :
    (∀ d : DataUpdateTracker env.filters.Filter, d.Fits →
      (d.Restores codec ↔ d.saved = zeroTime)) ∧
    ∀ files : List (DataUpdateTracker env.filters.Filter), (∀ file ∈ files, file.Fits) →
      (LoadsNewest codec files ↔ SameFilters files) :=
  ⟨fun _ hfits => restores_iff hfits, fun _ hfits => loadsNewest_iff codec hfits⟩

def oneBitFilters : BloomFilters where
  Filter := Bool
  new := false
  add := fun _ _ => true
  test := fun bf _ => bf
  merge := fun bf other => some (bf || other)
  test_add_self := fun _ _ => rfl
  test_add := fun _ _ _ _ => rfl
  test_merge := by
    intro bf other merged key hmerge htest
    rw [← Option.some.inj hmerge]
    exact Bool.or_eq_true _ _ ▸ htest

def oneBitEnv : Env where
  filters := oneBitFilters
  checkValidBucketName := fun _ => true
  sorter := .stable _
  debug := false

def boolByte (bf : Bool) : List UInt8 := if bf then [1] else [0]

theorem mem_bools (bf : Bool) : bf ∈ [false, true] := by
  cases bf <;> simp

theorem length_boolByte (bf : Bool) : (boolByte bf).length = 1 := by
  cases bf <;> rfl

theorem boolByte_injective : Function.Injective boolByte := by
  intro bf other heq
  cases bf <;> cases other <;> simp_all [boolByte]

def boolCodec : StreamCodec Bool :=
  StreamCodec.ofTable [false, true] boolByte 1 mem_bools length_boolByte Nat.one_pos
    boolByte_injective

def oneBitCodec : StreamCodec oneBitEnv.filters.Filter := boolCodec

def savedAt (saved : Int) (bf : Bool) : DataUpdateTracker oneBitEnv.filters.Filter where
  current := { idx := 1, bf }
  saved := saved

theorem savedAt_fits {saved : Int} (hsaved : IsInt64 saved) (bf : Bool) :
    (savedAt saved bf).Fits where
  saved := hsaved
  current := show 1 < 2 ^ 64 by decide
  history := fun _ hmem => absurd hmem List.not_mem_nil
  length := show 0 < 2 ^ 63 by decide

theorem savedAt_restores_iff :
    ((savedAt 1 true).Restores oneBitCodec ↔ (savedAt 1 true).saved = zeroTime) ∧
    (LoadsNewest oneBitCodec [savedAt 1 true] ↔ SameFilters [savedAt 1 true]) :=
  ⟨(trackerFile_restores_iff oneBitEnv oneBitCodec).1 _
      (savedAt_fits ⟨by decide, by decide⟩ true),
    (trackerFile_restores_iff oneBitEnv oneBitCodec).2 _ fun file hfile =>
      List.mem_singleton.mp hfile ▸ savedAt_fits ⟨by decide, by decide⟩ true⟩

/-- The time of a save is lost, and of two files the one that is read last is loaded. -/
theorem savedAt_not_restored :
    ¬ (savedAt 1 true).Restores oneBitCodec ∧
      ¬ LoadsNewest oneBitCodec [savedAt 1 true, savedAt 2 false] := by
  constructor
  · rw [restores_iff (savedAt_fits ⟨by decide, by decide⟩ true)]
    decide
  · rw [loadsNewest_iff oneBitCodec]
    · intro hsame
      have hcontent := hsame _ List.mem_cons_self _ (List.mem_cons_of_mem _ List.mem_cons_self)
        (by decide) (by decide)
      exact Bool.noConfusion (congrArg (fun content => content.1.bf) hcontent : true = false)
    · intro file hfile
      rcases List.mem_cons.mp hfile with rfl | hfile
      · exact savedAt_fits ⟨by decide, by decide⟩ true
      · exact List.mem_singleton.mp hfile ▸ savedAt_fits ⟨by decide, by decide⟩ false

end Fs3.Tracker
