import Fs3.Cache.EntryCoherence
import Fs3.Foundation.Histories

/-! # Coherence of the disk cache

In every state of a run the files of the entry should hold bytes of the version whose ETag is
recorded, and every reader of a cached object bytes of the version whose ETag it was found with.
-/

namespace Fs3.Cache

open Foundation ObjectReader

variable {ε τ : Type} {content : ε → Bytes}

def Reader.Right (content : ε → Bytes) (reader : Reader ε) : Prop :=
  reader.got <+: slice (content reader.hit.etag) reader.hit.off reader.hit.length

def Reader.block (reader : Reader ε) (n : Nat) (bytes : Bytes) : Bytes :=
  (bytes.drop (reader.hit.off.toNat + reader.got.length)).take
    (min n (reader.hit.length.toNat - reader.got.length))

theorem slice_split {bytes got : Bytes} {off length : Int} (hgot : got <+: slice bytes off length) :
    slice bytes off length =
      got ++ (bytes.drop (off.toNat + got.length)).take (length.toNat - got.length) := by
  obtain ⟨rest, hrest⟩ := hgot
  have hdrop := congrArg (List.drop got.length) hrest
  rw [List.drop_left, slice, List.drop_take, List.drop_drop] at hdrop
  rw [← hrest, hdrop]

theorem Reader.Right.append_iff {reader : Reader ε} (hright : reader.Right content) (n : Nat)
    (bytes : Bytes) :
    Reader.Right content { reader with got := reader.got ++ reader.block n bytes } ↔
      reader.block n bytes <+: reader.block n (content reader.hit.etag) := by
  unfold Reader.Right at hright ⊢
  dsimp only
  rw [slice_split hright, List.prefix_append_right_inj]
  unfold Reader.block
  constructor
  · intro hfront
    have htake := hfront.take (min n (reader.hit.length.toNat - reader.got.length))
    rwa [List.take_take, List.take_take, min_self, min_assoc, min_self] at htake
  · intro hfront
    refine hfront.trans ?_
    rw [← List.take_take]
    exact List.take_prefix _ _

theorem Reader.Right.append_range {reader : Reader ε} (hright : reader.Right content) (n : Nat) :
    Reader.Right content { reader with
      got := reader.got ++ ((slice (content reader.hit.etag) reader.hit.off
        reader.hit.length).drop reader.got.length).take
          (min n (reader.hit.length.toNat - reader.got.length)) } := by
  unfold Reader.Right at hright ⊢
  dsimp only
  obtain ⟨rest, hrest⟩ := hright
  rw [← hrest, List.drop_left, List.prefix_append_right_inj]
  exact List.take_prefix _ _

namespace CacheState

/-- The entry and the readers of the cache hold what they should. -/
structure Holds (content : ε → Bytes) (s : CacheState ε τ) : Prop where
  entry : s.entry.Coherent content
  readers : ∀ r reader, s.reader r = some reader → reader.Right content

end CacheState

/-- The sizes that a request has found or will record are those of the versions. -/
def Phase.Sized (content : ε → Bytes) : Phase ε → Prop
  | .looked _ (some hit) _ => hit.size = (content hit.etag).length
  | .saving args => args.size = (content args.etag).length
  | _ => True

namespace CacheState

variable {s : CacheState ε τ}

/-- Besides, files of ranges are written once, under new names. -/
structure Inv (content : ε → Bytes) (s : CacheState ε τ) : Prop where
  holds : s.Holds content
  bare : s.entry.Bare
  named : s.entry.Named s.nextFile
  opened : ∀ r reader file, s.reader r = some reader → reader.hit.file = some file →
    file < s.nextFile ∧ ∀ bytes, Pairs.value s.entry.files file = some bytes →
      bytes = slice (content reader.hit.etag) reader.hit.off reader.hit.length
  sized : ∀ r, (s.phase r).Sized content

theorem inv_start : ({} : CacheState ε τ).Inv content where
  holds := ⟨Entry.coherent_empty, nofun⟩
  bare := fun _ => rfl
  named := nofun
  opened := nofun
  sized := fun _ => trivial

theorem Inv.replace (hinv : s.Inv content) {entry : Entry ε} {next : Nat}
    (hnext : s.nextFile ≤ next) (hcoherent : entry.Coherent content) (hbare : entry.Bare)
    (hnamed : entry.Named next)
    (hfiles : ∀ file bytes, file < s.nextFile → Pairs.value entry.files file = some bytes →
      Pairs.value s.entry.files file = some bytes) :
    { s with entry := entry, nextFile := next }.Inv content where
  holds := ⟨hcoherent, hinv.holds.readers⟩
  bare := hbare
  named := hnamed
  opened r reader file hreader hfile := by
    obtain ⟨hlt, hbytes⟩ := hinv.opened r reader file hreader hfile
    exact ⟨hlt.trans_le hnext, fun bytes hvalue => hbytes bytes (hfiles file bytes hlt hvalue)⟩
  sized := hinv.sized

theorem Inv.remove (hinv : s.Inv content) : { s with entry := {} }.Inv content :=
  hinv.replace le_rfl Entry.coherent_empty (fun _ => rfl) nofun nofun

variable [DecidableEq τ]

section

variable (hinv : s.Inv content) (r : τ)
include hinv r

theorem Inv.moveTo {phase : Phase ε} (hsized : phase.Sized content) :
    (s.moveTo r phase).Inv content where
  holds := ⟨hinv.holds.entry, hinv.holds.readers⟩
  bare := hinv.bare
  named := hinv.named
  opened := hinv.opened
  sized := (Function.forall_update_iff s.phase fun _ phase => phase.Sized content).mpr
    ⟨hsized, fun r' _ => hinv.sized r'⟩

theorem Inv.setReader {reader : Option (Reader ε)}
    (hright : ∀ new, reader = some new → new.Right content ∧
      ∀ file, new.hit.file = some file → file < s.nextFile ∧
        ∀ bytes, Pairs.value s.entry.files file = some bytes →
          bytes = slice (content new.hit.etag) new.hit.off new.hit.length) :
    { s with reader := Function.update s.reader r reader }.Inv content where
  holds := ⟨hinv.holds.entry,
    (Function.forall_update_iff s.reader fun _ r => ∀ new, r = some new → new.Right content).mpr
      ⟨fun new hnew => (hright new hnew).1, fun r' _ => hinv.holds.readers r'⟩⟩
  bare := hinv.bare
  named := hinv.named
  opened r' new file hnew hfile := by
    by_cases heq : r' = r
    · subst heq
      exact (hright new ((Function.update_self r' reader s.reader).symm.trans hnew)).2 file hfile
    · exact hinv.opened r' new file
        ((Function.update_of_ne heq reader s.reader).symm.trans hnew) hfile
  sized := hinv.sized

theorem Inv.close : (s.close r).Inv content :=
  hinv.setReader r nofun

/-! ## The steps -/

theorem Inv.get (rs : Option HTTPRangeSpec) : (s.get r rs).Inv content := by
  unfold CacheState.get
  split
  next =>
    refine Inv.moveTo (hinv.setReader r fun new hnew => ?_) r ?_
    · obtain ⟨hit, hget, rfl⟩ := Option.map_eq_some_iff.mp hnew
      obtain ⟨-, hfound⟩ := hinv.holds.entry.get hget
      refine ⟨List.nil_prefix, fun file hfile => ?_⟩
      obtain ⟨⟨m, hmeta, key, hmem⟩, hbytes⟩ := hfound file hfile
      exact ⟨hinv.named m hmeta (key, file) hmem, hbytes⟩
    · cases hget : s.entry.get rs with
      | none => trivial
      | some hit => exact (hinv.holds.entry.get hget).1
  next => exact hinv

theorem Inv.serveFresh : (s.serveFresh r).Inv content := by
  unfold CacheState.serveFresh
  split
  next rs hit numHits hphase =>
    have hsized := hinv.sized r
    rw [hphase] at hsized
    exact hinv.moveTo r hsized
  next => exact hinv

theorem Inv.passOver : (s.passOver r).Inv content := by
  unfold CacheState.passOver
  split
  next => exact (hinv.close r).moveTo r trivial
  next => exact hinv

theorem Inv.evict : (s.evict r).Inv content := by
  unfold CacheState.evict
  split
  next => exact hinv.remove.moveTo r trivial
  next => exact hinv.remove.moveTo r trivial
  next => exact hinv

theorem Inv.fetchWhole : (s.fetchWhole r).Inv content := by
  unfold CacheState.fetchWhole
  split
  next =>
    split
    next => exact hinv.moveTo r trivial
    next => exact hinv.moveTo r trivial
  next => exact hinv

end

theorem Inv.fetch (hinv : s.Inv content) (config : CacheConfig) (r : τ)
    (diskSpaceAvailable : Bool) : (s.fetch config content r diskSpaceAvailable).Inv content := by
  unfold CacheState.fetch
  split
  next =>
    split
    next => exact hinv.moveTo r trivial
    next =>
      split
      next => exact hinv.moveTo r trivial
      next =>
        split
        next => exact hinv.moveTo r rfl
        next =>
          split
          next => exact hinv.moveTo r trivial
          next =>
            split
            next => exact hinv.moveTo r trivial
            next => exact hinv.moveTo r trivial
  next => exact hinv

omit [DecidableEq τ] in
theorem Inv.withBackend (hinv : s.Inv content) (version : Option ε) :
    { s with backend := version }.Inv content where
  holds := ⟨hinv.holds.entry, hinv.holds.readers⟩
  bare := hinv.bare
  named := hinv.named
  opened := hinv.opened
  sized := hinv.sized

theorem Inv.putObject (hinv : s.Inv content) (r : τ) (etag : ε) :
    (s.putObject r etag).Inv content := by
  unfold CacheState.putObject
  split
  next => exact (hinv.withBackend (some etag)).moveTo r trivial
  next => exact hinv

theorem Inv.putUncached (hinv : s.Inv content) (r : τ) : (s.putUncached r).Inv content := by
  unfold CacheState.putUncached
  split
  next => exact hinv.moveTo r trivial
  next => exact hinv

theorem Inv.deleteObject (hinv : s.Inv content) (r : τ) : (s.deleteObject r).Inv content := by
  unfold CacheState.deleteObject
  split
  next => exact (hinv.withBackend none).moveTo r trivial
  next => exact hinv

variable [DecidableEq ε]

theorem Inv.check (hinv : s.Inv content) (r : τ) : (s.check r).Inv content := by
  unfold CacheState.check
  split
  next => exact hinv.moveTo r (by split <;> trivial)
  next => exact hinv

theorem Inv.askBackend (hinv : s.Inv content) (r : τ) (answer : BackendAnswer) :
    (s.askBackend content r answer).Inv content := by
  unfold CacheState.askBackend
  split
  next rs hit numHits hphase =>
    have hsized := hinv.sized r
    rw [hphase] at hsized
    split
    next => exact hinv.moveTo r trivial
    next => exact (hinv.close r).moveTo r trivial
    next => exact (hinv.close r).moveTo r trivial
    next metadataSame =>
      split
      next => exact hinv.moveTo r trivial
      next => exact (hinv.close r).moveTo r trivial
      next => exact hinv.moveTo r trivial
      next bkETag hit _ =>
        split
        next =>
          refine hinv.moveTo r ?_
          split
          next => exact hsized
          next => rfl
        next => exact (hinv.close r).moveTo r trivial
  next => exact hinv

/-! ## What keeps the cache coherent -/

/-- What must hold before a step: metadata are saved and versions put where the files that they
leave are the same in the version that they record, and the whole object is read on where the
version that is recorded then is the same there as the one that was found. -/
def Fits (config : CacheConfig) (content : ε → Bytes) (s : CacheState ε τ) :
    CacheEvent ε τ → Prop
  | .save r => ∀ args, s.phase r = .saving args →
      s.entry.SaveFits content args.etag args.rs args.incHitsOnly
  | .put r delivered => ∀ rs etag, s.phase r = .putting rs etag →
      s.entry.PutFits content config.after rs etag delivered
  | .read r n => ∀ reader m, s.reader r = some reader → reader.hit.file = none →
      s.entry.cacheMeta = some m → s.entry.data.isSome →
      reader.block n (content m.etag) <+: reader.block n (content reader.hit.etag)
  | _ => True

omit [DecidableEq τ] [DecidableEq ε] in
theorem bare_saveMetadata {entry : Entry ε} (etag : ε) (size : Nat) (rs : Option HTTPRangeSpec)
    (rsFileName : Option Nat) (incHitsOnly : Bool) :
    (entry.saveMetadata etag size rs rsFileName incHitsOnly).Bare := by
  obtain ⟨hits, heq⟩ := @Entry.saveMetadata_eq _ entry etag size rs rsFileName incHitsOnly
  rw [heq]
  exact nofun

omit [DecidableEq τ] [DecidableEq ε] in
theorem named_saveMetadata {entry : Entry ε} {next : Nat} (hnamed : entry.Named next) (etag : ε)
    (size : Nat) (rs : Option HTTPRangeSpec) (incHitsOnly : Bool) :
    (entry.saveMetadata etag size rs none incHitsOnly).Named next := by
  intro m hm range hmem
  have hold := Entry.mem_ranges_saveMetadata hm hmem
  unfold Entry.rangesAfter at hold
  split at hold
  next hfile => exact nomatch hfile
  next => exact hnamed.ranges hold

omit [DecidableEq ε] in
theorem save_of_saving {r : τ} {args : SaveArgs ε} (hphase : s.phase r = .saving args) :
    s.save r = CacheState.moveTo { s with
      entry := s.entry.saveMetadata args.etag args.size args.rs none args.incHitsOnly } r
        .answered := by
  unfold CacheState.save
  rw [hphase]

omit [DecidableEq ε] in
theorem Inv.save (hinv : s.Inv content) {r : τ} {args : SaveArgs ε}
    (hphase : s.phase r = .saving args)
    (hfits : s.entry.SaveFits content args.etag args.rs args.incHitsOnly) :
    (s.save r).Inv content := by
  have hsized := hinv.sized r
  rw [hphase] at hsized
  rw [save_of_saving hphase]
  refine Inv.moveTo (hinv.replace le_rfl ?_ ?_ ?_ fun file bytes _ hvalue => ?_) r trivial
  · exact (hinv.holds.entry.save_iff hinv.bare hsized args.rs args.incHitsOnly).mpr hfits
  · exact bare_saveMetadata _ _ _ _ _
  · exact named_saveMetadata hinv.named _ _ _ _
  · exact Entry.file_saveMetadata hvalue

omit [DecidableEq τ] in
/-- A put writes its range under the new name, and leaves the other files as they are. -/
theorem put_files {entry : Entry ε} {next : Nat} (hbare : entry.Bare) (hnamed : entry.Named next)
    (after : Nat) (rs : Option HTTPRangeSpec) (etag : ε) (delivered : Nat) :
    (entry.put content after rs etag next delivered).Bare ∧
      (entry.put content after rs etag next delivered).Named (next + 1) ∧
      ∀ file bytes, file < next →
        Pairs.value (entry.put content after rs etag next delivered).files file = some bytes →
        Pairs.value entry.files file = some bytes := by
  have hnext : ∀ {entry' : Entry ε}, entry'.Named next → entry'.Named (next + 1) :=
    fun h m hm range hmem => (h m hm range hmem).trans (Nat.lt_succ_self next)
  have hsave : ∀ size, (entry.saveMetadata etag size none none false).Bare ∧
      (entry.saveMetadata etag size none none false).Named (next + 1) ∧
      ∀ file bytes, file < next →
        Pairs.value (entry.saveMetadata etag size none none false).files file = some bytes →
        Pairs.value entry.files file = some bytes := fun size =>
    ⟨bare_saveMetadata _ _ _ _ _, hnext (named_saveMetadata hnamed _ _ _ _),
      fun _ _ _ hvalue => Entry.file_saveMetadata hvalue⟩
  have hstore : ∀ incHitsOnly, (entry.store content rs etag next delivered incHitsOnly).Bare ∧
      (entry.store content rs etag next delivered incHitsOnly).Named (next + 1) ∧
      ∀ file bytes, file < next →
        Pairs.value (entry.store content rs etag next delivered incHitsOnly).files file =
          some bytes → Pairs.value entry.files file = some bytes := by
    intro incHitsOnly
    unfold Entry.store
    cases rs with
    | none =>
      dsimp only [Entry.putData]
      split
      next =>
        refine ⟨bare_saveMetadata _ _ _ _ _, hnext (named_saveMetadata ?_ _ _ _ _),
          fun file bytes _ hvalue => ?_⟩
        · exact hnamed
        · have hsaved := Entry.file_saveMetadata hvalue
          exact hsaved
      next => exact ⟨fun _ => rfl, by simp [Entry.Named], by simp⟩
    | some spec =>
      dsimp only [Entry.putRange]
      split
      next => exact ⟨hbare, hnext hnamed, fun _ _ _ hvalue => hvalue⟩
      next off length _ =>
        split
        next =>
          refine ⟨bare_saveMetadata _ _ _ _ _, fun m hm range hmem => ?_,
            fun file bytes hlt hvalue => ?_⟩
          · have hold := Entry.mem_ranges_saveMetadata hm hmem
            rcases Pairs.mem_put.mp hold with rfl | ⟨hmem', -⟩
            · exact Nat.lt_succ_self next
            · exact (hnamed.ranges hmem').trans (Nat.lt_succ_self next)
          · have hput := Entry.file_saveMetadata hvalue
            dsimp only at hput
            rwa [Pairs.value_put, if_neg (Nat.ne_of_lt hlt)] at hput
        next => exact ⟨fun _ => rfl, by simp [Entry.Named], by simp⟩
  unfold Entry.put
  split
  next =>
    split
    next => exact hsave _
    next => exact hstore false
  next =>
    split
    next =>
      split
      next => exact hsave _
      next => exact hstore true
    next => exact hstore false

theorem put_of_putting {config : CacheConfig} {r : τ} {rs : Option HTTPRangeSpec} {etag : ε}
    (hphase : s.phase r = .putting rs etag) (delivered : Nat) :
    s.put config content r delivered = CacheState.moveTo { s with
      entry := s.entry.put content config.after rs etag s.nextFile delivered
      nextFile := s.nextFile + 1 } r .answered := by
  unfold CacheState.put
  rw [hphase]

theorem Inv.put (hinv : s.Inv content) {config : CacheConfig} {r : τ} {rs : Option HTTPRangeSpec}
    {etag : ε} {delivered : Nat} (hphase : s.phase r = .putting rs etag)
    (hfits : s.entry.PutFits content config.after rs etag delivered) :
    (s.put config content r delivered).Inv content := by
  rw [put_of_putting hphase]
  obtain ⟨hbare, hnamed, hfiles⟩ := @put_files _ content _ s.entry s.nextFile hinv.bare hinv.named
    config.after rs etag delivered
  refine Inv.moveTo (hinv.replace (Nat.le_succ _) ?_ hbare hnamed hfiles) r trivial
  exact (hinv.holds.entry.put_iff hinv.bare hinv.named config.after rs etag delivered).mpr hfits

omit [DecidableEq ε] in
theorem read_of_file {r : τ} {reader : Reader ε} (hreader : s.reader r = some reader)
    {bytes : Bytes} (hfile : s.entry.file reader.hit.file = some bytes) (n : Nat) :
    s.read r n = { s with reader := Function.update s.reader r (some { reader with
      got := reader.got ++ if reader.hit.file = none then reader.block n bytes
        else (bytes.drop reader.got.length).take
          (min n (reader.hit.length.toNat - reader.got.length)) }) } := by
  unfold CacheState.read
  rw [hreader]
  dsimp only
  rw [hfile]
  dsimp only
  by_cases hnone : reader.hit.file = none
  · rw [if_pos hnone, if_pos hnone]
    rfl
  · rw [if_neg hnone, if_neg hnone, Nat.zero_add]

/-- A reader reads on right where its file fits. -/
theorem Inv.read (hinv : s.Inv content) {config : CacheConfig} {r : τ} {n : Nat}
    (hfits : s.Fits config content (.read r n)) : (s.read r n).Inv content := by
  cases hreader : s.reader r with
  | none =>
    rw [CacheState.read, hreader]
    exact hinv
  | some reader =>
    have hright := hinv.holds.readers r reader hreader
    cases hfile : s.entry.file reader.hit.file with
    | none =>
      rw [CacheState.read, hreader]
      dsimp only
      rw [hfile]
      exact hinv.remove.close r
    | some bytes =>
      rw [read_of_file hreader hfile]
      refine hinv.setReader r fun new hnew => ?_
      obtain rfl := Option.some.inj hnew
      refine ⟨?_, fun file hname => hinv.opened r reader file hreader hname⟩
      cases hname : reader.hit.file with
      | none =>
        rw [hname] at hfile
        rw [if_pos rfl, hright.append_iff]
        cases hmeta : s.entry.cacheMeta with
        | none => exact nomatch (hinv.bare hmeta).symm.trans hfile
        | some m =>
          rw [(hinv.holds.entry m hmeta).2.1 bytes hfile]
          exact hfits reader m hreader hname hmeta (Option.isSome_of_eq_some hfile)
      | some file =>
        rw [hname] at hfile
        rw [if_neg (by simp), (hinv.opened r reader file hreader hname).2 bytes hfile]
        exact Reader.Right.append_range hright n

theorem Inv.after (hinv : s.Inv content) {config : CacheConfig} (event : CacheEvent ε τ)
    (hfits : s.Fits config content event) : (s.after config content event).Inv content := by
  cases event with
  | get r rs => exact hinv.get r rs
  | serveFresh r => exact hinv.serveFresh r
  | passOver r => exact hinv.passOver r
  | askBackend r answer => exact hinv.askBackend r answer
  | save r =>
    by_cases hsaving : ∃ args, s.phase r = .saving args
    · obtain ⟨args, hphase⟩ := hsaving
      exact hinv.save hphase (hfits args hphase)
    · rw [CacheState.after, CacheState.save]
      split
      next args hphase => exact absurd ⟨args, hphase⟩ hsaving
      next => exact hinv
  | evict r => exact hinv.evict r
  | fetch r diskSpaceAvailable => exact hinv.fetch config r diskSpaceAvailable
  | fetchWhole r => exact hinv.fetchWhole r
  | check r => exact hinv.check r
  | put r delivered =>
    by_cases hputting : ∃ rs etag, s.phase r = .putting rs etag
    · obtain ⟨rs, etag, hphase⟩ := hputting
      exact hinv.put hphase (hfits rs etag hphase)
    · rw [CacheState.after, CacheState.put]
      split
      next rs etag hphase => exact absurd ⟨rs, etag, hphase⟩ hputting
      next => exact hinv
  | read r n => exact hinv.read hfits
  | putObject r etag => exact hinv.putObject r etag
  | putUncached r => exact hinv.putUncached r
  | deleteObject r => exact hinv.deleteObject r
  | backendChange version => exact hinv.withBackend version

/-- A step that does not fit breaks what should hold. -/
theorem Inv.not_holds_after (hinv : s.Inv content) {config : CacheConfig} (event : CacheEvent ε τ)
    (hbad : ¬ s.Fits config content event) : ¬ (s.after config content event).Holds content := by
  intro hholds
  cases event with
  | save r =>
    unfold Fits at hbad
    push Not at hbad
    obtain ⟨args, hphase, hnot⟩ := hbad
    have hsized := hinv.sized r
    rw [hphase] at hsized
    rw [CacheState.after, save_of_saving hphase] at hholds
    exact hnot ((hinv.holds.entry.save_iff hinv.bare hsized args.rs args.incHitsOnly).mp
      hholds.entry)
  | put r delivered =>
    unfold Fits at hbad
    push Not at hbad
    obtain ⟨rs, etag, hphase, hnot⟩ := hbad
    rw [CacheState.after, put_of_putting hphase] at hholds
    exact hnot ((hinv.holds.entry.put_iff hinv.bare hinv.named config.after rs etag
      delivered).mp hholds.entry)
  | read r n =>
    unfold Fits at hbad
    push Not at hbad
    obtain ⟨reader, m, hreader, hname, hmeta, hsome, hnot⟩ := hbad
    obtain ⟨bytes, hdata⟩ := Option.isSome_iff_exists.mp hsome
    have hfile : s.entry.file reader.hit.file = some bytes := by rwa [hname]
    rw [CacheState.after, read_of_file hreader hfile] at hholds
    have hnew := hholds.readers r _ (Function.update_self r _ s.reader)
    rw [if_pos hname, (hinv.holds.readers r reader hreader).append_iff,
      (hinv.holds.entry m hmeta).2.1 bytes hdata] at hnew
    exact hnot hnew
  | _ => exact hbad trivial

end CacheState

def twoVersions (etag : Bool) : Bytes := if etag then [3, 3, 3, 3] else [1, 1, 1, 1]

def firstHalf : HTTPRangeSpec := { start := 0, end_ := 1 }

def secondHalf : HTTPRangeSpec := { start := 2, end_ := 3 }

/-- One half of the first version is cached, then the other half of the second. -/
def twoHalves : List (CacheEvent Bool Nat) :=
  [.backendChange (some false), .get 0 (some firstHalf), .askBackend 0 (.found true), .fetch 0 true,
    .put 0 2, .backendChange (some true), .get 1 (some secondHalf), .askBackend 1 (.found true),
    .fetch 1 true, .put 1 2]

end Fs3.Cache
