import Fs3.Cache.DiskCache

/-! # An entry and the version it is for

An entry is coherent when its files hold bytes of the version whose ETag is recorded, and the size
recorded is that version's. -/

namespace Fs3.Cache

open Foundation ObjectReader

variable {ε : Type} {content : ε → Bytes}
variable {rs : Option HTTPRangeSpec}

theorem rangeKey_of_ok {bytes : Bytes} {off length : Int}
    (hrange : getOffsetLength rs bytes.length = .ok (off, length)) :
    (rangeKey rs bytes.length).of bytes = slice bytes off length := by
  cases rs with
  | none =>
    obtain ⟨rfl, rfl⟩ := Prod.mk.inj (Except.ok.inj hrange)
    simp [rangeKey, RangeKey.of, slice]
  | some spec =>
    rw [rangeKey, hrange]
    rfl

namespace Entry

variable {entry : Entry ε}

/-- The files hold bytes of the version whose ETag is in the metadata, and the size is its. -/
def Coherent (content : ε → Bytes) (entry : Entry ε) : Prop :=
  ∀ m, entry.cacheMeta = some m → m.size = (content m.etag).length ∧
    (∀ bytes, entry.data = some bytes → bytes = content m.etag) ∧
    ∀ key file bytes, (key, file) ∈ m.ranges → Pairs.value entry.files file = some bytes →
      bytes = key.of (content m.etag)

theorem coherent_empty : ({} : Entry ε).Coherent content := nofun

def Bare (entry : Entry ε) : Prop := entry.cacheMeta = none → entry.data = none

/-- A lookup finds files of the version that it finds recorded. -/
theorem Coherent.get (hcoherent : entry.Coherent content) {hit : Hit ε}
    (hget : entry.get rs = some hit) :
    hit.size = (content hit.etag).length ∧
      ∀ file, hit.file = some file →
        (∃ m, entry.cacheMeta = some m ∧ ∃ key, (key, file) ∈ m.ranges) ∧
        ∀ bytes, Pairs.value entry.files file = some bytes →
          bytes = slice (content hit.etag) hit.off hit.length := by
  unfold Entry.get at hget
  cases hmeta : entry.cacheMeta with
  | none =>
    rw [hmeta] at hget
    cases hget
  | some m =>
    obtain ⟨hsize, hdata, hranges⟩ := hcoherent m hmeta
    rw [hmeta] at hget
    dsimp only at hget
    split at hget
    next => cases hget
    next off length hrange =>
      split at hget
      next =>
        obtain rfl := Option.some.inj hget
        exact ⟨hsize, by simp⟩
      next =>
        split at hget
        next => cases hget
        next file hvalue =>
          split at hget
          next =>
            obtain rfl := Option.some.inj hget
            refine ⟨hsize, fun file' hfile => ?_⟩
            obtain rfl := Option.some.inj hfile
            have hmem := Pairs.mem_of_value hvalue
            refine ⟨⟨m, rfl, _, hmem⟩, fun bytes hbytes => ?_⟩
            rw [hsize] at hrange hmem
            rw [hranges _ file bytes hmem hbytes]
            exact rangeKey_of_ok hrange
          next => cases hget

/-! ## Saving metadata -/

def drops (entry : Entry ε) (rs : Option HTTPRangeSpec) (incHitsOnly : Bool) : Bool :=
  rs.isNone && !incHitsOnly && entry.data.isSome

def rangesAfter (entry : Entry ε) (size : Nat) (rs : Option HTTPRangeSpec)
    (rsFileName : Option Nat) : List (RangeKey × Nat) :=
  let ranges := (entry.cacheMeta.map CacheMeta.ranges).getD []
  match rs, rsFileName with
  | some _, some file => Pairs.put ranges (rangeKey rs size) file
  | _, _ => ranges

theorem saveMetadata_eq (etag : ε) (size : Nat) (rs : Option HTTPRangeSpec)
    (rsFileName : Option Nat) (incHitsOnly : Bool) :
    ∃ hits, entry.saveMetadata etag size rs rsFileName incHitsOnly =
      { cacheMeta := some
          { etag := etag
            size := size
            ranges := if entry.drops rs incHitsOnly then []
              else entry.rangesAfter size rs rsFileName
            hits := hits }
        data := entry.data
        files := if entry.drops rs incHitsOnly then
            Pairs.drop entry.files ((entry.rangesAfter size rs rsFileName).map Prod.snd)
          else entry.files } := by
  unfold saveMetadata rangesAfter drops
  cases entry.cacheMeta with
  | none => exact ⟨_, rfl⟩
  | some m => exact ⟨_, rfl⟩

variable {etag : ε}

theorem coherent_saveMetadata_iff {size : Nat} (hsize : size = (content etag).length)
    (rs : Option HTTPRangeSpec) (rsFileName : Option Nat) (incHitsOnly : Bool) :
    (entry.saveMetadata etag size rs rsFileName incHitsOnly).Coherent content ↔
      (∀ bytes, entry.data = some bytes → bytes = content etag) ∧
      (entry.drops rs incHitsOnly = false → ∀ key file bytes,
        (key, file) ∈ entry.rangesAfter size rs rsFileName →
        Pairs.value entry.files file = some bytes → bytes = key.of (content etag)) := by
  obtain ⟨hits, heq⟩ := @saveMetadata_eq _ entry etag size rs rsFileName incHitsOnly
  rw [heq]
  unfold Coherent
  constructor
  · intro hcoherent
    obtain ⟨-, hdata, hranges⟩ := hcoherent _ rfl
    refine ⟨hdata, fun hdrops => ?_⟩
    simpa only [hdrops, Bool.false_eq_true, if_false] using hranges
  · rintro ⟨hdata, hranges⟩ m hm
    obtain rfl := Option.some.inj hm
    refine ⟨hsize, hdata, fun key file bytes hmem hvalue => ?_⟩
    cases hdrops : entry.drops rs incHitsOnly with
    | true =>
      simp only [hdrops, if_true] at hmem
      exact absurd hmem List.not_mem_nil
    | false =>
      simp only [hdrops, Bool.false_eq_true, if_false] at hmem hvalue
      exact hranges hdrops key file bytes hmem hvalue

theorem file_saveMetadata {size : Nat} {rsFileName : Option Nat} {incHitsOnly : Bool} {file : Nat}
    {bytes : Bytes} (hvalue : Pairs.value
      (entry.saveMetadata etag size rs rsFileName incHitsOnly).files file = some bytes) :
    Pairs.value entry.files file = some bytes := by
  obtain ⟨hits, heq⟩ := @saveMetadata_eq _ entry etag size rs rsFileName incHitsOnly
  rw [heq] at hvalue
  dsimp only at hvalue
  split at hvalue
  next =>
    rw [Pairs.value_drop] at hvalue
    split at hvalue
    next => cases hvalue
    next => exact hvalue
  next => exact hvalue

theorem mem_ranges_saveMetadata {size : Nat} {rsFileName : Option Nat} {incHitsOnly : Bool}
    {m : CacheMeta ε} {range : RangeKey × Nat}
    (hm : (entry.saveMetadata etag size rs rsFileName incHitsOnly).cacheMeta = some m)
    (hmem : range ∈ m.ranges) : range ∈ entry.rangesAfter size rs rsFileName := by
  obtain ⟨hits, heq⟩ := @saveMetadata_eq _ entry etag size rs rsFileName incHitsOnly
  rw [heq] at hm
  obtain rfl := Option.some.inj hm
  dsimp only at hmem
  split at hmem
  next => exact absurd hmem List.not_mem_nil
  next => exact hmem

/-! ## What a step that records an ETag may leave -/

/-- The whole object, if it is cached, is the same in the version with this ETag. -/
def DataFits (content : ε → Bytes) (entry : Entry ε) (etag : ε) : Prop :=
  ∀ m, entry.cacheMeta = some m → entry.data.isSome → content etag = content m.etag

/-- The ranges that are cached, but for one that is replaced, are the same in the version with
this ETag. -/
def RangesFit (content : ε → Bytes) (entry : Entry ε) (etag : ε) (replaced : RangeKey → Prop) :
    Prop :=
  ∀ m, entry.cacheMeta = some m → ∀ key file, (key, file) ∈ m.ranges → ¬ replaced key →
    (Pairs.value entry.files file).isSome → key.of (content etag) = key.of (content m.etag)

theorem dataFits_iff (hcoherent : entry.Coherent content) (hbare : entry.Bare) :
    entry.DataFits content etag ↔ ∀ bytes, entry.data = some bytes → bytes = content etag := by
  unfold DataFits
  cases hmeta : entry.cacheMeta with
  | none =>
    have hnone := hbare hmeta
    simp [hnone]
  | some m =>
    obtain ⟨-, hdata, -⟩ := hcoherent m hmeta
    constructor
    · intro hfits bytes hbytes
      rw [hdata bytes hbytes]
      exact (hfits m rfl (by rw [hbytes]; rfl)).symm
    · intro hfits m' hm hsome
      obtain rfl := Option.some.inj hm
      obtain ⟨bytes, hbytes⟩ := Option.isSome_iff_exists.mp hsome
      exact (hfits bytes hbytes).symm.trans (hdata bytes hbytes)

theorem rangesFit_iff (hcoherent : entry.Coherent content) {replaced : RangeKey → Prop} :
    entry.RangesFit content etag replaced ↔ ∀ key file bytes,
      (key, file) ∈ (entry.cacheMeta.map CacheMeta.ranges).getD [] → ¬ replaced key →
      Pairs.value entry.files file = some bytes → bytes = key.of (content etag) := by
  unfold RangesFit
  cases hmeta : entry.cacheMeta with
  | none => simp
  | some m =>
    obtain ⟨-, -, hranges⟩ := hcoherent m hmeta
    constructor
    · intro hfits key file bytes hmem hkept hbytes
      rw [hranges key file bytes hmem hbytes]
      exact (hfits m rfl key file hmem hkept (by rw [hbytes]; rfl)).symm
    · intro hfits m' hm key file hmem hkept hsome
      obtain rfl := Option.some.inj hm
      obtain ⟨bytes, hbytes⟩ := Option.isSome_iff_exists.mp hsome
      exact (hfits key file bytes hmem hkept hbytes).symm.trans
        (hranges key file bytes hmem hbytes)

/-- What `SaveMetadata` may record over an entry. -/
def SaveFits (content : ε → Bytes) (entry : Entry ε) (etag : ε) (rs : Option HTTPRangeSpec)
    (incHitsOnly : Bool) : Prop :=
  entry.DataFits content etag ∧
    (entry.drops rs incHitsOnly = false → entry.RangesFit content etag fun _ => False)

theorem Coherent.save_iff (hcoherent : entry.Coherent content) (hbare : entry.Bare) {size : Nat}
    (hsize : size = (content etag).length) (rs : Option HTTPRangeSpec) (incHitsOnly : Bool) :
    (entry.saveMetadata etag size rs none incHitsOnly).Coherent content ↔
      entry.SaveFits content etag rs incHitsOnly := by
  have hranges : entry.rangesAfter size rs none =
      (entry.cacheMeta.map CacheMeta.ranges).getD [] := by
    unfold rangesAfter
    split
    next hfile => exact nomatch hfile
    next => rfl
  rw [coherent_saveMetadata_iff hsize, hranges, SaveFits, dataFits_iff hcoherent hbare,
    rangesFit_iff hcoherent]
  simp

variable [DecidableEq ε]

/-- What `Put` may record over an entry: ranges leave the whole object and the other ranges, and the
whole object leaves the ranges where only hits are counted. -/
def PutFits (content : ε → Bytes) (after : Nat) (entry : Entry ε) (rs : Option HTTPRangeSpec)
    (etag : ε) (delivered : Nat) : Prop :=
  match entry.cacheMeta with
  | none => True
  | some m =>
    if m.hits < after ∧ m.etag = etag then True
    else
      match rs with
      | some spec =>
        match getOffsetLength (some spec) (content etag).length with
        | .error _ => True
        | .ok (off, length) =>
          ((slice (content etag) off length).take delivered).length = length.toNat →
            entry.DataFits content etag ∧
              entry.RangesFit content etag (· = some (off, length))
      | none =>
        (content etag).length ≤ delivered → m.hits < after →
          entry.RangesFit content etag fun _ => False

def Named (entry : Entry ε) (next : Nat) : Prop :=
  ∀ m, entry.cacheMeta = some m → ∀ range ∈ m.ranges, range.2 < next

omit [DecidableEq ε] in
theorem Named.ranges {next : Nat} (hnamed : entry.Named next) {key : RangeKey} {file : Nat}
    (hmem : (key, file) ∈ (entry.cacheMeta.map CacheMeta.ranges).getD []) : file < next := by
  cases hmeta : entry.cacheMeta with
  | none =>
    rw [hmeta] at hmem
    exact absurd hmem List.not_mem_nil
  | some m =>
    rw [hmeta] at hmem
    exact hnamed m hmeta (key, file) hmem

omit [DecidableEq ε] in
/-- A range that is put is coherent with what it leaves. -/
theorem Coherent.putRange_iff (hcoherent : entry.Coherent content) (hbare : entry.Bare) {next : Nat}
    (hnamed : entry.Named next) {spec : HTTPRangeSpec} {off length : Int}
    (hrange : getOffsetLength (some spec) (content etag).length = .ok (off, length))
    {delivered : Nat}
    (hcomplete : ((slice (content etag) off length).take delivered).length = length.toNat) :
    (entry.putRange content spec etag next delivered).Coherent content ↔
      entry.DataFits content etag ∧ entry.RangesFit content etag (· = some (off, length)) := by
  have hkey : rangeKey (some spec) (content etag).length = some (off, length) := by
    rw [rangeKey, hrange]
    rfl
  have hbytes : (slice (content etag) off length).take delivered =
      slice (content etag) off length := by
    apply List.take_of_length_le
    have hle : (slice (content etag) off length).length ≤ length.toNat := by
      rw [slice, List.length_take]
      exact Nat.min_le_left _ _
    rw [List.length_take] at hcomplete
    omega
  unfold putRange
  rw [hrange]
  dsimp only
  rw [if_pos hcomplete, coherent_saveMetadata_iff rfl, dataFits_iff hcoherent hbare,
    rangesFit_iff hcoherent, hbytes]
  refine and_congr_right fun _ => ?_
  unfold rangesAfter
  rw [hkey]
  dsimp only
  constructor
  · intro hranges key file bytes hmem hkept hvalue
    refine hranges rfl key file bytes (Pairs.mem_put.mpr (Or.inr ⟨hmem, hkept⟩)) ?_
    rw [Pairs.value_put, if_neg (Nat.ne_of_lt (hnamed.ranges hmem))]
    exact hvalue
  · intro hranges _ key file bytes hmem hvalue
    rcases Pairs.mem_put.mp hmem with heq | ⟨hold, hkept⟩
    · obtain ⟨rfl, rfl⟩ := Prod.mk.inj heq
      rw [Pairs.value_put, if_pos rfl] at hvalue
      exact (Option.some.inj hvalue).symm
    · rw [Pairs.value_put, if_neg (Nat.ne_of_lt (hnamed.ranges hold))] at hvalue
      exact hranges key file bytes hold hkept hvalue

omit [DecidableEq ε] in
theorem Coherent.putData_iff (hcoherent : entry.Coherent content) {delivered : Nat}
    (hcomplete : (content etag).length ≤ delivered) (incHitsOnly : Bool) :
    (entry.putData content etag delivered incHitsOnly).Coherent content ↔
      (incHitsOnly = true → entry.RangesFit content etag fun _ => False) := by
  unfold putData
  rw [List.take_of_length_le hcomplete]
  dsimp only
  rw [if_pos rfl, coherent_saveMetadata_iff rfl, rangesFit_iff hcoherent]
  unfold drops rangesAfter
  cases incHitsOnly with
  | true => simp
  | false => simp

/-- What a put leaves is coherent exactly where it fits. -/
theorem Coherent.put_iff (hcoherent : entry.Coherent content) (hbare : entry.Bare) {next : Nat}
    (hnamed : entry.Named next) (after : Nat) (rs : Option HTTPRangeSpec) (etag : ε)
    (delivered : Nat) :
    (entry.put content after rs etag next delivered).Coherent content ↔
      entry.PutFits content after rs etag delivered := by
  -- data that are cut short remove the entry
  have hstore : ∀ incHitsOnly, (entry.store content rs etag next delivered incHitsOnly).Coherent
      content ↔
      match rs with
      | some spec =>
        match getOffsetLength (some spec) (content etag).length with
        | .error _ => True
        | .ok (off, length) =>
          ((slice (content etag) off length).take delivered).length = length.toNat →
            entry.DataFits content etag ∧
              entry.RangesFit content etag (· = some (off, length))
      | none => (content etag).length ≤ delivered → incHitsOnly = true →
          entry.RangesFit content etag fun _ => False := by
    intro incHitsOnly
    unfold store
    cases rs with
    | none =>
      dsimp only
      by_cases hcomplete : (content etag).length ≤ delivered
      · rw [hcoherent.putData_iff hcomplete]
        exact ⟨fun h _ => h, fun h => h hcomplete⟩
      · refine iff_of_true ?_ fun h => absurd h hcomplete
        unfold putData
        rw [if_neg (by rw [List.length_take]; omega)]
        exact coherent_empty
    | some spec =>
      dsimp only
      split
      next hrange =>
        refine iff_of_true ?_ trivial
        unfold putRange
        rw [hrange]
        exact hcoherent
      next off length hrange =>
        by_cases hcomplete :
            ((slice (content etag) off length).take delivered).length = length.toNat
        · rw [hcoherent.putRange_iff hbare hnamed hrange hcomplete]
          exact ⟨fun h _ => h, fun h => h hcomplete⟩
        · refine iff_of_true ?_ fun h => absurd h hcomplete
          unfold putRange
          rw [hrange]
          dsimp only
          rw [if_neg hcomplete]
          exact coherent_empty
  unfold put PutFits
  cases hmeta : entry.cacheMeta with
  | none =>
    have hdata : entry.data = none := hbare hmeta
    have hfits : entry.DataFits content etag ∧ ∀ replaced,
        entry.RangesFit content etag replaced := by
      unfold DataFits RangesFit
      rw [hmeta]
      exact ⟨nofun, fun _ => nofun⟩
    dsimp only
    refine iff_of_true ?_ trivial
    split
    next => exact (hcoherent.save_iff hbare rfl none false).mpr ⟨hfits.1, fun _ => hfits.2 _⟩
    next =>
      rw [hstore false]
      split
      next =>
        split
        next => trivial
        next => exact fun _ => ⟨hfits.1, hfits.2 _⟩
      next => exact fun _ _ => hfits.2 _
  | some m =>
    dsimp only
    by_cases hhits : m.hits < after
    · rw [if_pos hhits]
      by_cases hetag : m.etag = etag
      · rw [if_pos hetag, if_pos ⟨hhits, hetag⟩]
        refine iff_of_true ((hcoherent.save_iff hbare rfl none false).mpr ?_) trivial
        subst hetag
        refine ⟨fun m' hm _ => ?_, fun _ m' hm key file _ _ _ => ?_⟩
        · rw [Option.some.inj (hmeta.symm.trans hm)]
        · rw [Option.some.inj (hmeta.symm.trans hm)]
      · rw [if_neg hetag, if_neg fun h => hetag h.2, hstore true]
        simp only [hhits, forall_const]
    · rw [if_neg hhits, if_neg fun h => hhits h.1, hstore false]
      cases rs with
      | some spec => rfl
      | none => simp [hhits]

end Entry

end Fs3.Cache
