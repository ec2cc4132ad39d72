import Mathlib.Data.List.Rotate
import Fs3.Erasure.PutObject

/-! # The drives of a set in the order of their shards

The distribution of an object says which shard each drive holds. -/

namespace Fs3

/-- `hashOrder`: the drives from where the checksum of the key says. The checksum is
reduced by what `uint32` leaves of the number of drives, and a division by zero panics. -/
def hashOrderOf (checksum : Bytes → UInt32) (key : Bytes) (cardinality : Int) :
    Option (List Int) :=
  if cardinality ≤ 0 then some []
  else if cardinality % 2 ^ 32 = 0 then none
  else
    let start := (checksum key).toNat % (cardinality % 2 ^ 32).toNat
    some ((List.range cardinality.toNat).map fun (i : Nat) =>
      1 + ((start + (i + 1)) % cardinality.toNat : Nat))

def IsDistribution (distribution : List Int) (drives : Nat) : Prop :=
  distribution.Perm ((List.range drives).map fun (i : Nat) => 1 + (i : Int))

theorem isDistribution_consecutive (start drives : Nat) :
    IsDistribution ((List.range drives).map fun (i : Nat) =>
      1 + ((start + (i + 1)) % drives : Nat)) drives := by
  have hrotate : ((List.range drives).map fun (i : Nat) =>
      (1 + ((start + (i + 1)) % drives : Nat) : Int)) =
        ((List.range drives).rotate (start + 1)).map fun (i : Nat) => 1 + (i : Int) := by
    apply List.ext_getElem
    · simp
    · intro i hleft hright
      rw [List.getElem_map, List.getElem_map, List.getElem_rotate, List.getElem_range,
        List.getElem_range, List.length_range, Nat.add_left_comm, Nat.add_comm start]
  unfold IsDistribution
  rw [hrotate]
  exact (List.rotate_perm _ _).map _

theorem hashOrderOf_isDistribution (checksum : Bytes → UInt32) (key : Bytes) {cardinality : Int}
    (hlow : cardinality ≤ 0 ∨ cardinality % 2 ^ 32 ≠ 0) :
    ∃ nums, hashOrderOf checksum key cardinality = some nums ∧
      IsDistribution nums cardinality.toNat := by
  unfold hashOrderOf
  split
  next hle => exact ⟨[], rfl, by simp [IsDistribution, Int.toNat_of_nonpos hle]⟩
  next hpos =>
    rw [if_neg (hlow.resolve_left hpos)]
    exact ⟨_, rfl, isDistribution_consecutive _ _⟩

namespace IsDistribution

variable {distribution : List Int} {drives : Nat} {i j : Nat} {slot : Int}

theorem bounds (hdist : IsDistribution distribution drives) (hslot : distribution[i]? = some slot) :
    1 ≤ slot ∧ slot ≤ drives := by
  obtain ⟨k, hk, rfl⟩ := List.mem_map.mp (hdist.mem_iff.mp (List.mem_of_getElem? hslot))
  have hlt := List.mem_range.mp hk
  omega

theorem exists_slot (hdist : IsDistribution distribution drives) (hi : i < drives) :
    ∃ slot, distribution[i]? = some slot := by
  have hlength : distribution.length = drives := by
    rw [hdist.length_eq, List.length_map, List.length_range]
  exact ⟨_, List.getElem?_eq_getElem (hlength ▸ hi)⟩

theorem unique (hdist : IsDistribution distribution drives) (hslot : distribution[i]? = some slot)
    (hslot' : distribution[j]? = some slot) : i = j := by
  have hnodup : distribution.Nodup := by
    refine hdist.nodup_iff.mpr (List.nodup_range.map fun a b heq => ?_)
    exact Int.ofNat_inj.mp (Int.add_left_cancel heq)
  obtain ⟨hi, hget⟩ := List.getElem?_eq_some_iff.mp hslot
  obtain ⟨hj, hget'⟩ := List.getElem?_eq_some_iff.mp hslot'
  exact (List.Nodup.getElem_inj_iff hnodup).mp (hget.trans hget'.symm)

end IsDistribution

/-- The drives and their metadata, by slot. -/
structure ShuffledDrives (δ : Type) where
  disks : List (Option δ)
  metadata : List FileInfo

namespace ShuffledDrives

variable {δ : Type}

def make (disks metadata : Nat) : ShuffledDrives δ :=
  ⟨List.replicate disks none, List.replicate metadata {}⟩

def place (s : ShuffledDrives δ) (slot : Int) (disk : δ) (fi : FileInfo) :
    Option (ShuffledDrives δ) :=
  if 1 ≤ slot ∧ slot ≤ s.disks.length ∧ slot ≤ s.metadata.length then
    some ⟨s.disks.set (slot - 1).toNat (some disk), s.metadata.set (slot - 1).toNat fi⟩
  else none

/-- Go through the metadata: `choose` says which drive goes to which slot, if any does. -/
def placeAll (choose : Nat → FileInfo → Option (Option (δ × Int))) :
    Nat → List FileInfo → ShuffledDrives δ → Nat → Option (ShuffledDrives δ × Nat)
  | _, [], s, skipped => some (s, skipped)
  | index, fi :: rest, s, skipped =>
    match choose index fi with
    | none => none
    | some none => placeAll choose (index + 1) rest s (skipped + 1)
    | some (some (disk, slot)) =>
      (s.place slot disk fi).bind fun s => placeAll choose (index + 1) rest s skipped

end ShuffledDrives

section Shuffle

variable {δ : Type}

def chooseByIndex (disks : List (Option δ)) (fi : FileInfo) (i : Nat) (entry : FileInfo) :
    Option (Option (δ × Int)) :=
  match disks[i]? with
  | none => none
  | some none => some none
  | some (some disk) =>
    if entry.isValid = false then some none
    else if fi.data.length ≠ entry.data.length then some none
    else
      match fi.erasure.distribution[i]? with
      | none => none
      | some slot =>
        if slot ≠ entry.erasure.index then some none
        else some (some (disk, entry.erasure.index))

/-- The body of the loop by distribution: only what is read of an object that was
written is checked. -/
def chooseByDistribution (disks : List (Option δ)) (fi : FileInfo) (i : Nat) (entry : FileInfo) :
    Option (Option (δ × Int)) :=
  match disks[i]? with
  | none => none
  | some none => some none
  | some (some disk) =>
    if fi.modTime ≠ Time.zero ∧ entry.isValid = false then some none
    else if fi.modTime ≠ Time.zero ∧ fi.data.length ≠ entry.data.length then some none
    else fi.erasure.distribution[i]?.map fun slot => some (disk, slot)

def shuffleDisksAndPartsMetadata (disks : List (Option δ)) (partsMetadata : List FileInfo)
    (fi : FileInfo) : Option (ShuffledDrives δ) :=
  (ShuffledDrives.placeAll (chooseByDistribution disks fi) 0 partsMetadata
    (.make disks.length partsMetadata.length) 0).map Prod.fst

def shuffleDisksAndPartsMetadataByIndex (disks : List (Option δ)) (metaArr : List FileInfo)
    (fi : FileInfo) : Option (ShuffledDrives δ) :=
  match ShuffledDrives.placeAll (chooseByIndex disks fi) 0 metaArr
      (.make disks.length disks.length) 0 with
  | none => none
  | some (shuffled, inconsistent) =>
    if inconsistent < fi.erasure.parityBlocks then some shuffled
    else shuffleDisksAndPartsMetadata disks metaArr fi

/-! ## What the slots hold -/

namespace ShuffledDrives

variable {choose choose' : Nat → FileInfo → Option (Option (δ × Int))} {entries : List FileInfo}
  {s : ShuffledDrives δ} {i j k : Nat} {disk : δ} {slot : Int} {entry : FileInfo}

/-- The entry with some number is put at a slot, where the first one has number `i`. -/
def Puts (choose : Nat → FileInfo → Option (Option (δ × Int))) (i : Nat)
    (entries : List FileInfo) (j : Nat) (disk : δ) (slot : Int) (entry : FileInfo) : Prop :=
  entries[j]? = some entry ∧ choose (i + j) entry = some (some (disk, slot))

theorem puts_succ {first : FileInfo} : Puts choose i (first :: entries) (j + 1) disk slot entry ↔
    Puts choose (i + 1) entries j disk slot entry := by
  unfold Puts
  rw [List.getElem?_cons_succ, Nat.add_comm j, ← Nat.add_assoc]

theorem place_eq (hpos : 1 ≤ slot) (hdisks : slot ≤ s.disks.length)
    (hmetadata : slot ≤ s.metadata.length) :
    s.place slot disk entry =
      some ⟨s.disks.set (slot - 1).toNat (some disk), s.metadata.set (slot - 1).toNat entry⟩ :=
  if_pos ⟨hpos, hdisks, hmetadata⟩

theorem placeAll_congr
    (hsame : ∀ j entry, entries[j]? = some entry → choose (i + j) entry = choose' (i + j) entry)
    (s : ShuffledDrives δ) (skipped : Nat) :
    placeAll choose i entries s skipped = placeAll choose' i entries s skipped := by
  induction entries generalizing i s skipped with
  | nil => rfl
  | cons first rest ih =>
    have hrest : ∀ j entry, rest[j]? = some entry →
        choose (i + 1 + j) entry = choose' (i + 1 + j) entry := by
      intro j entry hentry
      rw [Nat.add_assoc, Nat.add_comm 1]
      exact hsame (j + 1) entry hentry
    have hfirst : choose i first = choose' i first := hsame 0 first rfl
    rw [placeAll, placeAll, ← hfirst]
    simp only [ih hrest]

/-- What is needed so that no index panics and no slot is filled twice. -/
structure Fits (choose : Nat → FileInfo → Option (Option (δ × Int))) (i : Nat)
    (entries : List FileInfo) (s : ShuffledDrives δ) : Prop where
  total : ∀ j entry, entries[j]? = some entry → choose (i + j) entry ≠ none
  bounds : ∀ {j disk slot entry}, Puts choose i entries j disk slot entry →
    1 ≤ slot ∧ slot ≤ s.disks.length ∧ slot ≤ s.metadata.length
  distinct : ∀ {j j' disk disk' slot entry entry'}, Puts choose i entries j disk slot entry →
    Puts choose i entries j' disk' slot entry' → j = j'

theorem Fits.tail {first : FileInfo} (hfits : Fits choose i (first :: entries) s)
    {s' : ShuffledDrives δ} (hdisks : s'.disks.length = s.disks.length)
    (hmetadata : s'.metadata.length = s.metadata.length) : Fits choose (i + 1) entries s' where
  total j entry hentry := by
    rw [Nat.add_assoc, Nat.add_comm 1]
    exact hfits.total (j + 1) entry hentry
  bounds hputs := by
    rw [hdisks, hmetadata]
    exact hfits.bounds (puts_succ.mpr hputs)
  distinct hputs hputs' :=
    Nat.succ.inj (hfits.distinct (puts_succ.mpr hputs) (puts_succ.mpr hputs'))

/-- What is at each slot, when all entries are placed over some slots. -/
structure Placed (choose : Nat → FileInfo → Option (Option (δ × Int))) (i : Nat)
    (entries : List FileInfo) (s s' : ShuffledDrives δ) : Prop where
  put : ∀ {j disk slot entry}, Puts choose i entries j disk slot entry →
    s'.disks[(slot - 1).toNat]? = some (some disk) ∧
      s'.metadata[(slot - 1).toNat]? = some entry
  left : ∀ k : Nat, (∀ j disk slot entry, Puts choose i entries j disk slot entry →
    slot ≠ k + 1) → s'.disks[k]? = s.disks[k]? ∧ s'.metadata[k]? = s.metadata[k]?

/-- All entries are placed, each at its slot. -/
theorem exists_placed (hfits : Fits choose i entries s) (skipped : Nat) :
    ∃ s' skipped', placeAll choose i entries s skipped = some (s', skipped') ∧
      Placed choose i entries s s' := by
  induction entries generalizing i s skipped with
  | nil => exact ⟨s, skipped, rfl, fun hputs => (by simp [Puts] at hputs), fun _ _ => ⟨rfl, rfl⟩⟩
  | cons first rest ih =>
    rw [placeAll]
    have hsucc : ∀ {k : Nat}, (∀ j disk slot entry,
        Puts choose i (first :: rest) j disk slot entry → slot ≠ k + 1) →
        ∀ j disk slot entry, Puts choose (i + 1) rest j disk slot entry → slot ≠ k + 1 :=
      fun hnone j disk slot entry hputs => hnone (j + 1) disk slot entry (puts_succ.mpr hputs)
    cases hchoose : choose i first with
    | none => exact absurd hchoose (hfits.total 0 first rfl)
    | some choice =>
      cases choice with
      | none =>
        obtain ⟨s', skipped', hplace, hplaced⟩ := ih (hfits.tail rfl rfl) (skipped + 1)
        refine ⟨s', skipped', hplace, fun {j _ _ _} hputs => ?_,
          fun k hnone => hplaced.left k (hsucc hnone)⟩
        cases j with
        | zero =>
          obtain ⟨hentry, hput⟩ := hputs
          obtain rfl := Option.some.inj hentry
          rw [Nat.add_zero, hchoose] at hput
          cases hput
        | succ j => exact hplaced.put (puts_succ.mp hputs)
      | some choice =>
        obtain ⟨disk, slot⟩ := choice
        have hfirst : Puts choose i (first :: rest) 0 disk slot first := ⟨rfl, hchoose⟩
        obtain ⟨hpos, hdisks, hmetadata⟩ := hfits.bounds hfirst
        dsimp only
        rw [place_eq hpos hdisks hmetadata, Option.bind_some]
        obtain ⟨s', skipped', hplace, hplaced⟩ :=
          ih (s := ⟨s.disks.set (slot - 1).toNat (some disk),
            s.metadata.set (slot - 1).toNat first⟩)
            (hfits.tail (List.length_set ..) (List.length_set ..)) skipped
        refine ⟨s', skipped', hplace, fun {j _ _ _} hputs => ?_, fun k hnone => ?_⟩
        · cases j with
          | zero =>
            obtain ⟨hentry, hput⟩ := hputs
            obtain rfl := Option.some.inj hentry
            rw [Nat.add_zero, hchoose] at hput
            cases hput
            -- no later entry goes to this slot
            obtain ⟨hdisk, hentry⟩ := hplaced.left (slot - 1).toNat
              fun j' disk' slot' entry' hlater heq => by
                obtain rfl : slot' = slot := by omega
                exact absurd (hfits.distinct hfirst (puts_succ.mpr hlater)) (by omega)
            rw [hdisk, hentry, List.getElem?_set_self (by omega),
              List.getElem?_set_self (by omega)]
            exact ⟨rfl, rfl⟩
          | succ j => exact hplaced.put (puts_succ.mp hputs)
        · obtain ⟨hdisk, hentry⟩ := hplaced.left k (hsucc hnone)
          have hne : (slot - 1).toNat ≠ k := by
            have hslot := hnone 0 disk slot first hfirst
            omega
          rw [hdisk, hentry, List.getElem?_set_ne hne, List.getElem?_set_ne hne]
          exact ⟨rfl, rfl⟩

end ShuffledDrives

/-! ## What both functions do -/

/-- An entry that is read: it is valid and has as much inline data as the object. -/
def FileInfo.Reads (fi entry : FileInfo) : Prop :=
  entry.isValid = true ∧ fi.data.length = entry.data.length

def EachOnce (disks : List (Option δ)) : Prop :=
  ∀ ⦃i j : Nat⦄ ⦃disk : δ⦄, disks[i]? = some (some disk) → disks[j]? = some (some disk) → i = j

/-- Every online drive with an entry that is read is at the slot of its shard, and no drive
is in two slots. -/
structure Shuffles (disks : List (Option δ)) (metaArr : List FileInfo) (fi : FileInfo)
    (shuffled : ShuffledDrives δ) : Prop where
  placed : ∀ (i : Nat) (disk : δ) (entry : FileInfo) (slot : Int),
    disks[i]? = some (some disk) → metaArr[i]? = some entry → fi.erasure.distribution[i]? = some slot → fi.Reads entry →
      shuffled.disks[(slot - 1).toNat]? = some (some disk) ∧
        shuffled.metadata[(slot - 1).toNat]? = some entry
  once : EachOnce disks → EachOnce shuffled.disks

section Agree

open ShuffledDrives (Puts Fits)

variable {disks : List (Option δ)} {metaArr : List FileInfo} {fi : FileInfo}

/-- The indexes of valid entries are those that the distribution gives their drives. -/
def IndexesFollow (metaArr : List FileInfo) (distribution : List Int) : Prop :=
  ∀ ⦃i : Nat⦄ ⦃entry : FileInfo⦄ ⦃slot : Int⦄, metaArr[i]? = some entry → distribution[i]? = some slot →
    entry.isValid = true → entry.erasure.index = slot

theorem chooseByDistribution_eq (hmod : fi.modTime ≠ Time.zero) {i : Nat} {disk : δ}
    {slot : Int} {entry : FileInfo} (hdisk : disks[i]? = some (some disk))
    (hslot : fi.erasure.distribution[i]? = some slot) :
    chooseByDistribution disks fi i entry =
      some (if entry.isValid = true ∧ fi.data.length = entry.data.length then some (disk, slot)
        else none) := by
  unfold chooseByDistribution
  rw [hdisk, hslot]
  by_cases hvalid : entry.isValid = true
  · by_cases hdata : fi.data.length = entry.data.length
    · simp [hvalid, hdata]
    · simp [hmod, hvalid, hdata]
  · simp [hmod, hvalid]

theorem chooseByIndex_eq (hdist : IsDistribution fi.erasure.distribution disks.length)
    (hindexes : IndexesFollow metaArr fi.erasure.distribution) (hmod : fi.modTime ≠ Time.zero)
    {i : Nat} {entry : FileInfo} (hentry : metaArr[i]? = some entry) :
    chooseByIndex disks fi i entry = chooseByDistribution disks fi i entry := by
  cases hdisk : disks[i]? with
  | none => simp [chooseByIndex, chooseByDistribution, hdisk]
  | some online =>
    cases online with
    | none => simp [chooseByIndex, chooseByDistribution, hdisk]
    | some disk =>
      obtain ⟨hlt, -⟩ := List.getElem?_eq_some_iff.mp hdisk
      obtain ⟨slot, hslot⟩ := hdist.exists_slot hlt
      rw [chooseByDistribution_eq hmod hdisk hslot, chooseByIndex, hdisk, hslot]
      by_cases hvalid : entry.isValid = true
      · have hindex := hindexes hentry hslot hvalid
        by_cases hdata : fi.data.length = entry.data.length
        · simp [hvalid, hdata, hindex]
        · simp [hvalid, hdata]
      · simp [hvalid]

theorem puts_iff (hmod : fi.modTime ≠ Time.zero)
    (hdist : IsDistribution fi.erasure.distribution disks.length) {i : Nat} {disk : δ}
    {slot : Int} {entry : FileInfo} :
    Puts (chooseByDistribution disks fi) 0 metaArr i disk slot entry ↔
      metaArr[i]? = some entry ∧ disks[i]? = some (some disk) ∧
        fi.erasure.distribution[i]? = some slot ∧ fi.Reads entry := by
  unfold Puts FileInfo.Reads
  rw [Nat.zero_add]
  refine and_congr_right fun _ => ?_
  cases hdisk : disks[i]? with
  | none => simp [chooseByDistribution, hdisk]
  | some online =>
    cases online with
    | none => simp [chooseByDistribution, hdisk]
    | some other =>
      obtain ⟨hlt, -⟩ := List.getElem?_eq_some_iff.mp hdisk
      obtain ⟨slot', hslot⟩ := hdist.exists_slot hlt
      rw [chooseByDistribution_eq hmod hdisk hslot, hslot]
      split
      next hreads => simp [hreads]
      next hreads => simp [hreads]

theorem fits_chooseByDistribution (hmod : fi.modTime ≠ Time.zero)
    (hdist : IsDistribution fi.erasure.distribution disks.length)
    (hlength : metaArr.length = disks.length) :
    Fits (chooseByDistribution disks fi) 0 metaArr
      (.make disks.length metaArr.length : ShuffledDrives δ) where
  total i entry hentry := by
    obtain ⟨hlt, -⟩ := List.getElem?_eq_some_iff.mp hentry
    obtain ⟨slot, hslot⟩ := hdist.exists_slot (hlength ▸ hlt)
    obtain ⟨online, hdisk⟩ : ∃ online, disks[i]? = some online :=
      ⟨_, List.getElem?_eq_getElem (hlength ▸ hlt)⟩
    rw [Nat.zero_add]
    cases online with
    | none => simp [chooseByDistribution, hdisk]
    | some disk => simp [chooseByDistribution_eq hmod hdisk hslot]
  bounds hputs := by
    have hbounds := hdist.bounds ((puts_iff hmod hdist).mp hputs).2.2.1
    simp only [ShuffledDrives.make, List.length_replicate, hlength]
    omega
  distinct hputs hputs' :=
    hdist.unique ((puts_iff hmod hdist).mp hputs).2.2.1 ((puts_iff hmod hdist).mp hputs').2.2.1

/-- In a read where the index of every valid entry is that of the distribution, both
functions shuffle alike. -/
theorem exists_shuffles (hdist : IsDistribution fi.erasure.distribution disks.length)
    (hlength : metaArr.length = disks.length)
    (hindexes : IndexesFollow metaArr fi.erasure.distribution) (hmod : fi.modTime ≠ Time.zero) :
    ∃ shuffled, shuffleDisksAndPartsMetadata disks metaArr fi = some shuffled ∧
      shuffleDisksAndPartsMetadataByIndex disks metaArr fi = some shuffled ∧
      Shuffles disks metaArr fi shuffled := by
  obtain ⟨shuffled, skipped, hplace, hplaced⟩ :=
    ShuffledDrives.exists_placed (fits_chooseByDistribution hmod hdist hlength) 0
  have hplain : shuffleDisksAndPartsMetadata disks metaArr fi = some shuffled := by
    rw [shuffleDisksAndPartsMetadata, hplace]
    rfl
  have hplaceIndex : ShuffledDrives.placeAll (chooseByIndex disks fi) 0 metaArr
      (.make disks.length disks.length) 0 = some (shuffled, skipped) := by
    rw [hlength] at hplace
    rw [← hplace]
    apply ShuffledDrives.placeAll_congr
    intro i entry hentry
    rw [Nat.zero_add]
    exact chooseByIndex_eq hdist hindexes hmod hentry
  refine ⟨shuffled, hplain, ?_, ⟨fun i disk entry slot hdisk hentry hslot hreads => ?_,
    fun honce i j disk hleft hright => ?_⟩⟩
  · rw [shuffleDisksAndPartsMetadataByIndex, hplaceIndex]
    dsimp only
    rw [hplain, ite_self]
  · exact hplaced.put ((puts_iff hmod hdist).mpr ⟨hentry, hdisk, hslot, hreads⟩)
  · -- a slot that holds a drive was filled by an entry of this drive
    have hsource : ∀ k : Nat, shuffled.disks[k]? = some (some disk) → ∃ n : Nat,
        disks[n]? = some (some disk) ∧ fi.erasure.distribution[n]? = some ((k : Int) + 1) := by
      intro k hk
      by_contra hnone
      have hleft := (hplaced.left k fun n other slot entry hputs heq => ?_).1
      · rw [hk, ShuffledDrives.make, List.getElem?_replicate] at hleft
        split at hleft
        · cases hleft
        · cases hleft
      · obtain ⟨-, hdisk, hslot, -⟩ := (puts_iff hmod hdist).mp hputs
        have hput := (hplaced.put hputs).1
        rw [heq, Int.add_sub_cancel, Int.toNat_natCast, hk] at hput
        cases hput
        exact hnone ⟨n, hdisk, heq ▸ hslot⟩
    obtain ⟨n, hdisk, hslot⟩ := hsource i hleft
    obtain ⟨m, hdisk', hslot'⟩ := hsource j hright
    obtain rfl := honce hdisk hdisk'
    have hsame := Option.some.inj (hslot.symm.trans hslot')
    omega

/-- The order of a key is a distribution, and the two functions agree on the drives of any
distribution. -/
theorem distribution_shuffles (checksum : Bytes → UInt32) (key : Bytes) {cardinality : Int}
    (hlow : cardinality ≤ 0 ∨ cardinality % 2 ^ 32 ≠ 0)
    (hdist : IsDistribution fi.erasure.distribution disks.length)
    (hlength : metaArr.length = disks.length)
    (hindexes : IndexesFollow metaArr fi.erasure.distribution) (hmod : fi.modTime ≠ Time.zero) :
    (∃ nums, hashOrderOf checksum key cardinality = some nums ∧
      IsDistribution nums cardinality.toNat) ∧
    ∃ shuffled, shuffleDisksAndPartsMetadata disks metaArr fi = some shuffled ∧
      shuffleDisksAndPartsMetadataByIndex disks metaArr fi = some shuffled ∧
      Shuffles disks metaArr fi shuffled :=
  ⟨hashOrderOf_isDistribution checksum key hlow, exists_shuffles hdist hlength hindexes hmod⟩

end Agree

end Shuffle

def shardOfFour (modTime : Time) (index : Int) : FileInfo where
  modTime := modTime
  erasure :=
    { dataBlocks := 2, parityBlocks := 2, index := index, distribution := [1, 2, 3, 4] }

theorem isDistribution_four (modTime : Time) (index : Int) :
    IsDistribution (shardOfFour modTime index).erasure.distribution 4 := by
  change IsDistribution [1, 2, 3, 4] 4
  unfold IsDistribution
  decide

def threeShards (modTime : Time) : List FileInfo :=
  [{}, shardOfFour modTime 2, shardOfFour modTime 3, shardOfFour modTime 4]

theorem indexesFollow_threeShards (modTime : Time) (index : Int) :
    IndexesFollow (threeShards modTime) (shardOfFour modTime index).erasure.distribution := by
  intro i entry slot hentry hslot hvalid
  rcases i with _ | _ | _ | _ | i <;> cases hentry <;> cases hslot
  · cases hvalid
  · rfl
  · rfl
  · rfl

/-- A read of four drives, of which one has no metadata and one is offline. -/
theorem threeShards_shuffles :
    (∃ nums, hashOrderOf (fun _ => 7) [] 4 = some nums ∧ IsDistribution nums 4) ∧
    ∃ shuffled,
      shuffleDisksAndPartsMetadata [some 'a', none, some 'c', some 'd']
        (threeShards (1 : Int)) (shardOfFour (1 : Int) 3) = some shuffled ∧
      shuffleDisksAndPartsMetadataByIndex [some 'a', none, some 'c', some 'd']
        (threeShards (1 : Int)) (shardOfFour (1 : Int) 3) = some shuffled ∧
      Shuffles [some 'a', none, some 'c', some 'd'] (threeShards (1 : Int))
        (shardOfFour (1 : Int) 3) shuffled :=
  distribution_shuffles (fun _ => 7) []
    (Or.inr (by decide) : (4 : Int) ≤ 0 ∨ (4 : Int) % 2 ^ 32 ≠ 0)
    (isDistribution_four _ _) rfl (indexesFollow_threeShards _ _) (by decide)

/-- For a number of drives that `uint32` makes zero there is no order, and for an object
that was never written only the distribution places a drive without metadata. -/
theorem threeShards_differ :
    hashOrderOf (fun _ => 7) [] (2 ^ 32) = none ∧
      IsDistribution (shardOfFour Time.zero 3).erasure.distribution 4 ∧
      IndexesFollow (threeShards Time.zero) (shardOfFour Time.zero 3).erasure.distribution ∧
      (shuffleDisksAndPartsMetadataByIndex [some 'a', some 'b', some 'c', some 'd']
        (threeShards Time.zero) (shardOfFour Time.zero 3)).map ShuffledDrives.disks =
          some [none, some 'b', some 'c', some 'd'] ∧
      (shuffleDisksAndPartsMetadata [some 'a', some 'b', some 'c', some 'd']
        (threeShards Time.zero) (shardOfFour Time.zero 3)).map ShuffledDrives.disks =
          some [some 'a', some 'b', some 'c', some 'd'] :=
  ⟨by decide, isDistribution_four _ _, indexesFollow_threeShards _ _, by decide, by decide⟩

end Fs3
