import Fs3.Listing.StoredBlocks

/-! # When stored blocks are read back

Where all entries of a stream are in its first block they are read back as they were. -/

namespace Fs3.Listing

open Foundation

variable {μ : Type}

/-- Wherever a block starts after the first one, the name of its entry is repeated. -/
def RepeatsLater (blockEntries : Nat) (stream : List (MetaCacheEntry μ)) : Prop :=
  ∀ before f after, stream = before ++ f :: after → before ≠ [] →
    blockEntries - 1 ∣ before.length → after.head?.map MetaCacheEntry.name = some f.name

/-- The first entry of a block after the first one is asked for, before there are enough, and the
entry behind it does not have the prefix any more. -/
def Dropped [ObjectMetadata μ] (blockEntries : Nat) (o : ListPathOptions)
    (stream : List (MetaCacheEntry μ)) : Prop :=
  ∃ before f s after, stream = before ++ f :: s :: after ∧
    (blockEntries ≤ 1 ∨ before ≠ [] ∧ blockEntries - 1 ∣ before.length) ∧
    o.keeps f = true ∧ ¬ o.namePrefix <+: s.name ∧
    (before.filter o.keeps).length < o.limit.toNat

variable {blockEntries : Nat} {stream : List (MetaCacheEntry μ)}
variable {blocks : List (MetacacheBlock μ)}

theorem not_dvd_of_lt {before after : List (MetaCacheEntry μ)} {f : MetaCacheEntry μ}
    (hfits : (before ++ f :: after).length < blockEntries) (hne : before ≠ []) :
    ¬ blockEntries - 1 ∣ before.length := by
  intro hdvd
  have hle := Nat.le_of_dvd (List.length_pos_of_ne_nil hne) hdvd
  rw [List.length_append, List.length_cons] at hfits
  omega

theorem Written.forall_bounded_iff (hwritten : Written blockEntries stream blocks) :
    (∀ b ∈ blocks, Bounded b) ↔
      stream = [] ∨ 2 ≤ blockEntries ∧ RepeatsLater blockEntries stream := by
  cases hwritten with
  | empty =>
    rw [List.forall_mem_singleton]
    exact iff_of_true ⟨rfl, rfl⟩ (Or.inl rfl)
  | @single f rest hfits =>
    rw [List.forall_mem_singleton]
    refine iff_of_true ⟨rfl, rfl⟩ (Or.inr ⟨?_, ?_⟩)
    · rw [List.length_cons] at hfits
      omega
    · intro before f' after hsplit hne hdvd
      rw [hsplit] at hfits
      exact absurd hdvd (not_dvd_of_lt hfits hne)
  | @many f data rest blocks hsize hlater =>
    have hfirst : Bounded
        (⟨f :: data, 0, f.name, lastName [] (f :: data), false⟩ : MetacacheBlock μ) := ⟨rfl, rfl⟩
    rw [List.forall_mem_cons, hlater.forall_bounded_iff, and_iff_right hfirst,
      List.cons_append, or_iff_right (List.cons_ne_nil _ _), ← List.cons_append]
    constructor
    · intro hrepeats
      refine ⟨by rw [List.length_cons] at hsize; omega, ?_⟩
      intro before f' after hsplit hne hdvd
      obtain ⟨before', -, hsplit', hdvd'⟩ := split_after hsize hsplit hdvd hne
      exact hrepeats before' f' after hsplit' hdvd'
    · rintro ⟨-, hrepeats⟩ before f' after hsplit hdvd
      refine hrepeats (f :: data ++ before) f' after (by rw [hsplit, List.append_assoc])
        (List.cons_ne_nil _ _) ?_
      rw [List.length_append, hsize]
      exact (Nat.dvd_add_right (Nat.dvd_refl _)).mpr hdvd
  | @tiny f rest blocks hsize hlater =>
    refine iff_of_false (fun hall => ?_) ?_
    · exact f.named (hall _ List.mem_cons_self).1
    · rintro (hnil | ⟨hentries, -⟩)
      · cases hnil
      · omega

variable [ObjectMetadata μ] {o : ListPathOptions}

theorem Written.lost_iff (hwritten : Written blockEntries stream blocks)
    (hordered : Ordered stream) : Lost o false 0 blocks ↔ Dropped blockEntries o stream := by
  cases hwritten with
  | empty =>
    refine iff_of_false ?_ ?_
    · rintro (⟨hchecked, -⟩ | hfalse)
      · cases hchecked
      · exact hfalse
    · rintro ⟨before, f, s, after, hsplit, -⟩
      simp at hsplit
  | @single f rest hfits =>
    refine iff_of_false ?_ ?_
    · rintro (⟨hchecked, -⟩ | hfalse)
      · cases hchecked
      · exact hfalse
    · rintro ⟨before, f', s, after, hsplit, hstart, -⟩
      rw [hsplit] at hfits
      rcases hstart with hsmall | ⟨hne, hdvd⟩
      · rw [List.length_append, List.length_cons] at hfits
        omega
      · exact not_dvd_of_lt hfits hne hdvd
  | @many f data rest blocks hsize hlater =>
    have hpos : 0 < blockEntries - 1 := by
      rw [← hsize]
      exact Nat.succ_pos _
    rw [Lost, or_iff_right (by simp), hlater.lost_iff (List.pairwise_append.mp hordered).2.1]
    constructor
    · rintro ⟨before, f', s, after, rfl, hdvd, hkeeps, hnot, hlt⟩
      refine ⟨f :: data ++ before, f', s, after, (List.append_assoc _ _ _).symm,
        Or.inr ⟨List.cons_ne_nil _ _, ?_⟩, hkeeps, hnot, ?_⟩
      · rw [List.length_append, hsize]
        exact (Nat.dvd_add_right (Nat.dvd_refl _)).mpr hdvd
      · rw [List.filter_append, List.length_append]
        rwa [Nat.zero_add] at hlt
    · rintro ⟨before, f', s, after, hsplit, hstart, hkeeps, hnot, hlt⟩
      obtain ⟨hne, hdvd⟩ := hstart.resolve_left (by omega)
      obtain ⟨before', hbefore, hsplit', hdvd'⟩ := split_after hsize hsplit hdvd hne
      refine ⟨before', f', s, after, hsplit', hdvd', hkeeps, hnot, ?_⟩
      rw [hbefore, List.filter_append, List.length_append] at hlt
      rwa [Nat.zero_add]
  | @tiny f rest blocks hsize hlater =>
    rw [Lost, or_iff_right (by simp), List.filter_nil, List.length_nil, Nat.add_zero,
      hlater.lost_iff hordered]
    constructor
    · rintro ⟨before, f', s, after, hsplit, -, hkeeps, hnot, hlt⟩
      exact ⟨before, f', s, after, hsplit, Or.inl hsize, hkeeps, hnot, by omega⟩
    · rintro ⟨before, f', s, after, hsplit, -, hkeeps, hnot, hlt⟩
      exact ⟨before, f', s, after, hsplit, Nat.one_dvd _, hkeeps, hnot, by omega⟩

theorem streamMetadataParts_iff (hlimit : 0 < o.limit) (hordered : Ordered stream) :
    o.streamMetadataParts (newMetacacheBlockWriter blockEntries stream) =
        some (o.gatherResults stream).1 ↔ ¬ Dropped blockEntries o stream := by
  have hwritten := written_newMetacacheBlockWriter blockEntries stream
  have hdata := hwritten.data_eq
  obtain ⟨entries, hread, hiff⟩ := streamMetadataParts_eq hlimit (hwritten.stored hordered)
    (by rwa [hdata])
  rw [hdata, hwritten.lost_iff hordered] at hiff
  rw [hread, Option.some_inj]
  exact hiff

theorem not_dropped_of_repeats (hrepeats : stream = [] ∨
    2 ≤ blockEntries ∧ RepeatsLater blockEntries stream) : ¬ Dropped blockEntries o stream := by
  rintro ⟨before, f, s, after, rfl, hstart, hkeeps, hnot, -⟩
  rcases hrepeats with hnil | ⟨hentries, hrepeats⟩
  · simp at hnil
  · obtain ⟨hne, hdvd⟩ := hstart.resolve_left (by omega)
    have hsame := hrepeats before f (s :: after) rfl hne hdvd
    rw [List.head?_cons, Option.map_some, Option.some_inj] at hsame
    exact hnot (hsame ▸ (o.keeps_iff.mp hkeeps).2.2.1)

/-- The blocks record their bounds and give the listing back exactly when there is
nothing behind the first block, or nothing but repeated names at the edges; and they
give the listing back exactly when no entry is dropped at an edge. -/
theorem readBack_iff (blockEntries : Nat) {stream : List (MetaCacheEntry μ)}
    (hordered : Ordered stream) {o : ListPathOptions} (hlimit : 0 < o.limit) :
    ((∀ b ∈ newMetacacheBlockWriter blockEntries stream, Bounded b) ∧
        o.streamMetadataParts (newMetacacheBlockWriter blockEntries stream) =
          some (o.gatherResults stream).1 ↔
      stream = [] ∨ 2 ≤ blockEntries ∧ RepeatsLater blockEntries stream) ∧
    (o.streamMetadataParts (newMetacacheBlockWriter blockEntries stream) =
        some (o.gatherResults stream).1 ↔ ¬ Dropped blockEntries o stream) := by
  have hbounded := (written_newMetacacheBlockWriter blockEntries stream).forall_bounded_iff
  refine ⟨?_, streamMetadataParts_iff hlimit hordered⟩
  rw [hbounded, streamMetadataParts_iff hlimit hordered]
  exact and_iff_left_of_imp not_dropped_of_repeats

omit [ObjectMetadata μ] in
theorem repeatsLater_iff_of_distinct (hentries : 2 ≤ blockEntries)
    (hdistinct : (stream.map MetaCacheEntry.name).Nodup) :
    RepeatsLater blockEntries stream ↔ stream.length < blockEntries := by
  constructor
  · intro hrepeats
    by_contra hge
    have hlt : blockEntries - 1 < stream.length := by omega
    have hsplit := (List.take_append_drop (blockEntries - 1) stream).symm
    rw [List.drop_eq_getElem_cons hlt] at hsplit
    have hlength : (stream.take (blockEntries - 1)).length = blockEntries - 1 := by
      rw [List.length_take]
      omega
    have hsame := hrepeats _ _ _ hsplit (List.ne_nil_of_length_pos (by omega))
      (by simp only [hlength, Nat.dvd_refl])
    obtain ⟨s, hs, heq⟩ := Option.map_eq_some_iff.mp hsame
    rw [hsplit, List.map_append, List.map_cons] at hdistinct
    have hnot := (List.nodup_cons.mp (List.nodup_append.mp hdistinct).2.1).1
    exact hnot (heq ▸ List.mem_map_of_mem (List.mem_of_mem_head? hs))
  · rintro hfits before f after rfl hne hdvd
    exact absurd hdvd (not_dvd_of_lt hfits hne)

section Examples

/-- No object is deleted. -/
instance : ObjectMetadata Unit := ⟨fun _ => false⟩

def objectEntry (name : String) (hname : name.toList ≠ []) : MetaCacheEntry Unit :=
  ⟨name.toList, some (), hname⟩

theorem b_ne_nil : "b".toList ≠ [] := by decide

/-- Four objects, three of which are in the directory `a`. -/
def fourObjects : List (MetaCacheEntry Unit) :=
  [objectEntry "a/1" (by decide), objectEntry "a/2" (by decide), objectEntry "a/3" (by decide),
    objectEntry "b" b_ne_nil]

/-- A recursive listing of `a`. -/
def listingOfA : ListPathOptions where
  namePrefix := "a/".toList
  limit := 1000
  recursive := true

/-- Four objects fit in one block of four. -/
theorem fourObjects_readBack :
    (∀ b ∈ newMetacacheBlockWriter 5 fourObjects, Bounded b) ∧
      listingOfA.streamMetadataParts (newMetacacheBlockWriter 5 fourObjects) =
        some (listingOfA.gatherResults fourObjects).1 := by
  refine (readBack_iff 5 (by decide) (by decide)).1.mpr (Or.inr ⟨by decide, ?_⟩)
  exact (repeatsLater_iff_of_distinct (by decide) (by decide)).mpr (by decide)

/-- In blocks of two the second block says that it starts with `b`, and `a/3` is lost. -/
theorem fourObjects_dropped :
    (newMetacacheBlockWriter 3 fourObjects).map MetacacheBlock.first =
        ["a/1".toList, "b".toList] ∧
      (listingOfA.streamMetadataParts (newMetacacheBlockWriter 3 fourObjects)).map
          (List.map MetaCacheEntry.name) = some ["a/1".toList, "a/2".toList] ∧
      (listingOfA.gatherResults fourObjects).1.map MetaCacheEntry.name =
        ["a/1".toList, "a/2".toList, "a/3".toList] ∧
      ¬ ((∀ b ∈ newMetacacheBlockWriter 3 fourObjects, Bounded b) ∧
        listingOfA.streamMetadataParts (newMetacacheBlockWriter 3 fourObjects) =
          some (listingOfA.gatherResults fourObjects).1) := by
  refine ⟨by decide, by decide, by decide, ?_⟩
  rintro ⟨-, hread⟩
  exact absurd hread (by decide)

end Examples

end Fs3.Listing
