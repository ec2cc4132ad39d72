import Fs3.Foundation.Histories
import Fs3.Listing.BrokenBlocks
import Fs3.Listing.ReadBack

/-! # What a reader gets with parts that are read again

What was found of a part that broke off is found again when the part is read again. -/

namespace Fs3.Listing

open Foundation

variable {μ : Type} [ObjectMetadata μ] {o : ListPathOptions}

/-- What a stored block says of the blocks behind it. -/
structure Bounds (o : ListPathOptions) (b : MetacacheBlock μ) (after : List (MetacacheBlock μ)) :
    Prop where
  ordered : Ordered b.data
  past : b.pastPrefix o.namePrefix = true → (after.flatMap MetacacheBlock.data).filter o.keeps = []
  ended : b.endedPrefix o.namePrefix = true →
    (after.flatMap MetacacheBlock.data).filter o.keeps = []
  eos : b.eos = true ↔ after = []

theorem Stored.bounds {k : Nat} {name : Name} {blocks : List (MetacacheBlock μ)}
    (hstored : Stored k name blocks) (hordered : Ordered (blocks.flatMap MetacacheBlock.data))
    (hname : ∀ e ∈ blocks.flatMap MetacacheBlock.data, name ≤ e.name)
    {before after : List (MetacacheBlock μ)} {b : MetacacheBlock μ}
    (hsplit : blocks = before ++ b :: after) : Bounds o b after := by
  induction hstored generalizing before with
  | @last k name b' hn hlast heos =>
    cases before with
    | nil =>
      obtain ⟨rfl, rfl⟩ := List.cons.inj hsplit
      rw [List.flatMap_singleton] at hordered
      exact ⟨hordered, fun _ => rfl, fun _ => rfl, iff_of_true heos rfl⟩
    | cons first before =>
      have hlength := congrArg List.length hsplit
      rw [List.cons_append, List.length_cons, List.length_cons, List.length_append,
        List.length_cons] at hlength
      simp at hlength
  | @next k name b' rest hn hlast heos hfirst hrest ih =>
    rw [List.flatMap_cons] at hordered hname
    have hlater := lastName_le hordered hname
    rw [← hlast] at hlater
    obtain ⟨hhere, hthere, -⟩ := List.pairwise_append.mp hordered
    cases before with
    | nil =>
      obtain ⟨rfl, rfl⟩ := List.cons.inj hsplit
      refine ⟨hhere, fun hpast => ?_, fun hended => ?_, ?_⟩
      · obtain ⟨hlt, hnot⟩ := of_pastPrefix hpast
        exact filter_keeps_eq_nil hlt hnot hfirst
      · obtain ⟨hlt, hnot⟩ := of_endedPrefix hended
        exact filter_keeps_eq_nil hlt hnot hlater
      · refine iff_of_false (by rw [heos]; exact Bool.false_ne_true) fun hnil => ?_
        rw [hnil] at hrest
        cases hrest
    | cons first before =>
      exact ih hthere hlater (List.cons.inj hsplit).2

/-! ## One pass -/

def ListPathOptions.loads (o : ListPathOptions) (bi : MetacacheBlock μ) (partN loadedPart : Nat)
    (retries : Int) (a : Answers) : Prop :=
  partN = loadedPart ∨
    a.answered retries = true ∧ a.info = none ∧ bi.pastPrefix o.namePrefix = false

def Answers.Calm (a : Answers) (checks : Prop) (retries : Int) : Prop :=
  a.canceled = false ∧ (checks → 10 < retries → checkMetacacheState a.now a.cache = none)

/-- A break does no harm: nothing is found of the block before, or it shows the end of
the prefix before, or there are enough entries with what is found before. -/
def ListPathOptions.Harmless (o : ListPathOptions) (bi : MetacacheBlock μ) (broken : Break)
    (count : Nat) : Prop :=
  (bi.data.take broken.entries).filter o.keeps = [] ∨
    o.showsEnd (bi.data.take broken.entries) (broken.name bi.data) = true ∨
    o.limit.toNat ≤ count + ((bi.data.take broken.entries).filter o.keeps).length

def ListPathOptions.Quiet (o : ListPathOptions) (blocks : List (MetacacheBlock μ)) :
    Progress μ → Answers → Prop
  | .first retries _, a => a.Calm True retries
  | .part partN loadedPart retries entries, a =>
    a.Calm (partN ≠ loadedPart) retries ∧
      ∀ bi ∈ blocks[partN]?, o.loads bi partN loadedPart retries a →
        ∀ broken ∈ a.block, o.Harmless bi broken entries.length
  | .done _ _, _ => True

/-- What the answers to `recount` are. -/
inductive Recounted (retries : Int) (a : Answers) (wrap : CacheError → StreamEnd) :
    Except StreamEnd Int → Prop
  | bad (e : CacheError) (hmany : 10 < retries)
      (hcheck : checkMetacacheState a.now a.cache = some e) :
      Recounted retries a wrap (.error (wrap e))
  | good (retries' : Int)
      (hcheck : 10 < retries → checkMetacacheState a.now a.cache = none)
      (hsame : a.answered retries' = a.answered retries) : Recounted retries a wrap (.ok retries')

theorem recounted_recount (retries : Int) (a : Answers) (wrap : CacheError → StreamEnd) :
    Recounted retries a wrap (ListPathOptions.recount retries a wrap) := by
  rw [ListPathOptions.recount]
  split
  next hmany =>
    split
    next e hcheck => exact .bad e hmany hcheck
    next hcheck =>
      refine .good 1 (fun _ => hcheck) ?_
      rw [Answers.answered, Answers.answered, decide_eq_false (by omega),
        decide_eq_false (by omega)]
  next hfew => exact .good retries (fun hmany => absurd hmany hfew) rfl

/-- What a pass at a part comes to. -/
inductive PartPassed (o : ListPathOptions) (blocks : List (MetacacheBlock μ))
    (partN loadedPart : Nat) (retries : Int) (entries : List (MetaCacheEntry μ)) (a : Answers) :
    Progress μ → Prop
  | stopped (ending : StreamEnd) (hbad : ¬ a.Calm (partN ≠ loadedPart) retries)
      (hending : ending.ok = false) :
      PartPassed o blocks partN loadedPart retries entries a (.done entries ending)
  | again (retries' : Int) (hcalm : a.Calm (partN ≠ loadedPart) retries)
      (hnot : ∀ bi ∈ blocks[partN]?, ¬ o.loads bi partN loadedPart retries a)
      (hanswers : a = .fine → blocks[partN]? = none) :
      PartPassed o blocks partN loadedPart retries entries a
        (.part partN loadedPart retries' entries)
  | past {bi : MetacacheBlock μ} (hcalm : a.Calm (partN ≠ loadedPart) retries)
      (hbi : blocks[partN]? = some bi) (hne : partN ≠ loadedPart)
      (hpast : bi.pastPrefix o.namePrefix = true) :
      PartPassed o blocks partN loadedPart retries entries a (.done entries .eof)
  | read {bi : MetacacheBlock μ} (retries' : Int)
      (hcalm : a.Calm (partN ≠ loadedPart) retries) (hbi : blocks[partN]? = some bi)
      (hloads : o.loads bi partN loadedPart retries a) :
      PartPassed o blocks partN loadedPart retries entries a
        (o.passBlock bi partN retries' entries a)

theorem partPassed_passPart (o : ListPathOptions) (blocks : List (MetacacheBlock μ))
    (partN loadedPart : Nat) (retries : Int) (entries : List (MetaCacheEntry μ)) (a : Answers) :
    PartPassed o blocks partN loadedPart retries entries a
      (o.passPart blocks partN loadedPart retries entries a) := by
  rw [ListPathOptions.passPart]
  split
  next hcanceled =>
    refine .stopped .canceled (fun hcalm => ?_) rfl
    rw [hcalm.1] at hcanceled
    cases hcanceled
  next hcanceled =>
    rw [Bool.not_eq_true] at hcanceled
    split
    next hsame =>
      have hcalm : a.Calm (partN ≠ loadedPart) retries :=
        ⟨hcanceled, fun hne => absurd hsame hne⟩
      split
      next hnone =>
        refine .again _ hcalm (fun bi hbi => ?_) fun _ => hnone
        rw [hnone] at hbi
        cases hbi
      next bi hbi => exact .read _ hcalm hbi (Or.inl hsame)
    next hne =>
      have hrecounted := recounted_recount retries a (.waitingForNextPart partN)
      generalize ListPathOptions.recount retries a (.waitingForNextPart partN) = recounted
        at hrecounted
      cases hrecounted with
      | bad e hmany hcheck =>
        refine .stopped _ (fun hcalm => ?_) rfl
        rw [hcalm.2 hne hmany] at hcheck
        cases hcheck
      | good retries' hcheck hanswered =>
        have hcalm : a.Calm (partN ≠ loadedPart) retries := ⟨hcanceled, fun _ => hcheck⟩
        dsimp only
        rw [hanswered]
        split
        next hlater =>
          refine .again _ hcalm (fun bi hbi hloads => ?_) fun hfine => ?_
          · obtain ⟨hthere, hinfo, -⟩ := hloads.resolve_left hne
            rw [hthere, hinfo] at hlater
            cases hlater
          · subst hfine
            simp [Answers.fine, Answers.answered] at hlater
        next hnow =>
          rw [Bool.or_eq_true, not_or, Bool.not_eq_true, Bool.not_eq_false',
            Option.not_isSome_iff_eq_none] at hnow
          split
          next hnone =>
            refine .again _ hcalm (fun bi hbi => ?_) fun _ => hnone
            rw [hnone] at hbi
            cases hbi
          next bi hbi =>
            split
            next hpast => exact .past hcalm hbi hne hpast
            next hnot =>
              exact .read _ hcalm hbi (Or.inr ⟨hnow.1, hnow.2, Bool.not_eq_true _ ▸ hnot⟩)

/-- What the read of a block comes to: it has not broken off before there was enough,
or it has failed with what was found before. -/
inductive BlockRead (o : ListPathOptions) (bi : MetacacheBlock μ) (block : Option Break) :
    List (MetaCacheEntry μ) × FilterEnd → Prop
  | read {found : List (MetaCacheEntry μ)} (ended : Bool)
      (hreads : MetacacheReader.Reads o (bi.data.filter o.keeps) found ended)
      (hharmless : ∀ broken ∈ block, ∀ count, o.Harmless bi broken count) :
      BlockRead o bi block (found, if ended then .eof else .stopped)
  | failed {broken : Break} (hblock : block = some broken)
      (hshown : (bi.data.take broken.entries).filter o.keeps ≠ [] →
        o.showsEnd (bi.data.take broken.entries) (broken.name bi.data) = false) :
      BlockRead o bi block ((bi.data.take broken.entries).filter o.keeps, .failed)

theorem blockRead_readBlock (hlimit : 0 < o.limit) {bi : MetacacheBlock μ}
    (hordered : Ordered bi.data) (block : Option Break) :
    ∃ read, o.readBlock bi block = some read ∧ BlockRead o bi block read := by
  cases block with
  | none =>
    obtain ⟨found, ended, hfilter, hreads⟩ := MetacacheReader.reads_filter hlimit hordered
    refine ⟨(found, if ended then .eof else .stopped), ?_, .read ended hreads ?_⟩
    · rw [ListPathOptions.readBlock, hfilter]
      rfl
    · intro broken hbroken
      cases hbroken
  | some broken =>
    have hsplit := List.take_append_drop broken.entries bi.data
    have hnamed : ∀ name ∈ broken.name bi.data,
        (bi.data.drop broken.entries).head?.map MetaCacheEntry.name = some name := by
      intro name hname
      rw [Break.name] at hname
      split at hname
      · rwa [List.head?_drop]
      · cases hname
    obtain ⟨found, ending, hfilter, hread⟩ := @MetacacheReader.brokenRead_filterBroken _ _ o
      (bi.data.drop broken.entries) _ hlimit (bi.data.take broken.entries)
      (by rwa [hsplit]) hnamed
    rw [hsplit] at hread
    refine ⟨(found, ending), hfilter, ?_⟩
    cases hread with
    | failed hfound hshown =>
      subst hfound
      exact .failed rfl hshown
    | eof hshown hfound =>
      refine .read true ⟨fun _ => hfound, fun h => by cases h⟩ fun broken' hbroken' count => ?_
      cases hbroken'
      exact Or.inr (Or.inl hshown)
    | stopped hfound hmany =>
      have hall := hfound.trans ((List.take_prefix broken.entries bi.data).filter o.keeps)
      refine .read false ⟨fun h => ?_, fun _ => ⟨hall, hmany⟩⟩ fun broken' hbroken' count => ?_
      · cases h
      cases hbroken'
      have hle := hfound.length_le
      exact Or.inr (Or.inr (by omega))

/-! ## With harm and without -/

def wanted (o : ListPathOptions) (blocks : List (MetacacheBlock μ)) : List (MetaCacheEntry μ) :=
  ((blocks.flatMap MetacacheBlock.data).filter o.keeps).take o.limit.toNat

def found (o : ListPathOptions) (before : List (MetacacheBlock μ)) : List (MetaCacheEntry μ) :=
  (before.flatMap MetacacheBlock.data).filter o.keeps

/-- As long as no break does harm there is what was found in the parts before, or there
are enough entries; and what comes of it depends on whether a block is lost. -/
inductive Unharmed (o : ListPathOptions) (blocks : List (MetacacheBlock μ)) : Progress μ → Prop
  | first (retries : Int) : Unharmed o blocks (.first retries [])
  | part {before after : List (MetacacheBlock μ)} {b : MetacacheBlock μ} (loadedPart : Nat)
      (retries : Int) (hsplit : blocks = before ++ b :: after)
      (hlt : (found o before).length < o.limit.toNat)
      (hlost : Lost o false 0 blocks ↔
        Lost o (decide (before.length ≠ loadedPart)) (found o before).length (b :: after)) :
      Unharmed o blocks (.part before.length loadedPart retries (found o before))
  | full (partN loadedPart : Nat) (retries : Int)
      (hlength : (wanted o blocks).length = o.limit.toNat) (hkept : ¬ Lost o false 0 blocks) :
      Unharmed o blocks (.part partN loadedPart retries (wanted o blocks))
  | done {entries : List (MetaCacheEntry μ)} {ending : StreamEnd}
      (hright : entries = wanted o blocks ∧ ending.ok = true ↔ ¬ Lost o false 0 blocks) :
      Unharmed o blocks (.done entries ending)

/-- After a break that does harm a part is read again of which something was found, and
from then on an entry is there twice. -/
inductive Harmed (o : ListPathOptions) (blocks : List (MetacacheBlock μ)) : Progress μ → Prop
  | again {before after : List (MetacacheBlock μ)} {b : MetacacheBlock μ}
      {part : List (MetaCacheEntry μ)} (retries : Int) (hsplit : blocks = before ++ b :: after)
      (hne : part ≠ []) (hfront : part <+: b.data.filter o.keeps)
      (hlt : (found o before ++ part).length < o.limit.toNat) :
      Harmed o blocks (.part before.length before.length retries (found o before ++ part))
  | repeated (partN loadedPart : Nat) (retries : Int) {entries : List (MetaCacheEntry μ)}
      (hnot : ¬ entries.take o.limit.toNat <+: wanted o blocks) :
      Harmed o blocks (.part partN loadedPart retries entries)
  | done {entries : List (MetaCacheEntry μ)} {ending : StreamEnd}
      (hwrong : ¬ (entries = wanted o blocks ∧ ending.ok = true)) :
      Harmed o blocks (.done entries ending)

variable {blocks : List (MetacacheBlock μ)}

theorem wanted_eq {before after : List (MetacacheBlock μ)} {b : MetacacheBlock μ}
    (hsplit : blocks = before ++ b :: after) :
    wanted o blocks =
      (found o before ++ b.data.filter o.keeps ++ found o after).take o.limit.toNat := by
  rw [wanted, hsplit, List.flatMap_append, List.flatMap_cons, List.filter_append,
    List.filter_append, ← List.append_assoc, found, found]

/-- Once there are enough entries, more of them do not count. -/
theorem unharmed_afterBlock_full (hlimit : 0 < o.limit)
    (hlength : (wanted o blocks).length = o.limit.toNat) (hkept : ¬ Lost o false 0 blocks)
    (bi : MetacacheBlock μ) (partN : Nat) (retries : Int) {block : Option Break}
    (htransient : ∀ broken ∈ block, broken.error ≠ .other)
    (more : List (MetaCacheEntry μ)) (ending : FilterEnd) :
    Unharmed o blocks
      (o.afterBlock bi partN retries block (wanted o blocks ++ more) ending) := by
  have htake : (wanted o blocks ++ more).take o.limit.toNat = wanted o blocks :=
    List.take_left' hlength
  have hright : ∀ entries ending, entries = wanted o blocks → StreamEnd.ok ending = true →
      Unharmed o blocks (.done entries ending) :=
    fun entries ending hentries hok => .done (iff_of_true ⟨hentries, hok⟩ hkept)
  unfold ListPathOptions.afterBlock
  split
  next => exact hright _ _ htake rfl
  next hfew =>
    have hnil : more = [] := by
      rw [List.length_append] at hfew
      exact List.eq_nil_of_length_eq_zero (by omega)
    rw [hnil, List.append_nil]
    cases ending with
    | stopped => exact hright _ _ rfl rfl
    | failed =>
      dsimp only
      split
      next hother =>
        obtain ⟨broken, hbroken, herror⟩ := Option.map_eq_some_iff.mp hother
        exact absurd herror (htransient broken hbroken)
      next => exact .full _ _ _ hlength hkept
    | eof =>
      dsimp only
      split
      · exact hright _ _ rfl rfl
      · split
        · exact hright _ _ rfl rfl
        · exact .full _ _ _ hlength hkept

section Part

variable {before after : List (MetacacheBlock μ)} {b : MetacacheBlock μ}
variable {part : List (MetaCacheEntry μ)}

theorem wanted_of_enough (hsplit : blocks = before ++ b :: after) (hlost : Lost o false 0 blocks ↔
      Lost o true ((found o before).length + (b.data.filter o.keeps).length) after)
    (hfront : part <+: b.data.filter o.keeps)
    (hmany : o.limit.toNat ≤ (found o before ++ part).length) :
    (found o before ++ part).take o.limit.toNat = wanted o blocks ∧ ¬ Lost o false 0 blocks := by
  constructor
  · rw [wanted_eq hsplit, List.append_assoc]
    refine (take_eq_of_isPrefix ?_ hmany).symm
    exact (List.prefix_append_right_inj _).mpr (hfront.trans (List.prefix_append _ _))
  · rw [hlost]
    have hle := hfront.length_le
    rw [List.length_append] at hmany
    exact not_lost_of_limit (by omega)

theorem unharmed_afterBlock (hlimit : 0 < o.limit) (hsplit : blocks = before ++ b :: after)
    (hbounds : Bounds o b after) (hlost : Lost o false 0 blocks ↔
      Lost o true ((found o before).length + (b.data.filter o.keeps).length) after) {ended : Bool}
    (hreads : MetacacheReader.Reads o (b.data.filter o.keeps) part ended) (retries : Int)
    (block : Option Break) :
    Unharmed o blocks (o.afterBlock b before.length retries block (found o before ++ part)
      (if ended then .eof else .stopped)) := by
  have hfront : part <+: b.data.filter o.keeps := by
    cases ended with
    | true => rw [hreads.all rfl]
    | false => exact (hreads.some rfl).1
  have henough := wanted_of_enough hsplit hlost hfront
  unfold ListPathOptions.afterBlock
  split
  next hover =>
    obtain ⟨htake, hnot⟩ := henough (by omega)
    exact .done (iff_of_true ⟨htake, rfl⟩ hnot)
  next hroom =>
    have hroom : (found o before ++ part).length ≤ o.limit.toNat := by omega
    cases ended with
    | false =>
      obtain ⟨htake, hnot⟩ := henough (by
        have hmany := (hreads.some rfl).2
        rw [List.length_append]
        omega)
      rw [List.take_of_length_le hroom] at htake
      exact .done (iff_of_true ⟨htake, rfl⟩ hnot)
    | true =>
      have hall := hreads.all rfl
      subst hall
      have hdone : found o after = [] →
          (found o before ++ b.data.filter o.keeps = wanted o blocks ∧ StreamEnd.ok .eof = true ↔
            ¬ Lost o false 0 blocks) := by
        intro hnil
        rw [hlost]
        refine iff_of_true ⟨?_, rfl⟩ (not_lost_of_nil hnil)
        rw [wanted_eq hsplit, hnil, List.append_nil, List.take_of_length_le hroom]
      simp only [if_true]
      split
      next heos => exact .done (hdone (by rw [hbounds.eos.mp heos]; rfl))
      next hmore =>
        split
        next hended => exact .done (hdone (hbounds.ended hended))
        next =>
          cases hafter : after with
          | nil => exact absurd (hbounds.eos.mpr hafter) hmore
          | cons next after' =>
            rcases Nat.lt_or_ge (found o before ++ b.data.filter o.keeps).length
              o.limit.toNat with hlt' | hge
            · have hfound : found o (before ++ [b]) =
                  found o before ++ b.data.filter o.keeps := by
                rw [found, List.flatMap_append, List.filter_append, List.flatMap_singleton,
                  found]
              have hnumber : (before ++ [b]).length = before.length + 1 := by
                rw [List.length_append, List.length_singleton]
              have hpart := @Unharmed.part _ _ o blocks (before ++ [b]) after' next
                before.length 0 (by rw [hsplit, hafter, List.append_assoc]; rfl)
                (by rwa [hfound])
              rw [hfound, hnumber, decide_eq_true (Nat.succ_ne_self before.length),
                List.length_append, ← hafter] at hpart
              exact hpart hlost
            · obtain ⟨htake, hnot⟩ := henough hge
              rw [List.take_of_length_le hroom] at htake
              have hlength := congrArg List.length htake
              rw [htake]
              exact .full _ _ _ (by omega) hnot

/-- A part that broke off does harm if something is found before, but not enough. -/
theorem failed_afterBlock (hlimit : 0 < o.limit) (hsplit : blocks = before ++ b :: after)
    (hlt : (found o before).length < o.limit.toNat) (hlost : Lost o false 0 blocks ↔
      Lost o true ((found o before).length + (b.data.filter o.keeps).length) after)
    (hfront : part <+: b.data.filter o.keeps) (retries : Int) {block : Option Break}
    (htransient : ∀ broken ∈ block, broken.error ≠ .other) :
    (part = [] ∨ o.limit.toNat ≤ (found o before ++ part).length) ∧ Unharmed o blocks
        (o.afterBlock b before.length retries block (found o before ++ part) .failed) ∨
      ¬ (part = [] ∨ o.limit.toNat ≤ (found o before ++ part).length) ∧ Harmed o blocks
        (o.afterBlock b before.length retries block (found o before ++ part) .failed) := by
  have henough := wanted_of_enough hsplit hlost hfront
  have hother : ¬ block.map Break.error = some .other := by
    intro hother
    obtain ⟨broken, hbroken, herror⟩ := Option.map_eq_some_iff.mp hother
    exact htransient broken hbroken herror
  unfold ListPathOptions.afterBlock
  split
  next hover =>
    have hmany : o.limit.toNat ≤ (found o before ++ part).length := by omega
    obtain ⟨htake, hnot⟩ := henough hmany
    exact Or.inl ⟨Or.inr hmany, .done (iff_of_true ⟨htake, rfl⟩ hnot)⟩
  next hroom =>
    have hroom : (found o before ++ part).length ≤ o.limit.toNat := by omega
    by_cases hnil : part = []
    · rw [hnil, List.append_nil]
      refine Or.inl ⟨Or.inl rfl, .part before.length _ hsplit hlt ?_⟩
      rw [hlost, Lost, decide_eq_false (by simp)]
      exact (or_iff_right fun hhere => Bool.false_ne_true hhere.1).symm
    · rcases Nat.lt_or_ge (found o before ++ part).length o.limit.toNat with hfew | hmany
      · refine Or.inr ⟨?_, .again _ hsplit hnil hfront hfew⟩
        rintro (hnil' | hmany)
        · exact hnil hnil'
        · omega
      · obtain ⟨htake, hnot⟩ := henough hmany
        rw [List.take_of_length_le hroom] at htake
        have hlength := congrArg List.length htake
        refine Or.inl ⟨Or.inr hmany, ?_⟩
        rw [htake]
        exact .full _ _ _ (by omega) hnot

/-- A pass at a part, as long as no break has done harm. -/
theorem quiet_passPart (hlimit : 0 < o.limit) (hsplit : blocks = before ++ b :: after)
    (hbounds : Bounds o b after) {loadedPart : Nat} {retries : Int}
    (hlt : (found o before).length < o.limit.toNat)
    (hlost : Lost o false 0 blocks ↔
      Lost o (decide (before.length ≠ loadedPart)) (found o before).length (b :: after))
    {a : Answers} (htransient : a.Transient) :
    let s := Progress.part before.length loadedPart retries (found o before)
    o.Quiet blocks s a ∧ Unharmed o blocks (o.pass blocks s a) ∨
      ¬ o.Quiet blocks s a ∧ Harmed o blocks (o.pass blocks s a) := by
  intro s
  have hthis : blocks[before.length]? = some b := by
    rw [hsplit, List.getElem?_append_right le_rfl, Nat.sub_self, List.getElem?_cons_zero]
  have hquiet : ∀ bi ∈ blocks[before.length]?, bi = b := by
    intro bi hbi
    rw [hthis] at hbi
    exact (Option.some.inj hbi).symm
  have hpassed := partPassed_passPart o blocks before.length loadedPart retries (found o before) a
  rw [ListPathOptions.pass]
  generalize o.passPart blocks before.length loadedPart retries (found o before) a = next
    at hpassed
  cases hpassed with
  | stopped ending hbad hending =>
    refine Or.inr ⟨fun hq => hbad hq.1, .done ?_⟩
    rintro ⟨-, hok⟩
    rw [hending] at hok
    cases hok
  | again retries' hcalm hnot =>
    refine Or.inl ⟨⟨hcalm, fun bi hbi hloads => absurd hloads (hnot bi hbi)⟩, ?_⟩
    exact .part loadedPart retries' hsplit hlt hlost
  | @past bi hcalm hbi hne hpast =>
    obtain rfl := hquiet bi hbi
    refine Or.inl ⟨⟨hcalm, fun bi' hbi' hloads => ?_⟩, .done ?_⟩
    · obtain rfl := hquiet bi' hbi'
      rw [(hloads.resolve_left hne).2.2] at hpast
      cases hpast
    · have hnil : found o after = [] := hbounds.past hpast
      rw [hlost, decide_eq_true hne, Lost, wanted_eq hsplit, hnil, List.append_nil,
        or_iff_left (not_lost_of_nil hnil)]
      by_cases hnone : bi.data.filter o.keeps = []
      · refine iff_of_true ⟨?_, rfl⟩ fun hskipped => hskipped.2.2.1 hnone
        rw [hnone, List.append_nil, List.take_of_length_le (by omega)]
      · refine iff_of_false (fun hright => ?_) fun hnot => hnot ⟨rfl, hpast, hnone, hlt⟩
        have hpos := List.length_pos_of_ne_nil hnone
        have hlength := congrArg List.length hright.1
        rw [List.length_take, List.length_append] at hlength
        omega
  | @read bi retries' hcalm hbi hloads =>
    obtain rfl := hquiet bi hbi
    have hlost' : Lost o false 0 blocks ↔
        Lost o true ((found o before).length + (bi.data.filter o.keeps).length) after := by
      rw [hlost, Lost]
      refine or_iff_right ?_
      rintro ⟨hchecked, hskipped, -, -⟩
      rw [(hloads.resolve_left (of_decide_eq_true hchecked)).2.2] at hskipped
      cases hskipped
    have hQuiet : o.Quiet blocks s a ↔
        ∀ broken ∈ a.block, o.Harmless bi broken (found o before).length := by
      constructor
      · exact fun hq => hq.2 bi hbi hloads
      · refine fun hharmless => ⟨hcalm, fun bi' hbi' _ => ?_⟩
        obtain rfl := hquiet bi' hbi'
        exact hharmless
    obtain ⟨read, hread, hcases⟩ := blockRead_readBlock hlimit hbounds.ordered a.block
    rw [ListPathOptions.passBlock, hread, hQuiet]
    dsimp only
    cases hcases with
    | read ended hreads hharmless =>
      refine Or.inl ⟨fun broken hbroken => hharmless broken hbroken _, ?_⟩
      exact unharmed_afterBlock hlimit hsplit hbounds hlost' hreads retries' a.block
    | @failed broken hblock hshown =>
      have hfront := (List.take_prefix broken.entries bi.data).filter o.keeps
      generalize hsome : (bi.data.take broken.entries).filter o.keeps = part at hshown hfront
      have hiff : (∀ broken ∈ a.block, o.Harmless bi broken (found o before).length) ↔
          part = [] ∨ o.limit.toNat ≤ (found o before ++ part).length := by
        rw [hblock, List.length_append, ← hsome]
        constructor
        · intro hharmless
          rcases hharmless broken rfl with hnil | hshows | hmany
          · exact Or.inl hnil
          · by_cases hnil : (bi.data.take broken.entries).filter o.keeps = []
            · exact Or.inl hnil
            · rw [hshown (by rwa [← hsome])] at hshows
              cases hshows
          · exact Or.inr hmany
        · rintro hcases broken' hbroken'
          cases hbroken'
          rcases hcases with hnil | hmany
          · exact Or.inl hnil
          · exact Or.inr (Or.inr hmany)
      rw [hiff]
      exact failed_afterBlock hlimit hsplit hlt hlost' hfront retries' htransient.2

theorem not_isPrefix_wanted (hdistinct : (blocks.flatMap MetacacheBlock.data).Nodup)
    {part more : List (MetaCacheEntry μ)} (hne : part ≠ []) (hmore : more ≠ [])
    (hfront : part <+: b.data.filter o.keeps) (hagain : more <+: b.data.filter o.keeps)
    (hlt : (found o before ++ part).length < o.limit.toNat) :
    ¬ (found o before ++ part ++ more).take o.limit.toNat <+: wanted o blocks := by
  obtain ⟨e, part, rfl⟩ := List.exists_cons_of_ne_nil hne
  obtain ⟨e', more, rfl⟩ := List.exists_cons_of_ne_nil hmore
  obtain ⟨rest, hrest⟩ := hfront
  rw [← hrest, List.cons_append] at hagain
  obtain ⟨rfl, -⟩ := List.cons_prefix_cons.mp hagain
  intro htwice
  have hshort : found o before ++ e' :: part ++ [e'] <+:
      (found o before ++ e' :: part ++ e' :: more).take o.limit.toNat := by
    refine List.prefix_take_iff.mpr ⟨?_, ?_⟩
    · rw [List.append_cons _ e' more]
      exact List.prefix_append _ _
    · rw [List.length_append, List.length_singleton]
      omega
  have hnodup : (found o before ++ e' :: part ++ [e']).Nodup :=
    ((hdistinct.filter _).sublist (List.take_sublist _ _)).sublist (hshort.trans htwice).sublist
  refine (List.nodup_append.mp hnodup).2.2 e' ?_ e' (List.mem_singleton_self e') rfl
  exact List.mem_append_right _ List.mem_cons_self

end Part

/-! ## A whole listing -/

theorem harmed_afterBlock {entries : List (MetaCacheEntry μ)}
    (hnot : ¬ entries.take o.limit.toNat <+: wanted o blocks) (bi : MetacacheBlock μ)
    (partN : Nat) (retries : Int) (block : Option Break) (ending : FilterEnd) :
    Harmed o blocks (o.afterBlock bi partN retries block entries ending) := by
  have hwrong : ∀ ending, Harmed o blocks (.done entries ending) := by
    refine fun ending => .done fun hright => hnot ?_
    rw [hright.1]
    exact List.take_prefix _ _
  unfold ListPathOptions.afterBlock
  split
  · refine .done fun hright => hnot ?_
    rw [hright.1]
  · cases ending with
    | stopped => exact hwrong _
    | failed =>
      dsimp only
      split
      · exact hwrong _
      · exact .repeated _ _ _ hnot
    | eof =>
      dsimp only
      split
      · exact hwrong _
      · split
        · exact hwrong _
        · exact .repeated _ _ _ hnot

/-- The blocks as they are stored, with what each of them says of those behind it. -/
structure Laid (o : ListPathOptions) (blocks : List (MetacacheBlock μ)) : Prop where
  stored : Stored 0 [] blocks
  ordered : Ordered (blocks.flatMap MetacacheBlock.data)
  distinct : (blocks.flatMap MetacacheBlock.data).Nodup
  limit : 0 < o.limit

theorem Laid.bounds (hlaid : Laid o blocks) {before after : List (MetacacheBlock μ)}
    {b : MetacacheBlock μ} (hsplit : blocks = before ++ b :: after) : Bounds o b after :=
  hlaid.stored.bounds hlaid.ordered (fun _ _ => le_of_isPrefix List.nil_prefix) hsplit

theorem Laid.split (hlaid : Laid o blocks) {k : Nat} {bi : MetacacheBlock μ}
    (hbi : blocks[k]? = some bi) :
    ∃ after, blocks = blocks.take k ++ bi :: after ∧ (blocks.take k).length = k ∧
      Bounds o bi after := by
  obtain ⟨hlt, rfl⟩ := List.getElem?_eq_some_iff.mp hbi
  have hsplit : blocks = blocks.take k ++ blocks[k] :: blocks.drop (k + 1) := by
    rw [List.getElem_cons_drop, List.take_append_drop]
  exact ⟨_, hsplit, List.length_take_of_le (le_of_lt hlt), hlaid.bounds hsplit⟩

variable {s : Progress μ}

/-- Once a break has done harm, nothing mends it. -/
theorem Harmed.pass (hlaid : Laid o blocks) (hs : Harmed o blocks s) {a : Answers}
    (htransient : a.Transient) : Harmed o blocks (o.pass blocks s a) := by
  cases hs with
  | done hwrong => exact .done hwrong
  | @again before after b part retries hsplit hne hfront hlt =>
    have hbounds := hlaid.bounds hsplit
    have hpassed := partPassed_passPart o blocks before.length before.length retries
      (found o before ++ part) a
    rw [ListPathOptions.pass]
    generalize o.passPart blocks before.length before.length retries (found o before ++ part) a =
      next at hpassed
    cases hpassed with
    | stopped ending hbad hending =>
      refine .done fun hright => ?_
      rw [hending] at hright
      cases hright.2
    | again retries' hcalm hnot => exact .again retries' hsplit hne hfront hlt
    | past hcalm hbi hne => exact absurd rfl hne
    | @read bi retries' hcalm hbi hloads =>
      obtain rfl : bi = b := by
        rw [hsplit, List.getElem?_append_right le_rfl, Nat.sub_self,
          List.getElem?_cons_zero] at hbi
        exact (Option.some.inj hbi).symm
      obtain ⟨read, hread, hcases⟩ := blockRead_readBlock hlaid.limit hbounds.ordered a.block
      rw [ListPathOptions.passBlock, hread]
      dsimp only
      have htwice : ∀ more, more ≠ [] → more <+: bi.data.filter o.keeps → ∀ ending,
          Harmed o blocks (o.afterBlock bi before.length retries' a.block
            (found o before ++ part ++ more) ending) :=
        fun more hmore hagain ending => harmed_afterBlock
          (not_isPrefix_wanted hlaid.distinct hne hmore hfront hagain hlt) _ _ _ _ _
      cases hcases with
      | @read more ended hreads hharmless =>
        have hpos := List.length_pos_of_ne_nil hne
        have hle := hfront.length_le
        refine htwice more ?_ ?_ _
        · rintro rfl
          cases ended with
          | true =>
            rw [← hreads.all rfl] at hle
            exact absurd hle (not_le.mpr hpos)
          | false =>
            have hmany := (hreads.some rfl).2
            have hlimit := hlaid.limit
            rw [List.length_nil] at hmany
            omega
        · cases ended with
          | true => rw [hreads.all rfl]
          | false => exact (hreads.some rfl).1
      | @failed broken hblock hshown =>
        have hagain := (List.take_prefix broken.entries bi.data).filter o.keeps
        by_cases hmore : (bi.data.take broken.entries).filter o.keeps = []
        · rw [hmore, List.append_nil]
          unfold ListPathOptions.afterBlock
          rw [if_neg (by omega)]
          dsimp only
          rw [if_neg]
          · exact .again _ hsplit hne hfront hlt
          · rw [hblock]
            exact fun herror => htransient.2 broken hblock (Option.some.inj herror)
        · exact htwice _ hmore hagain _
  | @repeated partN loadedPart retries entries hnot =>
    have hpassed := partPassed_passPart o blocks partN loadedPart retries entries a
    rw [ListPathOptions.pass]
    generalize o.passPart blocks partN loadedPart retries entries a = next at hpassed
    cases hpassed with
    | stopped ending hbad hending =>
      refine .done fun hright => ?_
      rw [hending] at hright
      cases hright.2
    | again retries' hcalm hload => exact .repeated _ _ _ hnot
    | past hcalm hbi hne hpast =>
      refine .done fun hright => hnot ?_
      rw [hright.1]
      exact List.take_prefix _ _
    | @read bi retries' hcalm hbi hloads =>
      obtain ⟨after, -, -, hbounds⟩ := hlaid.split hbi
      obtain ⟨read, hread, -⟩ := blockRead_readBlock hlaid.limit hbounds.ordered a.block
      rw [ListPathOptions.passBlock, hread]
      refine harmed_afterBlock (fun htwice => hnot (List.IsPrefix.trans ?_ htwice)) _ _ _ _ _
      exact (List.prefix_append _ _).take _

/-- There is always a part to start with, unless nothing comes after what is searched. -/
theorem Laid.start (hlaid : Laid o blocks) (retries : Int) :
    match o.findFirstPart blocks with
    | .part i => i < blocks.length ∧ Unharmed o blocks (.part i 0 retries [])
    | .fileNotFound => 0 < blocks.length ∧ Unharmed o blocks (.part 0 0 retries [])
    | .eof => Unharmed o blocks (.done [] .eof)
    | .unexpectedEOF => False := by
  have hname : ∀ e ∈ blocks.flatMap MetacacheBlock.data, ([] : Name) ≤ e.name :=
    fun e _ => le_of_isPrefix List.nil_prefix
  have hpos : 0 < o.limit.toNat := by
    have hlimit := hlaid.limit
    omega
  -- A part is read from its start, and nothing before it is asked for.
  have hpart : ∀ before after : List (MetacacheBlock μ), blocks = before ++ after → after ≠ [] →
      found o before = [] →
      before.length < blocks.length ∧ Unharmed o blocks (.part before.length 0 retries []) := by
    intro before after hsplit hne hnone
    refine ⟨?_, ?_⟩
    · have hlength := congrArg List.length hsplit
      have hpos := List.length_pos_of_ne_nil hne
      rw [List.length_append] at hlength
      omega
    obtain ⟨b, after, rfl⟩ := List.exists_cons_of_ne_nil hne
    have hpart := @Unharmed.part _ _ o blocks before after b 0 retries hsplit
      (by rw [hnone]; exact hpos)
    rw [hnone] at hpart
    refine hpart ?_
    rw [hsplit, lost_append hnone, List.length_nil]
    cases before <;> simp
  have hzero : 0 < blocks.length ∧ Unharmed o blocks (.part 0 0 retries []) := by
    refine hpart [] blocks rfl (fun hnil => ?_) rfl
    have hstored := hlaid.stored
    rw [hnil] at hstored
    cases hstored
  rw [ListPathOptions.findFirstPart]
  generalize hsearch : (if o.marker = [] then o.namePrefix else o.marker) = search
  by_cases hnil : search = []
  · rw [if_pos hnil]
    exact hzero
  · rw [if_neg hnil]
    have hbefore : ∀ l : List (MetaCacheEntry μ), (∀ e ∈ l, e.name < search) →
        l.filter o.keeps = [] := fun l hlt => filter_keeps_of_lt (hsearch ▸ hlt)
    have hstart := (@start_findPart _ search _ _ _ hlaid.stored hlaid.ordered hname 0).1
    generalize ListPathOptions.findPart search 0 blocks = first at hstart
    cases hstart with
    | @part name before after hsplit hskipped hrest hfrom =>
      dsimp only
      rw [Nat.zero_add]
      refine hpart before after hsplit (fun hnil => ?_) (hbefore _ hskipped)
      rw [hnil] at hrest
      cases hrest
    | fileNotFound hempty => exact hzero
    | eof hskipped =>
      have hnone := hbefore _ hskipped
      refine .done (iff_of_true ⟨?_, rfl⟩ (not_lost_of_nil hnone))
      rw [wanted, hnone, List.take_nil]

/-- What a pass of the outer loop comes to. -/
inductive FirstPassed (o : ListPathOptions) (blocks : List (MetacacheBlock μ)) (retries : Int)
    (entries : List (MetaCacheEntry μ)) (a : Answers) : Progress μ → Prop
  | stopped (ending : StreamEnd) (hbad : a.Transient → ¬ a.Calm True retries)
      (hending : ending.ok = false) :
      FirstPassed o blocks retries entries a (.done entries ending)
  | again (retries' : Int) (hcalm : a.Calm True retries) (hanswers : a ≠ .fine) :
      FirstPassed o blocks retries entries a (.first retries' entries)
  | part (retries' : Int) (hcalm : a.Calm True retries) {i : Nat}
      (hfirst : o.findFirstPart blocks = .part i) :
      FirstPassed o blocks retries entries a (.part i 0 retries' entries)
  | fileNotFound (retries' : Int) (hcalm : a.Calm True retries)
      (hfirst : o.findFirstPart blocks = .fileNotFound) :
      FirstPassed o blocks retries entries a (.part 0 0 retries' entries)
  | eof (hcalm : a.Calm True retries) (hfirst : o.findFirstPart blocks = .eof) :
      FirstPassed o blocks retries entries a (.done entries .eof)
  | unexpectedEOF (next : Progress μ) (hfirst : o.findFirstPart blocks = .unexpectedEOF) :
      FirstPassed o blocks retries entries a next

omit [ObjectMetadata μ] in
theorem firstPassed_passFirst (o : ListPathOptions) (blocks : List (MetacacheBlock μ))
    (retries : Int) (entries : List (MetaCacheEntry μ)) (a : Answers) :
    FirstPassed o blocks retries entries a (o.passFirst blocks retries entries a) := by
  rw [ListPathOptions.passFirst]
  split
  next hcanceled =>
    refine .stopped .canceled (fun _ hcalm => ?_) rfl
    rw [hcalm.1] at hcanceled
    cases hcanceled
  next hcanceled =>
    rw [Bool.not_eq_true] at hcanceled
    have hrecounted := recounted_recount retries a .remoteListingCanceled
    generalize ListPathOptions.recount retries a .remoteListingCanceled = recounted
      at hrecounted
    cases hrecounted with
    | bad e hmany hcheck =>
      refine .stopped _ (fun _ hcalm => ?_) rfl
      rw [hcalm.2 trivial hmany] at hcheck
      cases hcheck
    | good retries' hcheck hanswered =>
      have hcalm : a.Calm True retries := ⟨hcanceled, fun _ => hcheck⟩
      dsimp only
      split
      next hlater =>
        refine .again _ hcalm fun hfine => ?_
        subst hfine
        simp [Answers.fine, Answers.answered] at hlater
      next =>
        split
        next hother => exact .stopped _ (fun htransient => absurd hother htransient.1) rfl
        next hinfo =>
          refine .again _ hcalm fun hfine => ?_
          subst hfine
          cases hinfo
        next =>
          split
          next hfirst => exact .part _ hcalm hfirst
          next hfirst => exact .fileNotFound _ hcalm hfirst
          next hfirst => exact .eof hcalm hfirst
          next hfirst => exact .unexpectedEOF _ hfirst

/-- A pass, as long as no break has done harm. -/
theorem Unharmed.pass (hlaid : Laid o blocks) (hs : Unharmed o blocks s) {a : Answers}
    (htransient : a.Transient) :
    o.Quiet blocks s a ∧ Unharmed o blocks (o.pass blocks s a) ∨
      ¬ o.Quiet blocks s a ∧ Harmed o blocks (o.pass blocks s a) := by
  cases hs with
  | done hright => exact Or.inl ⟨trivial, .done hright⟩
  | part loadedPart retries hsplit hlt hlost =>
    exact quiet_passPart hlaid.limit hsplit (hlaid.bounds hsplit) hlt hlost htransient
  | full partN loadedPart retries hlength hkept =>
    have hpassed := partPassed_passPart o blocks partN loadedPart retries (wanted o blocks) a
    have henough : ∀ bi : MetacacheBlock μ, ∀ broken,
        o.Harmless bi broken (wanted o blocks).length :=
      fun bi broken => Or.inr (Or.inr (by omega))
    rw [ListPathOptions.pass]
    generalize o.passPart blocks partN loadedPart retries (wanted o blocks) a = next at hpassed
    cases hpassed with
    | stopped ending hbad hending =>
      refine Or.inr ⟨fun hquiet => hbad hquiet.1, .done fun hright => ?_⟩
      rw [hending] at hright
      cases hright.2
    | again retries' hcalm hload =>
      refine Or.inl ⟨⟨hcalm, fun _ _ _ _ _ => henough _ _⟩, ?_⟩
      exact .full _ _ _ hlength hkept
    | past hcalm hbi hne hpast =>
      refine Or.inl ⟨⟨hcalm, fun _ _ _ _ _ => henough _ _⟩, ?_⟩
      exact .done (iff_of_true ⟨rfl, rfl⟩ hkept)
    | @read bi retries' hcalm hbi hloads =>
      refine Or.inl ⟨⟨hcalm, fun _ _ _ _ _ => henough _ _⟩, ?_⟩
      obtain ⟨after, -, -, hbounds⟩ := hlaid.split hbi
      obtain ⟨read, hread, -⟩ := blockRead_readBlock hlaid.limit hbounds.ordered a.block
      rw [ListPathOptions.passBlock, hread]
      exact unharmed_afterBlock_full hlaid.limit hlength hkept _ _ _ htransient.2 _ _
  | first retries =>
    have hstart := hlaid.start
    have hpassed := firstPassed_passFirst o blocks retries [] a
    rw [ListPathOptions.Quiet, ListPathOptions.pass]
    generalize o.passFirst blocks retries [] a = next at hpassed
    cases hpassed with
    | stopped ending hbad hending =>
      refine Or.inr ⟨hbad htransient, .done fun hright => ?_⟩
      rw [hending] at hright
      cases hright.2
    | again retries' hcalm => exact Or.inl ⟨hcalm, .first _⟩
    | part retries' hcalm hfirst | fileNotFound retries' hcalm hfirst =>
      rw [hfirst] at hstart
      exact Or.inl ⟨hcalm, (hstart retries').2⟩
    | eof hcalm hfirst =>
      rw [hfirst] at hstart
      exact Or.inl ⟨hcalm, hstart retries⟩
    | unexpectedEOF next hfirst =>
      rw [hfirst] at hstart
      exact (hstart retries).elim

/-! ## To the end -/

def Placed (blocks : List (MetacacheBlock μ)) : Progress μ → Prop
  | .part partN _ _ _ => partN < blocks.length
  | _ => True

def remaining (blocks : List (MetacacheBlock μ)) : Progress μ → Nat
  | .first _ _ => blocks.length + 1
  | .part partN _ _ _ => blocks.length - partN
  | .done _ _ => 0

theorem placed_afterBlock {bi : MetacacheBlock μ} {after : List (MetacacheBlock μ)} {k : Nat}
    (hsplit : blocks = blocks.take k ++ bi :: after) (hk : (blocks.take k).length = k)
    (hbounds : Bounds o bi after) (retries : Int) (block : Option Break)
    (entries : List (MetaCacheEntry μ)) (ending : FilterEnd) :
    Placed blocks (o.afterBlock bi k retries block entries ending) ∧
      (ending ≠ .failed →
        remaining blocks (o.afterBlock bi k retries block entries ending) < blocks.length - k) := by
  have hlength := congrArg List.length hsplit
  rw [List.length_append, List.length_cons, hk] at hlength
  have hdone : ∀ entries ending, Placed blocks (.done entries ending) ∧
      remaining blocks (.done entries ending) < blocks.length - k := by
    intro entries ending
    refine ⟨trivial, ?_⟩
    rw [remaining]
    omega
  unfold ListPathOptions.afterBlock
  split
  · exact ⟨(hdone _ _).1, fun _ => (hdone _ _).2⟩
  · cases ending with
    | stopped => exact ⟨(hdone _ _).1, fun _ => (hdone _ _).2⟩
    | failed =>
      refine ⟨?_, fun hne => absurd rfl hne⟩
      dsimp only
      split
      · exact (hdone _ _).1
      · rw [Placed]
        omega
    | eof =>
      dsimp only
      split
      · exact ⟨(hdone _ _).1, fun _ => (hdone _ _).2⟩
      next hmore =>
        split
        · exact ⟨(hdone _ _).1, fun _ => (hdone _ _).2⟩
        · have hne : after ≠ [] := fun hnil => hmore (hbounds.eos.mpr hnil)
          have hpos := List.length_pos_of_ne_nil hne
          rw [Placed, remaining]
          exact ⟨by omega, fun _ => by omega⟩

theorem Placed.pass (hlaid : Laid o blocks) (hs : Placed blocks s) (a : Answers) :
    Placed blocks (o.pass blocks s a) ∧
      (a = .fine → remaining blocks (o.pass blocks s a) ≤ remaining blocks s - 1) := by
  cases s with
  | done entries ending => exact ⟨trivial, fun _ => Nat.zero_le _⟩
  | part partN loadedPart retries entries =>
    have hlt : partN < blocks.length := hs
    have hpassed := partPassed_passPart o blocks partN loadedPart retries entries a
    rw [ListPathOptions.pass, remaining]
    generalize o.passPart blocks partN loadedPart retries entries a = next at hpassed
    cases hpassed with
    | stopped ending hbad hending => exact ⟨trivial, fun _ => Nat.zero_le _⟩
    | again retries' hcalm hnot hanswers =>
      refine ⟨hlt, fun hfine => ?_⟩
      rw [List.getElem?_eq_getElem hlt] at hanswers
      cases hanswers hfine
    | past hcalm hbi hne hpast => exact ⟨trivial, fun _ => Nat.zero_le _⟩
    | @read bi retries' hcalm hbi hloads =>
      obtain ⟨after, hsplit, hk, hbounds⟩ := hlaid.split hbi
      obtain ⟨read, hread, hcases⟩ := blockRead_readBlock hlaid.limit hbounds.ordered a.block
      rw [ListPathOptions.passBlock, hread]
      dsimp only
      obtain ⟨hplaced, hfewer⟩ := placed_afterBlock hsplit hk hbounds retries' a.block
        (entries ++ read.1) read.2
      refine ⟨hplaced, fun hfine => Nat.le_sub_one_of_lt (hfewer ?_)⟩
      cases hcases with
      | read ended hreads hharmless => cases ended <;> simp
      | failed hblock hshown =>
        rw [hfine] at hblock
        cases hblock
  | first retries entries =>
    have hstart := hlaid.start retries
    have hpassed := firstPassed_passFirst o blocks retries entries a
    rw [ListPathOptions.pass, remaining]
    generalize o.passFirst blocks retries entries a = next at hpassed
    cases hpassed with
    | stopped ending hbad hending => exact ⟨trivial, fun _ => Nat.zero_le _⟩
    | again retries' hcalm hanswers => exact ⟨trivial, fun hfine => absurd hfine hanswers⟩
    | part retries' hcalm hfirst | fileNotFound retries' hcalm hfirst =>
      rw [hfirst] at hstart
      refine ⟨hstart.1, fun _ => ?_⟩
      rw [remaining]
      omega
    | eof hcalm hfirst => exact ⟨trivial, fun _ => Nat.zero_le _⟩
    | unexpectedEOF next hfirst =>
      rw [hfirst] at hstart
      exact hstart.elim

theorem done_of_fine (hlaid : Laid o blocks) {n : Nat} (hs : Placed blocks s)
    (hn : remaining blocks s ≤ n) :
    ∃ entries ending, (List.replicate n Answers.fine).foldl (o.pass blocks) s =
      .done entries ending := by
  induction n generalizing s with
  | zero =>
    cases s with
    | first retries entries =>
      rw [remaining] at hn
      omega
    | part partN loadedPart retries entries =>
      have hlt : partN < blocks.length := hs
      rw [remaining] at hn
      omega
    | done entries ending => exact ⟨entries, ending, rfl⟩
  | succ n ih =>
    rw [List.replicate_succ, List.foldl_cons]
    obtain ⟨hplaced, hfewer⟩ := hs.pass hlaid .fine
    have hle := hfewer rfl
    exact ih hplaced (by omega)

theorem quiet_fine (s : Progress μ) : o.Quiet blocks s .fine := by
  have hcalm : ∀ checks retries, Answers.fine.Calm checks retries := by
    intro checks retries
    refine ⟨rfl, fun _ _ => ?_⟩
    decide
  cases s with
  | first retries entries => exact hcalm _ _
  | part partN loadedPart retries entries =>
    refine ⟨hcalm _ _, fun bi hbi hloads broken hbroken => ?_⟩
    cases hbroken
  | done entries ending => trivial

omit [ObjectMetadata μ] in
theorem remaining_le (s : Progress μ) : remaining blocks s ≤ blocks.length + 1 := by
  cases s with
  | first retries entries => exact le_rfl
  | part partN loadedPart retries entries =>
    rw [remaining]
    omega
  | done entries ending => exact Nat.zero_le _

/-- The end of a listing of the blocks, and whether it is what is wanted. -/
theorem Laid.streamRetried (hlaid : Laid o blocks) {answers : List Answers}
    (htransient : ∀ a ∈ answers, a.Transient) {n : Nat} (hn : blocks.length < n) :
    ∃ entries ending,
      o.streamRetried blocks (answers ++ List.replicate n .fine) = .done entries ending ∧
        (entries = wanted o blocks ∧ ending.ok = true ↔
          ¬ Lost o false 0 blocks ∧
            Guarded (o.pass blocks) (o.Quiet blocks) (.first 0 []) answers) := by
  have hplaced : Placed blocks (answers.foldl (o.pass blocks) (.first 0 [])) :=
    List.foldlRecOn answers (o.pass blocks) trivial fun _ hs a _ => (hs.pass hlaid a).1
  obtain ⟨entries, ending, hdone⟩ := done_of_fine hlaid hplaced ((remaining_le _).trans hn)
  refine ⟨entries, ending, by rw [ListPathOptions.streamRetried, List.foldl_append, hdone], ?_⟩
  have hfine : ∀ a ∈ List.replicate n Answers.fine, a = .fine ∧ a.Transient := by
    intro a ha
    rw [List.eq_of_mem_replicate ha]
    decide
  rcases @guarded_or_spoiled _ _ (o.pass blocks) (Unharmed o blocks) (o.Quiet blocks) _
    (Harmed o blocks) Answers.Transient (fun s a ha hs => hs.pass hlaid ha)
    (fun s a ha hs => hs.pass hlaid ha) answers htransient (.first 0)
    with ⟨hguarded, hunharmed⟩ | ⟨hnot, hharmed⟩
  · have hend : Unharmed o blocks (.done entries ending) := by
      rw [← hdone]
      refine List.foldlRecOn _ _ hunharmed fun s hs a ha => ?_
      obtain ⟨rfl, ha⟩ := hfine a ha
      exact ((hs.pass hlaid ha).resolve_right fun hbad => hbad.1 (quiet_fine s)).2
    cases hend with
    | done hright => rw [hright, and_iff_left hguarded]
  · have hend : Harmed o blocks (.done entries ending) := by
      rw [← hdone]
      exact List.foldlRecOn _ _ hharmed fun s hs a ha => hs.pass hlaid (hfine a ha).2
    cases hend with
    | done hwrong => exact iff_of_false hwrong fun hboth => hnot hboth.2

/-- Where reads of blocks break off for a time, a sorted listing is read back in the end
exactly when no entry is dropped at the edge of a block and every pass is quiet. -/
theorem streamRetried_iff (blockEntries : Nat) {stream : List (MetaCacheEntry μ)}
    (hsorted : stream.Pairwise fun e e' => e.name < e'.name) {o : ListPathOptions}
    (hlimit : 0 < o.limit) {answers : List Answers} (htransient : ∀ a ∈ answers, a.Transient)
    {n : Nat} (hn : (newMetacacheBlockWriter blockEntries stream).length < n) :
    ∃ entries ending,
      o.streamRetried (newMetacacheBlockWriter blockEntries stream)
          (answers ++ List.replicate n .fine) = .done entries ending ∧
        (entries = (o.gatherResults stream).1 ∧ ending.ok = true ↔
          ¬ Dropped blockEntries o stream ∧
            Guarded (o.pass (newMetacacheBlockWriter blockEntries stream))
              (o.Quiet (newMetacacheBlockWriter blockEntries stream)) (.first 0 []) answers) := by
  have hordered : Ordered stream := hsorted.imp fun hlt => le_of_lt hlt
  have hwritten := written_newMetacacheBlockWriter blockEntries stream
  have hdata := hwritten.data_eq
  have hwanted : (o.gatherResults stream).1 =
      wanted o (newMetacacheBlockWriter blockEntries stream) := by
    rw [ListPathOptions.gatherResults, o.gatherLoop_fst hlimit _ (Nat.zero_le _), wanted, hdata,
      List.nil_append]
  have hlaid : Laid o (newMetacacheBlockWriter blockEntries stream) := by
    refine ⟨hwritten.stored hordered, by rwa [hdata], ?_, hlimit⟩
    rw [hdata]
    refine hsorted.imp fun hlt heq => ?_
    rw [heq] at hlt
    exact lt_irrefl _ hlt
  rw [hwanted, ← hwritten.lost_iff hordered]
  exact hlaid.streamRetried htransient hn

section Examples

def twoObjects : List (MetaCacheEntry Unit) :=
  [objectEntry "a" (by decide), objectEntry "b" b_ne_nil]

def listingOfAll : ListPathOptions where
  limit := 1000
  recursive := true

def brokenOnce : List Answers := [.fine, { block := some ⟨1, false, .objectNotFound⟩ }]

def brokenAtStart : List Answers := [.fine, { block := some ⟨0, false, .objectNotFound⟩ }]

def Progress.returned : Progress Unit → Option (List String × StreamEnd)
  | .done entries ending => some (entries.map fun e => String.ofList e.name, ending)
  | _ => none

/-- A break before the first entry comes to what is asked for. -/
theorem twoObjects_streamRetried_iff :
    ∃ entries ending,
      listingOfAll.streamRetried (newMetacacheBlockWriter 5 twoObjects)
          (brokenAtStart ++ List.replicate 2 .fine) = .done entries ending ∧
        (entries = (listingOfAll.gatherResults twoObjects).1 ∧ ending.ok = true ↔
          ¬ Dropped 5 listingOfAll twoObjects ∧
            Guarded (listingOfAll.pass (newMetacacheBlockWriter 5 twoObjects))
              (listingOfAll.Quiet (newMetacacheBlockWriter 5 twoObjects)) (.first 0 [])
              brokenAtStart) :=
  streamRetried_iff 5 (by decide) (by decide) (by decide) (by decide)

/-- A break after the first entry has it there twice. -/
theorem twoObjects_repeated :
    (∀ a ∈ brokenOnce, a.Transient) ∧
      (listingOfAll.streamRetried (newMetacacheBlockWriter 5 twoObjects)
        (brokenOnce ++ List.replicate 2 .fine)).returned = some (["a", "a", "b"], .eof) ∧
      (listingOfAll.gatherResults twoObjects).1 = twoObjects ∧
      ¬ ∃ ending, listingOfAll.streamRetried (newMetacacheBlockWriter 5 twoObjects)
        (brokenOnce ++ List.replicate 2 .fine) =
          .done (listingOfAll.gatherResults twoObjects).1 ending := by
  have hrun : (listingOfAll.streamRetried (newMetacacheBlockWriter 5 twoObjects)
      (brokenOnce ++ List.replicate 2 .fine)).returned = some (["a", "a", "b"], .eof) := by
    decide
  refine ⟨by decide, hrun, by decide, ?_⟩
  rintro ⟨ending, hdone⟩
  rw [hdone, Progress.returned] at hrun
  exact absurd (Prod.mk.inj (Option.some.inj hrun)).1 (by decide)

end Examples

end Fs3.Listing
