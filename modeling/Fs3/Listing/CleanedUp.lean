import Fs3.Listing.Metacaches

/-! # What is left of the listings of a bucket

A cleanup keeps the index of the listings, and whatever it removes because another listing can take
its place leaves one that can. -/

namespace Fs3.Listing

open Foundation (MapOrder DescendingSort)

namespace BucketMetacache

variable {b : BucketMetacache} {now : Time} {currentCycle : Nat} {orders : CleanupOrders}
  {id id' : String} {c : Metacache} {remove : List String}

theorem find_eq_some : b.find id = some c ↔ (id, c) ∈ b.caches := by
  rw [find, Option.map_eq_some_iff]
  constructor
  · intro ⟨cache, hfound, hsnd⟩
    have hkey : (cache.1 == id) = true :=
      @List.find?_some _ (fun cache : String × Metacache => cache.1 == id) _ _ hfound
    have hmem := List.mem_of_find?_eq_some hfound
    rwa [← beq_iff_eq.mp hkey, ← hsnd]
  · intro hmem
    have hsome : (b.caches.find? fun cache => cache.1 == id).isSome := by
      rw [List.find?_isSome]
      exact ⟨(id, c), hmem, beq_self_eq_true id⟩
    obtain ⟨cache, hfound⟩ := Option.isSome_iff_exists.mp hsome
    have hkey : (cache.1 == id) = true :=
      @List.find?_some _ (fun cache : String × Metacache => cache.1 == id) _ _ hfound
    have heq := List.inj_on_of_nodup_map b.keyed (List.mem_of_find?_eq_some hfound) hmem
      (beq_iff_eq.mp hkey)
    exact ⟨cache, hfound, by rw [heq]⟩

theorem mem_ids_of_find (hfind : b.find id = some c) : id ∈ b.ids :=
  List.mem_map.mpr ⟨(id, c), find_eq_some.mp hfind, rfl⟩

theorem exists_find (hmem : id ∈ b.ids) : ∃ c, b.find id = some c := by
  obtain ⟨cache, hcache, rfl⟩ := List.mem_map.mp hmem
  exact ⟨cache.2, find_eq_some.mpr hcache⟩

theorem find_deleteCache (id id' : String) :
    (b.deleteCache id).find id' = if id' = id then none else b.find id' := by
  have hiff : ∀ c', (b.deleteCache id).find id' = some c' ↔ id' ≠ id ∧ b.find id' = some c' := by
    intro c'
    rw [deleteCache]
    cases hfind : b.find id with
    | none =>
      refine ⟨fun hsome => ⟨fun heq => ?_, hsome⟩, And.right⟩
      rw [heq, hfind] at hsome
      exact absurd hsome (by simp)
    | some c =>
      rw [find_eq_some, find_eq_some, List.mem_filter, and_comm]
      simp
  split
  next heq =>
    rw [Option.eq_none_iff_forall_ne_some]
    exact fun c' hsome => ((hiff c').mp hsome).1 heq
  next hne =>
    ext c'
    exact (hiff c').trans (and_iff_right hne)

theorem find_foldl_deleteCache (removed : List String) (id : String) :
    (removed.foldl deleteCache b).find id = if id ∈ removed then none else b.find id := by
  induction removed generalizing b with
  | nil => rfl
  | cons first removed ih =>
    rw [List.foldl_cons, ih, find_deleteCache]
    by_cases hfirst : id = first
    · simp [hfirst]
    · simp [hfirst]

/-- An id is in the index of its root exactly when it is in the map. -/
structure Consistent (b : BucketMetacache) : Prop where
  nodup : ∀ root, (b.cachesRoot root).Nodup
  mem_iff : ∀ root id, id ∈ b.cachesRoot root ↔ ∃ c, b.find id = some c ∧ c.root = root

theorem Consistent.deleteCache (hconsistent : b.Consistent) (id : String) :
    (b.deleteCache id).Consistent := by
  cases hfind : b.find id with
  | none =>
    rw [BucketMetacache.deleteCache, hfind]
    exact hconsistent
  | some c =>
    have hroots : ∀ root, (b.deleteCache id).cachesRoot root =
        if root = c.root then (b.cachesRoot root).erase id else b.cachesRoot root := by
      intro root
      rw [BucketMetacache.deleteCache, hfind]
    refine ⟨fun root => ?_, fun root id' => ?_⟩
    · rw [hroots]
      split
      · exact (hconsistent.nodup root).erase id
      · exact hconsistent.nodup root
    · rw [hroots, find_deleteCache]
      have hmem := hconsistent.mem_iff root id'
      by_cases heq : id' = id
      · subst heq
        rw [if_pos rfl]
        simp only [reduceCtorEq, false_and, exists_false, iff_false]
        split
        next => exact (hconsistent.nodup root).not_mem_erase
        next hne =>
          rw [hmem, hfind]
          rintro ⟨c', hc', rfl⟩
          exact hne (by rw [Option.some.inj hc'])
      · rw [if_neg heq]
        split
        next => rw [(hconsistent.nodup root).mem_erase_iff, hmem, and_iff_right heq]
        next => exact hmem

theorem Consistent.foldl_deleteCache (hconsistent : b.Consistent) (removed : List String) :
    (removed.foldl BucketMetacache.deleteCache b).Consistent := by
  induction removed generalizing b with
  | nil => exact hconsistent
  | cons first removed ih => exact ih (hconsistent.deleteCache first)

/-! ## The two checks -/

variable (b now currentCycle) in
def Sound (cache : String × Metacache) : Prop :=
  cache ∈ b.caches ∧ b.removable now currentCycle cache.1 cache.2 = false

variable (b now currentCycle) in
def Replaced (cache cache2 : String × Metacache) : Prop :=
  b.Sound now currentCycle cache2 ∧ cache2.1 ≠ cache.1 ∧
    cache.2.canBeReplacedBy now cache2.2 = true

variable (b now currentCycle) in
def Superseded (cache : String × Metacache) : Prop :=
  ∃ cache2, b.Replaced now currentCycle cache cache2

variable (b now currentCycle) in
/-- What the checks have removed at some time: all that does not pass the first one, and
else only what another cache replaces, directly or through others, that is not removed. -/
structure Checked (remove : List String) : Prop where
  first : ∀ cache ∈ b.caches, b.removable now currentCycle cache.1 cache.2 = true →
    cache.1 ∈ remove
  superseded : ∀ cache, b.Sound now currentCycle cache → cache.1 ∈ remove →
    b.Superseded now currentCycle cache
  survivor : ∀ cache, b.Sound now currentCycle cache →
    ∃ cache', Relation.ReflTransGen (b.Replaced now currentCycle) cache cache' ∧
      b.Sound now currentCycle cache' ∧ cache'.1 ∉ remove
  nodup : remove.Nodup
  subset : ∀ id ∈ remove, id ∈ b.ids

theorem Sound.find {cache : String × Metacache} (hsound : b.Sound now currentCycle cache) :
    b.find cache.1 = some cache.2 := find_eq_some.mpr hsound.1

theorem sound_eq {cache cache' : String × Metacache} (hmem : cache ∈ b.caches)
    (hmem' : cache' ∈ b.caches) (heq : cache.1 = cache'.1) : cache = cache' :=
  List.inj_on_of_nodup_map b.keyed hmem hmem' heq

theorem exists_of_replaceable (hchecked : b.Checked now currentCycle remove)
    (hreplaceable : b.replaceable now remove id c = true) :
    ∃ cache2, b.Replaced now currentCycle (id, c) cache2 ∧ cache2.1 ∉ remove := by
  obtain ⟨id2, -, hid2⟩ := List.any_eq_true.mp hreplaceable
  rw [Bool.and_eq_true, Bool.not_eq_true', Bool.or_eq_false_iff, decide_eq_false_iff_not,
    beq_eq_false_iff_ne] at hid2
  obtain ⟨⟨hkept, hne⟩, hcan⟩ := hid2
  cases hfind : b.find id2 with
  | none =>
    rw [hfind] at hcan
    exact absurd hcan Bool.false_ne_true
  | some c2 =>
    rw [hfind] at hcan
    have hmem := find_eq_some.mp hfind
    refine ⟨(id2, c2), ⟨⟨hmem, ?_⟩, hne, hcan⟩, hkept⟩
    by_contra hremovable
    exact hkept (hchecked.first (id2, c2) hmem (by simpa using hremovable))

/-- One turn of the second check. -/
theorem Checked.replaceTurn (hchecked : b.Checked now currentCycle remove) (id : String) :
    b.Checked now currentCycle (b.replaceTurn now remove id) := by
  unfold BucketMetacache.replaceTurn
  split
  next => exact hchecked
  next hskip =>
    rw [not_or] at hskip
    split
    next => exact hchecked
    next c hfind =>
      split
      next hreplaceable =>
        obtain ⟨cache2, hreplaced, hkept⟩ := exists_of_replaceable hchecked hreplaceable
        have hmem := find_eq_some.mp hfind
        refine ⟨fun cache hcache hremovable => ?_, fun cache hsound hin => ?_,
          fun cache hsound => ?_, ?_, fun id' hid' => ?_⟩
        · exact List.mem_append_left _ (hchecked.first cache hcache hremovable)
        · rcases List.mem_append.mp hin with hin | hin
          · exact hchecked.superseded cache hsound hin
          · rw [sound_eq hsound.1 hmem (List.mem_singleton.mp hin)]
            exact ⟨cache2, hreplaced⟩
        · obtain ⟨cache', hchain, hsound', hleft⟩ := hchecked.survivor cache hsound
          by_cases heq : cache'.1 = id
          · -- The survivor goes now, but the one that replaces it stays.
            rw [sound_eq hsound'.1 hmem heq] at hchain
            refine ⟨cache2, hchain.tail hreplaced, hreplaced.1, ?_⟩
            rw [List.mem_append, List.mem_singleton, not_or]
            exact ⟨hkept, hreplaced.2.1⟩
          · refine ⟨cache', hchain, hsound', ?_⟩
            rw [List.mem_append, List.mem_singleton, not_or]
            exact ⟨hleft, heq⟩
        · rw [List.nodup_append]
          refine ⟨hchecked.nodup, List.nodup_singleton id, fun x hx y hy heq => ?_⟩
          rw [List.mem_singleton.mp hy] at heq
          exact hskip.2 (heq ▸ hx)
        · rcases List.mem_append.mp hid' with hid' | hid'
          · exact hchecked.subset id' hid'
          · rw [List.mem_singleton.mp hid']
            exact mem_ids_of_find hfind
      next => exact hchecked

theorem Checked.foldl_replaceTurn (hchecked : b.Checked now currentCycle remove)
    (walk : List String) : b.Checked now currentCycle (walk.foldl (b.replaceTurn now) remove) := by
  induction walk generalizing remove with
  | nil => exact hchecked
  | cons id walk ih => exact ih (hchecked.replaceTurn id)

variable {cache : String × Metacache}

theorem removableId_eq (hmem : cache ∈ b.caches) :
    b.removableId now currentCycle cache.1 =
      b.removable now currentCycle cache.1 cache.2 := by
  rw [removableId, find_eq_some.mpr (show (cache.1, cache.2) ∈ b.caches from hmem)]

theorem checked_checked (b : BucketMetacache) (now : Time) (currentCycle : Nat)
    (orders : CleanupOrders) :
    b.Checked now currentCycle (b.checked now currentCycle orders) := by
  refine Checked.foldl_replaceTurn ⟨fun cache hmem hremovable => ?_, fun cache hsound hin => ?_,
    fun cache hsound => ⟨cache, .refl, hsound, fun hin => ?_⟩, ?_, fun id hid => ?_⟩ _
  · rw [List.mem_filter, MapOrder.mem_keys, removableId_eq hmem]
    exact ⟨List.mem_map.mpr ⟨cache, hmem, rfl⟩, hremovable⟩
  · rw [List.mem_filter, removableId_eq hsound.1, hsound.2] at hin
    exact absurd hin.2 Bool.false_ne_true
  · rw [List.mem_filter, removableId_eq hsound.1, hsound.2] at hin
    exact absurd hin.2 Bool.false_ne_true
  · exact ((orders.walk.perm b.ids).nodup_iff.mpr (List.nodup_dedup _)).filter _
  · exact (orders.walk.mem_keys).mp (List.mem_of_mem_filter hid)

/-! ## The limit -/

theorem mem_remaining : cache ∈ b.remaining remove ↔ cache ∈ b.caches ∧ cache.1 ∉ remove := by
  rw [remaining, List.mem_filter]
  simp

theorem sound_of_remaining (hchecked : b.Checked now currentCycle remove)
    (hmem : cache ∈ b.remaining remove) : b.Sound now currentCycle cache := by
  obtain ⟨hcache, hkept⟩ := mem_remaining.mp hmem
  refine ⟨hcache, ?_⟩
  by_contra hremovable
  exact hkept (hchecked.first cache hcache (by simpa using hremovable))

theorem id_of_sound (hsound : b.Sound now currentCycle cache) : cache.2.id = cache.1 := by
  have hremovable := hsound.2
  rw [removable, Bool.or_eq_false_iff, Bool.or_eq_false_iff, bne_eq_false_iff_eq] at hremovable
  exact hremovable.1.2

theorem nodup_remaining (b : BucketMetacache) (remove : List String) :
    (b.remaining remove).Nodup := (List.Nodup.of_map Prod.fst b.keyed).filter _

theorem length_remaining (hchecked : b.Checked now currentCycle remove) :
    b.caches.length - remove.length = (b.remaining remove).length := by
  have hsplit := List.length_eq_length_filter_add (l := b.caches)
    fun cache => decide (cache.1 ∈ remove)
  have hperm : ((b.caches.filter fun cache => decide (cache.1 ∈ remove)).map Prod.fst).Perm
      remove := by
    rw [List.perm_ext_iff_of_nodup (b.keyed.sublist (List.filter_sublist.map Prod.fst))
      hchecked.nodup]
    intro id
    rw [List.mem_map]
    constructor
    · intro ⟨cache, hcache, hid⟩
      rw [← hid]
      exact of_decide_eq_true (List.mem_filter.mp hcache).2
    · intro hid
      obtain ⟨c, hc⟩ := exists_find (hchecked.subset id hid)
      exact ⟨(id, c), List.mem_filter.mpr ⟨find_eq_some.mp hc, decide_eq_true hid⟩, rfl⟩
  have hlength := hperm.length_eq
  rw [List.length_map] at hlength
  rw [remaining]
  omega

theorem mem_beyondLimit (hchecked : b.Checked now currentCycle remove)
    (hmem : cache ∈ b.remaining remove) :
    cache.1 ∈ b.beyondLimit now orders remove ↔
      metacacheMaxEntries < (b.remaining remove).length ∧
        cache ∈ (orders.oldestFirst.sort (b.remaining remove)).drop metacacheMaxEntries ∧
        cache.2.stale now = true := by
  have hsound := sound_of_remaining hchecked hmem
  rw [beyondLimit, length_remaining hchecked]
  by_cases hover : (b.remaining remove).length > metacacheMaxEntries
  · simp only [if_pos hover, List.mem_map, List.mem_filter]
    constructor
    · intro ⟨other, ⟨hdrop, hstale⟩, hid⟩
      have hother : other ∈ b.remaining remove :=
        orders.oldestFirst.mem_sort.mp (List.mem_of_mem_drop hdrop)
      rw [id_of_sound (sound_of_remaining hchecked hother)] at hid
      rw [← sound_eq (mem_remaining.mp hother).1 hsound.1 hid]
      exact ⟨hover, hdrop, hstale⟩
    · intro ⟨_, hdrop, hstale⟩
      exact ⟨cache, ⟨hdrop, hstale⟩, id_of_sound hsound⟩
  · rw [if_neg hover]
    exact iff_of_false List.not_mem_nil fun hall => hover hall.1

theorem find_cleanup (b : BucketMetacache) (now : Time) (currentCycle : Nat)
    (orders : CleanupOrders) (id : String) :
    (b.cleanup now currentCycle orders).find id =
      if id ∈ b.checked now currentCycle orders ∨
          id ∈ b.beyondLimit now orders (b.checked now currentCycle orders) then none
      else b.find id := by
  rw [cleanup, find_foldl_deleteCache]
  simp only [MapOrder.mem_keys, List.mem_append]

variable (b now currentCycle orders) in
def left : List (String × Metacache) := b.remaining (b.checked now currentCycle orders)

theorem find_cleanup_of_left (hmem : cache ∈ b.left now currentCycle orders) :
    ((b.cleanup now currentCycle orders).find cache.1 = none ↔
      metacacheMaxEntries < (b.left now currentCycle orders).length ∧
        cache ∈ (orders.oldestFirst.sort (b.left now currentCycle orders)).drop
          metacacheMaxEntries ∧ cache.2.stale now = true) ∧
    ((b.cleanup now currentCycle orders).find cache.1 ≠ none →
      (b.cleanup now currentCycle orders).find cache.1 = some cache.2) := by
  have hchecked := checked_checked b now currentCycle orders
  have hcleanup : (b.cleanup now currentCycle orders).find cache.1 =
      if cache.1 ∈ b.beyondLimit now orders (b.checked now currentCycle orders) then none
      else some cache.2 := by
    rw [find_cleanup, (sound_of_remaining hchecked hmem).find]
    simp only [(mem_remaining.mp hmem).2, false_or]
  rw [hcleanup, left, ← mem_beyondLimit hchecked hmem]
  split
  next hin => exact ⟨iff_of_true rfl hin, fun hne => absurd rfl hne⟩
  next hout => exact ⟨iff_of_false (by simp) hout, fun _ => rfl⟩

/-! ## When a cleanup removes the oldest -/

variable (b now currentCycle orders) in
/-- A cache that may have to go because there are too many: more are left than the limit
allows, and it was not handed out recently. -/
def OverLimit (cache : String × Metacache) : Prop :=
  metacacheMaxEntries < (b.left now currentCycle orders).length ∧
    cache ∈ b.left now currentCycle orders ∧ cache.2.stale now = true

variable (b now currentCycle orders) in
/-- What a cleanup is for: the index is kept; of the caches that the checks leave those go
that are beyond the limit when the newest come first; a sound cache that none replaces is
kept, and so is for every sound cache one that replaces it. -/
structure CleansUp : Prop where
  consistent : b.Consistent → (b.cleanup now currentCycle orders).Consistent
  oldest : ∃ newestFirst : List (String × Metacache),
    newestFirst.Perm (b.left now currentCycle orders) ∧
      newestFirst.Pairwise (fun cache cache' => cache'.2.lastHandout ≤ cache.2.lastHandout) ∧
      ∀ cache ∈ b.left now currentCycle orders,
        ((b.cleanup now currentCycle orders).find cache.1 = none ↔
          cache ∈ newestFirst.drop metacacheMaxEntries ∧ cache.2.stale now = true)
  kept : ∀ cache, b.Sound now currentCycle cache → ¬ b.Superseded now currentCycle cache →
    (b.cleanup now currentCycle orders).find cache.1 = some cache.2 ∨
      b.OverLimit now currentCycle orders cache
  replaced : ∀ cache, b.Sound now currentCycle cache →
    ∃ cache', Relation.ReflTransGen (b.Replaced now currentCycle) cache cache' ∧
      ((b.cleanup now currentCycle orders).find cache'.1 = some cache'.2 ∨
        b.OverLimit now currentCycle orders cache')

theorem kept_or_overLimit (hmem : cache ∈ b.left now currentCycle orders) :
    (b.cleanup now currentCycle orders).find cache.1 = some cache.2 ∨
      b.OverLimit now currentCycle orders cache := by
  obtain ⟨hnone, hsome⟩ := find_cleanup_of_left hmem
  by_cases hgone : (b.cleanup now currentCycle orders).find cache.1 = none
  · obtain ⟨hover, -, hstale⟩ := hnone.mp hgone
    exact Or.inr ⟨hover, hmem, hstale⟩
  · exact Or.inl (hsome hgone)

theorem stale_of_le {cache cache' : Metacache} (hstale : cache.stale now = true)
    (hle : cache'.lastHandout ≤ cache.lastHandout) : cache'.stale now = true := by
  rw [Metacache.stale, decide_eq_true_iff] at hstale ⊢
  exact lt_of_lt_of_le hstale (Int.sub_le_sub_left hle now)

/-- Where the oldest go, the sort by age leaves no choice. -/
theorem of_oldest {newestFirst : List (String × Metacache)}
    (hperm : newestFirst.Perm (b.left now currentCycle orders))
    (hsorted : newestFirst.Pairwise fun cache cache' =>
      cache'.2.lastHandout ≤ cache.2.lastHandout)
    (hgone : ∀ cache ∈ b.left now currentCycle orders,
      ((b.cleanup now currentCycle orders).find cache.1 = none ↔
        cache ∈ newestFirst.drop metacacheMaxEntries ∧ cache.2.stale now = true)) :
    (b.left now currentCycle orders).length ≤ metacacheMaxEntries ∨
      (∀ cache ∈ b.left now currentCycle orders, cache.2.stale now = false) ∨
      ∀ cache ∈ b.left now currentCycle orders, ∀ cache' ∈ b.left now currentCycle orders,
        cache.2.lastHandout = cache'.2.lastHandout := by
  by_cases hover : metacacheMaxEntries < (b.left now currentCycle orders).length
  · right
    by_cases hstale : ∃ cache ∈ b.left now currentCycle orders, cache.2.stale now = true
    · right
      obtain ⟨old, hold, hold'⟩ := hstale
      have hcut : ∀ cache ∈ newestFirst, cache.2.stale now = true →
          (cache ∈ (orders.oldestFirst.sort (b.left now currentCycle orders)).drop
              metacacheMaxEntries ↔ cache ∈ newestFirst.drop metacacheMaxEntries) := by
        intro cache hcache hcstale
        have hmem := hperm.mem_iff.mp hcache
        have hiff := (find_cleanup_of_left hmem).1.symm.trans (hgone cache hmem)
        constructor
        · exact fun hdrop => (hiff.mp ⟨hover, hdrop, hcstale⟩).1
        · exact fun hdrop => (hiff.mpr ⟨hdrop, hcstale⟩).2.1
      have hkeys := @Foundation.key_eq_of_cut _ _ _
        (fun cache : String × Metacache => cache.2.lastHandout) _ newestFirst
        ((orders.oldestFirst.perm _).trans hperm.symm)
        (hperm.nodup_iff.mpr (nodup_remaining _ _))
        (orders.oldestFirst.descending (b.left now currentCycle orders)) hsorted
        metacacheMaxEntries (by decide) (by rw [hperm.length_eq]; exact hover)
        (fun cache => cache.2.stale now = true) (fun cache cache' => stale_of_le)
        ⟨old, hperm.mem_iff.mpr hold, hold'⟩ hcut
      exact fun cache hcache cache' hcache' =>
        hkeys cache (hperm.mem_iff.mpr hcache) cache' (hperm.mem_iff.mpr hcache')
    · left
      exact fun cache hcache => by
        by_contra htrue
        exact hstale ⟨cache, hcache, by simpa using htrue⟩
  · exact Or.inl (by omega)

theorem mem_left (hmem : cache ∈ b.caches) (hkept : cache.1 ∉ b.checked now currentCycle orders) :
    cache ∈ b.left now currentCycle orders := mem_remaining.mpr ⟨hmem, hkept⟩

def cacheAt (i : Nat) : Metacache :=
  { id := String.ofList (List.replicate i 'x'), bucket := "bucket", root := List.replicate i 'x'
    recursive := false, filter := [], status := .success, started := 0, ended := 1
    lastUpdate := 1, lastHandout := i, startedCycle := 0 }

def cachesUpTo (n : Nat) : List (String × Metacache) :=
  (List.range n).map fun i => ((cacheAt i).id, cacheAt i)

theorem cacheAt_id_injective : Function.Injective fun i => (cacheAt i).id := by
  intro i j heq
  have hlength := congrArg (fun id : String => id.toList.length) heq
  simpa [cacheAt] using hlength

theorem nodup_cachesUpTo (n : Nat) : ((cachesUpTo n).map Prod.fst).Nodup := by
  rw [cachesUpTo, List.map_map]
  exact List.nodup_range.map cacheAt_id_injective

/-- A bucket with so many caches, and the index that is built when it is loaded. -/
def bucketOf (n : Nat) : BucketMetacache where
  bucket := "bucket"
  caches := cachesUpTo n
  cachesRoot root := ((cachesUpTo n).filter fun cache => cache.2.root == root).map Prod.fst
  keyed := nodup_cachesUpTo n

def someOrders : CleanupOrders :=
  ⟨MapOrder.visitFirst "", MapOrder.visitFirst "", DescendingSort.stable _⟩

theorem mem_cachesUpTo {n : Nat} :
    cache ∈ cachesUpTo n ↔ ∃ i, i < n ∧ cache = ((cacheAt i).id, cacheAt i) := by
  simp [cachesUpTo, eq_comm]

theorem removable_cacheAt (n i : Nat) :
    (bucketOf n).removable (40 * minute) 0 (cacheAt i).id (cacheAt i) = false := by
  have hrecent : ¬ (40 * minute - (i : Int) > 48 * hour) := by
    rw [hour, minute]
    omega
  have hfinished : (cacheAt i).finished = true := rfl
  have hworth : (cacheAt i).worthKeeping (40 * minute) 0 = true := by
    rw [Metacache.worthKeeping, hfinished]
    simp [cacheAt, hrecent, dataUsageUpdateDirCycles]
  rw [removable, hworth]
  simp [bucketOf, cacheAt]

theorem not_canBeReplacedBy_cacheAt {i j : Nat} (hne : i ≠ j) (now : Time) :
    (cacheAt i).canBeReplacedBy now (cacheAt j) = false := by
  have hroot : (cacheAt i).root ≠ (cacheAt j).root := by
    intro heq
    have hlength := congrArg List.length heq
    simp only [cacheAt, List.length_replicate] at hlength
    exact hne hlength
  rw [Metacache.canBeReplacedBy]
  split
  next => rfl
  next =>
    split
    next => rfl
    next =>
      split
      next => rfl
      next =>
        split
        next => rfl
        next => simp [show (cacheAt i).recursive = false from rfl,
          show (cacheAt j).recursive = false from rfl, hroot]

theorem left_bucketOf (n : Nat) (orders : CleanupOrders) :
    (bucketOf n).left (40 * minute) 0 orders = cachesUpTo n := by
  have hchecked := checked_checked (bucketOf n) (40 * minute) 0 orders
  refine List.filter_eq_self.mpr fun cache hmem => ?_
  obtain ⟨i, -, rfl⟩ := mem_cachesUpTo.mp hmem
  rw [Bool.not_eq_true', decide_eq_false_iff_not]
  intro hin
  obtain ⟨cache2, hsound2, hne, hcan⟩ :=
    hchecked.superseded _ ⟨hmem, removable_cacheAt n i⟩ hin
  obtain ⟨j, -, rfl⟩ := mem_cachesUpTo.mp hsound2.1
  have hij : i ≠ j := fun heq => hne (by rw [heq])
  rw [not_canBeReplacedBy_cacheAt hij] at hcan
  exact absurd hcan Bool.false_ne_true

theorem not_cleansUp_bucketOf {n : Nat} (hover : metacacheMaxEntries < n)
    (orders : CleanupOrders) : ¬ (bucketOf n).CleansUp (40 * minute) 0 orders := by
  intro hcleans
  obtain ⟨newestFirst, hperm, hsorted, hgone⟩ := hcleans.oldest
  have hcases := of_oldest hperm hsorted hgone
  rw [left_bucketOf] at hcases
  have hlimit : 2 ≤ metacacheMaxEntries := by decide
  have hmem : ∀ i, i < 2 → ((cacheAt i).id, cacheAt i) ∈ cachesUpTo n :=
    fun i hi => mem_cachesUpTo.mpr ⟨i, by omega, rfl⟩
  rcases hcases with hfew | hfresh | hsame
  · rw [cachesUpTo, List.length_map, List.length_range] at hfew
    omega
  · have hfalse := hfresh _ (hmem 0 (by decide))
    exact absurd hfalse (by decide)
  · have hzero := hsame _ (hmem 0 (by decide)) _ (hmem 1 (by decide))
    exact absurd hzero (by decide)

end BucketMetacache

end Fs3.Listing
