import Fs3.Foundation.Histories
import Fs3.ObjectReader.RangeCorrect

/-! # Reading encrypted parts through one reader

`DecryptBlocksReader` reads the streams of an object's parts one after another. -/

namespace Fs3.ObjectReader

open Foundation

inductive BlocksErr where
  | eof
  | failed
  deriving DecidableEq

/-- The reader, with what its source and its decrypter have left. -/
structure BlocksReader where
  reader : Bytes
  decrypter : Bytes := []
  startSeqNum : Nat
  partIndex : Nat
  parts : List ObjectPartInfo
  partDecRelOffset : Int
  partEncRelOffset : Int

/-- What the decrypter answers to one read. -/
structure DecrypterRead where
  n : Nat
  fails : Bool := false
  deriving DecidableEq

/-- What a call reports, and what it has filled in. -/
structure BlocksAnswer where
  n : Nat
  err : Option BlocksErr := none
  filled : Bytes
  next : BlocksReader

namespace BlocksReader

variable {Key : Type} (dare : Dare Key) (objectKey : Key) (d : BlocksReader)

def buildDecrypter (part : ObjectPartInfo) : BlocksReader :=
  let encLenToRead := (part.size - d.partEncRelOffset).toNat
  { d with
    decrypter := dare.decryptReader (dare.partKey objectKey part) d.startSeqNum
      (d.reader.take encLenToRead)
    reader := d.reader.drop encLenToRead }

/-- The reader that `DecryptBlocksRequestR` makes; it indexes the parts with the first. -/
def requestR (inputReader : Bytes) (parts : List ObjectPartInfo) (seqNumber partStart : Nat) :
    Option BlocksReader :=
  (parts[partStart]?).map fun part =>
    buildDecrypter dare objectKey
      { reader := inputReader
        startSeqNum := seqNumber
        partIndex := partStart
        parts
        partDecRelOffset := (seqNumber : Int) * sseDAREPackageBlockSize
        partEncRelOffset :=
          (seqNumber : Int) * ((sseDAREPackageBlockSize : Int) + sseDAREPackageMetaSize) } part

def unreadPartLen (part : ObjectPartInfo) : Int :=
  ((dare.decryptedSize part.size.toNat).getD 0 : Nat) - d.partDecRelOffset

/-- `Read`, with what the decrypter answers where it is read once; nothing is returned
where an index is out of range. -/
def read (len : Nat) (answer : DecrypterRead) : Option BlocksAnswer :=
  match d.parts[d.partIndex]? with
  | none => none
  | some part =>
    let unread := d.unreadPartLen dare part
    if (len : Int) < unread then
      let filled := d.decrypter.take answer.n
      let next := { d with decrypter := d.decrypter.drop answer.n }
      if answer.fails then some { n := 0, err := some .failed, filled, next }
      else
        some { n := len, filled
               next := { next with partDecRelOffset := d.partDecRelOffset + answer.n } }
    else if unread < 0 then none
    else if (d.decrypter.length : Int) < unread then
      some { n := 0, err := some .failed, filled := d.decrypter, next := { d with decrypter := [] } }
    else
      let filled := d.decrypter.take unread.toNat
      let next :=
        { d with
          partEncRelOffset := 0
          partDecRelOffset := 0
          startSeqNum := 0
          partIndex := d.partIndex + 1 }
      match d.parts[d.partIndex + 1]? with
      | none => some { n := filled.length, err := some .eof, filled, next }
      | some part =>
        let next := next.buildDecrypter dare objectKey part
        let filled := filled ++ next.decrypter.take answer.n
        let next := { next with decrypter := next.decrypter.drop answer.n }
        if answer.fails then some { n := 0, err := some .failed, filled, next }
        else some { n := len, filled, next := { next with partDecRelOffset := answer.n } }

/-- A reader in use: what it has filled in, whether it has reported the end, and whether
every call kept to the contract. -/
structure Session where
  d : BlocksReader
  out : Bytes := []
  ended : Bool := false
  kept : Bool := true

/-- A call with a buffer, and what the decrypter answers meanwhile. -/
abbrev Call := Nat × DecrypterRead

def Session.step (s : Session) (call : Call) : Session :=
  match s.d.read dare objectKey call.1 call.2 with
  | none => { s with kept := false }
  | some a =>
    { d := a.next
      out := s.out ++ a.filled
      ended := s.ended || a.err == some .eof
      kept := s.kept && a.n == a.filled.length && a.err != some .failed &&
        (!s.ended || (a.n == 0 && a.err == some .eof)) }

/-- Every call reported what it filled in, in order, and the end after the last part and
ever after. -/
structure Session.Obeys (stream : Bytes) (s : Session) : Prop where
  kept : s.kept = true
  running : s.out <+: stream
  ended : s.ended = true → s.out = stream

/-- No call is made after the end was reported, none reaches past the part behind the one
it begins in, and the decrypter fills the buffer that it is given. -/
def Session.Good (s : Session) (call : Call) : Prop :=
  s.ended = false ∧ ∀ part ∈ s.d.parts[s.d.partIndex]?,
    let unread := s.d.unreadPartLen dare part
    if (call.1 : Int) < unread then call.2 = ⟨call.1, false⟩
    else
      ∀ behind ∈ s.d.parts[s.d.partIndex + 1]?,
        call.1 - unread ≤ ((dare.decryptedSize behind.size.toNat).getD 0 : Nat) ∧
          call.2 = ⟨(call.1 - unread).toNat, false⟩

/-- The reader is in a part of which this is left, with these parts behind it. -/
structure At (left : Bytes) (segments : List Bytes) : Prop where
  part : ∃ part, d.parts[d.partIndex]? = some part ∧ d.unreadPartLen dare part = left.length
  decrypter : d.decrypter = left
  sizes : (d.parts.drop (d.partIndex + 1)).map ObjectPartInfo.size =
    segments.map fun segment => (dareSize segment.length : Int)
  reader : d.reader = (dare.streams ((d.parts.drop (d.partIndex + 1)).map (dare.partKey objectKey))
    segments).flatten.flatten
  bounded : ∀ segment ∈ segments, segment.length ≤ maxDecryptedSize

variable {dare objectKey d} {left : Bytes} {segments : List Bytes}

theorem At.read_within (hat : At dare objectKey d left segments) {len : Nat}
    (hlen : len < left.length) :
    ∃ next, d.read dare objectKey len ⟨len, false⟩ =
        some { n := len, filled := left.take len, next } ∧
      At dare objectKey next (left.drop len) segments := by
  obtain ⟨part, hpart, hunread⟩ := hat.part
  unfold read
  rw [hpart]
  dsimp only
  rw [hunread, if_pos (by exact_mod_cast hlen), if_neg Bool.false_ne_true, hat.decrypter]
  refine ⟨_, rfl, ⟨part, hpart, ?_⟩, rfl, hat.sizes, hat.reader, hat.bounded⟩
  unfold unreadPartLen at hunread ⊢
  rw [List.length_drop]
  dsimp only
  omega

theorem At.read_last (hat : At dare objectKey d left []) {len : Nat} (hlen : left.length ≤ len)
    (answer : DecrypterRead) :
    ∃ next, d.read dare objectKey len answer =
      some { n := left.length, err := some .eof, filled := left, next } := by
  obtain ⟨part, hpart, hunread⟩ := hat.part
  have hnone : d.parts[d.partIndex + 1]? = none := by
    have hsizes := hat.sizes
    rw [List.map_nil, List.map_eq_nil_iff, List.drop_eq_nil_iff] at hsizes
    exact List.getElem?_eq_none hsizes
  unfold read
  rw [hpart]
  dsimp only
  rw [hunread, if_neg (by omega), if_neg (by omega), hat.decrypter, if_neg (lt_irrefl _), hnone,
    Int.toNat_natCast, List.take_length]
  exact ⟨_, rfl⟩

theorem buildDecrypter_packages {part : ObjectPartInfo} {segment rest : Bytes} {first : Nat}
    (hsize : part.size = dareSize segment.length) (hseq : d.startSeqNum = first)
    (hoffset : d.partEncRelOffset =
      (first : Int) * ((sseDAREPackageBlockSize : Int) + sseDAREPackageMetaSize))
    (hreader : d.reader =
      ((dare.packages (dare.partKey objectKey part) segment).drop first).flatten ++ rest) :
    d.buildDecrypter dare objectKey part =
      { d with decrypter := segment.drop (first * sseDAREPackageBlockSize), reader := rest } := by
  have hlength : (part.size - d.partEncRelOffset).toNat =
      ((dare.packages (dare.partKey objectKey part) segment).drop first).flatten.length := by
    have hcast : (first : Int) * ((sseDAREPackageBlockSize : Int) + sseDAREPackageMetaSize) =
        ((first * (sseDAREPackageBlockSize + sseDAREPackageMetaSize) : Nat) : Int) := by
      push_cast
      rfl
    rw [length_drop_packages, hsize, hoffset, hcast]
    omega
  unfold buildDecrypter
  dsimp only
  rw [hlength, hreader, List.take_left, List.drop_left, hseq, decryptReader_drop]

theorem At.behind {segment : Bytes} (hat : At dare objectKey d left (segment :: segments)) :
    ∃ behind later, d.parts.drop (d.partIndex + 1) = behind :: later ∧
      d.parts[d.partIndex + 1]? = some behind ∧ behind.size = dareSize segment.length ∧
      (dare.decryptedSize behind.size.toNat).getD 0 = segment.length := by
  have hsizes := hat.sizes
  cases hdrop : d.parts.drop (d.partIndex + 1) with
  | nil => simp [hdrop] at hsizes
  | cons behind later =>
    rw [hdrop, List.map_cons, List.map_cons, List.cons.injEq] at hsizes
    refine ⟨behind, later, rfl, ?_, hsizes.1, ?_⟩
    · rw [← List.head?_drop, hdrop]
      rfl
    · rw [hsizes.1, Int.toNat_natCast,
        dare.decryptedSize_eq _ (hat.bounded segment List.mem_cons_self), Option.getD_some]

/-- A call that reaches the end of a part fills the rest of its buffer from the next. -/
theorem At.read_over {segment : Bytes} (hat : At dare objectKey d left (segment :: segments))
    {len : Nat} (hlen : left.length ≤ len) (hfits : len - left.length ≤ segment.length) :
    ∃ next, d.read dare objectKey len ⟨len - left.length, false⟩ =
        some { n := len, filled := left ++ segment.take (len - left.length), next } ∧
      At dare objectKey next (segment.drop (len - left.length)) segments := by
  obtain ⟨part, hpart, hunread⟩ := hat.part
  obtain ⟨behind, later, hlater, hbehind, hsize, hplain⟩ := hat.behind
  have hlater' : d.parts.drop (d.partIndex + 1 + 1) = later := by
    rw [← List.drop_drop, hlater]
    rfl
  have hsizes := hat.sizes
  have hreader := hat.reader
  rw [hlater, List.map_cons, List.map_cons, List.cons.injEq] at hsizes
  rw [hlater, List.map_cons, Dare.streams, List.flatten_cons, List.flatten_append] at hreader
  have hbuild := @buildDecrypter_packages _ dare objectKey
    { d with decrypter := left, partEncRelOffset := 0, partDecRelOffset := 0, startSeqNum := 0,
             partIndex := d.partIndex + 1 }
    behind segment _ 0 hsize rfl (by simp) hreader
  unfold read
  rw [hpart]
  dsimp only
  rw [hunread, if_neg (by omega), if_neg (by omega), hat.decrypter, if_neg (lt_irrefl _), hbehind,
    Int.toNat_natCast, List.take_length]
  dsimp only
  rw [if_neg Bool.false_ne_true, hbuild, Nat.zero_mul, List.drop_zero]
  refine ⟨_, rfl, ⟨behind, hbehind, ?_⟩, rfl, ?_, ?_, (List.forall_mem_cons.mp hat.bounded).2⟩
  · unfold unreadPartLen
    rw [hplain, List.length_drop]
    dsimp only
    omega
  · dsimp only
    rw [hlater', hsizes.2]
  · dsimp only
    rw [hlater']

/-! ## Runs -/

/-- The reader stands where what it has filled in ends. -/
structure Session.Inv (dare : Dare Key) (objectKey : Key) (stream : Bytes) (s : Session) :
    Prop where
  kept : s.kept = true
  running : s.ended = false → ∃ left segments, At dare objectKey s.d left segments ∧
    stream = s.out ++ (left ++ segments.flatten)
  ended : s.ended = true → s.out = stream

variable {stream : Bytes} {s : Session}

theorem Session.Inv.obeys (hinv : s.Inv dare objectKey stream) : s.Obeys stream where
  kept := hinv.kept
  running := by
    cases hended : s.ended with
    | true => exact (hinv.ended hended) ▸ List.prefix_rfl
    | false =>
      obtain ⟨left, segments, -, hstream⟩ := hinv.running hended
      exact ⟨_, hstream.symm⟩
  ended := hinv.ended

theorem Session.Inv.step (hinv : s.Inv dare objectKey stream) {call : Call}
    (hgood : s.Good dare call) : (s.step dare objectKey call).Inv dare objectKey stream := by
  obtain ⟨len, answer⟩ := call
  obtain ⟨hended, hgood⟩ := hgood
  obtain ⟨left, segments, hat, hstream⟩ := hinv.running hended
  obtain ⟨part, hpart, hunread⟩ := hat.part
  have hgood := hgood part hpart
  dsimp only at hgood
  rw [hunread] at hgood
  unfold Session.step
  by_cases hwithin : len < left.length
  · rw [if_pos (by exact_mod_cast hwithin)] at hgood
    obtain ⟨next, hread, hnext⟩ := hat.read_within hwithin
    subst hgood
    rw [hread]
    refine ⟨?_, fun _ => ⟨_, _, hnext, ?_⟩, fun hends => ?_⟩
    · simp [hinv.kept, hended]
      omega
    · rw [hstream, List.append_assoc, ← List.append_assoc (left.take len), List.take_append_drop]
    · simp [hended] at hends
  · have hlen : left.length ≤ len := Nat.le_of_not_lt hwithin
    rw [if_neg (by omega)] at hgood
    cases segments with
    | nil =>
      obtain ⟨next, hread⟩ := hat.read_last hlen answer
      rw [hread]
      refine ⟨?_, fun hends => ?_, fun _ => ?_⟩
      · simp [hinv.kept, hended]
      · simp at hends
      · simpa using hstream.symm
    | cons segment segments =>
      obtain ⟨behind, later, -, hbehind, -, hplain⟩ := hat.behind
      obtain ⟨hfits, hanswer⟩ := hgood behind hbehind
      rw [hplain] at hfits
      obtain ⟨next, hread, hnext⟩ := hat.read_over hlen (by omega)
      have hsame : answer = ⟨len - left.length, false⟩ := by
        rw [hanswer]
        congr 1
        omega
      rw [hsame, hread]
      refine ⟨?_, fun _ => ⟨_, _, hnext, ?_⟩, fun hends => ?_⟩
      · simp [hinv.kept, hended]
        omega
      · rw [hstream, List.flatten_cons, List.append_assoc, List.append_assoc,
          ← List.append_assoc (segment.take _), List.take_append_drop]
      · simp [hended] at hends

/-- In a run of good calls the reader keeps to the contract: on an object whose parts hold
these segments, from some packages into one of them. -/
theorem reads_obey (dare : Dare Key) (objectKey : Key) {parts : List ObjectPartInfo}
    {skipped segments : List Bytes} {segment : Bytes} {first : Nat} {d : BlocksReader}
    (hsizes : parts.map ObjectPartInfo.size =
      (skipped ++ segment :: segments).map fun s => (dareSize s.length : Int))
    (hbounded : ∀ s ∈ skipped ++ segment :: segments, s.length ≤ maxDecryptedSize)
    (hfirst : first * sseDAREPackageBlockSize ≤ segment.length)
    (hrequest : requestR dare objectKey
      ((dare.streams ((parts.drop skipped.length).map (dare.partKey objectKey))
        (segment :: segments)).flatten.drop first).flatten parts first skipped.length = some d)
    (calls : List Call)
    (hgood : Guarded (Session.step dare objectKey) (Session.Good dare) { d } calls) :
    Always (Session.step dare objectKey)
      (Session.Obeys (segment.drop (first * sseDAREPackageBlockSize) ++ segments.flatten))
      { d } calls := by
  rw [List.map_append, List.map_cons, List.map_eq_append_iff] at hsizes
  obtain ⟨before, after, rfl, hbefore, hafter⟩ := hsizes
  rw [List.map_eq_cons_iff] at hafter
  obtain ⟨part, later, rfl, hpart, hlater⟩ := hafter
  have hlength : skipped.length = before.length := by
    rw [← List.length_map ObjectPartInfo.size, hbefore, List.length_map]
  have hcount : first ≤ (dare.packages (dare.partKey objectKey part) segment).length :=
    le_packages_count hfirst
  rw [hlength, List.drop_left, List.map_cons, Dare.streams, List.flatten_cons,
    List.drop_append_of_le_length hcount, List.flatten_append, requestR,
    List.getElem?_append_right le_rfl, Nat.sub_self, List.getElem?_cons_zero, Option.map_some,
    buildDecrypter_packages hpart rfl rfl rfl, Option.some.injEq] at hrequest
  subst hrequest
  have hdrop : (before ++ part :: later).drop (before.length + 1) = later := by
    rw [← List.drop_drop, List.drop_left]
    rfl
  refine (hgood.always (fun s call hinv hgood => Session.Inv.step hinv hgood) ?_).imp
    fun s hinv => hinv.obeys
  refine ⟨rfl, fun _ => ⟨_, segments, ⟨⟨part, ?_, ?_⟩, rfl, ?_, ?_, ?_⟩, rfl⟩,
    fun hended => absurd hended Bool.false_ne_true⟩
  · rw [List.getElem?_append_right le_rfl, Nat.sub_self, List.getElem?_cons_zero]
  · have hbound := hbounded segment (List.mem_append_right _ List.mem_cons_self)
    unfold unreadPartLen
    rw [hpart, Int.toNat_natCast, dare.decryptedSize_eq _ hbound, Option.getD_some,
      List.length_drop]
    dsimp only
    rw [Nat.cast_sub hfirst]
    push_cast
    rfl
  · dsimp only
    rw [hdrop, hlater]
  · dsimp only
    rw [hdrop]
  · intro s hs
    exact hbounded s (List.mem_append_right _ (List.mem_cons_of_mem _ hs))

def partsOf (sizes : List Nat) : List ObjectPartInfo :=
  sizes.map fun n => { number := 1, size := dareSize n }

/-- A buffer that ends within a part. -/
theorem firstRead_obeys :
    ∃ d, requestR plainDare () ((plainDare.streams [()] [[1, 2, 3]]).flatten.drop 0).flatten
        (partsOf [3]) 0 0 = some d ∧
      Always (Session.step plainDare ()) (Session.Obeys [1, 2, 3]) { d } [(2, ⟨2, false⟩)] := by
  refine ⟨_, rfl, @reads_obey _ plainDare () (partsOf [3]) [] [] [1, 2, 3] 0 _ rfl (by decide)
    (by decide) rfl _ (guarded_cons.mpr ⟨⟨rfl, ?_⟩, guarded_nil⟩)⟩
  intro part hpart
  cases hpart
  decide

/-- A buffer of four bytes over three parts of one is filled with two and reported full, and
a call after the end indexes past the parts. -/
theorem wideRead_miscounts :
    (∃ d, requestR plainDare () (plainDare.streams [(), (), ()] [[1], [2], [3]]).flatten.flatten
        (partsOf [1, 1, 1]) 0 0 = some d ∧
      ¬ Always (Session.step plainDare ()) (Session.Obeys [1, 2, 3]) { d } [(4, ⟨1, false⟩)]) ∧
    ∃ d, requestR plainDare () (plainDare.streams [()] [[1]]).flatten.flatten
        (partsOf [1]) 0 0 = some d ∧
      ¬ Always (Session.step plainDare ()) (Session.Obeys [1]) { d }
        [(1, ⟨0, false⟩), (1, ⟨0, false⟩)] := by
  refine ⟨⟨_, rfl, fun halways => ?_⟩, _, rfl, fun halways => ?_⟩
  · exact absurd (halways _ List.prefix_rfl).kept (by decide)
  · exact absurd (halways _ List.prefix_rfl).kept (by decide)

end BlocksReader

end Fs3.ObjectReader
