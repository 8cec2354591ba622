import KnowYourMemory.Run
import KnowYourMemory.RingOffsets

/-!
# The reversed sender ring is the mirrored magic one

Both sender rings take the same writes, and heads at the same boundaries of the stream.
Offsets mirror each other, except that the reversed ring has two words, `0` and `L`, for
the offset `0` of the magic ring: `0` stands for the boundaries at the start that whole
rings lead to, `L` for later ones, and the two never meet as head and tail.
-/

set_option autoImplicit false

namespace KYM.MirroredRings
open KYM.Run KYM.RingBuffer KYM.RingOffsets

/-- Both rings, the tails they had at each boundary of the stream, and the place of the
boundary that was named last. -/
structure Rings where
  magic : RemoteBuffer
  reverse : RemoteBuffer
  boundaries : List (UInt32 × UInt32)
  named : ℕ
  deriving DecidableEq, Repr

inductive Event where
  | write (len : UInt32)
  | updateHead (i : ℕ)
  deriving DecidableEq, Repr

def init (magic reverse : BufferContext) : Rings where
  magic := newRemoteBuffer magic
  reverse := newRemoteBuffer reverse
  boundaries := [(0, 0)]
  named := 0

def written (r : RemoteBuffer) (result : StatusOr (UInt64 × RemoteBuffer)) : RemoteBuffer :=
  match result with
  | .ok (_, r') => r'
  | .error _ => r

/-- A boundary is recorded when the magic ring accepts; a head is taken from a boundary
that is not older than the last one named. -/
def step (p : Rings) : Event → Option Rings
  | .write len =>
    let magic := written p.magic (Magic.write p.magic len)
    let reverse := written p.reverse (Reverse.write p.reverse len)
    some { p with
      magic := magic
      reverse := reverse
      boundaries := if refusal (Magic.write p.magic len) = none
        then p.boundaries++[(magic.tail, reverse.tail)] else p.boundaries }
  | .updateHead i =>
    if p.named ≤ i then
      match p.boundaries[i]? with
      | none => none
      | some b => some { p with
          magic := Magic.updateHead p.magic b.1
          reverse := Reverse.updateHead p.reverse b.2
          named := i }
    else none

def Positive (_ : Rings) : Event → Prop
  | .write len => 1 ≤ len.toNat
  | _ => True

instance (p : Rings) : ∀ e : Event, Decidable (Positive p e)
  | .write len => inferInstanceAs (Decidable (1 ≤ len.toNat))
  | .updateHead _ => isTrue trivial

/-- The rings refuse the same lengths for the same reasons, agree on `full`, and their
tails and heads add up to zero modulo `L`. -/
structure Simulates (L : ℕ) (p : Rings) : Prop where
  refusal : ∀ len, refusal (Magic.write p.magic len) = refusal (Reverse.write p.reverse len)
  full : p.magic.full = p.reverse.full
  tail : (p.magic.tail.toNat+p.reverse.tail.toNat)%L = 0
  head : (p.magic.head.toNat+p.reverse.head.toNat)%L = 0

def Mirror (L t r : ℕ) : Prop := t < L ∧ r ≤ L ∧ (t+r = L ∨ (t = 0 ∧ r = 0))

def magicGap (L h t : ℕ) : ℕ := if h < t then L-t+h else h-t

def reverseGap (L g r : ℕ) : ℕ := if g > r then L-g+r else r-g

/-- Head and tail of the reversed ring are not the two words for one offset. -/
def Apart (L g r : ℕ) : Prop := ¬(g = 0 ∧ r = L) ∧ ¬(g = L ∧ r = 0)

section Numbers

variable {L h t g r n : ℕ}

theorem Mirror.sum (m : Mirror L t r) : (t+r)%L = 0 := by
  obtain ⟨-, -, hs | ⟨rfl, rfl⟩⟩ := m
  · rw [hs, Nat.mod_self]
  · exact Nat.zero_mod L

theorem eq_iff_of_mirror (hh : Mirror L h g) (ht : Mirror L t r) (ha : Apart L g r) :
    h = t ↔ g = r := by
  obtain ⟨h1, h2, h3⟩ := hh
  obtain ⟨t1, t2, t3⟩ := ht
  obtain ⟨a1, a2⟩ := ha
  constructor <;> intro he <;> omega

theorem gap_eq (hh : Mirror L h g) (ht : Mirror L t r) (hne : h ≠ t) :
    magicGap L h t = reverseGap L g r := by
  obtain ⟨h1, h2, h3⟩ := hh
  obtain ⟨t1, t2, t3⟩ := ht
  unfold magicGap reverseGap
  split <;> split <;> omega

theorem gap_le (hh : h < L) (ht : t < L) : magicGap L h t ≤ L := by
  unfold magicGap
  split <;> omega

theorem Mirror.advance (m : Mirror L t r) (h1 : 1 ≤ n) (hn : n ≤ L) :
    Mirror L ((t+n)%L) (if r > n then r-n else r+L-n) := by
  obtain ⟨m1, m2, m3⟩ := m
  have hadv := mod_advance L t n (by omega) hn
  rw [Nat.mod_eq_of_lt m1] at hadv
  have hlt := Nat.mod_lt (t+n) (by omega : 0 < L)
  unfold Mirror
  split <;> omega

end Numbers

section Words

variable {L : ℕ} {b : RemoteBuffer} {len : UInt32}

theorem written_refused {result : StatusOr (UInt64 × RemoteBuffer)} {e : Status}
    (h : refusal result = some e) : written b result = b := by
  cases result with
  | error e => rfl
  | ok x => cases h

theorem refusal_magic_write (b : RemoteBuffer) (len : UInt32) :
    refusal (Magic.write b len) = refusal (Magic.getWriteAddr b len) := by
  unfold Magic.write
  cases Magic.getWriteAddr b len <;> rfl

theorem refusal_reverse_write (b : RemoteBuffer) (len : UInt32) :
    refusal (Reverse.write b len) = refusal (Reverse.getNextTail b len) := by
  unfold Reverse.write
  cases Reverse.getNextTail b len <;> rfl

def refused (l x y len : UInt32) (full : Bool) : Option Status :=
  if x = y ∧ full then some bufferFull
  else if x = y ∧ len > l then some tooLarge
  else if y < x ∧ (l-x)+y ≤ len then some noSpace
  else if x < y ∧ y-x ≤ len then some noSpace
  else none

theorem refused_magic (b : RemoteBuffer) (len : UInt32) :
    refusal (Magic.write b len) = refused b.length b.tail b.head len b.full := by
  rw [refusal_magic_write, Magic.getWriteAddr, refused]
  simp only [eq_comm (a := b.tail)]
  split_ifs <;> rfl

theorem refused_reverse (b : RemoteBuffer) (len : UInt32) :
    refusal (Reverse.write b len) = refused b.length b.head b.tail len b.full := by
  rw [refusal_reverse_write, Reverse.getNextTail, refused]
  split_ifs <;> rfl

theorem refused_eq (l x y len : UInt32) (full : Bool) (hl : l.toNat = L) (h2 : 2*L < 2^32)
    (hx : x.toNat ≤ L) : refused l x y len full =
      if x.toNat = y.toNat then
        if full then some bufferFull else if L < len.toNat then some tooLarge else none
      else if magicGap L y.toNat x.toNat ≤ len.toNat then some noSpace else none := by
  unfold refused magicGap
  rcases Nat.lt_trichotomy x.toNat y.toNat with hlt | heq | hgt
  · have hsub := sub_toNat y x hlt.le
    have hne : x ≠ y := fun he => by simp [he] at hlt
    simp only [hne, false_and, if_false, UInt32.lt_iff_toNat_lt, UInt32.le_iff_toNat_le,
      hlt, hlt.ne, true_and, hsub, not_lt_of_gt hlt]
  · have he : x = y := UInt32.toNat_inj.mp heq
    simp only [he, true_and, if_true, gt_iff_lt, UInt32.lt_iff_toNat_lt, hl, lt_self_iff_false,
      false_and, if_false]
  · have hsub := sub_toNat l x (by omega)
    have hadd := add_toNat (l-x) y (by omega)
    have hne : x ≠ y := fun he => by simp [he] at hgt
    simp only [hne, false_and, if_false, UInt32.lt_iff_toNat_lt, UInt32.le_iff_toNat_le,
      hgt, hgt.ne', true_and, if_true, hadd, hsub, hl, not_lt_of_gt hgt]

theorem magic_refusal (hL : b.length.toNat = L) (h2 : 2*L < 2^32) (ht : b.tail.toNat < L) :
    refusal (Magic.write b len) =
      if b.head.toNat = b.tail.toNat then
        if b.full then some bufferFull else if L < len.toNat then some tooLarge else none
      else if magicGap L b.head.toNat b.tail.toNat ≤ len.toNat then some noSpace else none := by
  rw [refused_magic, refused_eq _ _ _ _ _ hL h2 ht.le]
  simp only [eq_comm (a := b.tail.toNat)]

theorem reverse_refusal (hL : b.length.toNat = L) (h2 : 2*L < 2^32) (hh : b.head.toNat ≤ L) :
    refusal (Reverse.write b len) =
      if b.head.toNat = b.tail.toNat then
        if b.full then some bufferFull else if L < len.toNat then some tooLarge else none
      else if reverseGap L b.head.toNat b.tail.toNat ≤ len.toNat then some noSpace else none := by
  rw [refused_reverse, refused_eq _ _ _ _ _ hL h2 hh]
  rfl

theorem written_magic (hL : b.length.toNat = L) (h2 : 2*L < 2^32) (hn : len.toNat ≤ L)
    (ht : b.tail.toNat < L) (hok : refusal (Magic.write b len) = none) :
    ∃ tail : UInt32, tail.toNat = (b.tail.toNat+len.toNat)%L ∧
      written b (Magic.write b len) = { b with tail := tail, full := tail = b.head } := by
  refine ⟨(b.tail+len)%b.length, ?_, ?_⟩
  · rw [UInt32.toNat_mod, add_toNat _ _ (by omega), hL]
  · rw [refusal_magic_write] at hok
    unfold Magic.write
    cases hg : Magic.getWriteAddr b len with
    | error e => simp [hg, refusal] at hok
    | ok a => rfl

theorem written_reverse (hL : b.length.toNat = L) (h2 : 2*L < 2^32) (hn : len.toNat ≤ L)
    (ht : b.tail.toNat ≤ L) (hok : refusal (Reverse.write b len) = none) :
    ∃ tail : UInt32, tail.toNat = (if b.tail.toNat > len.toNat then b.tail.toNat-len.toNat
        else b.tail.toNat+L-len.toNat) ∧
      written b (Reverse.write b len) = { b with tail := tail, full := tail = b.head } := by
  refine ⟨if b.tail > len then b.tail-len else b.tail+b.length-len, ?_, ?_⟩
  · by_cases hgt : b.tail.toNat > len.toNat
    · rw [if_pos (UInt32.lt_iff_toNat_lt.mpr hgt), if_pos hgt, sub_toNat _ _ (by omega)]
    · have hadd := add_toNat b.tail b.length (by omega)
      rw [if_neg (fun h => hgt (UInt32.lt_iff_toNat_lt.mp h)), if_neg hgt,
        sub_toNat _ _ (by omega), hadd, hL]
  · rw [refusal_reverse_write] at hok
    unfold Reverse.write
    cases hg : Reverse.getNextTail b len with
    | error e => simp [hg, refusal] at hok
    | ok a =>
      have ha : a = if b.tail > len then b.tail-len else b.tail+b.length-len := by
        unfold Reverse.getNextTail at hg
        iterate 4 (split at hg; · cases hg)
        exact (Except.ok.inj hg).symm
      rw [← ha]
      rfl

end Words

/-- Boundaries of the reversed ring with offset `0` are the oldest ones, and none of the
others is at `L` as long as the head is one of them. -/
structure Mirrored (L : ℕ) (p : Rings) : Prop where
  magicLength : p.magic.length.toNat = L
  reverseLength : p.reverse.length.toNat = L
  mirror : ∀ b ∈ p.boundaries, Mirror L b.1.toNat b.2.toNat
  zeros : p.boundaries.Pairwise (fun a b => b.2.toNat = 0 → a.2.toNat = 0)
  tail : p.boundaries.getLast? = some (p.magic.tail, p.reverse.tail)
  head : p.boundaries[p.named]? = some (p.magic.head, p.reverse.head)
  unwrapped : p.reverse.head.toNat = 0 → ∀ b ∈ p.boundaries, b.2.toNat ≠ L
  full : p.magic.full = p.reverse.full

section Steps

variable {L : ℕ} {p q : Rings}

theorem Mirrored.tail_mem (m : Mirrored L p) : (p.magic.tail, p.reverse.tail) ∈ p.boundaries :=
  List.mem_of_getLast? m.tail

theorem Mirrored.head_mem (m : Mirrored L p) : (p.magic.head, p.reverse.head) ∈ p.boundaries :=
  List.mem_of_getElem? m.head

theorem Mirrored.zeros_of_tail (m : Mirrored L p) (h0 : p.reverse.tail.toNat = 0) :
    ∀ b ∈ p.boundaries, b.2.toNat = 0 := by
  obtain ⟨older, hb⟩ := List.getLast?_eq_some_iff.mp m.tail
  have hz := m.zeros
  rw [hb, List.pairwise_append] at hz
  intro b hm
  rw [hb] at hm
  rcases List.mem_append.mp hm with hm | hm
  · exact hz.2.2 b hm _ (List.mem_singleton.mpr rfl) h0
  · rw [List.mem_singleton.mp hm]
    exact h0

theorem Mirrored.apart (m : Mirrored L p) :
    Apart L p.reverse.head.toNat p.reverse.tail.toNat := by
  constructor
  · rintro ⟨hg, hr⟩
    exact m.unwrapped hg _ m.tail_mem hr
  · rintro ⟨hg, hr⟩
    have h0 := m.zeros_of_tail hr _ m.head_mem
    have := (m.mirror _ m.head_mem).1
    simp only at h0
    omega

theorem Mirrored.refusal (m : Mirrored L p) (h2 : 2*L < 2^32) (len : UInt32) :
    refusal (Magic.write p.magic len) = refusal (Reverse.write p.reverse len) := by
  have hh := m.mirror _ m.head_mem
  have ht := m.mirror _ m.tail_mem
  have heq := eq_iff_of_mirror hh ht m.apart
  rw [magic_refusal m.magicLength h2 ht.1, reverse_refusal m.reverseLength h2 hh.2.1]
  by_cases he : p.magic.head.toNat = p.magic.tail.toNat
  · rw [if_pos he, if_pos (heq.mp he), m.full]
  · rw [if_neg he, if_neg (fun h => he (heq.mpr h)), gap_eq hh ht he]

theorem Mirrored.fits (m : Mirrored L p) (h2 : 2*L < 2^32) (len : UInt32)
    (hok : RingBuffer.refusal (Magic.write p.magic len) = none) :
    len.toNat ≤ L ∧ (p.magic.head.toNat ≠ p.magic.tail.toNat →
      len.toNat < reverseGap L p.reverse.head.toNat p.reverse.tail.toNat) := by
  have hh := m.mirror _ m.head_mem
  have ht := m.mirror _ m.tail_mem
  have hgap := gap_le hh.1 ht.1
  rw [magic_refusal m.magicLength h2 ht.1] at hok
  by_cases he : p.magic.head.toNat = p.magic.tail.toNat
  · rw [if_pos he] at hok
    refine ⟨?_, fun hne => absurd he hne⟩
    by_contra hlt
    cases hf : p.magic.full <;> simp [hf, show L < len.toNat by omega] at hok
  · rw [if_neg he] at hok
    have hlt : len.toNat < magicGap L p.magic.head.toNat p.magic.tail.toNat := by
      by_contra hge
      rw [if_pos (by omega)] at hok
      cases hok
    simp only at hgap
    exact ⟨by omega, fun _ => gap_eq hh ht he ▸ hlt⟩

theorem tail_ne_length {L r n : ℕ} (h1 : 1 ≤ n) (hn : n ≤ L) (hr : r ≤ L)
    (hfit : r ≠ 0 → n < reverseGap L 0 r) : (if r > n then r-n else r+L-n) ≠ L := by
  unfold reverseGap at hfit
  rw [if_neg (by omega)] at hfit
  split <;> omega

theorem Mirrored.write (m : Mirrored L p) (h2 : 2*L < 2^32) (len : UInt32) (h1 : 1 ≤ len.toNat)
    (hs : step p (.write len) = some q) : Mirrored L q := by
  have hsame := m.refusal h2 len
  simp only [step, Option.some.injEq] at hs
  cases hok : RingBuffer.refusal (Magic.write p.magic len) with
  | some e =>
    rw [written_refused hok, written_refused (hsame ▸ hok), hok, if_neg (by simp)] at hs
    exact hs ▸ m
  | none =>
    have hh := m.mirror _ m.head_mem
    have ht := m.mirror _ m.tail_mem
    obtain ⟨hn, hfit⟩ := m.fits h2 len hok
    obtain ⟨t, htail, hmagic⟩ := written_magic m.magicLength h2 hn ht.1 hok
    obtain ⟨r, rtail, hreverse⟩ := written_reverse m.reverseLength h2 hn ht.2.1 (hsame ▸ hok)
    have hnew : Mirror L t.toNat r.toNat := by
      rw [htail, rtail]
      exact ht.advance h1 hn
    rw [hmagic, hreverse, hok, if_pos rfl] at hs
    subst hs
    have hlast : ∀ b ∈ p.boundaries++[(t, r)], b ∈ p.boundaries ∨ b = (t, r) := by
      intro b hb
      simpa using hb
    have hmirror : ∀ b ∈ p.boundaries++[(t, r)], Mirror L b.1.toNat b.2.toNat := by
      intro b hb
      rcases hlast b hb with hb | rfl
      · exact m.mirror b hb
      · exact hnew
    have hzeros : (p.boundaries++[(t, r)]).Pairwise (fun a b => b.2.toNat = 0 → a.2.toNat = 0) := by
      rw [List.pairwise_append]
      refine ⟨m.zeros, List.pairwise_singleton _ _, ?_⟩
      intro a ha b hb h0
      rw [List.mem_singleton.mp hb] at h0
      apply m.zeros_of_tail _ a ha
      simp only [rtail] at h0
      split at h0 <;> omega
    have hunwrapped : p.reverse.head.toNat = 0 → ∀ b ∈ p.boundaries++[(t, r)], b.2.toNat ≠ L := by
      intro h0 b hb
      rcases hlast b hb with hb | rfl
      · exact m.unwrapped h0 b hb
      · simp only [rtail]
        apply tail_ne_length h1 hn ht.2.1
        intro hr
        have he := eq_iff_of_mirror hh ht m.apart
        have := hfit (fun h => hr (h0 ▸ (he.mp h).symm))
        rwa [h0] at this
    have hgetLast : (p.boundaries++[(t, r)]).getLast? = some (t, r) := List.getLast?_concat
    have hhead : (p.boundaries++[(t, r)])[p.named]? = some (p.magic.head, p.reverse.head) := by
      rw [List.getElem?_append_left (List.getElem?_eq_some_iff.mp m.head).1]
      exact m.head
    have hapart : Apart L p.reverse.head.toNat r.toNat := by
      constructor
      · rintro ⟨hg, hr⟩
        exact hunwrapped hg (t, r) (by simp) hr
      · rintro ⟨hg, hr⟩
        have hz := (List.pairwise_append.mp hzeros).2.2 _ m.head_mem (t, r) (by simp) hr
        simp only at hz
        omega
    have hfull : decide (t = p.magic.head) = decide (r = p.reverse.head) := by
      have he := eq_iff_of_mirror hh hnew hapart
      rw [decide_eq_decide, ← UInt32.toNat_inj, ← UInt32.toNat_inj, eq_comm, he, eq_comm]
    exact ⟨m.magicLength, m.reverseLength, hmirror, hzeros, hgetLast, hhead, hunwrapped, hfull⟩

theorem Mirrored.updateHead (m : Mirrored L p) (i : ℕ)
    (hs : step p (.updateHead i) = some q) : Mirrored L q := by
  simp only [step] at hs
  split at hs
  · next hle =>
    cases hb : p.boundaries[i]? with
    | none => simp [hb] at hs
    | some b =>
      simp only [hb] at hs
      obtain rfl := Option.some.inj hs
      refine ⟨m.magicLength, m.reverseLength, m.mirror, m.zeros, m.tail, hb, ?_, rfl⟩
      intro h0
      apply m.unwrapped
      obtain ⟨hn, hnamed⟩ := List.getElem?_eq_some_iff.mp m.head
      obtain ⟨hi, hget⟩ := List.getElem?_eq_some_iff.mp hb
      rcases Nat.eq_or_lt_of_le hle with he | hlt
      · subst he
        rw [← hget, hnamed] at h0
        exact h0
      · have hz := List.pairwise_iff_getElem.mp m.zeros _ _ hn hi hlt
        rw [hget, hnamed] at hz
        exact hz h0
  · cases hs

theorem Mirrored.simulates (m : Mirrored L p) (h2 : 2*L < 2^32) : Simulates L p where
  refusal := m.refusal h2
  full := m.full
  tail := (m.mirror _ m.tail_mem).sum
  head := (m.mirror _ m.head_mem).sum

theorem init_mirrored (magic reverse : BufferContext) (hm : magic.length.toNat = L)
    (hr : reverse.length.toNat = L) (h1 : 1 ≤ L) : Mirrored L (init magic reverse) where
  magicLength := hm
  reverseLength := hr
  mirror := by
    intro b hb
    rw [List.mem_singleton.mp hb]
    exact ⟨h1, Nat.zero_le L, Or.inr ⟨rfl, rfl⟩⟩
  zeros := List.pairwise_singleton _ _
  tail := rfl
  head := rfl
  unwrapped := by
    intro _ b hb
    rw [List.mem_singleton.mp hb]
    exact (Nat.ne_of_lt h1)
  full := rfl

theorem Mirrored.step (m : Mirrored L p) (h2 : 2*L < 2^32) (e : Event) (he : Positive p e)
    (hs : step p e = some q) : Mirrored L q := by
  cases e with
  | write len => exact m.write h2 len he hs
  | updateHead i => exact m.updateHead i hs

end Steps

/-- The reversed sender ring simulates the magic one in every run. -/
theorem reverse_simulates_magic (addr addr' : UInt64) (key key' length : UInt32)
    (h1 : 1 ≤ length.toNat) (h2 : 2*length.toNat < 2^32) (es : List Event) (p : Rings)
    (hm : Meets step Positive es (init ⟨addr, key, length⟩ ⟨addr', key', length⟩))
    (hr : run step es (init ⟨addr, key, length⟩ ⟨addr', key', length⟩) = some p) :
    Simulates length.toNat p :=
  (run_keeps step Positive (Mirrored length.toNat) (fun _ e _ m he hs => m.step h2 e he hs) es _ p
    (init_mirrored _ _ rfl rfl h1) hm hr).simulates h2

/-- A whole ring is written from the start, one that reaches offset `L` of the reversed
ring, and one from there; some writes are refused. -/
def wrapTrace : List Event :=
  [.write 8, .write 1, .updateHead 1, .write 3, .write 5, .updateHead 2, .write 5, .updateHead 3,
    .write 8, .write 1, .updateHead 3, .write 2]

theorem reverse_simulates_magic_wrap : ∃ p,
    run step wrapTrace (init ⟨4096, 7, 8⟩ ⟨8192, 9, 8⟩) = some p ∧ Simulates 8 p := by
  have hr := run_get step wrapTrace (init ⟨4096, 7, 8⟩ ⟨8192, 9, 8⟩) (by decide +kernel)
  exact ⟨_, hr, reverse_simulates_magic 4096 8192 7 9 8 (by decide) (by decide) wrapTrace _
    (by decide +kernel) hr⟩

end KYM.MirroredRings
