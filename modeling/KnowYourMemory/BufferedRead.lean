import KnowYourMemory.RingOffsets

/-!
# The passive sender of buffered read

The sender copies a message, prefixed by its length, into its own ring and advances
a 64-bit tail; the receiver fetches the data and writes the head back. The space
check works on head and tail modulo the length of the ring and counts the message
without its prefix. The ring is bounded in exactly those runs in which neither
makes a difference, so the condition on a `Send` is stated beside the check.
-/

set_option autoImplicit false

namespace KYM.BufferedRead
open KYM.Run KYM.Circle KYM.RingBuffer KYM.RingOffsets KYM.BoundedStream

/-- The fields of `BufferedReadConnection` that `Send` uses. -/
structure Sender where
  bufAddr : UInt64
  length : UInt32
  head : UInt64
  tail : UInt64
  deriving DecidableEq, Repr

inductive Outcome where
  | failed (status : Status)
  | again
  | sent (addr : UInt64) (snd : Sender)
  deriving DecidableEq, Repr


/-- The length prefix, `sizeof(uint32_t)`. -/
def prefixLen : UInt64 := 4

def Sender.headOff (c : Sender) : UInt32 := (c.head%c.length.toUInt64).toUInt32

def Sender.tailOff (c : Sender) : UInt32 := (c.tail%c.length.toUInt64).toUInt32

def Sender.send (c : Sender) (len : UInt32) : Outcome :=
  if c.headOff = c.tailOff ∧ len > c.length then .failed tooLarge
  else if c.headOff < c.tailOff ∧ (c.length-c.tailOff)+c.headOff ≤ len then .again
  else if c.headOff > c.tailOff ∧ c.headOff-c.tailOff ≤ len then .again
  else .sent (c.bufAddr+c.tailOff.toUInt64) { c with tail := c.tail+(len.toUInt64+prefixLen) }

/-- The space check is not deceived: equal offsets mean an empty ring, and the
space that is seen holds the prefix as well. -/
def Counted (c : Sender) (len : UInt32) : Prop :=
  if c.headOff = c.tailOff then c.head = c.tail ∧ len.toNat+4 ≤ c.length.toNat
  else if c.headOff < c.tailOff then
    len.toNat+4 ≤ c.length.toNat-c.tailOff.toNat+c.headOff.toNat
  else len.toNat+4 ≤ c.headOff.toNat-c.tailOff.toNat

instance (c : Sender) (len : UInt32) : Decidable (Counted c len) :=
  inferInstanceAs (Decidable (ite _ _ (ite _ _ _)))

/-- The sender beside what was sent, in stream positions: messages that the receiver
holds or has not read, its read position, and the head positions it has had. `seen`
is the one the sender's copy stands for; the writes that update it arrive in order. -/
structure Link where
  snd : Sender
  held : List (Span Unit)
  unread : List (Span Unit)
  readPos : ℕ
  sentPos : ℕ
  seen : ℕ
  heads : List ℕ

def Link.head (c : Link) : ℕ := headOf c.held c.readPos

def Link.live (c : Link) : List (Span Unit) := c.held++c.unread

inductive Event where
  | send (len : UInt32)
  | publish (h : ℕ)
  | receive
  | free (i : ℕ)
  deriving DecidableEq, Repr

def init (bufAddr : UInt64) (length : UInt32) : Link where
  snd := ⟨bufAddr, length, 0, 0⟩
  held := []
  unread := []
  readPos := 0
  sentPos := 0
  seen := 0
  heads := [0]

def step (c : Link) : Event → Option Link
  | .send len =>
    match c.snd.send len with
    | .sent _ snd =>
      some { c with
        snd := snd
        unread := c.unread++[⟨c.sentPos, len.toNat+4, ()⟩]
        sentPos := c.sentPos+(len.toNat+4) }
    | _ => none
  | .publish h =>
    if h ∈ c.heads ∧ c.seen ≤ h then
      some { c with snd := { c.snd with head := UInt64.ofNat h }, seen := h }
    else none
  | .receive =>
    match c.unread with
    | [] => none
    | m::ms => some { c with held := c.held++[m], unread := ms, readPos := m.stop }
  | .free i =>
    if i < c.held.length then
      let held := c.held.eraseIdx i
      some { c with held := held, heads := headOf held c.readPos::c.heads }
    else none

/-- The check counts the message in full, and a wrap of the 64-bit counter goes
unnoticed modulo the length of the ring. -/
def Regular (c : Link) : Event → Prop
  | .send len => Counted c.snd len ∧
      (c.snd.length.toNat ∣ 2^64 ∨ c.sentPos+(len.toNat+4) < 2^64)
  | _ => True

instance (c : Link) : ∀ e : Event, Decidable (Regular c e)
  | .send len => inferInstanceAs (Decidable (Counted c.snd len ∧
      (c.snd.length.toNat ∣ 2^64 ∨ c.sentPos+(len.toNat+4) < 2^64)))
  | .publish _ | .receive | .free _ => isTrue trivial

/-- A 64-bit counter that stands for an unbounded position. -/
structure Counter (L : ℕ) (x : UInt64) (p : ℕ) : Prop where
  word : x.toNat = p%2^64
  wide : L ∣ 2^64 ∨ p < 2^64

theorem Counter.residue {L : ℕ} {x : UInt64} {p : ℕ} (h : Counter L x p) :
    x.toNat%L = p%L := by
  rw [h.word]
  rcases h.wide with hd | hlt
  · exact Nat.mod_mod_of_dvd p hd
  · rw [Nat.mod_eq_of_lt hlt]

theorem Counter.ofNat {L : ℕ} (p : ℕ) (h : L ∣ 2^64 ∨ p < 2^64) : Counter L (UInt64.ofNat p) p :=
  ⟨UInt64.toNat_ofNat', h⟩

theorem Counter.add {L : ℕ} {x : UInt64} {p : ℕ} (h : Counter L x p) (len : UInt32)
    (hw : L ∣ 2^64 ∨ p+(len.toNat+4) < 2^64) :
    Counter L (x+(len.toUInt64+prefixLen)) (p+(len.toNat+4)) := by
  refine ⟨?_, hw⟩
  have hp : prefixLen.toNat = 4 := rfl
  rw [UInt64.toNat_add, UInt64.toNat_add, UInt32.toNat_toUInt64, h.word, hp]
  omega

theorem Counter.below {L : ℕ} {x : UInt64} {p q : ℕ} (h : Counter L x p) (hq : q ≤ p) :
    L ∣ 2^64 ∨ q < 2^64 := h.wide.imp_right hq.trans_lt

theorem counted_fits (c : Sender) (len : UInt32) (k t : ℕ) (hL : 0 < c.length.toNat)
    (hh : Counter c.length.toNat c.head k) (ht : Counter c.length.toNat c.tail t) (hkt : k ≤ t)
    (htk : t ≤ k+c.length.toNat) (hc : Counted c len) : t+(len.toNat+4) ≤ k+c.length.toNat := by
  have hho := residue_toNat c.head c.length hL
  have hto := residue_toNat c.tail c.length hL
  rw [hh.residue] at hho
  rw [ht.residue] at hto
  have hlt := c.length.toNat_lt
  have hne : t < k+c.length.toNat := by
    by_contra hge
    obtain rfl : t = k+c.length.toNat := by omega
    have heq : c.headOff = c.tailOff := by
      apply UInt32.toNat_inj.mp
      rw [Sender.headOff, Sender.tailOff, hho, hto, Nat.add_mod_right]
    rw [Counted, if_pos heq] at hc
    have hw := congrArg UInt64.toNat hc.1
    rw [hh.word, ht.word] at hw
    omega
  have hgap := offset_gap .up c.length.toNat k t hL hkt hne
  simp only [offset] at hgap
  unfold Counted at hc
  simp only [← UInt32.toNat_inj, UInt32.lt_iff_toNat_lt, Sender.headOff, Sender.tailOff, hho,
    hto] at hc
  have hk := Nat.mod_lt k hL
  have ht' := Nat.mod_lt t hL
  split at hc
  · omega
  split at hc <;> omega

structure Refines (L : ℕ) (c : Link) (s : Tape Unit L) : Prop where
  length : c.snd.length.toNat = L
  credit : s.Credit c.seen
  head : Counter L c.snd.head c.seen
  tail : Counter L c.snd.tail s.tail
  held : c.held = s.held
  unread : c.unread = s.unread
  readPos : c.readPos = s.read
  sentPos : c.sentPos = s.tail
  heads : ∀ h ∈ c.heads, h ≤ s.head

section Steps

variable {L : ℕ} {c c' : Link} {s : Tape Unit L}

theorem init_refines (bufAddr : UInt64) (length : UInt32) :
    Refines length.toNat (init bufAddr length) (Tape.empty Unit length.toNat) where
  length := rfl
  credit := Tape.credit_empty
  head := ⟨rfl, Or.inr (Nat.two_pow_pos 64)⟩
  tail := ⟨rfl, Or.inr (Nat.two_pow_pos 64)⟩
  held := rfl
  unread := rfl
  readPos := rfl
  sentPos := rfl
  heads := by simp [init]

theorem send_fits (hL : 0 < L) (hr : Refines L c s) (len : UInt32) (hc : Counted c.snd len) :
    s.tail+(len.toNat+4) ≤ c.seen+L := by
  obtain rfl := hr.length
  exact counted_fits c.snd len c.seen s.tail hL hr.head hr.tail hr.credit.le_tail hr.credit.space hc

theorem send_sent (c : Sender) (len : UInt32) (addr : UInt64) (c' : Sender)
    (h : c.send len = .sent addr c') : addr = c.bufAddr+c.tailOff.toUInt64 ∧
      c' = { c with tail := c.tail+(len.toUInt64+prefixLen) } := by
  unfold Sender.send at h
  split at h
  · cases h
  split at h
  · cases h
  split at h
  · cases h
  · obtain ⟨rfl, rfl⟩ := Outcome.sent.inj h
    exact ⟨rfl, rfl⟩

theorem send_refines (hL : 0 < L) (hr : Refines L c s) (len : UInt32)
    (hok : Regular c (.send len)) (hs : step c (.send len) = some c') :
    ∃ s', Tape.step s (.send (len.toNat+4) ()) = some s' ∧ Refines L c' s' := by
  have hfit := send_fits hL hr len hok.1
  have hle := hr.credit.le_head
  have hst : 0 < len.toNat+4 ∧ s.tail+(len.toNat+4) ≤ s.head+L := by omega
  simp only [step] at hs
  split at hs
  · next addr snd hsnd =>
    obtain ⟨-, rfl⟩ := send_sent c.snd len addr snd hsnd
    obtain rfl := Option.some.inj hs
    refine ⟨s.send _ () hst.1 hst.2, by simp only [Tape.step, dif_pos hst], hr.length,
      hr.credit.send () hst.1 hfit hst.2, hr.head, ?_, hr.held, ?_, hr.readPos, ?_, hr.heads⟩
    · apply hr.tail.add len
      rw [← hr.sentPos, ← hr.length]
      exact hok.2
    · simp only [Tape.send, hr.unread, hr.sentPos]
    · simp only [Tape.send, hr.sentPos]
  · cases hs

theorem publish_refines (hr : Refines L c s) (h : ℕ) (hs : step c (.publish h) = some c') :
    Refines L c' s := by
  simp only [step] at hs
  split at hs
  · next hh =>
    obtain rfl := Option.some.inj hs
    have hle := hr.heads h hh.1
    have hsp := hr.credit.space
    refine ⟨hr.length, ⟨hle, by simp only; omega⟩, ?_, hr.tail, hr.held, hr.unread, hr.readPos,
      hr.sentPos, hr.heads⟩
    exact Counter.ofNat h (hr.tail.below (hle.trans (s.head_le_read.trans s.read_le_tail)))
  · cases hs

theorem receive_refines (hr : Refines L c s) (hs : step c .receive = some c') :
    ∃ s', Tape.step s .take = some s' ∧ Refines L c' s' := by
  have hu := hr.unread
  simp only [step] at hs
  split at hs
  · cases hs
  · next m ms hm =>
    obtain rfl := Option.some.inj hs
    rw [hm] at hu
    refine ⟨s.take m ms hu.symm, Tape.step_take s m ms hu.symm, hr.length,
      hr.credit.take m ms hu.symm, hr.head, hr.tail, ?_, rfl, rfl, hr.sentPos, ?_⟩
    · simp only [Tape.take, hr.held]
    · rw [s.take_head m ms hu.symm]
      exact hr.heads

theorem free_refines (hr : Refines L c s) (i : ℕ) (hs : step c (.free i) = some c') :
    ∃ s', Tape.step s (.release i) = some s' ∧ Refines L c' s' := by
  have hle := s.head_le_release i
  simp only [step] at hs
  split at hs
  · next hi =>
    obtain rfl := Option.some.inj hs
    rw [hr.held] at hi
    refine ⟨s.release i, by simp only [Tape.step, if_pos hi], hr.length, hr.credit.release i,
      hr.head, hr.tail, ?_, hr.unread, hr.readPos, hr.sentPos, ?_⟩
    · simp only [Tape.release, hr.held]
    · intro x hx
      rcases List.mem_cons.mp hx with rfl | hx
      · rw [hr.held, hr.readPos]
        exact le_refl _
      · exact (hr.heads x hx).trans hle
  · cases hs

theorem step_refines (hL : 0 < L) (hr : Refines L c s) (e : Event) (hok : Regular c e)
    (hs : step c e = some c') : ∃ fs s', run Tape.step fs s = some s' ∧ Refines L c' s' := by
  cases e with
  | send len =>
    obtain ⟨s', h1, h⟩ := send_refines hL hr len hok hs
    exact ⟨[.send (len.toNat+4) ()], s', by simp [run, h1], h⟩
  | publish x => exact ⟨[], s, rfl, publish_refines hr x hs⟩
  | receive =>
    obtain ⟨s', h1, h⟩ := receive_refines hr hs
    exact ⟨[.take], s', by simp [run, h1], h⟩
  | free i =>
    obtain ⟨s', h1, h⟩ := free_refines hr i hs
    exact ⟨[.release i], s', by simp [run, h1], h⟩

end Steps

theorem link_simulates (bufAddr : UInt64) (length : UInt32) (hL : 0 < length.toNat)
    (es : List Event) (c : Link) (hm : Meets step Regular es (init bufAddr length))
    (hr : run step es (init bufAddr length) = some c) :
    ∃ fs s, run Tape.step fs (Tape.empty Unit length.toNat) = some s ∧
      Refines length.toNat c s := by
  refine run_simulates step Regular Tape.step (Refines length.toNat) ?_ es _ c _
    (init_refines bufAddr length) hm hr
  intro c e c' s hcs hok hs
  exact step_refines hL hcs e hok hs

/-- Buffered read does not overrun its ring in the runs whose checks are not deceived:
what is unfreed never exceeds the ring, and a `Send` that returns writes into free
bytes inside the double mapping. -/
theorem buffered_send_safe (bufAddr : UInt64) (length : UInt32) (hL : 0 < length.toNat)
    (es : List Event) (c : Link) (hm : Meets step Regular es (init bufAddr length))
    (hr : run step es (init bufAddr length) = some c) :
    (c.live.map Span.len).sum ≤ length.toNat ∧
    ∀ (len : UInt32) (addr : UInt64) (snd : Sender), Counted c.snd len →
      c.snd.send len = .sent addr snd →
      addr = c.snd.bufAddr+c.snd.tailOff.toUInt64 ∧
      c.snd.tailOff.toNat+(len.toNat+4) ≤ 2*length.toNat ∧
      ∀ m ∈ c.live, Disjoint (cells length.toNat c.snd.tailOff.toNat (len.toNat+4))
        (cells length.toNat m.start m.len) := by
  obtain ⟨fs, s, -, hcs⟩ := link_simulates bufAddr length hL es c hm hr
  have hlive : c.live = s.live := by simp only [Link.live, Tape.live, hcs.held, hcs.unread]
  rw [hlive]
  refine ⟨s.live_total, ?_⟩
  intro len addr snd hc hs
  have hfit := send_fits hL hcs len hc
  have hle := hcs.credit.le_head
  have hto := residue_toNat c.snd.tail c.snd.length (by rw [hcs.length]; exact hL)
  rw [hcs.length, hcs.tail.residue] at hto
  have hlt := Nat.mod_lt s.tail hL
  have hkt := hcs.credit.le_tail
  refine ⟨(send_sent c.snd len addr snd hs).1, by rw [Sender.tailOff, hto]; omega, ?_⟩
  intro m hmem
  apply s.fresh_disjoint .up length.toNat _ _ hL (by omega) ?_ m hmem _ rfl
  rw [Anchored, Sender.tailOff, hto, Nat.mod_mod]

/-- The last of these messages wraps around and leaves one free byte. -/
def countedTrace : List Event :=
  [.send 56, .send 26, .receive, .free 0, .publish 60]

theorem buffered_send_safe_wrapped : ∃ c : Link,
    run step countedTrace (init 65536 100) = some c ∧
    (c.live.map Span.len).sum ≤ 100 ∧ c.snd.tailOff.toNat+(65+4) ≤ 2*100 := by
  have h := buffered_send_safe 65536 100 (by decide) countedTrace _ (by decide) rfl
  exact ⟨_, rfl, h.1, (h.2 65 _ _ (by decide) rfl).2.1⟩

/-- A message that fills the ring with its prefix, and then any other message. -/
theorem buffered_send_overruns : ∃ (c : Link) (addr : UInt64) (snd : Sender),
    run step [.send 8388604] (init 65536 8388608) = some c ∧
    c.snd.send 1 = .sent addr snd ∧ 8388608 < ((c.live.map Span.len).sum)+(1+4) ∧
    ∃ m ∈ c.live, ¬ Disjoint (cells 8388608 c.snd.tailOff.toNat (1+4))
      (cells 8388608 m.start m.len) := by
  refine ⟨_, _, _, rfl, rfl, by decide, _, List.mem_singleton.mpr rfl,
    Finset.not_disjoint_iff.mpr ⟨0, ?_⟩⟩
  exact ⟨(mem_cells _ _ _ _).mpr ⟨0, by decide, by decide⟩,
    (mem_cells _ _ _ _).mpr ⟨0, by decide, by decide⟩⟩

end KYM.BufferedRead
