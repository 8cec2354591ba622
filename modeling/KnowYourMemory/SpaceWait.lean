import KnowYourMemory.FullFlag
import KnowYourMemory.MirroredRings
import KnowYourMemory.WriteSenders

/-!
# Waiting for space

The senders ask for new heads for as long as the space check refuses a message, for
whatever reason. A message that is longer than the ring is refused under every head.
-/

set_option autoImplicit false

namespace KYM.SpaceWait
open KYM.Run KYM.Circle KYM.RingBuffer KYM.RingOffsets KYM.WriteSenders
open KYM.WriteConnection (Sender wrap written)
open KYM.MirroredRings (magicGap reverseGap)

def Valid : Direction → ℕ → UInt32 → Prop
  | .up, L, o => o.toNat < L
  | .down, L, o => o.toNat ≤ L

instance : ∀ (d : Direction) (L : ℕ) (o : UInt32), Decidable (Valid d L o)
  | .up, L, o => inferInstanceAs (Decidable (o.toNat < L))
  | .down, L, o => inferInstanceAs (Decidable (o.toNat ≤ L))

inductive RingEvent where
  | updateHead (head : UInt32)
  | write (len : UInt32)
  deriving DecidableEq, Repr

def ringStep (d : Direction) (r : RemoteBuffer) : RingEvent → Option RemoteBuffer
  | .updateHead head =>
    if Valid d r.length.toNat head then some (updateHead d r head) else none
  | .write len =>
    match write d r len with
    | .error _ => none
    | .ok (_, r') => some r'

/-- A ring that is not empty, after any heads and writes. -/
def Reachable (d : Direction) (r : RemoteBuffer) : Prop :=
  0 < r.length.toNat ∧ ∃ addr key size es,
    run (ringStep d) es (newRemoteBuffer (newRingBuffer addr key size).getContext) = some r

structure InRange (d : Direction) (L : ℕ) (r : RemoteBuffer) : Prop where
  length : r.length.toNat = L
  pos : 0 < L
  small : 2*L < 2^32
  head : Valid d L r.head
  tail : Valid d L r.tail

def advance : Direction → ℕ → ℕ → ℕ → ℕ
  | .up, L, t, n => (t+n)%L
  | .down, L, t, n => stepDown L t n

section Ring

variable {d : Direction} {L : ℕ} {r : RemoteBuffer} {len : UInt32}

theorem updateHead_eq (d : Direction) (r : RemoteBuffer) (head : UInt32) :
    updateHead d r head = { r with head := head, full := false } := by
  cases d <;> rfl

theorem accepts_iff (d : Direction) (r : RemoteBuffer) (len : UInt32) :
    (∃ a, getWriteAddr d r len = .ok a) ↔ refusal (write d r len) = none := by
  cases d with
  | up =>
    simp only [getWriteAddr, write, MirroredRings.refusal_magic_write]
    cases Magic.getWriteAddr r len <;> simp [refusal]
  | down =>
    simp only [getWriteAddr, write, MirroredRings.refusal_reverse_write, Reverse.getWriteAddr]
    cases Reverse.getNextTail r len <;> simp [refusal]

theorem magic_accepts (h : InRange .up L r) : (∃ a, getWriteAddr .up r len = .ok a) ↔
    if r.head.toNat = r.tail.toNat then r.full = false ∧ len.toNat ≤ L
    else len.toNat < magicGap L r.head.toNat r.tail.toNat := by
  rw [accepts_iff]
  show refusal (Magic.write r len) = none ↔ _
  rw [MirroredRings.magic_refusal h.length h.small h.tail]
  cases r.full <;> split <;> simp

theorem reverse_accepts (h : InRange .down L r) : (∃ a, getWriteAddr .down r len = .ok a) ↔
    if r.head.toNat = r.tail.toNat then r.full = false ∧ len.toNat ≤ L
    else len.toNat < reverseGap L r.head.toNat r.tail.toNat := by
  rw [accepts_iff]
  show refusal (Reverse.write r len) = none ↔ _
  rw [MirroredRings.reverse_refusal h.length h.small h.head]
  cases r.full <;> split <;> simp

theorem accepted_le (h : InRange d L r) (ha : ∃ a, getWriteAddr d r len = .ok a) :
    len.toNat ≤ L := by
  have hh := h.head
  have ht := h.tail
  cases d with
  | up =>
    rw [magic_accepts h] at ha
    have := MirroredRings.gap_le hh ht
    split at ha <;> omega
  | down =>
    rw [reverse_accepts h] at ha
    simp only [Valid] at hh ht
    unfold reverseGap at ha
    split_ifs at ha <;> omega

theorem written_eq (d : Direction) (r : RemoteBuffer) (len : UInt32) :
    written d r len = MirroredRings.written r (write d r len) := by
  unfold WriteConnection.written MirroredRings.written
  cases write d r len <;> rfl

theorem written_spec (h : InRange d L r) (ha : ∃ a, getWriteAddr d r len = .ok a) :
    ∃ tail : UInt32, tail.toNat = advance d L r.tail.toNat len.toNat ∧
      written d r len = { r with tail := tail, full := tail = r.head } := by
  have hle := accepted_le h ha
  have hok := (accepts_iff d r len).mp ha
  cases d with
  | up =>
    obtain ⟨tail, ht, hw⟩ := MirroredRings.written_magic h.length h.small hle h.tail hok
    exact ⟨tail, ht, (written_eq _ r len).trans hw⟩
  | down =>
    obtain ⟨tail, ht, hw⟩ := MirroredRings.written_reverse h.length h.small hle h.tail hok
    exact ⟨tail, ht, (written_eq _ r len).trans hw⟩

theorem advance_valid (h : InRange d L r) (hle : len.toNat ≤ L) (tail : UInt32)
    (ht : tail.toNat = advance d L r.tail.toNat len.toNat) : Valid d L tail := by
  have hold := h.tail
  cases d with
  | up =>
    show tail.toNat < L
    rw [ht]
    exact Nat.mod_lt _ h.pos
  | down =>
    simp only [Valid, advance, stepDown] at *
    split at ht <;> omega

theorem InRange.written (h : InRange d L r) (ha : ∃ a, getWriteAddr d r len = .ok a) :
    InRange d L (WriteConnection.written d r len) := by
  obtain ⟨tail, ht, hw⟩ := written_spec h ha
  rw [hw]
  exact ⟨h.length, h.pos, h.small, h.head, advance_valid h (accepted_le h ha) tail ht⟩

theorem InRange.updateHead (h : InRange d L r) (head : UInt32) (hv : Valid d L head) :
    InRange d L (RingBuffer.updateHead d r head) := by
  rw [updateHead_eq]
  exact ⟨h.length, h.pos, h.small, hv, h.tail⟩

theorem ringStep_inRange (r' : RemoteBuffer) (e : RingEvent) (h : InRange d L r)
    (hs : ringStep d r e = some r') : InRange d L r' := by
  cases e with
  | updateHead head =>
    simp only [ringStep, Option.ite_none_right_eq_some, h.length] at hs
    obtain ⟨hv, hs⟩ := hs
    exact Option.some.inj hs ▸ h.updateHead head hv
  | write len =>
    simp only [ringStep] at hs
    split at hs
    · cases hs
    next a r₁ hw =>
      have ha := (accepts_iff d r len).mpr (by rw [hw]; rfl)
      have hr : WriteConnection.written d r len = r₁ := by rw [WriteConnection.written, hw]
      exact Option.some.inj hs ▸ hr ▸ h.written ha

theorem write_length (a : UInt64) (r' : RemoteBuffer) (hw : write d r len = .ok (a, r')) :
    r'.length = r.length := by
  cases d with
  | up =>
    simp only [write, Magic.write] at hw
    split at hw <;> cases hw
    rfl
  | down =>
    simp only [write, Reverse.write] at hw
    split at hw <;> cases hw
    rfl

theorem ringStep_length (r' : RemoteBuffer) (e : RingEvent) (hs : ringStep d r e = some r') :
    r'.length = r.length := by
  cases e with
  | updateHead head =>
    simp only [ringStep, Option.ite_none_right_eq_some] at hs
    rw [← Option.some.inj hs.2, updateHead_eq]
  | write len =>
    simp only [ringStep] at hs
    split at hs <;> cases hs
    next a hw => exact write_length a r' hw

theorem Reachable.inRange (h : Reachable d r) : InRange d r.length.toNat r := by
  obtain ⟨hpos, addr, key, size, es, hr⟩ := h
  let r₀ := newRemoteBuffer (newRingBuffer addr key size).getContext
  have hlen : r.length = r₀.length :=
    run_keeps (ringStep d) (fun _ _ => True) (fun s => s.length = r₀.length)
      (fun s e t hs _ ht => (ringStep_length t e ht).trans hs) es r₀ r rfl
      (meets_of_forall _ _ es (fun _ _ _ => trivial) _) hr
  have hinit : InRange d r.length.toNat r₀ := by
    have hsmall : 2*r₀.length.toNat < 2^32 := FullFlag.doubled_lt size
    rw [hlen] at hpos ⊢
    have hzero : Valid d r₀.length.toNat 0 := by
      cases d with
      | up => exact hpos
      | down => exact Nat.zero_le _
    exact ⟨rfl, hpos, hsmall, hzero, hzero⟩
  exact run_keeps (ringStep d) (fun _ _ => True) (InRange d r.length.toNat)
    (fun s e t hs _ ht => ringStep_inRange t e hs ht) es r₀ r hinit
    (meets_of_forall _ _ es (fun _ _ _ => trivial) _) hr

theorem empty_accepts (d : Direction) (r : RemoteBuffer) (len : UInt32) (hh : r.head = r.tail)
    (hf : r.full = false) (hlen : len ≤ r.length) : ∃ a, getWriteAddr d r len = .ok a := by
  have hnot : ¬ len > r.length := UInt32.not_lt.mpr hlen
  cases d with
  | up => simp [getWriteAddr, Magic.getWriteAddr, hh, hf, hnot]
  | down => simp [getWriteAddr, Reverse.getWriteAddr, Reverse.getNextTail, hh, hf, hnot]

theorem long_refused (h : InRange d L r) (hlen : L < len.toNat) :
    ∃ e, getWriteAddr d r len = .error e := by
  cases ha : getWriteAddr d r len with
  | error e => exact ⟨e, rfl⟩
  | ok a =>
    have := accepted_le h ⟨a, ha⟩
    omega

end Ring

def answersOf (heads : ℕ → UInt32) (n : ℕ) : List (StatusOr UInt32) :=
  (List.range n).map (fun i => .ok (heads i))

/-- A wait that ends after some number of heads. -/
def Ends (wait : List (StatusOr UInt32) → RemoteBuffer → Option Space) (heads : ℕ → UInt32)
    (r : RemoteBuffer) (P : StatusOr UInt64 → Prop) : Prop :=
  ∃ n space, wait (answersOf heads n) r = some space ∧ P space.addr

/-- With an address when the message fits an empty ring, with an error when it is
longer than the ring. -/
def EndsForEveryLength (wait : List (StatusOr UInt32) → RemoteBuffer → Option Space)
    (heads : ℕ → UInt32) (r : RemoteBuffer) (len : UInt32) : Prop :=
  (len ≤ r.length → Ends wait heads r (fun a => ∃ addr, a = .ok addr)) ∧
  (r.length < len → Ends wait heads r (fun a => ∃ e, a = .error e))

section Loop

variable {d : Direction} {len : UInt32} {first later : Status → Status → Status}

theorem spaceLoop_heads (hs : List UInt32) (r : RemoteBuffer) (space : Space)
    (h : spaceLoop d len later (hs.map .ok) r = some space) : ∃ addr, space.addr = .ok addr := by
  induction hs generalizing r with
  | nil =>
    cases ha : getWriteAddr d r len with
    | error e => simp [spaceLoop_nil later len e ha] at h
    | ok addr =>
      rw [List.map_nil, spaceLoop_ok later len addr [] ha] at h
      exact ⟨addr, by rw [← Option.some.inj h]⟩
  | cons head hs ih =>
    cases ha : getWriteAddr d r len with
    | error e =>
      rw [List.map_cons, spaceLoop_head later len e _ _ ha] at h
      exact ih _ h
    | ok addr =>
      rw [List.map_cons, spaceLoop_ok later len addr _ ha] at h
      exact ⟨addr, by rw [← Option.some.inj h]⟩

theorem spaceLoop_ends (d : Direction) (later : Status → Status → Status) (hs : List UInt32)
    (r : RemoteBuffer) (hm : r.tail ∈ hs) (hlen : len ≤ r.length) :
    ∃ space, spaceLoop d len later (hs.map .ok) r = some space := by
  induction hs generalizing r with
  | nil => simp at hm
  | cons head hs ih =>
    cases ha : getWriteAddr d r len with
    | ok addr => exact ⟨_, by rw [List.map_cons, spaceLoop_ok later len addr _ ha]⟩
    | error e =>
      rw [List.map_cons, spaceLoop_head later len e _ _ ha, updateHead_eq]
      by_cases he : head = r.tail
      · obtain ⟨addr, ha'⟩ := empty_accepts d { r with head := head, full := false } len he rfl hlen
        exact ⟨_, spaceLoop_ok later len addr _ ha'⟩
      · have ht : r.tail ∈ hs := (List.mem_cons.mp hm).resolve_left (fun ht => he ht.symm)
        exact ih { r with head := head, full := false } ht hlen

theorem spaceLoop_long {L : ℕ} (hs : List UInt32) (r : RemoteBuffer) (h : InRange d L r)
    (hv : ∀ head ∈ hs, Valid d L head) (hlen : L < len.toNat) :
    spaceLoop d len later (hs.map .ok) r = none := by
  induction hs generalizing r with
  | nil =>
    obtain ⟨e, he⟩ := long_refused h hlen
    exact spaceLoop_nil later len e he
  | cons head hs ih =>
    obtain ⟨e, he⟩ := long_refused h hlen
    rw [List.map_cons, spaceLoop_head later len e _ _ he]
    exact ih _ (h.updateHead head (hv head List.mem_cons_self))
      (fun x hx => hv x (List.mem_cons_of_mem _ hx))

theorem awaitSpace_heads (hs : List UInt32) (r : RemoteBuffer) :
    awaitSpace d len first later (hs.map .ok) r = spaceLoop d len later (hs.map .ok) r := by
  cases ha : getWriteAddr d r len with
  | ok addr => rw [awaitSpace_ok _ _ _ _ _ ha, spaceLoop_ok _ _ _ _ ha]
  | error e =>
    cases hs with
    | nil => simp [awaitSpace, ha, spaceLoop_nil later len e ha]
    | cons head hs => simp [awaitSpace, ha, spaceLoop_head later len e _ _ ha]

theorem answersOf_eq (heads : ℕ → UInt32) (n : ℕ) :
    answersOf heads n = ((List.range n).map heads).map .ok := by simp [answersOf]

theorem awaitSpace_iff (heads : ℕ → UInt32) (r : RemoteBuffer) (hfree : ∃ n, heads n = r.tail) :
    EndsForEveryLength (awaitSpace d len first later) heads r len ↔ len ≤ r.length := by
  constructor
  · intro h
    by_contra hlong
    obtain ⟨n, space, hs, e, he⟩ := h.2 (UInt32.not_le.mp hlong)
    rw [answersOf_eq, awaitSpace_heads] at hs
    obtain ⟨addr, ha⟩ := spaceLoop_heads _ _ _ hs
    rw [ha] at he
    cases he
  · intro hlen
    refine ⟨fun _ => ?_, fun hlt => absurd hlt (UInt32.not_lt.mpr hlen)⟩
    obtain ⟨n, hn⟩ := hfree
    have hm : r.tail ∈ (List.range (n+1)).map heads :=
      List.mem_map.mpr ⟨n, List.mem_range.mpr (Nat.lt_succ_self n), hn⟩
    obtain ⟨space, hs⟩ := spaceLoop_ends d later _ r hm hlen
    refine ⟨n+1, space, ?_, spaceLoop_heads _ _ _ hs⟩
    rw [answersOf_eq, awaitSpace_heads, hs]

end Loop

/-- The loops end as they should exactly for the messages that fit an empty ring. -/
theorem space_wait_iff (d : Direction) (r : RemoteBuffer) (len : UInt32) (heads : ℕ → UInt32)
    (hfree : ∃ n, heads n = r.tail) :
    (EndsForEveryLength (getWriteAddrOrDie d len) heads r len ↔ len ≤ r.length) ∧
    ∀ k, EndsForEveryLength (singleSpace d len k) heads r len ↔ len ≤ r.length := by
  refine ⟨awaitSpace_iff heads r hfree, fun k => ?_⟩
  cases k <;> exact awaitSpace_iff heads r hfree

def idle : RemoteBuffer := newRemoteBuffer (newRingBuffer 4096 9 64).getContext

def loaded : RemoteBuffer := { idle with tail := 40 }

def reg (length : UInt32) : SendRegion := ⟨[], List.replicate length.toNat 1, length⟩

def staleFirst (n : ℕ) : UInt32 := if n = 0 then 16 else 40

theorem space_wait_stale :
    getWriteAddrOrDie .up 60 (answersOf staleFirst 1) loaded = none ∧
    (EndsForEveryLength (getWriteAddrOrDie .up 60) staleFirst loaded 60 ↔ (60 : UInt32) ≤ 64) ∧
    ∀ k, EndsForEveryLength (singleSpace .up 60 k) staleFirst loaded 60 ↔ (60 : UInt32) ≤ 64 :=
  ⟨by decide, space_wait_iff .up loaded 60 staleFirst ⟨1, rfl⟩⟩

/-- One byte more than the ring has waits for good. -/
theorem long_message_waits : (∀ n, getWriteAddrOrDie .up 65 (answersOf (fun _ => 0) n) idle = none) ∧
    ¬ EndsForEveryLength (getWriteAddrOrDie .up 65) (fun _ => 0) idle 65 := by
  have hrange : InRange .up 64 idle :=
    ⟨by decide, by decide, by decide, by decide, by decide⟩
  have hwait : ∀ n, getWriteAddrOrDie .up 65 (answersOf (fun _ => 0) n) idle = none := by
    intro n
    rw [answersOf_eq, getWriteAddrOrDie, awaitSpace_heads]
    apply spaceLoop_long _ _ hrange _ (by decide)
    intro head hh
    obtain ⟨i, -, rfl⟩ := List.mem_map.mp hh
    decide
  refine ⟨hwait, fun h => ?_⟩
  obtain ⟨n, space, hs, -⟩ := h.2 (by decide)
  rw [hwait n] at hs
  cases hs

end KYM.SpaceWait
