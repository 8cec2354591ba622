import KnowYourMemory.OptionDelivery.Receiving

/-!
# Delivery by the options

Sender, receiver, acknowledgement and ring that suit each other deliver every message. For
every other choice there is a run that does not.
-/

set_option autoImplicit false

namespace KYM.OptionDelivery
open KYM.Run KYM.Circle KYM.RingBuffer KYM.RingOffsets KYM.RingPositions KYM.MagicMemory KYM.RingLog
open KYM.WriteConnection (Sender Acknowledger WriteOpts senderOf bufferOf writeBufSize written
  kAllocatorDumb kAcknowledgerSend kAcknowledgerRead kSenderWrite kSenderWriteImm
  kSenderWriteReverse kBufferMagic kBufferReverse)
open KYM.WriteSenders KYM.WriteSetup KYM.MessageLayout
open KYM.SendAcknowledge (WriteReceiver)
open KYM.WriteSender (Op bytesAt storeAt)
open KYM.WriteChecksum (crc32)

section Runs

variable {crc : List UInt8 → UInt32} {k : Sender} {d : Direction} {ack : Acknowledger}
  {c c' : Session} {f h a x b : List (List UInt8)}

theorem init_sound (crc : List UInt8 → UInt32) (k : Sender) (ack : Acknowledger) (d : Direction)
    (addr : UInt64) (key : UInt32) : Sound crc k d writeBufSize.toNat ack
      (init (senderAt k ack d addr key) (receiverAt k ack d addr key)) [] [] [] [] [] where
  sent := rfl
  got := rfl
  sender := ⟨0, 0, ⟨rfl, marks_zero d _, marks_zero d _, le_refl _,
    show 0 < 0+writeBufSize.toNat by decide⟩, le_refl _, Or.inl rfl⟩
  acks := fun _ => rfl
  base := rfl
  reads := ⟨rfl, marks_zero d _⟩
  length := rfl
  curr := marks_zero d _
  holding := ⟨rfl, rfl⟩
  spells := fun q _ hq => absurd hq (Nat.not_lt_zero q)
  ready := by
    cases k with
    | write => exact fun _ _ _ => rfl
    | offset => exact (Nat.zero_mod _).symm
    | imm => rfl
    | reverse => rfl
  inFlight := rfl

theorem step_sound (rb : RemoteBuffer) (v : WriteReceiver) (hk : Suits k d)
    (e : Event) (he : Sized k c e)
    (hS : ∃ f h a x b, Sound crc k d writeBufSize.toNat ack c f h a x b)
    (hs : step crc ⟨k, ack, d, rb⟩ ⟨k, ack, d, v⟩ c e = some c') :
    ∃ f h a x b, Sound crc k d writeBufSize.toNat ack c' f h a x b := by
  obtain ⟨f, h, a, x, b, hS⟩ := hS
  cases e with
  | send p => exact ⟨f, h, a, x, _, hS.send hk (by decide) he.1 he.2.1 he.2.2 hs⟩
  | get extra => exact ⟨f, h, a, x, b, hS.get extra hs⟩
  | deliver =>
    obtain ⟨a', x', b', h'⟩ := hS.deliver hk (by decide) hs
    exact ⟨f, h, a', x', b', h'⟩
  | receive =>
    obtain ⟨h', a', hS'⟩ := hS.receive hk (by decide) (by decide) hs
    exact ⟨f, h', a', x, b, hS'⟩
  | free =>
    simp only [step] at hs
    split at hs
    · cases hs
    next reg hheld =>
    obtain rfl := Option.some.inj hs
    obtain ⟨f', h'⟩ := hS.free hk (by decide) reg hheld
    exact ⟨f', [], a, x, b, h'⟩

theorem Sound.landed {L : ℕ} (hS : Sound crc k d L ack c f h a x b) (hw : c.wire = []) :
    x = [] ∧ b = [] := by
  have hin := hS.inFlight
  rw [hw] at hin
  cases x with
  | cons y ys =>
    obtain ⟨w, rfl, he, -⟩ := hin
    cases he
  | nil =>
    cases b with
    | nil => exact ⟨rfl, rfl⟩
    | cons m b =>
      obtain ⟨o, w, -, he, -⟩ := hin
      cases he

theorem Sound.delivered {rb : RemoteBuffer} {v : WriteReceiver} (hk : Suits k d)
    (hS : Sound crc k d writeBufSize.toNat ack c f h a x b) :
    Delivered crc ⟨k, ack, d, rb⟩ ⟨k, ack, d, v⟩ c where
  order := by
    rw [hS.sent, ← List.append_assoc, ← hS.got]
    exact List.take_left.symm
  kept := by
    intro reg hheld
    have hhold := hS.holding
    simp only [Holding, hheld] at hhold
    obtain ⟨m, o, rfl, -, ho, haddr, hlen⟩ := hhold
    have hf := hS.framed (by decide) (a++x) rfl ho
    rw [region_bytes _ hS.reads.length o reg haddr hlen hf, hS.got]
    exact List.getLast?_concat
  returns := by
    intro hheld hw hlt
    have hhold := hS.holding
    simp only [Holding, hheld] at hhold
    obtain ⟨rfl, -⟩ := hhold
    obtain ⟨rfl, rfl⟩ := hS.landed hw
    cases a with
    | nil =>
      rw [hS.got, hS.sent] at hlt
      exact absurd hlt (lt_irrefl _)
    | cons m a =>
      obtain ⟨w, o, hr, -, -⟩ := hS.received (v := v) hk (by decide) (by decide)
      simp only [step, hheld, hr]
      exact ⟨_, rfl⟩

theorem run_delivered (crc : List UInt8 → UInt32) (k : Sender) (ack : Acknowledger) (d : Direction)
    (addr : UInt64) (key : UInt32) (hk : Suits k d) (es : List Event) (c : Session)
    (hm : Meets (step crc (senderAt k ack d addr key) (receiverAt k ack d addr key)) (Sized k) es
      (init (senderAt k ack d addr key) (receiverAt k ack d addr key)))
    (hr : run (step crc (senderAt k ack d addr key) (receiverAt k ack d addr key)) es
      (init (senderAt k ack d addr key) (receiverAt k ack d addr key)) = some c) :
    Delivered crc (senderAt k ack d addr key) (receiverAt k ack d addr key) c := by
  obtain ⟨f, h, a, x, b, hS⟩ := run_keeps _ (Sized k)
    (fun c => ∃ f h a x b, Sound crc k d writeBufSize.toNat ack c f h a x b)
    (fun c e c' hI he hs => step_sound _ _ hk e he hI hs) es _ c
    ⟨[], [], [], [], [], init_sound crc k ack d addr key⟩ hm hr
  exact hS.delivered hk

end Runs

section Options

variable {o : WriteOpts} {k : Sender} {a : Acknowledger} {d : Direction}

theorem suits_iff (k : Sender) (d : Direction) : Suits k d ↔
    d = .up ∧ k ≠ .reverse ∨ d = .down ∧ (k = .imm ∨ k = .reverse) := by
  constructor
  · intro h
    cases h with
    | imm d => cases d <;> simp
    | write => simp
    | offset => simp
    | reverse => simp
  · rintro (⟨rfl, h⟩ | ⟨rfl, rfl | rfl⟩)
    · cases k with
      | write => exact Suits.write
      | imm => exact Suits.imm .up
      | offset => exact Suits.offset
      | reverse => exact absurd rfl h
    · exact Suits.imm .down
    · exact Suits.reverse

theorem sender_selects (h : senderOf o = .ok k) :
    (o.sender = kSenderWriteReverse ↔ k = .reverse) ∧
      (o.sender = kSenderWriteImm ↔ k = .imm) := by
  unfold senderOf at h
  split_ifs at h with h1 h2 h3 h4
  · rw [← Except.ok.inj h, h1]
    decide
  · rw [← Except.ok.inj h, h2]
    decide
  · rw [← Except.ok.inj h, h3]
    decide
  · rw [← Except.ok.inj h, h4]
    decide

theorem buffer_selects (h : bufferOf o = .ok d) :
    (o.buffer = kBufferMagic ↔ d = .up) ∧ (o.buffer = kBufferReverse ↔ d = .down) := by
  unfold bufferOf at h
  split_ifs at h with h1 h2 h3
  · rw [← Except.ok.inj h, h2]
    decide
  · rw [← Except.ok.inj h, h3]
    decide

theorem suited_iff (h : Chosen o k a d) : Suited o ↔ Suits k d := by
  obtain ⟨hr, hi⟩ := sender_selects h.sender
  obtain ⟨hu, hd⟩ := buffer_selects h.buffer
  rw [suits_iff, Suited, hu, hd, hr, hi, ne_eq, hr]

theorem stuck_not_delivered {crc : List UInt8 → UInt32} {s : SenderObject} {r : ReceiverObject}
    {c : Session} (hheld : c.held = none) (hw : c.wire = []) (hlt : c.got.length < c.sent.length)
    (hs : (step crc s r c .receive).isNone) : ¬ Delivered crc s r c := by
  intro h
  obtain ⟨c', hc⟩ := h.returns hheld hw hlt
  rw [hc] at hs
  cases hs

theorem early_not_delivered {crc : List UInt8 → UInt32} {s : SenderObject} {r : ReceiverObject}
    {c : Session} (hlt : c.sent.length < c.got.length) : ¬ Delivered crc s r c := by
  intro h
  have hlen := congrArg List.length h.order
  rw [List.length_take] at hlen
  omega

def unseenTrace : List Event := [.send [0], .deliver]

def earlyTrace : List Event := [.receive]

theorem unsuited_fails (k : Sender) (a : Acknowledger) (d : Direction) (h : ¬ Suits k d) :
    ∃ es c, Meets (step crc32 (senderAt k a d 4096 9) (receiverAt k a d 4096 9)) (Sized k) es
        (init (senderAt k a d 4096 9) (receiverAt k a d 4096 9)) ∧
      run (step crc32 (senderAt k a d 4096 9) (receiverAt k a d 4096 9)) es
        (init (senderAt k a d 4096 9) (receiverAt k a d 4096 9)) = some c ∧
      ¬ Delivered crc32 (senderAt k a d 4096 9) (receiverAt k a d 4096 9) c := by
  rw [suits_iff] at h
  cases k with
  | write =>
    cases d with
    | up => exact absurd (by simp) h
    | down =>
      refine ⟨unseenTrace, _, ?_, run_get _ _ _ ?_, stuck_not_delivered ?_ ?_ ?_ ?_⟩ <;>
        cases a <;> decide +kernel
  | imm => cases d <;> exact absurd (by simp) h
  | offset =>
    cases d with
    | up => exact absurd (by simp) h
    | down =>
      refine ⟨earlyTrace, _, ?_, run_get _ _ _ ?_, early_not_delivered ?_⟩ <;>
        cases a <;> decide +kernel
  | reverse =>
    cases d with
    | up =>
      refine ⟨unseenTrace, _, ?_, run_get _ _ _ ?_, stuck_not_delivered ?_ ?_ ?_ ?_⟩ <;>
        cases a <;> decide +kernel
    | down => exact absurd (by simp) h

end Options

/-- Accepted options deliver exactly when sender and ring suit each other. -/
theorem options_deliver_iff (o : WriteOpts) (h : Accepted o) : Delivers crc32 o ↔ Suited o := by
  obtain ⟨s, r, hb⟩ := h
  obtain ⟨k, a, d, addr, key, hc, -, -⟩ := hb.agree
  rw [suited_iff hc]
  constructor
  · intro hd
    by_contra hn
    obtain ⟨es, c, hm, hr, hfail⟩ := unsuited_fails k a d hn
    exact hfail (hd _ _ (hc.built 4096 9) es c hm hr)
  · intro hk s r hb es c hm hr
    obtain ⟨k', a', d', addr', key', hc', rfl, rfl⟩ := hb.agree
    obtain ⟨rfl, rfl, rfl⟩ := hc'.unique hc.sender hc.acknowledger hc.buffer
    exact run_delivered crc32 _ _ _ addr' key' hk es c hm hr

def crossedOpts : WriteOpts where
  allocator := kAllocatorDumb
  acknowledger := kAcknowledgerSend
  sender := kSenderWriteImm
  buffer := kBufferReverse

theorem options_deliver_crossed : Delivers crc32 crossedOpts := by
  have hc : Chosen crossedOpts .imm .send .down := ⟨rfl, rfl, rfl, rfl⟩
  exact (options_deliver_iff crossedOpts ⟨_, _, hc.built 65536 7⟩).mpr (by decide)

def misplacedOpts : WriteOpts where
  allocator := kAllocatorDumb
  acknowledger := kAcknowledgerRead
  sender := kSenderWrite
  buffer := kBufferReverse

theorem accepted_not_delivered : Accepted misplacedOpts ∧ ¬ Delivers crc32 misplacedOpts := by
  have hc : Chosen misplacedOpts .write .read .down := ⟨rfl, rfl, rfl, rfl⟩
  refine ⟨⟨_, _, hc.built 4096 9⟩, ?_⟩
  intro hd
  obtain ⟨es, c, hm, hr, hfail⟩ := unsuited_fails .write .read .down (by simp [suits_iff])
  exact hfail (hd _ _ (hc.built 4096 9) es c hm hr)

end KYM.OptionDelivery
