import KnowYourMemory.Channel

/-!
# Send acknowledgement

The head reaches the sender in messages of its own. `Free` flushes a head when it
has moved by more than half of the ring since the last one that was flushed. The
channel below carries stream positions beside the words of both sides.
-/

set_option autoImplicit false

namespace KYM.SendAcknowledge
open KYM.Run KYM.Circle KYM.RingBuffer KYM.RingOffsets KYM.BoundedStream KYM.Channel

/-- The receivers that take a `SendAcknowledger`. -/
inductive Kind where
  | write
  | offset
  | imm
  deriving DecidableEq, Repr

def Kind.header : Kind → UInt64
  | .write => 8
  | .offset => 4
  | .imm => 0

structure WriteReceiver where
  rbuf : Buffer
  currOffset : UInt32
  acked : UInt32
  maxUnacked : UInt32
  length : UInt32
  deriving DecidableEq, Repr

def newWriteReceiver (addr : UInt64) (key size : UInt32) : WriteReceiver where
  rbuf := newRingBuffer addr key size
  currOffset := 0
  acked := 0
  maxUnacked := size/2
  length := size

def WriteReceiver.flushes (r : WriteReceiver) (head : UInt32) : Bool :=
  (head > r.acked ∧ head-r.acked > r.maxUnacked) ∨
    (head < r.acked ∧ head+(r.length-r.acked) > r.maxUnacked)

def WriteReceiver.free (k : Kind) (r : WriteReceiver) (addr : UInt64) :
    Option UInt32 × WriteReceiver :=
  let (head, rbuf) := Magic.free r.rbuf (addr-k.header)
  let r := { r with rbuf := rbuf, currOffset := head }
  if r.flushes head then (some r.currOffset, { r with acked := head }) else (none, r)

/-- A flushed head and the stream position it stands for. -/
structure Ack where
  offset : UInt32
  pos : ℕ
  deriving DecidableEq, Repr

/-- `sent` and `cached` are the stream positions behind the tail and the head of
the sender. The body of a message is the position at which it starts. -/
structure Connection where
  snd : RemoteBuffer
  receiver : WriteReceiver
  unread : List (Slot ℕ)
  held : List (Held ℕ)
  pending : List Ack
  sent : ℕ
  cached : ℕ
  deriving DecidableEq, Repr

def Connection.link (c : Connection) : Link ℕ where
  snd := c.snd
  rcv := c.receiver.rbuf
  currOffset := c.receiver.currOffset
  unread := c.unread
  held := c.held

def Connection.setLink (c : Connection) (l : Link ℕ) : Connection :=
  { c with
    snd := l.snd
    receiver := { c.receiver with rbuf := l.rcv, currOffset := l.currOffset }
    unread := l.unread
    held := l.held }

inductive Event where
  | send (len : UInt32)
  | receive
  | free (i : ℕ)
  | get (extra : ℕ)
  deriving DecidableEq, Repr

def init (addr : UInt64) (key size : UInt32) : Connection where
  snd := newRemoteBuffer (newRingBuffer addr key size).getContext
  receiver := newWriteReceiver addr key size
  unread := []
  held := []
  pending := []
  sent := 0
  cached := 0

def headPos (c : Connection) : ℕ :=
  match live c.link with
  | [] => c.sent
  | m::_ => m.body

/-- `SendAckReceiver::Get` polls one completion, then `extra` more whose offsets it
does not look at. -/
def get (c : Connection) (extra : ℕ) : Option Connection :=
  match c.pending with
  | [] => none
  | a::as => some { c with
      snd := Magic.updateHead c.snd a.offset
      pending := as.drop extra
      cached := a.pos }

def free (k : Kind) (c : Connection) (i : ℕ) : Option Connection :=
  match c.held[i]? with
  | none => none
  | some h =>
    let (flushed, receiver) := c.receiver.free k (h.ptr+k.header)
    let c := { c with receiver := receiver, held := c.held.eraseIdx i }
    match flushed with
    | none => some c
    | some offset => some { c with pending := c.pending++[⟨offset, headPos c⟩] }

def step (k : Kind) (c : Connection) : Event → Option Connection
  | .send len =>
    match Channel.send .up 0 c.link len c.sent with
    | none => none
    | some l => some { c.setLink l with sent := c.sent+len.toNat }
  | .receive =>
    match Channel.receive .up c.link with
    | none => none
    | some l => some (c.setLink l)
  | .free i => free k c i
  | .get extra => get c extra

def Sized (L : ℕ) : Event → Prop
  | .send len => 1 ≤ len.toNat ∧ len.toNat < L
  | _ => True

instance (L : ℕ) : ∀ e : Event, Decidable (Sized L e)
  | .send len => inferInstanceAs (Decidable (1 ≤ len.toNat ∧ len.toNat < L))
  | .receive | .free _ | .get _ => isTrue trivial

/-- The last flushed head is at `A`: either the sender has it, or it is the one head
that is pending, more than half of the ring ahead of the sender. -/
structure Sound (L : ℕ) (c : Connection) (s : Tape ℕ (L-1)) (A : ℕ) : Prop where
  refines : Refines .up L c.link s
  sender : SenderAt .up L c.snd c.cached s.tail
  credit : s.Credit c.cached
  sent : c.sent = s.tail
  starts : ∀ m ∈ s.live, m.body = m.start
  length : c.receiver.length.toNat = L
  maxUnacked : c.receiver.maxUnacked.toNat = L/2
  acked : c.receiver.acked.toNat = offset .up L A
  cached_le : c.cached ≤ A
  acked_le : A ≤ s.head
  within : s.head ≤ A+L/2
  pending : (c.pending = [] ∧ A = c.cached) ∨
    ∃ o : UInt32, c.pending = [⟨o, A⟩] ∧ o.toNat = offset .up L A ∧ c.cached+L/2 < A

section Facts

variable {L A : ℕ} {c : Connection} {s : Tape ℕ (L-1)}

theorem headPos_eq (hr : Refines .up L c.link s) (hsent : c.sent = s.tail)
    (hb : ∀ m ∈ s.live, m.body = m.start) : headPos c = s.head := by
  have hl : (live c.link).map Slot.body = s.live.map Span.body := by
    simp only [live, Tape.live, List.map_append, hr.unread, hr.held, List.map_map]
    rfl
  have ht := s.unread_tiles
  unfold headPos
  cases hv : s.live with
  | nil =>
    have hnil : live c.link = [] := by simpa [hv] using hl
    obtain ⟨hh, hu⟩ := List.append_eq_nil_iff.mp hv
    rw [hu] at ht
    simp only [hnil, hsent, Tape.head, hh, headOf]
    exact ht.symm
  | cons m ms =>
    cases hlc : live c.link with
    | nil => simp [hlc, hv] at hl
    | cons n ns =>
      simp only [hlc, hv, List.map_cons, List.cons.injEq] at hl
      change n.body = s.head
      rw [hl.1, hb m (by simp [hv])]
      unfold Tape.live at hv
      cases hh : s.held with
      | nil =>
        rw [hh, List.nil_append] at hv
        rw [hv] at ht
        rw [Tape.head, hh]
        exact ht.1
      | cons m' ms' =>
        rw [hh] at hv
        rw [Tape.head, hh, (List.cons.inj hv).1]
        rfl

theorem flushes_iff (r : WriteReceiver) (h2 : 2*L < 2^32) (head : UInt32) (H : ℕ)
    (hl : r.length.toNat = L) (hm : r.maxUnacked.toNat = L/2)
    (ha : r.acked.toNat = offset .up L A) (hh : head.toNat = offset .up L H)
    (hle : A ≤ H) (hlt : H < A+L) : r.flushes head = true ↔ A+L/2 < H := by
  have hL : 0 < L := by omega
  have hA := offset_le .up L A hL
  have hH := offset_le .up L H hL
  have hgap := offset_gap .up L A H hL hle hlt
  have hs : (r.length-r.acked).toNat = L-offset .up L A := by
    rw [sub_toNat _ _ (by omega), hl, ha]
  have hw : (head+(r.length-r.acked)).toNat = offset .up L H+(L-offset .up L A) := by
    rw [add_toNat _ _ (by omega), hs, hh]
  simp only [WriteReceiver.flushes, decide_eq_true_eq, gt_iff_lt, UInt32.lt_iff_toNat_lt, hw,
    hm, hh, ha]
  simp only at hgap
  rcases hgap with h | h | h
  · omega
  · have hd : (head-r.acked).toNat = H-A := by
      rw [sub_toNat _ _ (by omega), hh, ha]
      exact h.2.2
    omega
  · omega

end Facts

section Steps

variable {k : Kind} {L A : ℕ} {c c' : Connection} {s : Tape ℕ (L-1)}

theorem init_sound (addr : UInt64) (key size : UInt32) (h2 : 2*size.toNat < 2^32) :
    Sound size.toNat (init addr key size) (Tape.empty ℕ _) 0 where
  refines := init_refines .up addr key size h2
  sender := ⟨congrArg UInt32.toNat (ring_length size h2), (offset_zero .up _).symm,
    (offset_zero .up _).symm, rfl⟩
  credit := Tape.credit_empty
  sent := rfl
  starts := by simp [Tape.live, Tape.empty]
  length := rfl
  maxUnacked := UInt32.toNat_div _ _
  acked := (offset_zero .up _).symm
  cached_le := le_refl _
  acked_le := le_refl _
  within := Nat.zero_le _
  pending := Or.inl ⟨rfl, rfl⟩

theorem Sound.fits_of_accept (h : Sound L c s A) (h2 : 2*L < 2^32) (len : UInt32) (hlen : len.toNat < L)
    (a : UInt64) (ha : getWriteAddr .up c.snd len = .ok a) : s.tail+len.toNat < c.cached+L := by
  have hsp := h.credit.space
  rcases (getWriteAddr_iff (by omega) h2 h.sender h.credit.le_tail (by omega) len).mp ⟨a, ha⟩
    with hf | hf <;> omega

theorem Sound.send (h : Sound L c s A) (h2 : 2*L < 2^32) (len : UInt32)
    (hz : Sized L (.send len)) (hs : step k c (.send len) = some c') :
    ∃ s' : Tape ℕ (L-1), Sound L c' s' A := by
  obtain ⟨hz1, hzL⟩ := hz
  simp only [step] at hs
  cases hl : Channel.send .up 0 c.link len c.sent with
  | none => simp [hl] at hs
  | some l =>
    simp only [hl, Option.some.injEq] at hs
    subst hs
    obtain ⟨s', hst, hr⟩ := send_refines h2 h.refines len c.sent
      ⟨Nat.lt_of_lt_of_le Nat.zero_lt_one hz1, fun _ => hzL⟩ hl
    rw [UInt32.sub_zero] at hst
    obtain ⟨hread, htail, hheld, hunread⟩ := Tape.step_send s s' _ _ hst
    have hhead : s'.head = s.head := by rw [Tape.head, hheld, hread, Tape.head]
    unfold Channel.send at hl
    rw [UInt32.sub_zero] at hl
    cases hg : getWriteAddr .up c.link.snd len with
    | error e => simp [hg] at hl
    | ok a =>
      have hroom := h.fits_of_accept h2 len hzL a hg
      obtain ⟨o, snd, hw, -, -, -, hsnd⟩ :=
        write_ok (by omega) h2 h.sender h.credit.le_tail len hz1 hroom
      have hw' : write .up c.link.snd len = .ok (c.snd.addr+o.toUInt64, snd) := hw
      simp only [hg, hw', Option.some.injEq] at hl
      subst hl
      refine ⟨s', hr, ?_, ⟨?_, ?_⟩, ?_, ?_, h.length, h.maxUnacked, h.acked, h.cached_le, ?_, ?_,
        h.pending⟩
      · rw [htail]
        exact hsnd
      · rw [hhead]
        exact h.credit.le_head
      · change s'.tail ≤ c.cached+(L-1)
        omega
      · rw [htail, ← h.sent]
      · intro m hm
        rw [Tape.send_live s s' _ _ hst] at hm
        rcases List.mem_append.mp hm with hm | hm
        · exact h.starts m hm
        · rw [List.mem_singleton.mp hm]
          exact h.sent
      · rw [hhead]
        exact h.acked_le
      · rw [hhead]
        exact h.within

theorem Sound.receive (h : Sound L c s A) (h2 : 2*L < 2^32)
    (hs : step k c .receive = some c') : ∃ s' : Tape ℕ (L-1), Sound L c' s' A := by
  simp only [step] at hs
  cases hl : Channel.receive .up c.link with
  | none => simp [hl] at hs
  | some l =>
    simp only [hl, Option.some.injEq] at hs
    subst hs
    obtain ⟨s', hst, hr⟩ := receive_refines h2 h.refines hl
    have hsnd : l.snd = c.snd := by
      unfold Channel.receive at hl
      cases hu : c.link.unread with
      | nil => simp [hu] at hl
      | cons m ms =>
        simp only [hu, Option.some.injEq] at hl
        exact hl ▸ rfl
    cases hu : s.unread with
    | nil =>
      simp only [Tape.step] at hst
      split at hst
      · cases hst
      · next h' => simp [hu] at h'
    | cons m ms =>
      rw [s.step_take m ms hu] at hst
      obtain rfl := Option.some.inj hst
      have hhead := s.take_head m ms hu
      refine ⟨s.take m ms hu, hr, ?_, h.credit.take m ms hu, h.sent, ?_, h.length, h.maxUnacked,
        h.acked, h.cached_le, ?_, ?_, h.pending⟩
      · change SenderAt .up L l.snd c.cached s.tail
        rw [hsnd]
        exact h.sender
      · rw [Tape.take_live]
        exact h.starts
      · rw [hhead]
        exact h.acked_le
      · rw [hhead]
        exact h.within

theorem Sound.get (h : Sound L c s A) (extra : ℕ) (hs : step k c (.get extra) = some c') :
    Sound L c' s A := by
  simp only [step, SendAcknowledge.get] at hs
  rcases h.pending with ⟨hp, -⟩ | ⟨o, hp, ho, -⟩
  · simp [hp] at hs
  · simp only [hp, List.drop_nil, Option.some.injEq] at hs
    subst hs
    have hr := h.refines
    have hsnd := updateHead_ok h.sender o A ho
    have hcr : s.Credit A := ⟨h.acked_le, by
      have := h.credit.space
      have := h.cached_le
      omega⟩
    exact ⟨⟨hr.base, ⟨A, hcr, hsnd⟩, hr.receiver, hr.published, hr.unread, hr.held⟩, hsnd, hcr,
      h.sent, h.starts, h.length, h.maxUnacked, h.acked, le_refl _, h.acked_le, h.within,
      Or.inl ⟨rfl, rfl⟩⟩

theorem WriteReceiver.free_handed (k : Kind) (r : WriteReceiver) (ptr : UInt64) :
    r.free k (ptr+k.header) =
      if r.flushes (Magic.free r.rbuf ptr).1 then
        (some (Magic.free r.rbuf ptr).1, { r with
          rbuf := (Magic.free r.rbuf ptr).2
          currOffset := (Magic.free r.rbuf ptr).1
          acked := (Magic.free r.rbuf ptr).1 })
      else (none, { r with
        rbuf := (Magic.free r.rbuf ptr).2, currOffset := (Magic.free r.rbuf ptr).1 }) := by
  simp only [WriteReceiver.free, UInt64.add_sub_cancel]
  rfl

theorem free_release (c : Connection) (i : ℕ) (w : Held ℕ) (hw : c.held[i]? = some w) :
    Channel.release .up c.link i = some { c.link with
      rcv := (Magic.free c.receiver.rbuf w.ptr).2
      currOffset := (Magic.free c.receiver.rbuf w.ptr).1
      held := c.held.eraseIdx i } := by
  have hl : c.link.held[i]? = some w := hw
  simp only [Channel.release, hl]
  rfl

theorem Sound.free (h : Sound L c s A) (h2 : 2*L < 2^32) (i : ℕ)
    (hs : step k c (.free i) = some c') : ∃ s' A', Sound L c' s' A' := by
  simp only [step, SendAcknowledge.free] at hs
  cases hg : c.held[i]? with
  | none => simp [hg] at hs
  | some w =>
    obtain ⟨s', hst, hr⟩ := release_refines h2 h.refines i (Or.inl rfl) (free_release c i w hg)
    obtain rfl := s.step_release s' i hst
    have hle := s.head_le_release i
    have hstarts : ∀ m ∈ (s.release i).live, m.body = m.start :=
      fun m hm => h.starts m (s.mem_release i _ m hm)
    have hcr := h.credit.release i
    have hsp : s.tail ≤ c.cached+(L-1) := h.credit.space
    have hht : (s.release i).head ≤ s.tail :=
      (s.release i).head_le_read.trans (s.release i).read_le_tail
    have hL : 0 < L := by
      have hm : w ∈ c.link.held := List.mem_of_getElem? hg
      rw [h.refines.held] at hm
      obtain ⟨m, hm, -⟩ := List.mem_map.mp hm
      have := span_len_lt s m (List.mem_append_left _ hm)
      omega
    have hcA := h.cached_le
    have hAh := h.acked_le
    have hhead : (Magic.free c.receiver.rbuf w.ptr).1.toNat = offset .up L (s.release i).head :=
      (congrArg UInt32.toNat hr.published).trans hr.receiver.head
    have hiff := flushes_iff c.receiver h2 _ _ h.length h.maxUnacked h.acked hhead
      (hAh.trans hle) (by omega)
    simp only [hg, WriteReceiver.free_handed] at hs
    by_cases hf : c.receiver.flushes (Magic.free c.receiver.rbuf w.ptr).1 = true
    · simp only [hf, if_true, Option.some.injEq] at hs
      subst hs
      have hfar := hiff.mp hf
      have hnone : c.pending = [] := by
        rcases h.pending with ⟨hp, -⟩ | ⟨o, hp, -, hgap⟩
        · exact hp
        · omega
      have hr' : Refines .up L ({ c with
          receiver := { c.receiver with
            rbuf := (Magic.free c.receiver.rbuf w.ptr).2
            currOffset := (Magic.free c.receiver.rbuf w.ptr).1
            acked := (Magic.free c.receiver.rbuf w.ptr).1 }
          held := c.held.eraseIdx i } : Connection).link (s.release i) :=
        ⟨hr.base, hr.sender, hr.receiver, hr.published, hr.unread, hr.held⟩
      have hpos := headPos_eq hr' h.sent hstarts
      refine ⟨s.release i, (s.release i).head,
        ⟨hr'.base, hr'.sender, hr'.receiver, hr'.published, hr'.unread, hr'.held⟩, h.sender, hcr,
        h.sent, hstarts, h.length, h.maxUnacked, hhead, hcr.le_head, le_refl _,
        Nat.le_add_right _ _, Or.inr ⟨_, ?_, hhead, ?_⟩⟩
      · change c.pending++[⟨_, headPos _⟩] = _
        rw [hnone]
        exact congrArg (fun p => [Ack.mk _ p]) hpos
      · change c.cached+L/2 < (s.release i).head
        omega
    · simp only [hf, Bool.false_eq_true, if_false, Option.some.injEq] at hs
      subst hs
      refine ⟨s.release i, A, ⟨hr.base, hr.sender, hr.receiver, hr.published, hr.unread, hr.held⟩,
        h.sender, hcr, h.sent, hstarts, h.length, h.maxUnacked, h.acked, hcA, hAh.trans hle, ?_,
        h.pending⟩
      by_contra hgt
      exact hf (hiff.mpr (by omega))

theorem Sound.step (h : Sound L c s A) (h2 : 2*L < 2^32) (e : Event) (hz : Sized L e)
    (hs : step k c e = some c') : ∃ (s' : Tape ℕ (L-1)) (A' : ℕ), Sound L c' s' A' := by
  cases e with
  | send len =>
    obtain ⟨s', h'⟩ := h.send h2 len hz hs
    exact ⟨s', A, h'⟩
  | receive =>
    obtain ⟨s', h'⟩ := h.receive h2 hs
    exact ⟨s', A, h'⟩
  | free i => exact h.free h2 i hs
  | get extra => exact ⟨s, A, h.get extra hs⟩

end Steps

/-- Send acknowledgement: one head is pending at most, the sender's head is not ahead
of the receiver's, and an idle ring takes any message of less than half its length. -/
theorem acknowledged_sender_proceeds (k : Kind) (addr : UInt64) (key size : UInt32)
    (h2 : 2*size.toNat < 2^32) (es : List Event) (c : Connection)
    (hm : Meets (step k) (fun _ => Sized size.toNat) es (init addr key size))
    (hr : run (step k) es (init addr key size) = some c) :
    c.pending.length ≤ 1 ∧
    (c.cached ≤ headPos c ∧ c.snd.head.toNat = c.cached%size.toNat ∧
      c.receiver.rbuf.head.toNat = headPos c%size.toNat) ∧
    (c.unread = [] → c.held = [] → c.pending = [] →
      ∀ len : UInt32, len.toNat < size.toNat-size.toNat/2 →
        ∃ a, Magic.getWriteAddr c.snd len = .ok a) := by
  have hinv : ∃ (s : Tape ℕ (size.toNat-1)) (A : ℕ), Sound size.toNat c s A := by
    refine run_keeps (step k) (fun _ => Sized size.toNat)
      (fun c => ∃ (s : Tape ℕ (size.toNat-1)) (A : ℕ), Sound size.toNat c s A) ?_ es _ c
      ⟨_, _, init_sound addr key size h2⟩ hm hr
    rintro c e c' ⟨s, A, h⟩ hz hs
    exact h.step h2 e hz hs
  obtain ⟨s, A, h⟩ := hinv
  have hpos := headPos_eq h.refines h.sent h.starts
  refine ⟨?_, ⟨hpos ▸ h.credit.le_head, h.sender.head, ?_⟩, ?_⟩
  · rcases h.pending with ⟨hp, -⟩ | ⟨o, hp, -, -⟩ <;> simp [hp]
  · rw [hpos]
    exact h.refines.receiver.head
  · intro hu hh hp len hlen
    have hsp := h.credit.space
    have hA : A = c.cached := by
      rcases h.pending with ⟨-, hA⟩ | ⟨o, hp', -, -⟩
      · exact hA
      · simp [hp] at hp'
    have htail : s.head = s.tail := by
      rw [← hpos, ← h.sent, headPos]
      simp [live, Connection.link, hu, hh]
    have hin := h.within
    exact (getWriteAddr_iff (by omega) h2 h.sender h.credit.le_tail (by omega) len).mpr
      (Or.inl (by omega))

/-- Two messages are read, the second is freed first, and the one head that covers
both is flushed and polled. -/
def flushTrace : List Event :=
  [.send 1500, .send 1500, .receive, .receive, .free 1, .free 0, .get 0, .send 2000]

theorem acknowledged_sender_proceeds_flush : ∃ c,
    run (step .write) flushTrace (init 65536 7 4097) = some c ∧
    c.pending.length ≤ 1 ∧
    (c.cached ≤ headPos c ∧ c.snd.head.toNat = c.cached%4097 ∧
      c.receiver.rbuf.head.toNat = headPos c%4097) ∧
    (c.unread = [] → c.held = [] → c.pending = [] →
      ∀ len : UInt32, len.toNat < 4097-4097/2 → ∃ a, Magic.getWriteAddr c.snd len = .ok a) := by
  have hr := run_get (step .write) flushTrace (init 65536 7 4097) (by decide +kernel)
  exact ⟨_, hr, acknowledged_sender_proceeds .write 65536 7 4097 (by decide) flushTrace _
    (by decide +kernel) hr⟩

end KYM.SendAcknowledge
