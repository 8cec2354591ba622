import KnowYourMemory.WriteDelivery.Sending

/-!
# In-order delivery of Write Offset and Write Immediate

The tail word, or the queue of completions, tells exactly how many messages have arrived, and
the receiver takes them in the order of their sending.
-/

set_option autoImplicit false

namespace KYM.WriteDelivery
open KYM.Run KYM.Circle KYM.RingBuffer KYM.RingOffsets KYM.BoundedStream KYM.MagicMemory
open KYM.WriteSender

section Receive

variable {f : Format} {L : ℕ} {c c' : Connection} {t : Tape Item (L-1)} {a b : List (Span Item)}

theorem Sound.loop_exit (h : Sound .offset L c t a b) (hne : c.tail ≠ Magic.getReadOff c.rcv) :
    ∃ m a', a = m::a' := by
  cases ha : a with
  | cons m a' => exact ⟨m, a', rfl⟩
  | nil =>
    have hann : c.tail.toNat = offset .up L (headOf b t.tail) := h.announced
    have hsp := t.unread_tiles
    rw [h.split, ha, List.nil_append] at hsp
    rw [headOf_tiles _ _ _ hsp, ← h.refines.receiver.readPtr] at hann
    exact absurd (UInt32.toNat_inj.mp hann) hne

theorem Sound.first (h : Sound f L c t a b) (m : Span Item) (a' : List (Span Item))
    (ha : a = m::a') : m ∈ t.live ∧ t.unread = m::(a'++b) ∧ m.start = t.read ∧
      m.body.id = c.got.length ∧ Stored f L c.mem m := by
  have hu : t.unread = m::(a'++b) := by rw [h.split, ha, List.cons_append]
  obtain ⟨hm, hstart⟩ := t.first_unread m _ hu
  exact ⟨hm, hu, hstart, h.numbered.first m _ hu, h.stored m (by simp [ha])⟩

theorem getReadPtr_sub (rcv : Buffer) : (Magic.getReadPtr rcv-rcv.addr).toNat = rcv.readPtr.toNat := by
  rw [Magic.getReadPtr, UInt64.add_comm, UInt64.add_sub_cancel, UInt32.toNat_toUInt64]

theorem Sound.parsed (h : Sound .offset L c t a b) (m : Span Item) (a' : List (Span Item))
    (ha : a = m::a') :
    getU32 (bytesAt c.rcv c.mem (Magic.getReadPtr c.rcv) 4) = UInt32.ofNat m.len := by
  obtain ⟨hmem, -, hstart, -, hst⟩ := h.first m a' ha
  have hlen := (h.message m hmem).2
  have hrl : c.rcv.length.toNat = L := h.refines.receiver.length
  have hrp : c.rcv.readPtr.toNat = t.read%L := h.refines.receiver.readPtr
  rw [frame_length] at hlen
  simp only at hlen
  rw [Stored, hlen, Nat.add_comm, load_append, frame] at hst
  have h4 := (List.append_inj hst (by rw [load_length, putU32_length])).1
  rw [bytesAt, getReadPtr_sub, hrl, hrp, load_congr L _ (t.read%L) m.start 4
    (by rw [Nat.mod_mod, hstart]), h4, getU32_putU32, ← hlen]

theorem Sound.received (h : Sound f L c t a b) (h2 : 2*L < 2^32) (reg : ReceiveRegion)
    (rcv : Buffer) (cq : List UInt32) (hs : receive f c = some (reg, rcv, cq)) :
    ∃ m a', a = m::a' ∧ reg.addr = Magic.getReadPtr c.rcv+headerLen f ∧
      reg.length.toNat = m.body.payload.length ∧
      rcv = (RingBuffer.read .up c.rcv (UInt32.ofNat m.len)).2 ∧
      match f with
      | .offset => cq = c.recvCq
      | .imm => c.recvCq = UInt32.ofNat m.len::cq := by
  have hword : ∀ m ∈ t.live, (UInt32.ofNat m.len).toNat = m.len := by
    intro m hm
    have := (live_pos t m hm).2
    apply UInt32.toNat_ofNat_of_lt
    simp only [UInt32.size]
    omega
  cases f with
  | offset =>
    simp only [receive, WriteOffset.receive] at hs
    split at hs
    · simp at hs
    · next hne =>
      obtain ⟨m, a', ha⟩ := h.loop_exit (fun he => hne he)
      have hmem := (h.first m a' ha).1
      have hlen := (h.message m hmem).2
      rw [frame_length] at hlen
      simp only at hlen
      rw [h.parsed m a' ha] at hs
      simp only [Option.map_some, Option.some.injEq, Prod.mk.injEq] at hs
      obtain ⟨rfl, rfl, rfl⟩ := hs
      refine ⟨m, a', ha, rfl, ?_, rfl, rfl⟩
      have hfour : (4 : UInt32).toNat = 4 := rfl
      simp only
      rw [sub_toNat _ _ (by rw [hword m hmem, hfour]; omega), hword m hmem, hfour]
      omega
  | imm =>
    have hq : c.recvCq = a.map (fun m => UInt32.ofNat m.len) := h.announced
    cases ha : a with
    | nil => simp [receive, WriteImm.receive, hq, ha] at hs
    | cons m a' =>
      have hmem := (h.first m a' ha).1
      have hlen := (h.message m hmem).2
      simp only [frame] at hlen
      rw [ha, List.map_cons] at hq
      simp only [receive, WriteImm.receive, hq, Option.some.injEq, Prod.mk.injEq] at hs
      obtain ⟨rfl, rfl, rfl⟩ := hs
      refine ⟨m, a', rfl, ?_, ?_, rfl, hq⟩
      · simp only [headerLen, Magic.read, Magic.getReadPtr, UInt64.add_zero]
      · rw [← hlen]
        exact hword m hmem

theorem inFlight_congr (hc : c'.rcv.addr = c.rcv.addr) (hm : c'.mem = c.mem)
    (hw : c'.wire = c.wire) (h : InFlight f L c b) : InFlight f L c' b := by
  have hcongr := opsOf_congr (f := f) (L := L) c c' hc
  unfold InFlight at *
  rw [hw, hm, hcongr]
  exact h

theorem getReadPtr_first (h : Sound f L c t a b) (m : Span Item) (hstart : m.start = t.read) :
    Magic.getReadPtr c.rcv = addrOf L c m := Channel.readPtr_slot h.refines m hstart

theorem Sound.receive (h : Sound f L c t a b) (h2 : 2*L < 2^32)
    (hs : step f c .receive = some c') : ∃ t' a', Sound f L c' t' a' b := by
  simp only [step] at hs
  split at hs
  · cases hs
  next reg rcv cq hr =>
  simp only [Option.some.injEq] at hs
  obtain ⟨m, a', ha, haddr, hlen, hrcv, hcq⟩ := h.received h2 reg rcv cq hr
  obtain ⟨hmem, hu, hstart, hid, hst⟩ := h.first m a' ha
  obtain ⟨-, hra, href⟩ := Channel.taken_link h2 h.refines m (a'++b) hu _ rcv (by rw [hrcv]; rfl)
  subst hs
  refine ⟨t.take m (a'++b) hu, a', href, rfl, ?_, ?_, ?_, ?_, ?_, ?_, ?_⟩
  · simp only [List.length_append, List.length_singleton]
    exact h.numbered.take m _ hu
  · rw [Tape.take_live]
    exact h.message
  · intro n hn
    rcases List.mem_append.mp hn with hn | hn
    · obtain ⟨r, hr, hra'⟩ := h.regions n hn
      exact ⟨r, getElem?_concat _ _ _ _ hr, addrOf_congr c _ hra n r.addr hra'⟩
    · rw [List.mem_singleton.mp hn, hid]
      refine ⟨reg, by simp, addrOf_congr c _ hra m reg.addr ?_⟩
      rw [haddr, getReadPtr_first h m hstart]
  · intro k r hk
    rcases getElem?_concat_cases hk with hk | ⟨rfl, rfl⟩
    · exact h.returned k r hk
    · exact ⟨m.body.payload, hid ▸ (h.message m hmem).1, hlen⟩
  · intro n hn
    apply h.stored n
    simpa [Tape.take, ha] using hn
  · have hann := h.announced
    cases f with
    | offset => exact hann
    | imm =>
      simp only [Announced, ha, List.map_cons] at hann
      exact (List.cons.inj (hcq.symm.trans hann)).2
  · exact inFlight_congr hra rfl rfl h.inFlight

theorem free_region (f : Format) (L : ℕ) (c : Connection) (m : Span Item) (reg : ReceiveRegion)
    (h : reg.addr = addrOf L c m+headerLen f) :
    WriteSender.free f c.rcv reg = RingBuffer.free .up c.rcv (addrOf L c m) := by
  cases f with
  | offset =>
    simp only [headerLen] at h
    simp only [WriteSender.free, WriteOffset.free, h, UInt64.add_sub_cancel]
    rfl
  | imm =>
    simp only [headerLen, UInt64.add_zero] at h
    simp only [WriteSender.free, WriteImm.free, h]
    rfl

theorem Sound.free (h : Sound f L c t a b) (h2 : 2*L < 2^32) (i : ℕ)
    (hs : step f c (.free i) = some c') : ∃ t', Sound f L c' t' a b := by
  simp only [step] at hs
  split at hs
  · cases hs
  next k hk =>
  split at hs
  · cases hs
  next reg hreg =>
  rw [← h.numbered.held, List.getElem?_map] at hk
  obtain ⟨m, hm, rfl⟩ := Option.map_eq_some_iff.mp hk
  obtain ⟨reg', hreg', haddr⟩ := h.regions m (List.mem_of_getElem? hm)
  obtain rfl := Option.some.inj (hreg.symm.trans hreg')
  simp only [free_region f L c m reg haddr, Option.some.injEq] at hs
  obtain ⟨hra, href⟩ := Channel.freed_link h2 h.refines i m hm (Or.inl rfl)
    (RingBuffer.free .up c.rcv (addrOf L c m)).1 (RingBuffer.free .up c.rcv (addrOf L c m)).2 rfl
  subst hs
  refine ⟨t.release i, href, h.split, h.numbered.release i, ?_, ?_, h.returned, ?_, ?_, ?_⟩
  · exact fun n hn => h.message n (t.mem_release i _ n hn)
  · intro n hn
    obtain ⟨r, hr, hra'⟩ := h.regions n (List.mem_of_mem_eraseIdx hn)
    exact ⟨r, hr, addrOf_congr c _ hra n r.addr hra'⟩
  · exact fun n hn => h.stored n (t.mem_release i _ n hn)
  · have hann := h.announced
    cases f <;> exact hann
  · exact inFlight_congr hra rfl rfl h.inFlight

end Receive

/-- On-ring lengths of the messages that are sent. -/
def Sized (f : Format) (L : ℕ) : Event → Prop
  | .send p => 1 ≤ (frame f p).length ∧ (frame f p).length < L
  | _ => True

instance (f : Format) (L : ℕ) : ∀ e : Event, Decidable (Sized f L e)
  | .send p => inferInstanceAs (Decidable (1 ≤ (frame f p).length ∧ (frame f p).length < L))
  | .updateHead | .deliver | .receive | .free _ => isTrue trivial

theorem step_sound (f : Format) (L : ℕ) (c c' : Connection) (h2 : 2*L < 2^32) (e : Event)
    (he : Sized f L e) (h : ∃ t a b, Sound f L c t a b) (hs : step f c e = some c') :
    ∃ t a b, Sound f L c' t a b := by
  obtain ⟨t, a, b, h⟩ := h
  cases e with
  | send p =>
    obtain ⟨t', b', h'⟩ := send_sound h h2 p he hs
    exact ⟨t', a, b', h'⟩
  | updateHead => exact ⟨t, a, b, h.updateHead hs⟩
  | deliver =>
    obtain ⟨a', b', h'⟩ := h.deliver h2 hs
    exact ⟨t, a', b', h'⟩
  | receive =>
    obtain ⟨t', a', h'⟩ := h.receive h2 hs
    exact ⟨t', a', b, h'⟩
  | free i =>
    obtain ⟨t', h'⟩ := h.free h2 i hs
    exact ⟨t', a, b, h'⟩

theorem run_sound (f : Format) (addr : UInt64) (key size : UInt32) (h2 : 2*size.toNat < 2^32)
    (es : List Event) (c : Connection) (hm : Meets (step f) (fun _ => Sized f size.toNat) es
      (init addr key size)) (hr : run (step f) es (init addr key size) = some c) :
    ∃ t a b, Sound f size.toNat c t a b := by
  refine run_keeps (step f) (fun _ => Sized f size.toNat)
    (fun c => ∃ t a b, Sound f size.toNat c t a b) ?_ es _ c
    ⟨_, [], [], init_sound f addr key size h2⟩ hm hr
  intro c e c' hI he hs
  exact step_sound f size.toNat c c' h2 e he hI hs

theorem payload_at (f : Format) (L : ℕ) (mem : ℕ → UInt8) (m : Span Item)
    (hst : Stored f L mem m) (hlen : m.len = (frame f m.body.payload).length) (off : ℕ)
    (ho : off%L = (m.start+(headerLen f).toNat)%L) :
    load L mem off m.body.payload.length = m.body.payload := by
  rw [load_congr L mem off _ _ ho]
  rw [frame_length] at hlen
  unfold Stored at hst
  cases f with
  | offset =>
    simp only at hlen
    rw [hlen, Nat.add_comm, load_append, frame] at hst
    exact (List.append_inj hst (by rw [load_length, putU32_length])).2
  | imm =>
    simp only at hlen
    rw [hlen] at hst
    exact hst

theorem region_offset (f : Format) (L : ℕ) (c : Connection) (m : Span Item) (h2 : 2*L < 2^32)
    (hL : 0 < L) : (addrOf L c m+headerLen f-c.rcv.addr).toNat%L =
      (m.start+(headerLen f).toNat)%L := by
  rw [addrOf, Channel.slot_inside h2 hL c.rcv.addr m (headerLen f) (by cases f <;> decide)]
  exact Nat.mod_add_mod _ _ _

/-- In-order, exactly-once delivery: the `i`-th region returned has the length of the
`i`-th message, holds its bytes until it is freed, and the polling loop is left only
when the next message lies complete at the read offset. -/
theorem in_order_delivery (f : Format) (addr : UInt64) (key size : UInt32)
    (h2 : 2*size.toNat < 2^32) (es : List Event) (c : Connection)
    (hm : Meets (step f) (fun _ => Sized f size.toNat) es (init addr key size))
    (hr : run (step f) es (init addr key size) = some c) :
    c.got.length ≤ c.sent.length ∧
    (∀ (k : ℕ) (reg : ReceiveRegion), c.got[k]? = some reg →
      ∃ p : List UInt8, c.sent[k]? = some p ∧ reg.length.toNat = p.length ∧
        (k ∈ c.held → bytesAt c.rcv c.mem reg.addr reg.length.toNat = p)) ∧
    (f = .offset → c.tail ≠ Magic.getReadOff c.rcv →
      ∃ p : List UInt8, c.sent[c.got.length]? = some p ∧
        load size.toNat c.mem (Magic.getReadOff c.rcv).toNat (frame .offset p).length =
          frame .offset p) := by
  obtain ⟨t, a, b, h⟩ := run_sound f addr key size h2 es c hm hr
  have hrl : c.rcv.length.toNat = size.toNat := h.refines.receiver.length
  have hcount := h.numbered.count
  refine ⟨by omega, ?_, ?_⟩
  · intro k reg hk
    obtain ⟨p, hp, hlen⟩ := h.returned k reg hk
    refine ⟨p, hp, hlen, ?_⟩
    intro hheld
    rw [← h.numbered.held] at hheld
    obtain ⟨m, hmh, rfl⟩ := List.mem_map.mp hheld
    have hml : m ∈ t.live := List.mem_append_left _ hmh
    obtain ⟨hsent, hml'⟩ := h.message m hml
    obtain ⟨reg', hreg', haddr⟩ := h.regions m hmh
    obtain rfl := Option.some.inj (hk.symm.trans hreg')
    obtain rfl := Option.some.inj (hp.symm.trans hsent)
    have hL := (live_pos t m hml).2
    rw [bytesAt, hrl, hlen]
    apply payload_at f size.toNat c.mem m (h.stored m (List.mem_append_left _ hmh)) hml'
    rw [haddr]
    exact region_offset f size.toNat c m h2 (by omega)
  · rintro rfl hne
    obtain ⟨m, a', ha⟩ := h.loop_exit hne
    obtain ⟨hmem, -, hstart, hid, hst⟩ := h.first m a' ha
    obtain ⟨hsent, hlen⟩ := h.message m hmem
    refine ⟨m.body.payload, hid ▸ hsent, ?_⟩
    have hrp : c.rcv.readPtr.toNat = t.read%size.toNat := h.refines.receiver.readPtr
    rw [Magic.getReadOff, hrp, ← hlen, load_congr _ _ _ m.start _ (by rw [Nat.mod_mod, hstart])]
    exact hst

/-- Two messages in a ring of 16 bytes, announced together, the second one wrapping. -/
def wrappedTrace : List Event :=
  [.send [1, 2, 3, 4, 5], .deliver, .deliver, .receive, .free 0, .updateHead,
    .send [6, 7], .send [8], .deliver, .deliver, .deliver, .deliver, .receive]

theorem in_order_delivery_wrapped : ∃ c : Connection,
    run (step .offset) wrappedTrace (init 65536 7 16) = some c ∧
    c.tail ≠ Magic.getReadOff c.rcv ∧ c.got.length ≤ c.sent.length := by
  have hr := run_get (step .offset) wrappedTrace (init 65536 7 16) (by decide +kernel)
  refine ⟨_, hr, by decide +kernel, ?_⟩
  exact (in_order_delivery .offset 65536 7 16 (by decide) wrappedTrace _ (by decide +kernel) hr).1

end KYM.WriteDelivery
