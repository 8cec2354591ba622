import KnowYourMemory.ReverseDelivery.Invariant

/-!
# Sending and arrival of reversed messages

A send claims the space behind the stream, and its bytes arrive from the end of the message
to its front.
-/

set_option autoImplicit false

namespace KYM.ReverseDelivery
open KYM.Run KYM.Circle KYM.RingBuffer KYM.RingOffsets KYM.BoundedStream KYM.MagicMemory
open KYM.WriteSender (bytesAt storeAt)
open KYM.WriteReverse

section Send

variable {L : ℕ} {c c' : Connection} {t : Tape Item (L-1)} {a b : List (Span Item)}

theorem send_ok (c c' : Connection) (msg : Message) (hm : Fitting msg)
    (hs : send c msg = some c') : ∃ (len : UInt32) (addr : UInt64),
      len.toNat = msg.size.toNat+6 ∧ getWriteAddr .down c.snd len = .ok addr ∧
      c' = { c with
        snd := written c.snd (len-1)
        wire := c.wire++[(addr, frame msg)]
        sent := c.sent++[msg]
        tails := c.tails++[(written c.snd (len-1)).tail] } := by
  obtain ⟨reg, hreg, hlen, hbuf⟩ := region_ok msg hm
  unfold Fitting at hm
  have h6 : (reg.length+6).toNat = msg.size.toNat+6 := by
    rw [add_toNat _ _ (by rw [hlen]; exact hm), hlen]
    rfl
  have hbytes : fetch (reg.fill msg.payload).buf 0 (reg.length+6).toNat = frame msg := by
    rw [h6, frame]
    apply List.map_congr_left
    intro i hi
    rw [Nat.zero_add]
    exact hbuf i (List.mem_range.mp hi)
  simp only [send, hreg, sendAsync] at hs
  cases hg : Reverse.getWriteAddr c.snd ((reg.fill msg.payload).length+6) with
  | error e => simp [hg] at hs
  | ok addr =>
    simp only [hg, Option.some.injEq] at hs
    refine ⟨reg.length+6, addr, h6, hg, ?_⟩
    rw [← hs, ← hbytes]
    rfl

theorem InFlight.send (h : InFlight L c b) (m : Span Item) (o : UInt32)
    (ho : Anchored .down L o.toNat m.start (m.len+1)) (hb : o.toNat+(m.len+1) ≤ 2*L)
    (hr : c'.rcv = c.rcv) (hmem : c'.mem = c.mem)
    (hw : c'.wire = c.wire++[(c.rcv.addr+o.toUInt64, frame m.body.msg)]) :
    InFlight L c' (b++[m]) := by
  obtain ⟨j, hf, hj⟩ := h
  refine ⟨j, ?_, ?_⟩
  · have he : (c.rcv.addr+o.toUInt64, frame m.body.msg) =
        entryOf c.rcv.addr o.toNat 0 m.body.msg := by
      have hn : UInt64.ofNat o.toNat = o.toUInt64 := by
        apply UInt64.toNat_inj.mp
        rw [UInt32.toNat_toUInt64]
        exact UInt64.toNat_ofNat_of_lt (by have := o.toNat_lt; simp only [UInt64.size]; omega)
      rw [entryOf, Nat.add_zero, hn, List.drop_zero]
    rw [hr, hw, he]
    exact hf.concat m o.toNat ho hb
  · rw [hmem]
    cases b with
    | nil =>
      obtain rfl := hf.1
      simp [Landed]
    | cons n b => exact hj

theorem Sound.send (h : Sound L c t a b) (h2 : 2*L < 2^32) (msg : Message) (hm : Fitting msg)
    (hs : WriteReverse.send c msg = some c') : ∃ t' b', Sound L c' t' a b' := by
  obtain ⟨len, a0, hlen, hg, rfl⟩ := send_ok c c' msg hm hs
  unfold Fitting at hm
  have hz : (1 : UInt32).toNat < len.toNat ∧ ((1 : UInt32) = 0 → len.toNat < L) := by
    rw [hlen]
    exact ⟨by change 1 < _; omega, fun h => absurd h (by decide)⟩
  have hclaim : (len-1).toNat = msg.size.toNat+5 := by
    rw [sub_toNat _ _ hz.1.le, hlen]
    rfl
  obtain ⟨hL, -, k, hk, hsnd, hroom, -⟩ := Channel.send_room h2 h.refines len hz a0 hg
  have hkt := hk.le_tail
  obtain ⟨o, ha0, ho, hob⟩ := getWriteAddr_ok hL h2 hsnd len (by omega) a0 hg
  obtain ⟨addr, snd, t', hw, -, hst, hr⟩ :=
    Channel.sent_link h2 h.refines len ⟨c.sent.length, msg⟩ hz a0 hg
  obtain ⟨-, htail, hheld, hunread⟩ := Tape.step_send t t' _ _ hst
  have hwr : written c.snd (len-1) = snd := by
    have hw' : Reverse.write c.snd (len-1) = .ok (addr, snd) := hw
    simp only [written, hw']
  rw [hwr]
  have haddr : a0 = c.rcv.addr+o.toUInt64 := by
    rw [ha0, h.refines.base]
    rfl
  have hlast : UInt32.ofNat (offset .down L t.tail) = c.snd.tail := by
    have ht : c.snd.tail.toNat = offset .down L t.tail := hsnd.tail
    rw [← ht, UInt32.ofNat_toNat]
  refine ⟨t', b++[⟨t.tail, (len-1).toNat, ⟨c.sent.length, msg⟩⟩], hr, ?_, ?_, ?_, ?_, ?_, ?_, ?_,
    ?_, ?_⟩
  · rw [hunread, h.split, List.append_assoc]
  · simp only [List.length_append, List.length_singleton]
    exact h.numbered.send _ _ rfl hst
  · intro m hmem
    rw [Tape.send_live t t' _ _ hst] at hmem
    rcases List.mem_append.mp hmem with hmem | hmem
    · obtain ⟨h1, h2⟩ := h.message m hmem
      exact ⟨getElem?_concat _ _ _ _ h1, h2⟩
    · rw [List.mem_singleton.mp hmem]
      exact ⟨by simp, hclaim⟩
  · have hp := h.phase
    simp only [Phased, hheld] at hp ⊢
    exact hp
  · intro i reg hi
    obtain ⟨q, hq, hl⟩ := h.returned i reg hi
    exact ⟨q, getElem?_concat _ _ _ _ hq, hl⟩
  · have ht := h.tails
    have hle : c.got.length ≤ c.tails.length := by
      have := congrArg List.length ht
      simp only [List.length_drop, List.length_append, List.length_singleton] at this
      omega
    simp only [List.drop_append_of_le_length hle, ht, hunread, List.map_append, List.map_cons,
      List.map_nil, hlast]
  · rw [hheld]
    exact h.stored
  · rw [Tape.headOf_concat]
    exact h.frontier
  · apply h.inFlight.send ⟨t.tail, (len-1).toNat, ⟨c.sent.length, msg⟩⟩ o
    · simp only [hclaim, ← hlen]
      exact ho
    · simp only [hclaim]
      omega
    · rfl
    · rfl
    · rw [haddr]

end Send

section Arrive

variable {L : ℕ} {c c' : Connection} {t : Tape Item (L-1)} {a b : List (Span Item)}

theorem Sound.updateHead (h : Sound L c t a b) (hs : step c .updateHead = some c') :
    Sound L c' t a b := by
  obtain rfl := Option.some.inj hs
  have hr := Channel.acknowledge_refines h.refines
  refine ⟨hr.relink _ _ _ rfl rfl rfl, h.split, h.numbered, h.message, h.phase, h.returned, ?_,
    h.stored, h.frontier, h.inFlight⟩
  exact h.tails

/-- The message that is arriving lies behind everything that has arrived, within
one length of the ring. -/
theorem Sound.arriving (h : Sound L c t a b) (m : Span Item) (b' : List (Span Item))
    (hb : b = m::b') : m.len = m.body.msg.size.toNat+5 ∧ m.len+1 ≤ L ∧
      headOf b' t.tail = m.stop ∧ ∀ n ∈ t.held++a, n.stop ≤ m.start ∧ m.stop < n.start+L := by
  have hu : t.unread = a++m::b' := by rw [h.split, hb]
  have hmem : m ∈ t.live := by simp [Tape.live, hu]
  have hlt := Channel.span_len_lt t m hmem
  have hstop := (t.live_mem m hmem).2.2
  have hw := t.window
  refine ⟨(h.message m hmem).2, by omega, t.next_head a b' m hu, ?_⟩
  intro n hn
  obtain ⟨hnl, hbef⟩ := t.live_before a b' m hu n hn
  have hhead := (t.live_mem n hnl).1
  unfold Tape.head at hhead
  exact ⟨hbef, by omega⟩

theorem Sound.arrive_eq (h : Sound L c t a b) (h2 : 2*L < 2^32) (m : Span Item)
    (b' : List (Span Item)) (hb : b = m::b') (hs : arrive c = some c') :
    ∃ (j o : ℕ) (w' : List (UInt64 × List UInt8)), j ≤ m.len ∧ Landed L c.mem m j ∧
      Anchored .down L o m.start (m.len+1) ∧ o+(m.len+1) ≤ 2*L ∧ Flying c.rcv.addr L 0 b' w' ∧
      c' = { c with
        mem := landing L c.mem m j
        wire := if j = m.len then w' else entryOf c.rcv.addr o (j+1) m.body.msg::w' } := by
  obtain ⟨j, hf, hj⟩ := h.inFlight
  obtain ⟨hlen, hL, -, -⟩ := h.arriving m b' hb
  subst hb
  obtain ⟨hjl, hland⟩ := hj m (by simp)
  obtain ⟨o, w', hw, ho, hob, hf'⟩ := hf
  refine ⟨j, o, w', hjl, hland, ho, hob, hf', ?_⟩
  simp only [arrive, hw, entryOf, frame_drop m.body.msg j (by omega), Option.some.injEq] at hs
  have hoff : (c.rcv.addr+UInt64.ofNat (o+j)-c.rcv.addr).toNat = o+j := addr_sub _ _ (by omega)
  have hplace : (o+j)%L = place .down L (m.start+(m.len-j)) := by
    rw [mirror_cell L o m.start (m.len+1) j (by omega) ho (by omega)]
    rfl
  have hrl : c.rcv.length.toNat = L := h.refines.receiver.length
  have hmem : storeAt c.rcv c.mem (c.rcv.addr+UInt64.ofNat (o+j)) [byteOf m.body.msg j] =
      landing L c.mem m j := by
    rw [storeAt, hrl, hoff, store_byte, hplace]
    rfl
  have hnext : c.rcv.addr+UInt64.ofNat (o+j)+1 = c.rcv.addr+UInt64.ofNat (o+(j+1)) := by
    rw [UInt64.add_assoc, ← Nat.add_assoc, UInt64.ofNat_add (o+j) 1]
    rfl
  rw [← hs, hmem, hnext]
  by_cases he : j = m.len
  · rw [if_pos he]
    simp [he, hlen, frame]
  · rw [if_neg he, frame_drop m.body.msg (j+1) (by omega)]
    simp [entryOf, frame_drop m.body.msg (j+1) (by omega : j+1 < m.body.msg.size.toNat+6)]

theorem Phased.arrive (h : Phased L c t a) (m : Span Item) (hp : c'.phase = c.phase)
    (hg : c'.got = c.got) (hr : c'.rcv = c.rcv) : Phased L c' t (a++[m]) := by
  unfold Phased addrOf at *
  rw [hp, hg, hr]
  cases hc : c.phase with
  | polling => trivial
  | parsing => simp
  | holding reg =>
    rw [hc] at h
    exact h

theorem Sound.arrive (h : Sound L c t a b) (h2 : 2*L < 2^32)
    (hs : WriteReverse.arrive c = some c') : ∃ a' b', Sound L c' t a' b' := by
  cases hb : b with
  | nil =>
    obtain ⟨j, hf, -⟩ := h.inFlight
    rw [hb] at hf
    simp [WriteReverse.arrive, hf.2] at hs
  | cons m b' =>
    obtain ⟨j, o, w', hj, hland, ho, hob, hf', rfl⟩ := h.arrive_eq h2 m b' hb hs
    obtain ⟨hlen, hL, hhead, hbefore⟩ := h.arriving m b' hb
    have hnext := hland.next hL hj
    have hold : ∀ n ∈ t.held++a, Stored L (landing L c.mem m j) n := by
      intro n hn
      exact (h.stored n hn).landing (hbefore n hn).1 (hbefore n hn).2
    by_cases he : j = m.len
    · rw [he] at hnext
      obtain ⟨hst, hzero⟩ := hnext.stored
      refine ⟨a++[m], b', h.refines, split_next h.split hb, h.numbered, h.message, ?_, h.returned,
        h.tails, ?_, ?_, ?_⟩
      · exact h.phase.arrive m rfl rfl rfl
      · exact forall_next hold (he ▸ hst)
      · simp only [hhead, he]
        exact hzero
      · refine ⟨0, ?_, by simp [Landed]⟩
        simp only [he, if_true]
        exact hf'
    · refine ⟨a, b, h.refines, h.split, h.numbered, h.message, h.phase, h.returned, h.tails, hold, ?_,
        j+1, ?_, ?_⟩
      · have hfr := h.frontier
        rw [hb] at hfr ⊢
        simp only [headOf] at hfr ⊢
        rw [landing_frame _ (Or.inl (by omega))]
        exact hfr
      · rw [hb]
        simp only [if_neg he]
        exact ⟨o, w', rfl, ho, hob, hf'⟩
      · rw [hb]
        intro n hn
        obtain rfl : m = n := by simpa using hn
        exact ⟨by omega, hnext⟩

end Arrive

end KYM.ReverseDelivery
