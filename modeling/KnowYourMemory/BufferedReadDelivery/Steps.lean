import KnowYourMemory.BufferedReadDelivery.Invariant

/-!
# The steps of one direction

Each operation of either end keeps the stream, and so does a store of the other direction
that stays clear of the messages.
-/

set_option autoImplicit false

namespace KYM.BufferedReadDelivery
open KYM.Run KYM.Circle KYM.RingBuffer KYM.RingOffsets KYM.BoundedStream KYM.MagicMemory
open KYM.BufferedReadPair KYM.BufferedReadHead
open KYM.BufferedRead (Counter prefixLen)

section Steps

variable {L : ℕ} {v : Sending} {w : Receiving} {t : Tape Item L} {x y : List (Span Item)}

def nextItem (v : Sending) (t : Tape Item L) (p : List UInt8) : Span Item :=
  ⟨t.tail, p.length+4, ⟨v.sent.length, p⟩⟩

theorem Sound.copied_le (h : Sound L v w t x y) : w.copied ≤ t.tail := by
  have hle := h.le_boundary
  have hwin := h.window
  unfold Receiving.copied
  rw [h.readPos, h.tailPos]
  split <;> omega

theorem Sound.tails_send (h : Sound L v w t x y) (p : List UInt8) (q : ℕ)
    (hq : q ∈ (t.tail+(p.length+4))::v.tails) (hle : t.read ≤ q) :
    ∃ x' y', t.unread++[nextItem v t p] = x'++y' ∧ headOf y' (t.tail+(p.length+4)) = q := by
  rcases List.mem_cons.mp hq with rfl | hq
  · exact ⟨t.unread++[nextItem v t p], [], (List.append_nil _).symm, rfl⟩
  · obtain ⟨x', y', hxy, hhd⟩ := h.tails q hq hle
    refine ⟨x', y'++[nextItem v t p], by rw [hxy, List.append_assoc], ?_⟩
    rw [Tape.headOf_concat]
    exact hhd

theorem Sound.message_send (h : Sound L v w t x y) (p : List UInt8) (m : Span Item)
    (hm : m ∈ t.live++[nextItem v t p]) :
    (v.sent++[p])[m.body.id]? = some m.body.payload ∧ m.len = m.body.payload.length+4 ∧
      m.start = startOf (v.sent++[p]) m.body.id := by
  rcases List.mem_append.mp hm with hm | hm
  · obtain ⟨h1, h2, h3⟩ := h.message m hm
    have hlt := (List.getElem?_eq_some_iff.mp h1).1
    exact ⟨getElem?_concat _ _ _ _ h1, h2, by rw [h3, startOf_concat _ _ _ hlt.le]⟩
  · rw [List.mem_singleton.mp hm]
    refine ⟨List.getElem?_concat_length, rfl, ?_⟩
    rw [nextItem, startOf_concat _ _ _ (le_refl _)]
    exact h.tailStart

theorem Sound.ring_send (h : Sound L v w t x y) (p : List UInt8) (hlen : p.length+4 ≤ L)
    (hfit : t.tail+(p.length+4) ≤ t.head+L) (m : Span Item)
    (hm : m ∈ t.unread++[nextItem v t p]) (hcop : w.copied ≤ m.start) :
    Stored L (store L v.ring (t.tail%L) (onRing p)) m := by
  rcases List.mem_append.mp hm with hm | hm
  · have hml : m ∈ t.live := List.mem_append_right _ hm
    rw [Stored, load_store_frame]
    · exact h.ring m hm hcop
    · rw [onRing_length]
      exact t.fresh_disjoint .up L _ _ (by omega) hfit (Nat.mod_mod _ _) m hml _ rfl
  · rw [List.mem_singleton.mp hm, nextItem, Stored,
      load_congr L _ t.tail (t.tail%L) _ (Nat.mod_mod _ _).symm]
    have hst := load_store L v.ring (t.tail%L) (onRing p) (by rw [onRing_length]; exact hlen)
    rw [onRing_length] at hst
    exact hst

theorem Sound.send (h : Sound L v w t x y) (p : List UInt8) (hf : Fits v w p) :
    ∃ t' y', Sound L (v.push p) w t' x y' := by
  obtain ⟨hfit, hwide⟩ := hf
  rw [h.sentPos, h.head, h.sndLength] at hfit
  rw [h.sentPos, h.sndLength] at hwide
  have hwin := h.window
  have hL32 := h.length_lt
  have hlen : p.length+4 ≤ L := by omega
  have hfr := frame_short p (by omega)
  have hfl : (frame p).length = p.length+4 := by rw [hfr, onRing_length]
  have hword : (UInt32.ofNat p.length).toNat = p.length :=
    UInt32.toNat_ofNat_of_lt (by simp only [UInt32.size]; omega)
  have hoff := h.tailOff (by omega)
  have hst : Tape.step t (.send (p.length+4) ⟨v.sent.length, p⟩) =
      some (t.send (p.length+4) ⟨v.sent.length, p⟩ (Nat.succ_pos _) hfit) := by
    simp only [Tape.step, dif_pos (show 0 < p.length+4 ∧ _ from ⟨Nat.succ_pos _, hfit⟩)]
  have hnum := h.numbered.send (p.length+4) ⟨v.sent.length, p⟩ rfl hst
  have hring : (v.push p).ring = store L v.ring (t.tail%L) (onRing p) := by
    rw [Sending.push, h.sndLength, hoff, hfr]
  have htails : (v.push p).tails = (t.tail+(p.length+4))::v.tails := by
    rw [Sending.push, h.sentPos, hfl]
  refine ⟨t.send (p.length+4) ⟨v.sent.length, p⟩ (Nat.succ_pos _) hfit,
    y++[nextItem v t p], h.sndLength, h.rcvLength, ?_, ?_,
    h.readPtr, h.readPos, ?_, ?_, ?_, ?_, h.held, ?_, ?_, ?_, h.region, ?_, ?_, ?_⟩
  · have hc := h.tail.add (UInt32.ofNat p.length) (by rw [hword]; exact hwide)
    rw [hword] at hc
    exact hc
  · simp only [Sending.push, h.sentPos, hfl]
    rfl
  · simp only [Tape.send, h.split, List.append_assoc, nextItem]
  · rw [Tape.headOf_concat]
    exact h.remoteTail
  · rw [Tape.headOf_concat]
    exact h.tailPos
  · rw [htails]
    exact h.tails_send p
  · simp only [Sending.push, List.length_append, List.length_singleton]
    exact hnum
  · rw [Tape.send_live t _ _ _ hst]
    exact h.message_send p
  · simp only [Sending.push, List.length_append, List.length_singleton, startOf_all,
      ← h.tailStart]
    rfl
  · intro k reg hk
    obtain ⟨q, hq, hl⟩ := h.returned k reg hk
    exact ⟨q, getElem?_concat _ _ _ _ hq, hl⟩
  · rw [hring]
    exact h.ring_send p hlen hfit
  · intro m hm hcop
    rw [Tape.send_live t _ _ _ hst] at hm
    rcases List.mem_append.mp hm with hm | hm
    · exact h.copy m hm hcop
    · rw [List.mem_singleton.mp hm] at hcop
      have hcp := h.copied_le
      simp only [Span.stop] at hcop
      omega

theorem Sound.copied_eq (h : Sound L v w t x y) :
    w.copied = if w.fetching then t.read else headOf y t.tail := by
  rw [Receiving.copied, h.readPos, h.tailPos]

theorem Sound.readTail (h : Sound L v w t x y) (p : ℕ) (heq : w.remoteTail = w.readPtr)
    (hf : w.fetching = false) (hp : p ∈ v.tails) (hle : w.readPos ≤ p) :
    ∃ x' y', Sound L v { w with
      remoteTail := UInt64.ofNat p
      fetching := UInt64.ofNat p ≠ w.readPtr
      tailPos := p } t x' y' := by
  rw [h.readPos] at hle
  obtain ⟨x', y', hxy, hhd⟩ := h.tails p hp hle
  have hx := h.announced.mp heq
  have hb := h.boundary.1
  rw [hx] at hb
  have hlast : p ≤ t.tail := by
    have ht := t.unread_tiles
    rw [hxy] at ht
    obtain ⟨b, -, hy⟩ := (tiles_append _ _ _ _).mp ht
    rw [← hhd, headOf_tiles _ _ _ hy]
    exact tiles_le _ _ _ hy
  have hcop : w.copied = t.read := by
    rw [h.copied_eq, hf]
    exact hb.symm
  have hcop' : Receiving.copied { w with
      remoteTail := UInt64.ofNat p
      fetching := UInt64.ofNat p ≠ w.readPtr
      tailPos := p } = t.read := by
    simp only [Receiving.copied, h.readPos, decide_eq_true_eq]
    split
    · rfl
    · next hne => exact (h.word_eq p hle hlast).mp (not_not.mp hne)
  refine ⟨x', y', h.sndLength, h.rcvLength, h.tail, h.sentPos, h.readPtr, h.readPos, hxy, ?_, ?_,
    h.tails, h.held, h.numbered, h.message, h.tailStart, h.region, h.returned, ?_, ?_⟩
  · rw [hhd]
  · rw [hhd]
  · rw [hcop', ← hcop]
    exact h.ring
  · rw [hcop', ← hcop]
    exact h.copy

theorem Sound.sectionLen (h : Sound L v w t x y) :
    (w.remoteTail-w.readPtr).toUInt32.toNat = headOf y t.tail-t.read := by
  obtain ⟨h1, h2⟩ := h.le_boundary
  have hw := h.readPtr.word
  have hwin := h.window
  have hL := h.length_lt
  have hrt : w.remoteTail.toNat = headOf y t.tail%2^64 := by
    rw [h.remoteTail, UInt64.toNat_ofNat']
  rw [UInt64.toNat_toUInt32, UInt64.toNat_sub, hrt, hw]
  omega

theorem Sound.fetch (h : Sound L v w t x y) (hf : w.fetching = true) :
    Sound L v { w with
      fetching := false
      buf := store w.length.toNat w.buf (w.readPtr%w.length.toUInt64).toUInt32.toNat
        (load v.length.toNat v.ring (w.readPtr%w.length.toUInt64).toUInt32.toNat
          (w.remoteTail-w.readPtr).toUInt32.toNat) } t x y := by
  obtain ⟨h1, h2⟩ := h.le_boundary
  have hwin := h.window
  have hcop : w.copied = t.read := by rw [h.copied_eq, hf, if_pos rfl]
  have hcop' : ∀ buf, Receiving.copied { w with fetching := false, buf := buf } =
      headOf y t.tail := fun _ => h.tailPos
  refine ⟨h.sndLength, h.rcvLength, h.tail, h.sentPos, h.readPtr, h.readPos, h.split, h.remoteTail,
    h.tailPos, h.tails, h.held, h.numbered, h.message, h.tailStart, h.region, h.returned, ?_, ?_⟩
  · intro m hm hle
    rw [hcop'] at hle
    exact h.ring m hm (by omega)
  · intro m hm hle
    rw [hcop'] at hle
    obtain ⟨hhd, hpos, hstop, hmL, -⟩ := h.live_pos m hm
    simp only [Stored, h.sndLength, h.rcvLength, h.sectionLen, h.readOff (by omega)]
    rcases List.mem_append.mp hm with hmh | hmu
    · have hbelow := (t.held_below m hmh).2
      rw [load_store_frame]
      · exact h.copy m hm (by omega)
      · rw [load_length]
        apply Disjoint.symm
        unfold Span.stop at hbelow
        exact cells_disjoint .up L _ m.start m.len _ t.read _ (by omega) rfl (Nat.mod_mod _ _)
          hbelow (by omega)
    · have hge := (tiles_mem _ _ _ t.unread_tiles m hmu).1
      obtain ⟨j, hj⟩ := Nat.exists_eq_add_of_le hge
      have hsh : load L (store L w.buf (t.read%L) (load L v.ring (t.read%L)
          (headOf y t.tail-t.read))) m.start m.len =
          load L (store L w.buf (t.read%L) (load L v.ring (t.read%L)
          (headOf y t.tail-t.read))) (t.read%L+j) m.len := by
        apply load_congr
        rw [hj, Nat.mod_add_mod]
      unfold Span.stop at hle
      rw [hsh, load_copy L _ _ _ _ _ _ (by omega) (by omega) (by omega),
        load_congr L v.ring (t.read%L+j) m.start _ (by rw [hj, Nat.mod_add_mod])]
      exact h.ring m hmu (by omega)

def Receiving.parsed (w : Receiving) : UInt32 :=
  getU32 (load w.length.toNat w.buf (w.readPtr%w.length.toUInt64).toUInt32.toNat 4)

theorem Sound.parsed (h : Sound L v w t x y) (m : Span Item) (x' : List (Span Item))
    (hx : x = m::x') (hf : w.fetching = false) :
    w.parsed.toNat = m.body.payload.length := by
  have hb := h.boundary.1
  rw [hx] at hb
  have hm : m ∈ t.live := by simp [Tape.live, h.split, hx]
  obtain ⟨-, -, -, hmL, -⟩ := h.live_pos m hm
  have hmsg := (h.message m hm).2.1
  have hL := h.length_lt
  have hst : Stored L w.buf m := by
    apply h.copy m hm
    rw [h.copied_eq, hf]
    exact tiles_le _ _ _ hb.2.2
  rw [Stored, onRing, hmsg, Nat.add_comm, load_append] at hst
  have h4 := (List.append_inj hst (by rw [load_length, putU32_length])).1
  rw [Receiving.parsed, h.rcvLength, h.readOff (by omega), ← hb.1,
    load_congr L _ (m.start%L) m.start _ (Nat.mod_mod _ _), h4, getU32_putU32]
  apply UInt32.toNat_ofNat_of_lt
  simp only [UInt32.size]
  omega

def Receiving.pop (w : Receiving) : Receiving :=
  let addr := w.bufAddr+(w.readPtr%w.length.toUInt64).toUInt32.toUInt64
  { w with
    readPtr := w.readPtr+(w.parsed.toUInt64+prefixLen)
    got := w.got++[⟨addr, addr+prefixLen, w.parsed⟩]
    held := w.held++[⟨w.readPos, w.parsed.toNat+4, w.got.length⟩]
    readPos := w.readPos+(w.parsed.toNat+4) }

theorem Sound.receive (h : Sound L v w t x y) (hne : w.remoteTail ≠ w.readPtr)
    (hf : w.fetching = false) : ∃ t' x', Sound L v w.pop t' x' y := by
  cases hx : x with
  | nil => exact absurd (h.announced.mpr hx) hne
  | cons m x' =>
    have hu : t.unread = m::(x'++y) := by rw [h.split, hx, List.cons_append]
    obtain ⟨hm, hstart⟩ := t.first_unread m _ hu
    have hid := h.numbered.first m _ hu
    have hparsed := h.parsed m x' hx hf
    obtain ⟨hsent, hlen, -⟩ := h.message m hm
    obtain ⟨hhd, hpos, hstop, hmL, -⟩ := h.live_pos m hm
    have hstp : t.read+(w.parsed.toNat+4) = m.stop := by
      rw [Span.stop, hlen, hparsed, hstart]
    have hcop : w.pop.copied = w.copied := by
      simp only [Receiving.copied, Receiving.pop, hf, Bool.false_eq_true, if_false]
    have hlive : (t.take m (x'++y) hu).live = t.live := t.take_live m _ hu
    unfold Receiving.pop at hcop ⊢
    refine ⟨t.take m (x'++y) hu, x', h.sndLength, h.rcvLength, h.tail, h.sentPos, ?_, ?_, rfl,
      h.remoteTail, h.tailPos, ?_, ?_, ?_, by rw [hlive]; exact h.message, h.tailStart, ?_, ?_,
      ?_, ?_⟩
    · have hw := h.readPtr.add w.parsed (h.tail.below (by rw [hstp]; exact hstop))
      rw [hstp] at hw
      exact hw
    · simp only [h.readPos, hstp]
      rfl
    · intro p hp hle
      have hle : m.stop ≤ p := hle
      obtain ⟨a, b, hab, hhb⟩ := h.tails p hp (by omega)
      cases a with
      | nil =>
        rw [List.nil_append, hu] at hab
        rw [← hab] at hhb
        simp only [headOf, Span.stop] at *
        omega
      | cons n a =>
        rw [hu, List.cons_append] at hab
        exact ⟨a, b, (List.cons.inj hab).2, hhb⟩
    · simp only [Tape.take, List.map_append, List.map_cons, List.map_nil, h.held,
        h.readPos, ← hstart, hlen, hparsed, hid]
    · simp only [List.length_append, List.length_singleton, List.map_append,
        List.map_cons, List.map_nil]
      exact h.numbered.take m _ hu
    · intro n hn
      rcases List.mem_append.mp hn with hn | hn
      · obtain ⟨reg, hreg, haddr⟩ := h.region n hn
        exact ⟨reg, getElem?_concat _ _ _ _ hreg, haddr⟩
      · rw [List.mem_singleton.mp hn, hid]
        refine ⟨_, List.getElem?_concat_length, ?_⟩
        simp only [addrAt, hstart, ← h.readOff (show 0 < L by omega),
          UInt32.ofNat_toNat]
    · intro k reg hk
      rcases getElem?_concat_cases hk with hk | ⟨rfl, rfl⟩
      · exact h.returned k reg hk
      · exact ⟨m.body.payload, hid ▸ hsent, hparsed⟩
    · intro n hn hle
      apply h.ring n ?_ (hcop ▸ hle)
      rw [hu]
      exact List.mem_cons_of_mem _ hn
    · intro n hn hle
      exact h.copy n (hlive ▸ hn) (hcop ▸ hle)

theorem Sound.free (h : Sound L v w t x y) (i : ℕ) :
    Sound L v { w with held := w.held.eraseIdx i } (t.release i) x y := by
  have hlive : ∀ m ∈ (t.release i).live, m ∈ t.live := t.mem_release i _
  refine ⟨h.sndLength, h.rcvLength, h.tail, h.sentPos, h.readPtr, h.readPos, h.split, h.remoteTail,
    h.tailPos, h.tails, ?_, ?_, fun m hm => h.message m (hlive m hm), h.tailStart, ?_, h.returned,
    h.ring, fun m hm => h.copy m (hlive m hm)⟩
  · simp only [h.held, Tape.release, List.eraseIdx_map]
  · simp only [← List.eraseIdx_map]
    exact h.numbered.release i
  · exact fun m hm => h.region m (List.mem_of_mem_eraseIdx hm)

theorem Sound.ring_frame (h : Sound L v w t x y) (ring : ℕ → UInt8)
    (hr : ∀ m ∈ t.unread, w.copied ≤ m.start → load L ring m.start m.len =
      load L v.ring m.start m.len) : Sound L { v with ring := ring } w t x y := by
  refine ⟨h.sndLength, h.rcvLength, h.tail, h.sentPos, h.readPtr, h.readPos, h.split, h.remoteTail,
    h.tailPos, h.tails, h.held, h.numbered, h.message, h.tailStart, h.region, h.returned, ?_,
    h.copy⟩
  intro m hm hle
  rw [Stored, hr m hm hle]
  exact h.ring m hm hle

theorem Sound.buf_frame (h : Sound L v w t x y) (buf : ℕ → UInt8)
    (hb : ∀ m ∈ t.live, m.stop ≤ w.copied → load L buf m.start m.len =
      load L w.buf m.start m.len) : Sound L v { w with buf := buf } t x y := by
  refine ⟨h.sndLength, h.rcvLength, h.tail, h.sentPos, h.readPtr, h.readPos, h.split, h.remoteTail,
    h.tailPos, h.tails, h.held, h.numbered, h.message, h.tailStart, h.region, h.returned, h.ring,
    ?_⟩
  intro m hm hle
  rw [Stored, hb m hm hle]
  exact h.copy m hm hle

end Steps

end KYM.BufferedReadDelivery
