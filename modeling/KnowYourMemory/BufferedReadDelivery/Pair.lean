import KnowYourMemory.BufferedReadDelivery.Steps

/-!
# Both directions of a pair

The other direction of the same connection shows only as stores into the ring or the buffer,
since each end has both in one mapping.
-/

set_option autoImplicit false

namespace KYM.BufferedReadDelivery
open KYM.Run KYM.Circle KYM.RingBuffer KYM.RingOffsets KYM.BoundedStream KYM.MagicMemory
open KYM.BufferedReadPair KYM.BufferedReadHead
open KYM.BufferedRead (Counter prefixLen)

section Pair

variable {L : ℕ}

def Delivering (L : ℕ) (a b : Connection) : Prop :=
  ∃ t x y, Sound L (sending a) (receiving b) t x y

theorem init_delivering (dialAddr acceptAddr : Mapping → UInt64) (bufSize : UInt32) (s : Side) :
    Delivering bufSize.toNat (init dialAddr acceptAddr bufSize s)
      (init dialAddr acceptAddr bufSize s.peer) := by
  refine ⟨Tape.empty Item _, [], [], ?_⟩
  cases s <;>
  · refine ⟨rfl, rfl, ⟨rfl, Or.inr (Nat.two_pow_pos 64)⟩, rfl, ⟨rfl, Or.inr (Nat.two_pow_pos 64)⟩,
      rfl, rfl, rfl, rfl, ?_, rfl, Tape.numbered_empty Item.id, ?_, rfl, ?_, ?_, ?_, ?_⟩
    · intro p hp _
      exact ⟨[], [], rfl, (List.mem_singleton.mp hp).symm⟩
    all_goals simp [Tape.live, Tape.empty, init, dialBufferedRead, accept, newConnection, receiving,
      Side.peer]

def SendClear (c : Connection) (p : List UInt8) : Prop :=
  c.buffer = c.remoteBuffer → Disjoint (cells c.snd.length.toNat c.sentPos (p.length+4))
    (cells c.snd.length.toNat (headPos c) ((receiving c).copied-headPos c))

def FetchClear (c peer : Connection) : Prop :=
  c.buffer = c.remoteBuffer → Disjoint (cells c.snd.length.toNat c.readPos (c.tailPos-c.readPos))
    (cells c.snd.length.toNat (receiving peer).copied (c.sentPos-(receiving peer).copied))

instance (c : Connection) (p : List UInt8) : Decidable (SendClear c p) :=
  inferInstanceAs (Decidable (_ = _ → Disjoint _ _))

instance (c peer : Connection) : Decidable (FetchClear c peer) :=
  inferInstanceAs (Decidable (_ = _ → Disjoint _ _))

theorem send_views {c n : Connection} {p : List UInt8} (hs : send c p = some n) :
    sending n = (sending c).push p ∧ ∃ buf, receiving n = { receiving c with buf := buf } ∧
      (buf = (receiving c).buf ∨ c.buffer = c.remoteBuffer ∧
        buf = store c.snd.length.toNat (receiving c).buf
          (c.snd.tail%c.snd.length.toUInt64).toUInt32.toNat (frame p)) := by
  unfold send at hs
  split at hs
  · next addr snd hsnd =>
    obtain ⟨rfl, rfl⟩ := BufferedRead.send_sent _ _ addr snd hsnd
    have hoff : (c.snd.bufAddr+c.snd.tailOff.toUInt64-c.snd.bufAddr).toNat =
        (c.snd.tail%c.snd.length.toUInt64).toUInt32.toNat := by
      rw [UInt64.add_comm, UInt64.add_sub_cancel, UInt32.toNat_toUInt64]
      rfl
    rw [hoff] at hs
    obtain rfl := Option.some.inj hs
    refine ⟨?_, _, rfl, ?_⟩
    · simp only [sending, Sending.push, Function.update_self]
    · by_cases he : c.remoteBuffer = c.buffer
      · right
        refine ⟨he.symm, ?_⟩
        simp only [receiving, he, Function.update_self]
      · left
        simp only [receiving, Function.update_of_ne he]
  · cases hs

theorem fetch_views {c peer n : Connection} (hs : fetch c peer = some n) :
    c.fetching = true ∧
    receiving n = { receiving c with
      fetching := false
      buf := store c.rcv.length.toNat (receiving c).buf
        (c.rcv.readPtr%c.rcv.length.toUInt64).toUInt32.toNat
        (load (sending peer).length.toNat (sending peer).ring
          (c.rcv.readPtr%c.rcv.length.toUInt64).toUInt32.toNat
          (c.rcv.remoteTail-c.rcv.readPtr).toUInt32.toNat) } ∧
    ∃ ring, sending n = { sending c with ring := ring } ∧
      (ring = (sending c).ring ∨ c.buffer = c.remoteBuffer ∧
        ring = store c.rcv.length.toNat (sending c).ring
          (c.rcv.readPtr%c.rcv.length.toUInt64).toUInt32.toNat
          (load (sending peer).length.toNat (sending peer).ring
            (c.rcv.readPtr%c.rcv.length.toUInt64).toUInt32.toNat
            (c.rcv.remoteTail-c.rcv.readPtr).toUInt32.toNat)) := by
  unfold BufferedReadPair.fetch at hs
  split at hs
  · next hf =>
    obtain rfl := Option.some.inj hs
    refine ⟨hf, ?_, _, rfl, ?_⟩
    · simp only [receiving, sending, Function.update_self]
      rfl
    · by_cases he : c.buffer = c.remoteBuffer
      · right
        refine ⟨he, ?_⟩
        simp only [sending, he, Function.update_self]
        rfl
      · left
        simp only [sending, Function.update_of_ne he]
  · cases hs

theorem readTail_views {c peer n : Connection} {q : ℕ} (hs : readTail c peer q = some n) :
    (receiving c).remoteTail = (receiving c).readPtr ∧ (receiving c).fetching = false ∧
      q ∈ (sending peer).tails ∧ (receiving c).readPos ≤ q ∧ sending n = sending c ∧
      receiving n = { receiving c with
        remoteTail := UInt64.ofNat q
        fetching := UInt64.ofNat q ≠ (receiving c).readPtr
        tailPos := q } := by
  unfold readTail at hs
  split at hs
  · next hc =>
    obtain rfl := Option.some.inj hs
    exact ⟨hc.1, hc.2.1, hc.2.2.1, hc.2.2.2, rfl, rfl⟩
  · cases hs

theorem receive_views {c n : Connection} (hs : receive c = some n) :
    (receiving c).remoteTail ≠ (receiving c).readPtr ∧ (receiving c).fetching = false ∧
      sending n = sending c ∧ receiving n = (receiving c).pop := by
  unfold receive at hs
  split at hs
  · next hc =>
    have hp : getU32 (bytesAt c (c.rcv.bufAddr+c.rcv.offset.toUInt64) 4) = (receiving c).parsed := by
      rw [bytesAt, UInt64.add_comm, UInt64.add_sub_cancel, UInt32.toNat_toUInt64]
      rfl
    simp only [hp] at hs
    obtain rfl := Option.some.inj hs
    exact ⟨hc.1, hc.2, rfl, rfl⟩
  · cases hs

theorem free_views {c n : Connection} {i : ℕ} {head : Option UInt64}
    (hs : BufferedReadPair.free c i = some (n, head)) : sending n = sending c ∧
      receiving n = { receiving c with held := c.held.eraseIdx i } := by
  obtain ⟨m, reg, -, -, rfl, -⟩ := free_eq hs
  obtain ⟨acked, hr, -⟩ := receiver_free c.rcv reg
  refine ⟨rfl, ?_⟩
  simp only [receiving, hr]

section Directions

variable {a b n : Connection}

theorem send_delivering (h1 : Delivering L a b) (h2 : Delivering L b a) (p : List UInt8)
    (hfit : Fits (sending a) (receiving b) p) (hclear : SendClear a p) (hs : send a p = some n) :
    Delivering L n b ∧ Delivering L b n := by
  obtain ⟨t, x, y, h⟩ := h1
  obtain ⟨t', x', y', h'⟩ := h2
  obtain ⟨hv, buf, hw, hbuf⟩ := send_views hs
  obtain ⟨t'', y'', hsnd⟩ := h.send p hfit
  refine ⟨⟨t'', x, y'', hv ▸ hsnd⟩, t', x', y', hw ▸ h'.buf_frame buf ?_⟩
  intro m hm hle
  rcases hbuf with rfl | ⟨halias, rfl⟩
  · rfl
  · have hL : a.snd.length.toNat = L := h.sndLength
    obtain ⟨hhd, hpos, -, hmL, -⟩ := h'.live_pos m hm
    have hoff := h.tailOff (show 0 < L by omega)
    have hwin := h.window
    have hfit1 := hfit.1
    rw [h.sentPos, h.head, h.sndLength] at hfit1
    have hL32 := h.length_lt
    have hlen : (frame p).length = p.length+4 := by
      rw [frame_short p (by omega), onRing_length]
    have hd := hclear halias
    rw [hL] at hd ⊢
    apply load_store_frame
    have hsp : a.sentPos = t.tail := h.sentPos
    have hhp : headPos a = t'.head := h'.head
    have ho : (a.snd.tail%a.snd.length.toUInt64).toUInt32.toNat = t.tail%L := hoff
    unfold Span.stop at hle
    rw [hhp, hsp] at hd
    rw [hlen, ho, cells_congr L (t.tail%L) t.tail _ (Nat.mod_mod _ _)]
    exact Finset.disjoint_of_subset_right (cells_subset L t'.head ((receiving a).copied-t'.head)
      m.start m.len hhd (by omega)) hd

theorem fetch_delivering (h1 : Delivering L a b) (h2 : Delivering L b a)
    (hclear : FetchClear a b) (hs : BufferedReadPair.fetch a b = some n) :
    Delivering L n b ∧ Delivering L b n := by
  obtain ⟨t, x, y, h⟩ := h1
  obtain ⟨t', x', y', h'⟩ := h2
  obtain ⟨hf, hw, ring, hv, hring⟩ := fetch_views hs
  have hgot := h'.fetch hf
  refine ⟨⟨t, x, y, hv ▸ h.ring_frame ring ?_⟩, t', x', y', hw ▸ hgot⟩
  intro m hm hle
  rcases hring with rfl | ⟨halias, rfl⟩
  · rfl
  · have hrl : a.rcv.length.toNat = L := h'.rcvLength
    have hsl : a.snd.length.toNat = L := h.sndLength
    obtain ⟨-, hpos, hstop, hmL, -⟩ := h.live_pos m (List.mem_append_right _ hm)
    have hoff : (a.rcv.readPtr%a.rcv.length.toUInt64).toUInt32.toNat = t'.read%L :=
      h'.readOff (by omega)
    have hsec : (a.rcv.remoteTail-a.rcv.readPtr).toUInt32.toNat = headOf y' t'.tail-t'.read :=
      h'.sectionLen
    have hd := hclear halias
    have hsp : a.sentPos = t.tail := h.sentPos
    have hrp : a.readPos = t'.read := h'.readPos
    have htp : a.tailPos = headOf y' t'.tail := h'.tailPos
    rw [hsl, hrp, htp, hsp] at hd
    unfold Span.stop at hstop
    rw [hrl, hoff, hsec]
    apply load_store_frame
    rw [load_length, cells_congr L (t'.read%L) t'.read _ (Nat.mod_mod _ _)]
    exact Finset.disjoint_of_subset_right
      (cells_subset L (receiving b).copied _ m.start m.len hle (by omega)) hd

theorem readTail_delivering (h1 : Delivering L a b) (h2 : Delivering L b a) (q : ℕ)
    (hs : readTail a b q = some n) : Delivering L n b ∧ Delivering L b n := by
  obtain ⟨t, x, y, h⟩ := h1
  obtain ⟨t', x', y', h'⟩ := h2
  obtain ⟨heq, hf, hq, hle, hv, hw⟩ := readTail_views hs
  obtain ⟨x'', y'', hgot⟩ := h'.readTail q heq hf hq hle
  exact ⟨⟨t, x, y, hv ▸ h⟩, t', x'', y'', hw ▸ hgot⟩

theorem receive_delivering (h1 : Delivering L a b) (h2 : Delivering L b a)
    (hs : receive a = some n) : Delivering L n b ∧ Delivering L b n := by
  obtain ⟨t, x, y, h⟩ := h1
  obtain ⟨t', x', y', h'⟩ := h2
  obtain ⟨hne, hf, hv, hw⟩ := receive_views hs
  obtain ⟨t'', x'', hgot⟩ := h'.receive hne hf
  exact ⟨⟨t, x, y, hv ▸ h⟩, t'', x'', y', hw ▸ hgot⟩

theorem free_delivering (h1 : Delivering L a b) (h2 : Delivering L b a) (i : ℕ)
    (head : Option UInt64) (hs : BufferedReadPair.free a i = some (n, head)) :
    Delivering L n (writeHead b head) ∧ Delivering L (writeHead b head) n := by
  obtain ⟨t, x, y, h⟩ := h1
  obtain ⟨t', x', y', h'⟩ := h2
  obtain ⟨hv, hw⟩ := free_views hs
  have hpv : sending (writeHead b head) = sending b := by cases head <;> rfl
  have hpw : receiving (writeHead b head) = receiving b := by cases head <;> rfl
  refine ⟨⟨t, x, y, ?_⟩, t'.release i, x', y', ?_⟩
  · rw [hv, hpw]
    exact h
  · rw [hw, hpv]
    exact h'.free i

end Directions

/-- A `Send` fits, and no store runs over what the other direction still needs. -/
def Regular (c : Pair) : Event → Prop
  | .send s p => Fits (sending (c s)) (receiving (c s.peer)) p ∧ SendClear (c s) p
  | .fetch s => FetchClear (c s) (c s.peer)
  | _ => True

instance (c : Pair) : ∀ e : Event, Decidable (Regular c e)
  | .send s p => inferInstanceAs (Decidable (Fits (sending (c s)) (receiving (c s.peer)) p ∧
      SendClear (c s) p))
  | .fetch s => inferInstanceAs (Decidable (FetchClear (c s) (c s.peer)))
  | .readTail _ _ | .receive _ | .free _ _ => isTrue trivial

variable {c c' : Pair}

theorem delivering_update (c : Pair) (s : Side) (n : Connection)
    (hn : Delivering L n (c s.peer) ∧ Delivering L (c s.peer) n) (t : Side) :
    Delivering L (Function.update c s n t) (Function.update c s n t.peer) := by
  rcases Side.eq_or s t with rfl | rfl
  · rw [Function.update_self, Function.update_of_ne (Side.peer_ne t)]
    exact hn.1
  · rw [Side.peer_peer, Function.update_self, Function.update_of_ne (Side.peer_ne s)]
    exact hn.2

theorem step_delivering (h : ∀ t, Delivering L (c t) (c t.peer)) (e : Event) (he : Regular c e)
    (hs : step c e = some c') (t : Side) : Delivering L (c' t) (c' t.peer) := by
  have hback : ∀ s : Side, Delivering L (c s.peer) (c s) := by
    intro s
    have := h s.peer
    rwa [Side.peer_peer] at this
  cases e with
  | send s p =>
    obtain ⟨n, hn, rfl⟩ := Option.map_eq_some_iff.mp hs
    exact delivering_update c s n (send_delivering (h s) (hback s) p he.1 he.2 hn) t
  | readTail s q =>
    obtain ⟨n, hn, rfl⟩ := Option.map_eq_some_iff.mp hs
    exact delivering_update c s n (readTail_delivering (h s) (hback s) q hn) t
  | fetch s =>
    obtain ⟨n, hn, rfl⟩ := Option.map_eq_some_iff.mp hs
    exact delivering_update c s n (fetch_delivering (h s) (hback s) he hn) t
  | receive s =>
    obtain ⟨n, hn, rfl⟩ := Option.map_eq_some_iff.mp hs
    exact delivering_update c s n (receive_delivering (h s) (hback s) hn) t
  | free s i =>
    obtain ⟨⟨n, head⟩, hn, rfl⟩ := Option.map_eq_some_iff.mp hs
    obtain ⟨h1, h2⟩ := free_delivering (h s) (hback s) i head hn
    rcases Side.eq_or s t with rfl | rfl
    · rwa [Function.update_of_ne (Ne.symm (Side.peer_ne t)), Function.update_self,
        Function.update_self]
    · rwa [Side.peer_peer, Function.update_self,
        Function.update_of_ne (Ne.symm (Side.peer_ne s)), Function.update_self]

end Pair

end KYM.BufferedReadDelivery
