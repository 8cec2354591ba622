import KnowYourMemory.BufferedReadDelivery.Pair

/-!
# Delivery over buffered read

What is received is what was sent, in order, for as long as neither direction stores over
the messages of the other. One direction on its own is kept within the window by its sender.
-/

set_option autoImplicit false

namespace KYM.BufferedReadDelivery
open KYM.Run KYM.Circle KYM.RingBuffer KYM.RingOffsets KYM.BoundedStream KYM.MagicMemory
open KYM.BufferedReadPair KYM.BufferedReadHead
open KYM.BufferedRead (Counter prefixLen)

/-- What one direction owes to the application: the messages in order, each with its
bytes until it is freed, section reads of whole messages, and a ring in which
everything that is still to be fetched is intact. -/
structure Delivered (a b : Connection) : Prop where
  count : b.got.length ≤ a.sent.length
  inOrder : ∀ (k : ℕ) (reg : ReceiveRegion), b.got[k]? = some reg →
    ∃ p : List UInt8, a.sent[k]? = some p ∧ reg.length.toNat = p.length ∧
      ((∃ m ∈ b.held, m.body = k) → bytesAt b reg.addr reg.length.toNat = p)
  whole : ∃ n, b.got.length+n ≤ a.sent.length ∧ b.readPos = startOf a.sent b.got.length ∧
    b.readPos+b.rcv.sectionLen.toNat = startOf a.sent (b.got.length+n)
  unfetched : ∀ (k : ℕ) (p : List UInt8), a.sent[k]? = some p →
    (receiving b).copied ≤ startOf a.sent k →
    load a.snd.length.toNat (a.mem a.buffer) (startOf a.sent k) (p.length+4) = onRing p

section Delivered

variable {L : ℕ} {v : Sending} {w : Receiving} {t : Tape Item L} {x y : List (Span Item)}

theorem Sound.next_start (h : Sound L v w t x y) (a b : List (Span Item))
    (hu : t.unread = a++b) : headOf b t.tail = startOf v.sent (w.got.length+a.length) := by
  have hn := h.numbered.unread
  have hcount := h.numbered.count
  rw [hu, List.length_append] at hcount
  cases b with
  | nil =>
    rw [headOf, h.tailStart, hcount]
    rfl
  | cons m b =>
    have hm : m ∈ t.live := by simp [Tape.live, hu]
    have hid : m.body.id = w.got.length+a.length := by
      have hk := congrArg (fun l => l[a.length]?) hn
      simpa [hu] using hk
    rw [headOf, (h.message m hm).2.2, hid]

theorem Sound.read_start (h : Sound L v w t x y) : t.read = startOf v.sent w.got.length := by
  have hs := h.next_start [] t.unread rfl
  rw [headOf_tiles _ _ _ t.unread_tiles] at hs
  exact hs

theorem region_offset (w : Receiving) (L start : ℕ) (hL : 0 < L) (hL32 : L < 2^32) :
    (addrAt w L start+prefixLen-w.bufAddr).toNat%L = (start+4)%L := by
  have hlt := Nat.mod_lt start hL
  have hw : (UInt32.ofNat (start%L)).toUInt64.toNat = start%L := by
    rw [UInt32.toNat_toUInt64]
    apply UInt32.toNat_ofNat_of_lt
    simp only [UInt32.size]
    omega
  have hp : prefixLen.toNat = 4 := rfl
  rw [addrAt, UInt64.add_assoc, UInt64.add_comm, UInt64.add_sub_cancel, UInt64.toNat_add, hw, hp,
    Nat.mod_eq_of_lt (show start%L+4 < 2^64 by omega), Nat.mod_add_mod]

theorem Sound.held_payload (h : Sound L v w t x y) (m : Span Item) (hm : m ∈ t.held) :
    load L w.buf (addrAt w L m.start+prefixLen-w.bufAddr).toNat m.body.payload.length =
      m.body.payload := by
  have hml : m ∈ t.live := List.mem_append_left _ hm
  obtain ⟨-, hpos, -, hmL, -⟩ := h.live_pos m hml
  have hle := h.le_boundary
  have hcop : m.stop ≤ w.copied := by
    have := (t.held_below m hm).2
    rw [h.copied_eq]
    split <;> omega
  have hst := h.copy m hml hcop
  rw [Stored, (h.message m hml).2.1, Nat.add_comm, load_append, onRing] at hst
  rw [load_congr L _ _ _ _ (region_offset w L m.start (by omega) h.length_lt)]
  exact (List.append_inj hst (by rw [load_length, putU32_length])).2

theorem Delivering.delivered {a b : Connection} (h : Delivering L a b) : Delivered a b := by
  obtain ⟨t, x, y, h⟩ := h
  have hcount := h.numbered.count
  refine ⟨?_, ?_, ⟨x.length, ?_, ?_, ?_⟩, ?_⟩
  · exact Nat.le.intro hcount.symm
  · intro k reg hk
    obtain ⟨p, hp, hlen⟩ := h.returned k reg hk
    refine ⟨p, hp, hlen, ?_⟩
    rintro ⟨m, hm, rfl⟩
    have hheld : b.held = t.held.map (fun m => ⟨m.start, m.len, m.body.id⟩) := h.held
    rw [hheld] at hm
    obtain ⟨n, hn, rfl⟩ := List.mem_map.mp hm
    obtain ⟨reg', hreg', haddr⟩ := h.region n hn
    obtain rfl := Option.some.inj (hk.symm.trans hreg')
    obtain rfl := Option.some.inj (hp.symm.trans (h.message n (List.mem_append_left _ hn)).1)
    have hrl : b.rcv.length.toNat = L := h.rcvLength
    rw [bytesAt, hrl, hlen, haddr]
    exact h.held_payload n hn
  · rw [h.split, List.length_append] at hcount
    have hcount : a.sent.length = b.got.length+(x.length+y.length) := hcount
    omega
  · exact h.readPos.trans h.read_start
  · have hsec : b.rcv.sectionLen.toNat = headOf y t.tail-t.read := h.sectionLen
    have hrp : b.readPos = t.read := h.readPos
    have hle := h.le_boundary
    have hns : headOf y t.tail = startOf a.sent (b.got.length+x.length) := h.next_start x y h.split
    omega
  · intro k p hk hle
    have hsl : a.snd.length.toNat = L := h.sndLength
    have hkl := (List.getElem?_eq_some_iff.mp hk).1
    have hcop : t.read ≤ (receiving b).copied := by
      have := h.le_boundary
      rw [h.copied_eq]
      split <;> omega
    have hge : b.got.length ≤ k := by
      by_contra hlt
      have h1 := startOf_succ a.sent p k hk
      have h2 := startOf_le a.sent (k+1) b.got.length (by omega)
      have h3 : t.read = startOf a.sent b.got.length := h.read_start
      omega
    have hid : k ∈ t.unread.map (fun m => m.body.id) := by
      have hcount : a.sent.length = b.got.length+t.unread.length := hcount
      have hgot : (receiving b).got.length = b.got.length := rfl
      rw [h.numbered.unread, List.mem_range'_1]
      exact ⟨hge, by omega⟩
    obtain ⟨m, hm, rfl⟩ := List.mem_map.mp hid
    obtain ⟨hsent, hlen, hstart⟩ := h.message m (List.mem_append_right _ hm)
    obtain rfl := Option.some.inj (hk.symm.trans hsent)
    have hstart : m.start = startOf a.sent m.body.id := hstart
    have hst := h.ring m hm (by rw [hstart]; exact hle)
    rw [Stored, hstart, hlen] at hst
    rw [hsl]
    exact hst

end Delivered

theorem run_delivering (dialAddr acceptAddr : Mapping → UInt64) (bufSize : UInt32)
    (es : List Event) (c : Pair) (hm : Meets step Regular es (init dialAddr acceptAddr bufSize))
    (hr : run step es (init dialAddr acceptAddr bufSize) = some c) (s : Side) :
    Delivering bufSize.toNat (c s) (c s.peer) := by
  refine run_keeps step Regular (fun c => ∀ t, Delivering bufSize.toNat (c t) (c t.peer)) ?_ es _ c
    (init_delivering dialAddr acceptAddr bufSize) hm hr s
  intro c e c' h he hs
  exact step_delivering h e he hs

section OneWay

/-- Only `s` sends, and only the other end receives. -/
def OneWay (s : Side) : Event → Prop
  | .send t _ => t = s
  | .readTail t _ | .fetch t | .receive t | .free t _ => t = s.peer

def InWindow (c : Pair) : Event → Prop
  | .send s p => Fits (sending (c s)) (receiving (c s.peer)) p
  | _ => True

instance (s : Side) : ∀ e : Event, Decidable (OneWay s e)
  | .send t _ => inferInstanceAs (Decidable (t = s))
  | .readTail t _ | .fetch t | .receive t | .free t _ => inferInstanceAs (Decidable (t = s.peer))

instance (c : Pair) : ∀ e : Event, Decidable (InWindow c e)
  | .send s p => inferInstanceAs (Decidable (Fits (sending (c s)) (receiving (c s.peer)) p))
  | .readTail _ _ | .fetch _ | .receive _ | .free _ _ => isTrue trivial

def Silent (s : Side) (c : Pair) : Prop :=
  (receiving (c s)).copied = 0 ∧ (c s.peer).sentPos = 0

theorem Silent.regular {s : Side} {c : Pair} (h : Silent s c) (e : Event) (ho : OneWay s e)
    (hw : InWindow c e) : Regular c e := by
  cases e with
  | send t p =>
    obtain rfl : t = s := ho
    refine ⟨hw, fun _ => ?_⟩
    rw [h.1, Nat.zero_sub]
    exact Finset.disjoint_empty_right _
  | fetch t =>
    obtain rfl : t = s.peer := ho
    intro _
    rw [h.2, Nat.zero_sub]
    exact Finset.disjoint_empty_right _
  | readTail t q => trivial
  | receive t => trivial
  | free t i => trivial

theorem silent_update {s : Side} {c : Pair} (h : Silent s c) (n : Connection)
    (hn : n.sentPos = (c s.peer).sentPos) : Silent s (Function.update c s.peer n) := by
  refine ⟨?_, ?_⟩
  · rw [Function.update_of_ne (Ne.symm (Side.peer_ne s))]
    exact h.1
  · rw [Function.update_self, hn]
    exact h.2

theorem Silent.step {s : Side} {c c' : Pair} (h : Silent s c) (e : Event) (ho : OneWay s e)
    (hs : step c e = some c') : Silent s c' := by
  cases e with
  | send t p =>
    obtain rfl : t = s := ho
    obtain ⟨n, hn, rfl⟩ := Option.map_eq_some_iff.mp hs
    obtain ⟨-, buf, hw, -⟩ := send_views hn
    refine ⟨?_, ?_⟩
    · rw [Function.update_self, hw]
      exact h.1
    · rw [Function.update_of_ne (Side.peer_ne t)]
      exact h.2
  | readTail t q =>
    obtain rfl : t = s.peer := ho
    obtain ⟨n, hn, rfl⟩ := Option.map_eq_some_iff.mp hs
    obtain ⟨-, -, -, -, hv, -⟩ := readTail_views hn
    exact silent_update h n (congrArg Sending.sentPos hv)
  | fetch t =>
    obtain rfl : t = s.peer := ho
    obtain ⟨n, hn, rfl⟩ := Option.map_eq_some_iff.mp hs
    obtain ⟨-, -, ring, hv, -⟩ := fetch_views hn
    exact silent_update h n (congrArg Sending.sentPos hv)
  | receive t =>
    obtain rfl : t = s.peer := ho
    obtain ⟨n, hn, rfl⟩ := Option.map_eq_some_iff.mp hs
    obtain ⟨-, -, hv, -⟩ := receive_views hn
    exact silent_update h n (congrArg Sending.sentPos hv)
  | free t i =>
    obtain rfl : t = s.peer := ho
    obtain ⟨⟨n, head⟩, hn, rfl⟩ := Option.map_eq_some_iff.mp hs
    obtain ⟨hv, -⟩ := free_views hn
    rw [Side.peer_peer]
    refine ⟨?_, ?_⟩
    · rw [Function.update_self]
      cases head <;> exact h.1
    · rw [Function.update_of_ne (Side.peer_ne s), Function.update_self]
      exact (congrArg Sending.sentPos hv).trans h.2

/-- Buffered read in one direction delivers exactly, in the runs whose messages all end
within one ring length of the oldest unfreed byte. -/
theorem one_way_delivery (dialAddr acceptAddr : Mapping → UInt64) (bufSize : UInt32) (s : Side)
    (es : List Event) (c : Pair)
    (hm : Meets step (fun c e => OneWay s e ∧ InWindow c e) es (init dialAddr acceptAddr bufSize))
    (hr : run step es (init dialAddr acceptAddr bufSize) = some c) :
    Delivered (c s) (c s.peer) := by
  have hreg : Meets step Regular es (init dialAddr acceptAddr bufSize) := by
    refine meets_of_keeps step _ Regular (Silent s) ?_ ?_ es _ ?_ hm
    · exact fun c e c' h he hs => h.step e he.1 hs
    · exact fun c e h he => h.regular e he.1 he.2
    · cases s <;> exact ⟨rfl, rfl⟩
  exact (run_delivering dialAddr acceptAddr bufSize es c hreg hr s).delivered

def unfreed (a b : Connection) : ℕ := (b.held.map Span.len).sum+(a.sentPos-b.readPos)

/-- Three messages are held and the middle one is freed. The next two come to the size
of the ring with those that are left, but the check forgets the prefix of the first
and takes the ring for empty at the second. -/
def filledHole : List Event :=
  [.send .dial (List.replicate 16 1), .send .dial (List.replicate 16 2),
    .send .dial (List.replicate 16 3), .readTail .accept 60, .fetch .accept, .receive .accept,
    .receive .accept, .receive .accept, .free .accept 1, .send .dial (List.replicate 3 4),
    .send .dial (List.replicate 13 5), .readTail .accept 84, .fetch .accept]

theorem held_region_overwritten : ∃ (c : Pair) (reg : ReceiveRegion),
    Meets step (fun c e => OneWay .dial e ∧ unfreed (c .dial) (c .accept) ≤ 64) filledHole
      (init mappings mappings 64) ∧
    run step filledHole (init mappings mappings 64) = some c ∧
    unfreed (c .dial) (c .accept) ≤ 64 ∧ (c .accept).got[0]? = some reg ∧
    (∃ m ∈ (c .accept).held, m.body = 0) ∧
    (c .dial).sent[0]? = some (List.replicate 16 1) ∧
    bytesAt (c .accept) reg.addr reg.length.toNat ≠ List.replicate 16 1 := by
  refine ⟨_, ⟨139637976727552, 139637976727556, 16⟩, by decide +kernel,
    run_get step filledHole (init mappings mappings 64) (by decide +kernel), by decide +kernel,
    by decide +kernel, by decide +kernel, by decide +kernel, by decide +kernel⟩

/-- Two messages fetched together, freed, and a third one that wraps. -/
def wrappedSection : List Event :=
  [.send .dial [1, 2, 3, 4], .send .dial [5, 6], .readTail .accept 14, .fetch .accept,
    .receive .accept, .receive .accept, .free .accept 1, .free .accept 0,
    .send .dial [7, 8, 9], .readTail .accept 21, .fetch .accept, .receive .accept]

theorem one_way_delivery_wrapped : ∃ c : Pair,
    run step wrappedSection (init mappings mappings 16) = some c ∧
    Delivered (c .dial) (c (Side.peer .dial)) := by
  have hr := run_get step wrappedSection (init mappings mappings 16) (by decide +kernel)
  have hm : Meets step (fun c e => OneWay .dial e ∧ InWindow c e) wrappedSection
      (init mappings mappings 16) := by decide +kernel
  exact ⟨_, hr, one_way_delivery mappings mappings 16 .dial _ _ hm hr⟩

end OneWay

section BothWays

/-- Buffered read in both directions delivers exactly, in the runs whose messages fit and
whose stores do not meet what the other direction still needs in the shared mapping. -/
theorem both_ways_delivery (dialAddr acceptAddr : Mapping → UInt64) (bufSize : UInt32)
    (es : List Event) (c : Pair) (hm : Meets step Regular es (init dialAddr acceptAddr bufSize))
    (hr : run step es (init dialAddr acceptAddr bufSize) = some c) :
    ∀ s : Side, Delivered (c s) (c s.peer) := fun s =>
  (run_delivering dialAddr acceptAddr bufSize es c hm hr s).delivered

/-- Every region that was received is freed before the next `Receive`. -/
def FreedFirst (c : Pair) : Event → Prop
  | .readTail s _ | .fetch s | .receive s => (c s).held = []
  | _ => True

instance (c : Pair) : ∀ e : Event, Decidable (FreedFirst c e)
  | .readTail s _ | .fetch s | .receive s => inferInstanceAs (Decidable ((c s).held = []))
  | .send _ _ | .free _ _ => isTrue trivial

def crossed : List Event :=
  [.send .dial [1], .send .accept [2], .readTail .dial 5, .fetch .dial, .receive .dial,
    .free .dial 0, .readTail .accept 5, .fetch .accept, .receive .accept]

/-- The first end fetches into the ring that it sends from, and the second end
receives its own byte. -/
theorem own_message_returned : ∃ (c : Pair) (reg : ReceiveRegion),
    Meets step (fun c e => InWindow c e ∧ FreedFirst c e) crossed
      (init mappings mappings 8388608) ∧
    run step crossed (init mappings mappings 8388608) = some c ∧
    (c .accept).got[0]? = some reg ∧ (∃ m ∈ (c .accept).held, m.body = 0) ∧
    (c .dial).sent[0]? = some [1] ∧ bytesAt (c .accept) reg.addr reg.length.toNat = [2] := by
  refine ⟨_, ⟨139637976727552, 139637976727556, 1⟩, by decide +kernel,
    run_get step crossed (init mappings mappings 8388608) (by decide +kernel), by decide +kernel,
    by decide +kernel, by decide +kernel, by decide +kernel⟩

def pingPong : List Event :=
  [.send .dial [1], .readTail .accept 5, .fetch .accept, .receive .accept, .free .accept 0,
    .send .accept [2], .readTail .dial 5, .fetch .dial, .receive .dial]

theorem both_ways_delivery_pingPong : ∃ c : Pair,
    run step pingPong (init mappings mappings 8388608) = some c ∧
    ∀ s : Side, Delivered (c s) (c s.peer) := by
  have hr := run_get step pingPong (init mappings mappings 8388608) (by decide +kernel)
  have hm : Meets step Regular pingPong (init mappings mappings 8388608) := by decide +kernel
  exact ⟨_, hr, both_ways_delivery mappings mappings 8388608 _ _ hm hr⟩

end BothWays

end KYM.BufferedReadDelivery
