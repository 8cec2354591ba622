import KnowYourMemory.FullFlag

/-!
# The gap behind the tail

The receiver polls a length word at its read pointer, and once everything is read
that is where the tail is. The space check of the magic ring leaves at least one
byte between the tail and the oldest unfreed message, not the four bytes of that
word, and a message that fills the ring leaves none. The gap is there in every
state of a run exactly when each send leaves four bytes to the oldest unfreed byte.
-/

set_option autoImplicit false

namespace KYM.TailGap
open KYM.Run KYM.Circle KYM.RingBuffer KYM.RingOffsets KYM.BoundedStream KYM.Channel
open KYM.ChannelSafety KYM.FullFlag

variable {α : Type}

/-- The word behind the tail belongs to no message that is sent and not freed. -/
def Gap (c : Link α) : Prop :=
  ∀ m ∈ live c, Disjoint (cells c.rcv.length.toNat c.snd.tail.toNat 4) (bytes c m)

/-- The word that `Receive` polls belongs to no region the application holds. -/
def PollClear (c : Link α) : Prop :=
  ∀ h ∈ c.held, Disjoint (cells c.rcv.length.toNat c.rcv.readPtr.toNat 4) (bytes c h.slot)

def Positive : Event α → Prop
  | .send len _ => 1 ≤ len.toNat
  | _ => True

def room (c : Link α) : ℕ :=
  if (live c).isEmpty then c.rcv.length.toNat
  else (c.rcv.length.toNat+c.rcv.head.toNat-c.snd.tail.toNat)%c.rcv.length.toNat

def Roomy (c : Link α) : Event α → Prop
  | .send len _ => len.toNat+4 ≤ room c
  | _ => True

instance : ∀ e : Event α, Decidable (Positive e)
  | .send len _ => inferInstanceAs (Decidable (1 ≤ len.toNat))
  | .updateHead | .read | .free _ => isTrue trivial

instance (c : Link α) : ∀ e : Event α, Decidable (Roomy c e)
  | .send len _ => inferInstanceAs (Decidable (len.toNat+4 ≤ room c))
  | .updateHead | .read | .free _ => isTrue trivial

theorem live_first {cap : ℕ} (s : Tape α cap) :
    (s.live = [] ∧ s.head = s.tail) ∨ (s.head < s.tail ∧ ∃ m ∈ s.live, m.start = s.head) := by
  have hfirst : s.live = [] ∨ ∃ m ∈ s.live, m.start = s.head := by
    cases hh : s.held with
    | cons m ms => exact Or.inr ⟨m, by simp [Tape.live, hh], by simp [Tape.head, hh, headOf]⟩
    | nil =>
      cases hu : s.unread with
      | nil => exact Or.inl (by simp [Tape.live, hh, hu])
      | cons m ms =>
        obtain ⟨hm, hs⟩ := s.first_unread m ms hu
        exact Or.inr ⟨m, hm, by rw [hs, Tape.head, hh, headOf]⟩
  rcases hfirst with h | ⟨m, hm, hs⟩
  · obtain ⟨hh, hu⟩ := List.append_eq_nil_iff.mp h
    have ht := s.unread_tiles
    rw [hu] at ht
    exact Or.inl ⟨h, by rw [Tape.head, hh]; exact ht⟩
  · have := s.live_mem m hm
    unfold Span.stop at this
    exact Or.inr ⟨by omega, m, hm, hs⟩

section State

variable {L : ℕ} {c c' : Link α} {s : Tape α (L-1)}

theorem room_eq (hL : 0 < L) (hr : Refines .up L c s) : room c = s.head+L-s.tail := by
  have hle := s.head_le_read.trans s.read_le_tail
  have hw : s.tail ≤ s.head+(L-1) := s.window
  rw [room, live_refines hr, hr.receiver.length]
  rcases live_first s with ⟨hl, he⟩ | ⟨hlt, m, hm, -⟩
  · simp [hl, he]
  · have hne : ¬ (s.live.map (slotOf .up L c.rcv.addr)).isEmpty := by
      rw [List.isEmpty_iff, List.map_eq_nil_iff]
      exact List.ne_nil_of_mem hm
    obtain ⟨k, -, hsnd⟩ := hr.sender
    have hgap := offset_gap .up L s.head s.tail hL hle (by omega)
    have hlh := Nat.mod_lt s.head hL
    rw [if_neg hne, hr.receiver.head, hsnd.tail]
    simp only [offset] at *
    rcases hgap with hg | hg | hg
    · omega
    · rw [Nat.mod_eq_of_lt (by omega)]
      omega
    · rw [show L+s.head%L-s.tail%L = s.head+L-s.tail+L by omega, Nat.add_mod_right,
        Nat.mod_eq_of_lt (by omega)]

theorem gap_iff (h2 : 2*L < 2^32) (hL : 0 < L) (hr : Refines .up L c s) :
    Gap c ↔ (s.live = [] ∨ s.tail+4 ≤ s.head+L) := by
  obtain ⟨k, -, hsnd⟩ := hr.sender
  have htail : c.snd.tail.toNat%L = s.tail%L := by rw [hsnd.tail, offset, Nat.mod_mod]
  rw [Gap, hr.receiver.length, live_refines hr]
  constructor
  · intro hg
    rcases live_first s with ⟨hl, -⟩ | ⟨-, m, hm, hs⟩
    · exact Or.inl hl
    · right
      by_contra hlt
      have hw : s.tail ≤ s.head+(L-1) := s.window
      have hd := hg _ (List.mem_map_of_mem hm)
      rw [bytes_slotOf h2 hr m hm, cells_congr L _ _ _ htail] at hd
      have hpos := (s.live_mem m hm).2.1
      refine Finset.disjoint_left.mp hd
        ((mem_cells _ _ _ (s.head%L)).mpr ⟨s.head+L-s.tail, by omega, ?_⟩)
        ((mem_cells _ _ _ _).mpr ⟨0, hpos, ?_⟩)
      · rw [show s.tail+(s.head+L-s.tail) = s.head+L by omega, Nat.add_mod_right]
      · simp [low, offset, hs]
  · intro hg m hm
    obtain ⟨n, hn, rfl⟩ := List.mem_map.mp hm
    rw [bytes_slotOf h2 hr n hn]
    rcases hg with hl | hw
    · simp [hl] at hn
    · exact s.fresh_disjoint .up L 4 _ hL hw htail n hn _
        (low_anchored .up L n hL (s.live_mem n hn).2.1)

/-- Where the gap is, the polled word lies between the regions that are held and
the oldest byte of the next round. -/
theorem pollClear_of_gap (h2 : 2*L < 2^32) (hL : 0 < L) (hr : Refines .up L c s)
    (hg : Gap c) : PollClear c := by
  intro h hh
  rw [hr.held] at hh
  obtain ⟨m, hm, rfl⟩ := List.mem_map.mp hh
  have hlive : m ∈ s.live := List.mem_append_left _ hm
  have hw : s.tail+4 ≤ s.head+L := by
    rcases (gap_iff h2 hL hr).mp hg with hl | hw
    · simp [hl] at hlive
    · exact hw
  have hread : Anchored .up L c.rcv.readPtr.toNat s.read 4 := by
    rw [Anchored, hr.receiver.readPtr, offset, Nat.mod_mod]
  have hpos := s.live_mem m hlive
  have hle := s.read_le_tail
  rw [hr.receiver.length]
  change Disjoint _ (bytes c (slotOf .up L c.rcv.addr m))
  rw [bytes_slotOf h2 hr m hlive]
  exact (cells_disjoint .up L _ m.start m.len _ s.read 4 hL (low_anchored .up L m hL hpos.2.1)
    hread (s.held_below m hm).2 (by omega)).symm

theorem oldest_covered (h2 : 2*L < 2^32) (hr : Refines .up L c s) (n : Slot α)
    (hn : n.addr = c.snd.addr+c.snd.tail.toUInt64) (hlen : 0 < n.len.toNat) :
    ∃ m ∈ live c++[n], s.head%L ∈ bytes c m := by
  rcases live_first s with ⟨-, he⟩ | ⟨-, m, hm, hs⟩
  · obtain ⟨k, -, hsnd⟩ := hr.sender
    refine ⟨n, by simp, (mem_cells _ _ _ _).mpr ⟨0, hlen, ?_⟩⟩
    rw [hn, hr.base, regionStart_of, hr.receiver.length, hsnd.tail, he, offset, Nat.add_zero,
      Nat.mod_mod]
  · refine ⟨slotOf .up L c.rcv.addr m, List.mem_append_left _ ?_, ?_⟩
    · rw [live_refines hr]
      exact List.mem_map_of_mem hm
    · rw [bytes_slotOf h2 hr m hm]
      exact (mem_cells _ _ _ _).mpr ⟨0, (s.live_mem m hm).2.1, by simp [low, offset, hs]⟩

theorem gap_lost (h2 : 2*L < 2^32) (hr : Refines .up L c s) (len : UInt32) (body : α)
    (hpos : 1 ≤ len.toNat) (hroom : ¬ len.toNat+4 ≤ room c)
    (hs : step .up 0 c (.send len body) = some c') : ¬ Gap c' := by
  obtain ⟨k, hk, hsnd⟩ := hr.sender
  have hkt := hk.le_tail
  have hkh := hk.le_head
  simp only [step, send, getWriteAddr, write, Magic.write, UInt32.sub_zero] at hs
  cases ha : Magic.getWriteAddr c.snd len with
  | error e => simp [ha] at hs
  | ok a =>
    have hL := accepted_pos hr len hpos a ha
    have hsp := hk.space
    have hfit := ((getWriteAddr_iff hL h2 hsnd hkt (by omega) len).mp ⟨a, ha⟩).le
    have htail := up_next L s.tail c.snd.length c.snd.tail len hsnd.length hsnd.tail hL
      (by omega) h2
    rw [room_eq hL hr] at hroom
    simp only [ha, Option.some.injEq] at hs
    subst hs
    intro hg
    obtain ⟨m, hm, hc⟩ := oldest_covered h2 hr ⟨a, len, body⟩ (magic_addr c.snd len a ha) hpos
    refine Finset.disjoint_left.mp (hg m ?_)
      ((mem_cells _ _ _ (s.head%L)).mpr ⟨s.head+L-(s.tail+len.toNat), by omega, ?_⟩) hc
    · simpa [live] using hm
    · rw [htail, hr.receiver.length, offset, Nat.mod_add_mod, show s.tail+len.toNat+
        (s.head+L-(s.tail+len.toNat)) = s.head+L by omega, Nat.add_mod_right]

theorem step_gap (h2 : 2*L < 2^32) (hr : Refines .up L c s) (hL : 0 < L) (e : Event α)
    (hp : Positive e) (hroom : Roomy c e) (hg : Gap c) (hs : step .up 0 c e = some c') :
    ∃ s' : Tape α (L-1), Refines .up L c' s' ∧ Gap c' := by
  have hw := (gap_iff h2 hL hr).mp hg
  cases e with
  | send len body =>
    have hsp : s.tail ≤ s.head+(L-1) := s.window
    have hfit : len.toNat+4 ≤ s.head+L-s.tail := room_eq hL hr ▸ hroom
    have hle := s.head_le_read.trans s.read_le_tail
    have hpos : (0 : UInt32).toNat < len.toNat := hp
    obtain ⟨s', h1, h⟩ := send_refines h2 hr len body ⟨hpos, fun _ => by omega⟩ hs
    obtain ⟨hread, htail, hheld, -⟩ := s.step_send s' _ _ h1
    rw [UInt32.sub_zero] at htail
    refine ⟨s', h, (gap_iff h2 hL h).mpr (Or.inr ?_)⟩
    rw [Tape.head, hheld, hread, htail]
    change _ ≤ s.head+L
    omega
  | updateHead =>
    obtain rfl := Option.some.inj hs
    have h := acknowledge_refines hr
    exact ⟨s, h, (gap_iff h2 hL h).mpr hw⟩
  | read =>
    obtain ⟨s', h1, h⟩ := receive_refines h2 hr hs
    refine ⟨s', h, (gap_iff h2 hL h).mpr ?_⟩
    simp only [Tape.step] at h1
    split at h1
    · cases h1
    · next m ms hu =>
      obtain rfl := Option.some.inj h1
      rw [s.take_live m ms hu, s.take_head m ms hu]
      exact hw
  | free i =>
    obtain ⟨s', h1, h⟩ := release_refines h2 hr i (Or.inl rfl) hs
    obtain rfl := s.step_release s' i h1
    refine ⟨_, h, (gap_iff h2 hL h).mpr (hw.imp ?_ ?_)⟩
    · intro hl
      obtain ⟨hh, hu⟩ := List.append_eq_nil_iff.mp hl
      simp [Tape.live, Tape.release, hh, hu]
    · intro hw
      exact hw.trans (Nat.add_le_add_right (s.head_le_release i) L)

/-- Between two states of a run: the gap is never lost exactly when every send
leaves room. -/
theorem run_gap_iff (h2 : 2*L < 2^32) (hL : 0 < L) (es : List (Event α)) (c u : Link α)
    (s : Tape α (L-1)) (hr : Refines .up L c s) (hg : Gap c)
    (hp : Meets (step .up 0) (fun _ => Positive) es c) (hrun : run (step .up 0) es c = some u) :
    (Meets (step .up 0) (fun c _ => Gap c ∧ PollClear c) es c ∧ Gap u ∧ PollClear u) ↔
      Meets (step .up 0) Roomy es c := by
  induction es generalizing c s with
  | nil =>
    obtain rfl := Option.some.inj hrun
    exact ⟨fun _ => trivial, fun _ => ⟨trivial, hg, pollClear_of_gap h2 hL hr hg⟩⟩
  | cons e es ih =>
    obtain ⟨t, ht, hu⟩ := (run_cons (step .up 0) e es c u).mp hrun
    have hnext : ∀ v, step .up 0 c e = some v → v = t := fun v hv =>
      Option.some.inj (hv.symm.trans ht)
    by_cases hroom : Roomy c e
    · obtain ⟨s', hr', hg'⟩ := step_gap h2 hr hL e hp.1 hroom hg ht
      have hiff := ih t s' hr' hg' (hp.2 t ht) hu
      constructor
      · rintro ⟨hm, hgu⟩
        refine ⟨hroom, fun v hv => ?_⟩
        rw [hnext v hv]
        exact hiff.mp ⟨hm.2 t ht, hgu⟩
      · intro hm
        obtain ⟨hmt, hgu⟩ := hiff.mpr (hm.2 t ht)
        refine ⟨⟨⟨hg, pollClear_of_gap h2 hL hr hg⟩, fun v hv => ?_⟩, hgu⟩
        rw [hnext v hv]
        exact hmt
    · refine ⟨?_, fun hm => absurd hm.1 hroom⟩
      rintro ⟨hm, hgu⟩
      have hgt : Gap t := by
        cases es with
        | nil => exact Option.some.inj hu ▸ hgu.1
        | cons e' es => exact (hm.2 t ht).1.1
      cases e with
      | send len body => exact absurd hgt (gap_lost h2 hr len body hp.1 hroom ht)
      | updateHead | read | free _ => exact absurd trivial hroom

end State

/-- The promise of `GetTail` over the magic ring: in a run of sends of any length,
acknowledgements, reads and frees, the word behind the tail is free in every state,
and the word that the receiver polls clear of what the application holds, exactly
when every accepted send leaves four bytes to the oldest unfreed byte. -/
theorem tail_gap_iff (addr : UInt64) (key size : UInt32)
    (h8 : 8 ≤ (newRingBuffer addr key size).length.toNat) (es : List (Event α)) (c : Link α)
    (hp : Meets (step .up 0) (fun _ => Positive) es (init α addr key size))
    (hr : run (step .up 0) es (init α addr key size) = some c) :
    (Meets (step .up 0) (fun c _ => Gap c ∧ PollClear c) es (init α addr key size) ∧
        Gap c ∧ PollClear c) ↔
      Meets (step .up 0) Roomy es (init α addr key size) := by
  have h2 := doubled_lt size
  have hinit : init α addr key size = init α addr key ((2*size)/2) := by
    simp only [init, newRingBuffer, ring_length _ h2]
  rw [hinit] at hp hr ⊢
  have hL : 0 < ((2*size)/2).toNat := by
    change 8 ≤ ((2*size)/2).toNat at h8
    omega
  exact run_gap_iff h2 hL es _ c _ (init_refines .up addr key _ h2)
    (fun m hm => absurd hm (by simp [live, init])) hp hr

def heldTrace : List (Event ℕ) :=
  [.send 2 1, .send 2 2, .read, .read, .free 1, .updateHead, .free 0, .updateHead, .send 4 3]

theorem tail_gap_held : ∃ c,
    run (step .up 0) heldTrace (init ℕ 65536 7 8) = some c ∧
    ((Meets (step .up 0) (fun c _ => Gap c ∧ PollClear c) heldTrace (init ℕ 65536 7 8) ∧
        Gap c ∧ PollClear c) ↔
      Meets (step .up 0) Roomy heldTrace (init ℕ 65536 7 8)) ∧
    Meets (step .up 0) Roomy heldTrace (init ℕ 65536 7 8) :=
  ⟨_, rfl, tail_gap_iff 65536 7 8 (by decide) heldTrace _ (by decide) rfl, by decide⟩

/-- One byte short of the ring is accepted, and the application still holds it when
the receiver polls for the next length. -/
theorem tail_gap_overrun : ∃ c,
    run (step .up 0) [.send 4095 1, .read] (init ℕ 65536 7 4096) = some c ∧
    ¬ Gap c ∧ ¬ PollClear c := by
  have h0 : (0 : ℕ) ∈ cells 4096 4095 4 := (mem_cells _ _ _ _).mpr ⟨1, by decide, by decide⟩
  have h1 : (0 : ℕ) ∈ cells 4096 0 4095 := (mem_cells _ _ _ _).mpr ⟨0, by decide, by decide⟩
  refine ⟨_, rfl, fun hg => ?_, fun hp => ?_⟩
  · exact Finset.disjoint_left.mp (hg _ (List.mem_singleton.mpr rfl)) h0 h1
  · exact Finset.disjoint_left.mp (hp _ (List.mem_singleton.mpr rfl)) h0 h1

end KYM.TailGap
