import KnowYourMemory.Channel

/-!
# No overwrite of unfreed messages

Whenever the space check of a sender succeeds, the bytes it is about to write are
free. Over the magic ring this holds in every run. Over the reversed ring a `Free`
of the oldest region stores the low end of the next one as the head, so that the
next region itself is given away, unless no other region was outstanding.
-/

set_option autoImplicit false

namespace KYM.ChannelSafety
open KYM.Run KYM.Circle KYM.RingBuffer KYM.RingOffsets KYM.BoundedStream KYM.Channel

variable {α : Type} {d : Direction} {L : ℕ} {c : Link α} {s : Tape α (L-1)}

theorem live_refines (hr : Refines d L c s) :
    live c = s.live.map (slotOf d L c.rcv.addr) := by
  simp only [live, Tape.live, List.map_append, hr.unread, hr.held, List.map_map]
  rfl

theorem bytes_slotOf (h2 : 2*L < 2^32) (hr : Refines d L c s) (m : Span α) (hm : m ∈ s.live) :
    bytes c (slotOf d L c.rcv.addr m) = cells L (low d L m) m.len := by
  have hlen := span_len_lt s m hm
  have hn : (UInt32.ofNat m.len).toNat = m.len := by
    apply UInt32.toNat_ofNat_of_lt
    simp only [UInt32.size]
    omega
  simp only [bytes, slotOf, regionStart_of, hr.receiver.length, word_of_low d h2 m (by omega), hn]

theorem accepted_disjoint (h2 : 2*L < 2^32) (hr : Refines d L c s) (len : UInt32)
    (hlen : 0 < len.toNat) (a : UInt64) (ha : getWriteAddr d c.snd len = .ok a) :
    ∃ o : UInt32, a = c.snd.addr+o.toUInt64 ∧ o.toNat+len.toNat ≤ 2*L ∧
      ∀ m ∈ live c, Disjoint (cells L o.toNat len.toNat) (bytes c m) := by
  have hL := accepted_pos hr len hlen a ha
  obtain ⟨k, hk, hsnd⟩ := hr.sender
  have hkt := hk.le_tail
  have hkh := hk.le_head
  have hsp := hk.space
  have hfit := ((getWriteAddr_iff hL h2 hsnd hkt (by omega) len).mp ⟨a, ha⟩).le
  obtain ⟨o, hao, hanc, hin⟩ := getWriteAddr_ok hL h2 hsnd len (by omega) a ha
  refine ⟨o, hao, hin, ?_⟩
  intro m hm
  rw [live_refines hr] at hm
  obtain ⟨n, hn, rfl⟩ := List.mem_map.mp hm
  rw [bytes_slotOf h2 hr n hn]
  have hpos := (s.live_mem n hn).2.1
  exact s.fresh_disjoint d L _ _ hL (by omega) hanc n hn _ (low_anchored d L n hL hpos)

section Magic

def oldestRead (c : Link α) : UInt32 :=
  match c.held with
  | [] => c.rcv.readPtr
  | h::_ => c.rcv.regionStart h.slot.addr

theorem head_oldest {s : Tape α (L-1)} (h2 : 2*L < 2^32) (hr : Refines .up L c s) :
    c.rcv.head = oldestRead c := by
  have hh := hr.receiver.head
  unfold oldestRead
  cases hs : s.held with
  | nil =>
    simp only [hr.held, hs, List.map_nil]
    apply UInt32.toNat_inj.mp
    rw [hh, hr.receiver.readPtr, Tape.head, hs, headOf]
  | cons m ms =>
    have hL := span_len_lt s m (by simp [Tape.live, hs])
    simp only [hr.held, hs, List.map_cons, heldOf, slotOf, regionStart_of]
    apply UInt32.toNat_inj.mp
    rw [hh, word_of_low .up h2 m (by omega), Tape.head, hs, headOf]
    rfl

/-- Buffered write over the magic ring: no accepted send touches an unfreed message,
every write stays in the double mapping, and the published head is exact. -/
theorem magic_no_overwrite (addr : UInt64) (key size : UInt32) (h2 : 2*size.toNat < 2^32)
    (es : List (Event α)) (c : Link α)
    (hm : Meets (step .up 0) (fun _ => Sized 0 size.toNat) es (init α addr key size))
    (hr : run (step .up 0) es (init α addr key size) = some c) :
    (∀ (len : UInt32) (a : UInt64), 1 ≤ len.toNat → Magic.getWriteAddr c.snd len = .ok a →
      a = c.snd.addr+c.snd.tail.toUInt64 ∧ c.snd.tail.toNat+len.toNat ≤ 2*size.toNat ∧
      ∀ m ∈ live c, Disjoint (cells size.toNat c.snd.tail.toNat len.toNat) (bytes c m)) ∧
    c.rcv.head = oldestRead c := by
  have hreg : Meets (step .up 0) (Regular .up 0 size.toNat) es (init α addr key size) := by
    refine meets_weaken _ _ _ ?_ es _ hm
    intro c e he
    refine ⟨he, ?_⟩
    cases e <;> simp [HeadExact]
  obtain ⟨fs, s, -, hcs⟩ := channel_simulates .up 0 addr key size h2 es c hreg hr
  refine ⟨?_, head_oldest h2 hcs⟩
  intro len a hlen ha
  obtain ⟨o, hao, hin, hdis⟩ := accepted_disjoint h2 hcs len hlen a ha
  have hat := magic_addr c.snd len a ha
  have ho : o = c.snd.tail := by
    have := hao.symm.trans hat
    rwa [UInt64.add_right_inj, UInt32.toUInt64_inj] at this
  exact ⟨hat, ho ▸ hin, ho ▸ hdis⟩

/-- A run with two messages outstanding that wraps around the end of the ring. -/
def magicTrace : List (Event ℕ) :=
  [.send 3000 1, .send 1000 2, .read, .read, .free 0, .updateHead, .send 2500 3]

theorem magic_no_overwrite_wrapped : ∃ c,
    run (step .up 0) magicTrace (init ℕ 65536 7 4096) = some c ∧
    ((∀ (len : UInt32) (a : UInt64), 1 ≤ len.toNat → Magic.getWriteAddr c.snd len = .ok a →
      a = c.snd.addr+c.snd.tail.toUInt64 ∧ c.snd.tail.toNat+len.toNat ≤ 2*4096 ∧
      ∀ m ∈ live c, Disjoint (cells 4096 c.snd.tail.toNat len.toNat) (bytes c m)) ∧
    c.rcv.head = oldestRead c) :=
  ⟨_, rfl, magic_no_overwrite 65536 7 4096 (by decide) magicTrace _ (by decide) rfl⟩

end Magic

section Reverse

/-- Buffered write over the reversed ring, as long as the oldest outstanding region
is freed only when it is the only one. -/
theorem reverse_no_overwrite (addr : UInt64) (key size : UInt32) (h2 : 2*size.toNat < 2^32)
    (es : List (Event α)) (c : Link α)
    (hm : Meets (step .down 1) (Regular .down 1 size.toNat) es (init α addr key size))
    (hr : run (step .down 1) es (init α addr key size) = some c)
    (len : UInt32) (a : UInt64) (hlen : 6 ≤ len.toNat)
    (ha : Reverse.getWriteAddr c.snd len = .ok a) :
    ∀ m ∈ live c,
      Disjoint (cells size.toNat (c.rcv.regionStart a).toNat len.toNat) (bytes c m) := by
  obtain ⟨fs, s, -, hcs⟩ := channel_simulates .down 1 addr key size h2 es c hm hr
  obtain ⟨o, rfl, -, hdis⟩ := accepted_disjoint h2 hcs len (by omega) a ha
  rw [hcs.base, regionStart_of]
  exact hdis

/-- Two regions are outstanding when the older one is freed: the offset that is
published is the low end of the younger one, which is then written over. -/
def reverseTrace : List (Event ℕ) :=
  [.send 2000 1, .send 2000 2, .read, .read, .free 0, .updateHead]

theorem reverse_overwrites : ∃ c a,
    run (step .down 1) reverseTrace (init ℕ 65536 7 4096) = some c ∧
    Reverse.getWriteAddr c.snd 3000 = .ok a ∧
    ∃ m ∈ live c, ¬ Disjoint (cells 4096 (c.rcv.regionStart a).toNat 3000) (bytes c m) := by
  refine ⟨_, _, rfl, rfl, _, List.mem_singleton.mpr rfl, Finset.not_disjoint_iff.mpr ⟨1194, ?_⟩⟩
  exact ⟨(mem_cells _ _ _ _).mpr ⟨0, by decide, by decide⟩,
    (mem_cells _ _ _ _).mpr ⟨1096, by decide, by decide⟩⟩

def youngerFirst : List (Event ℕ) :=
  [.send 2000 1, .send 1000 2, .read, .read, .free 1, .free 0, .updateHead, .send 3000 3]

theorem reverse_no_overwrite_wrapped : ∃ c a,
    run (step .down 1) youngerFirst (init ℕ 65536 7 4096) = some c ∧
    Reverse.getWriteAddr c.snd 1000 = .ok a ∧
    ∀ m ∈ live c, Disjoint (cells 4096 (c.rcv.regionStart a).toNat 1000) (bytes c m) :=
  ⟨_, _, rfl, rfl, reverse_no_overwrite 65536 7 4096 (by decide) youngerFirst _ (by decide) rfl
    1000 _ (by decide) rfl⟩

end Reverse

end KYM.ChannelSafety
