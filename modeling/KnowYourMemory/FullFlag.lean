import KnowYourMemory.ChannelSafety

/-!
# The full flag and repeated acknowledgements

A sender whose message does not fit polls the head and asks again. `UpdateHead`
clears the full flag whether or not the head has moved, so after a message that
fills the ring the first poll makes the ring look empty. As long as no message
fills the ring the flag is never set and polling without progress changes nothing.
-/

set_option autoImplicit false

namespace KYM.FullFlag
open KYM.Run KYM.Circle KYM.RingBuffer KYM.RingOffsets KYM.BoundedStream KYM.Channel
open KYM.ChannelSafety (live_refines)

variable {α : Type}

/-- Messages of every length up to the length of the ring. -/
def Fillable (c : Link α) : Event α → Prop
  | .send len _ => 1 ≤ len.toNat ∧ len.toNat ≤ c.snd.length.toNat
  | _ => True

instance (c : Link α) : ∀ e : Event α, Decidable (Fillable c e)
  | .send len _ => inferInstanceAs (Decidable (1 ≤ len.toNat ∧ len.toNat ≤ c.snd.length.toNat))
  | .updateHead | .read | .free _ => isTrue trivial

def Refused (r : RemoteBuffer) (len : UInt32) : Prop := ∃ e, Magic.getWriteAddr r len = .error e

/-- While something is unfreed and the head has not moved, no number of acknowledgements
lets a refused message in, and none lets any message in beside one that fills the ring. -/
def KeepsRefusing (c : Link α) : Prop :=
  live c ≠ [] → c.currOffset = c.snd.head →
    ∀ (n : ℕ) (len : UInt32), 1 ≤ len.toNat → len.toNat ≤ c.snd.length.toNat →
      (Refused c.snd len → Refused ((acknowledge .up)^[n] c).snd len) ∧
      ((∃ m ∈ live c, m.len = c.snd.length) → Refused ((acknowledge .up)^[n] c).snd len)

theorem acknowledge_idle (c : Link α) (hf : c.snd.full = false) (hc : c.currOffset = c.snd.head) :
    acknowledge .up c = c := by
  obtain ⟨⟨addr, length, key, head, tail, full⟩, rcv, curr, unread, held⟩ := c
  simp only at hf hc
  simp [acknowledge, updateHead, Magic.updateHead, hf, hc]

theorem acknowledge_iterate (c : Link α) (hf : c.snd.full = false)
    (hc : c.currOffset = c.snd.head) (n : ℕ) : (acknowledge .up)^[n] c = c :=
  Function.iterate_fixed (acknowledge_idle c hf hc) n

theorem doubled_lt (size : UInt32) : 2*((2*size)/2).toNat < 2^32 := by
  have := (2*size).toNat_lt
  rw [UInt32.toNat_div]
  change 2*((2*size).toNat/2) < 2^32
  omega

theorem init_halved (addr : UInt64) (key size : UInt32) :
    init α addr key size = init α addr key ((2*size)/2) := by
  simp only [init, newRingBuffer, ring_length _ (doubled_lt size)]

theorem shorter_refines (addr : UInt64) (key size : UInt32) (es : List (Event α)) (c : Link α)
    (hm : Meets (step .up 0) (fun _ => Sized 0 ((2*size)/2).toNat) es (init α addr key size))
    (hr : run (step .up 0) es (init α addr key size) = some c) :
    ∃ s, Refines .up ((2*size)/2).toNat c s := by
  rw [init_halved] at hm hr
  have hreg : Meets (step .up 0) (Regular .up 0 ((2*size)/2).toNat) es
      (init α addr key ((2*size)/2)) := by
    refine meets_weaken _ _ _ ?_ es _ hm
    intro c e he
    refine ⟨he, ?_⟩
    cases e <;> simp [HeadExact]
  obtain ⟨-, s, -, hs⟩ := channel_simulates .up 0 addr key _ (doubled_lt size) es c hreg hr
  exact ⟨s, hs⟩

section Shorter

variable {L : ℕ} {c c' : Link α} {s : Tape α (L-1)}

theorem shorter_keeps (h2 : 2*L < 2^32) (hr : Refines .up L c s) : KeepsRefusing c := by
  intro _ ho n len _ _
  obtain ⟨k, -, hsnd⟩ := hr.sender
  rw [acknowledge_iterate c hsnd.full ho]
  refine ⟨fun href => href, ?_⟩
  rintro ⟨m, hm, hlen⟩
  rw [live_refines hr] at hm
  obtain ⟨x, hx, rfl⟩ := List.mem_map.mp hm
  have hlt := span_len_lt s x hx
  have hx32 : (UInt32.ofNat x.len).toNat = x.len := by
    apply UInt32.toNat_ofNat_of_lt
    simp only [UInt32.size]
    omega
  have heq := congrArg UInt32.toNat hlen
  simp only [slotOf, hx32, hsnd.length] at heq
  omega

/-- A message that fills the ring is accepted only on an idle ring, whose head the sender
knows. -/
theorem filled_idle (h2 : 2*L < 2^32) (hr : Refines .up L c s) (hL : 0 < L) (len : UInt32)
    (hlen : len.toNat = L) (a : UInt64) (ha : Magic.getWriteAddr c.snd len = .ok a) :
    c.snd.head = c.snd.tail ∧ c.currOffset = c.snd.head := by
  obtain ⟨k, hk, hsnd⟩ := hr.sender
  have hkt := hk.le_tail
  have hsp := hk.space
  have hkh := hk.le_head
  have hht := s.head_le_read.trans s.read_le_tail
  have hfit := (getWriteAddr_iff hL h2 hsnd hkt (by omega) len).mp ⟨a, ha⟩
  obtain ⟨rfl, -⟩ : s.tail = k ∧ len.toNat ≤ L := by
    rcases hfit with h | h
    · omega
    · exact h
  have heq : s.head = s.tail := by omega
  refine ⟨UInt32.toNat_inj.mp (hsnd.head.trans hsnd.tail.symm), UInt32.toNat_inj.mp ?_⟩
  rw [hr.published, hr.receiver.head, hsnd.head, heq]

theorem filled_gives (h2 : 2*L < 2^32) (hr : Refines .up L c s) (hL : 0 < L) (len : UInt32)
    (hlen : len.toNat = L) (body : α) (hs : send .up 0 c len body = some c') :
    ¬ KeepsRefusing c' := by
  obtain ⟨k, -, hsnd⟩ := hr.sender
  have hl := hsnd.length
  have ht : c.snd.tail.toNat < L := hsnd.tail ▸ Nat.mod_lt _ hL
  unfold send at hs
  cases ha : getWriteAddr .up c.snd len with
  | error e => simp [ha] at hs
  | ok a =>
    obtain ⟨hidle, hcur⟩ := filled_idle h2 hr hL len hlen a ha
    have hlap : (c.snd.tail+len)%c.snd.length = c.snd.tail := by
      apply UInt32.toNat_inj.mp
      rw [UInt32.toNat_mod, add_toNat _ _ (by omega), hl, hlen, Nat.add_mod_right,
        Nat.mod_eq_of_lt ht]
    have hw : write .up c.snd (len-0) = .ok (a, { c.snd with full := true }) := by
      simp only [write, Magic.write, UInt32.sub_zero]
      rw [show Magic.getWriteAddr c.snd len = .ok a from ha]
      simp [hlap, hidle]
    simp only [ha, hw, Option.some.injEq] at hs
    subst hs
    intro hk
    have hone : ¬ (1 : UInt32) > c.snd.length := by
      rw [gt_iff_lt, UInt32.lt_iff_toNat_lt, hl]
      exact Nat.not_lt.mpr hL
    obtain ⟨e, he⟩ := (hk (by simp [live]) hcur 1 1 (by decide) (hl ▸ hL)).1
      ⟨bufferFull, by simp [Magic.getWriteAddr, hidle]⟩
    simp [acknowledge, updateHead, Magic.updateHead, Magic.getWriteAddr, hcur, hidle, hone] at he

end Shorter

theorem shorter_sized {L : ℕ} (es : List (Event α)) (c : Link α)
    (hm : Meets (step .up 0) Fillable es c) (hs : ∀ len body, .send len body ∈ es → len.toNat < L) :
    Meets (step .up 0) (fun _ => Sized 0 L) es c := by
  induction es generalizing c with
  | nil => trivial
  | cons e es ih =>
    refine ⟨?_, fun t ht => ih t (hm.2 t ht) (fun len body h => hs len body (by simp [h]))⟩
    cases e with
    | send len body => exact ⟨hm.1.1, fun _ => hs len body (by simp)⟩
    | updateHead | read | free i => trivial

/-- A run in which every refusal survives has accepted no message that fills the ring: the
first one that does is refuted by the state behind it. -/
theorem refused_shorter (addr : UInt64) (key size : UInt32) (es : List (Event α)) (c : Link α)
    (hm : Meets (step .up 0) Fillable es (init α addr key size))
    (hr : run (step .up 0) es (init α addr key size) = some c)
    (hk : ∀ fs d, fs <+: es → run (step .up 0) fs (init α addr key size) = some d →
      KeepsRefusing d) (len : UInt32) (body : α) (h : .send len body ∈ es) :
    len.toNat < ((2*size)/2).toNat := by
  induction es using List.reverseRecOn generalizing c len body with
  | nil => cases h
  | append_singleton es e ih =>
    obtain ⟨d, hd, he⟩ := run_split _ es [e] _ c hr
    have hme := meets_left _ _ es [e] _ hm
    have hes := ih d hme hd (fun fs d' hp => hk fs d' (hp.trans (List.prefix_append es [e])))
    rcases List.mem_append.mp h with h | h
    · exact hes len body h
    obtain rfl := List.mem_singleton.mp h
    obtain ⟨s, hs⟩ := shorter_refines addr key size es d (shorter_sized es _ hme hes) hd
    obtain ⟨k, -, hsnd⟩ := hs.sender
    have hfill := (meets_right _ _ es [_] _ d hm hd).1
    simp only [Fillable, hsnd.length] at hfill
    by_contra hge
    obtain ⟨t, ht, hnil⟩ := (run_cons _ _ _ _ _).mp he
    obtain rfl := Option.some.inj hnil
    exact filled_gives (doubled_lt size) hs (by omega) len (by omega) body ht
      (hk _ _ (List.prefix_refl _) hr)

/-- A refusal survives polling in every state of a run exactly when all of its messages are
shorter than the ring. -/
theorem refusal_survives_iff (addr : UInt64) (key size : UInt32) (es : List (Event α))
    (c : Link α) (hm : Meets (step .up 0) Fillable es (init α addr key size))
    (hr : run (step .up 0) es (init α addr key size) = some c) :
    (∀ fs d, fs <+: es → run (step .up 0) fs (init α addr key size) = some d → KeepsRefusing d) ↔
      ∀ len body, .send len body ∈ es →
        len.toNat < (newRingBuffer addr key size).length.toNat := by
  constructor
  · exact refused_shorter addr key size es c hm hr
  · rintro hs fs d ⟨gs, rfl⟩ hd
    have hmf := meets_left _ _ fs gs _ hm
    obtain ⟨s, hs⟩ := shorter_refines addr key size fs d
      (shorter_sized fs _ hmf (fun len body h => hs len body (by simp [h]))) hd
    exact shorter_keeps (doubled_lt size) hs

def partialTrace : List (Event ℕ) := [.send 3000 1, .send 1000 2, .read, .updateHead]

theorem refusal_survives_partial : ∃ c,
    run (step .up 0) partialTrace (init ℕ 65536 7 4096) = some c ∧ Refused c.snd 500 ∧
    ((∀ fs d, fs <+: partialTrace → run (step .up 0) fs (init ℕ 65536 7 4096) = some d →
        KeepsRefusing d) ↔
      ∀ len body, .send len body ∈ partialTrace →
        len.toNat < (newRingBuffer 65536 7 4096).length.toNat) :=
  ⟨_, rfl, ⟨_, rfl⟩, refusal_survives_iff 65536 7 4096 partialTrace _ (by decide) rfl⟩

/-- One message fills the ring; the first poll empties it for the sender. -/
theorem full_ring_given_away : ∃ c,
    run (step .up 0) [.send 4096 1] (init ℕ 65536 7 4096) = some c ∧
    live c ≠ [] ∧ c.currOffset = c.snd.head ∧ Magic.getWriteAddr c.snd 1 = .error bufferFull ∧
    Magic.getWriteAddr (acknowledge .up c).snd 1 = .ok 65536 :=
  ⟨_, rfl, by decide, rfl, rfl, rfl⟩

end KYM.FullFlag
