import KnowYourMemory.BufferedReadDelivery

/-!
# The head that `Free` withholds

`Free` writes the head to the sender only when it has moved by more than a third of the
ring since the last time. When everything has been received and freed the sender may still
miss up to a third of the ring, and its space check counts those bytes as occupied.
-/

set_option autoImplicit false

namespace KYM.WithheldHead
open KYM.Run KYM.Circle KYM.RingBuffer KYM.RingOffsets KYM.BoundedStream KYM.BufferedReadPair
open KYM.BufferedReadHead KYM.BufferedReadDelivery
open KYM.BufferedRead (Sender send_sent)

def defaultBufferSize : UInt32 := 8*1024*1024

def withheld (c : Sender) : ℕ := (c.tail-c.head).toNat

theorem withheld_eq_zero (c : Sender) : withheld c = 0 ↔ c.head = c.tail := by
  constructor
  · intro h
    have hz : c.tail-c.head = 0 := UInt64.toNat_inj.mp h
    rw [← UInt64.sub_add_cancel c.tail c.head, hz, UInt64.zero_add]
  · intro h
    rw [withheld, h, UInt64.sub_self]
    rfl

theorem tail_mod (c : Sender) (hd : c.length.toNat ∣ 2^64) :
    c.tail.toNat%c.length.toNat = (c.head.toNat+withheld c)%c.length.toNat := by
  have hsum : c.tail = c.head+(c.tail-c.head) := by
    rw [UInt64.add_comm, UInt64.sub_add_cancel]
  conv_lhs => rw [hsum, UInt64.toNat_add]
  exact Nat.mod_mod_of_dvd _ hd

theorem send_again_iff (c : Sender) (len : UInt32) (hlen : len ≤ c.length) :
    c.send len = .again ↔
      (c.headOff < c.tailOff ∧ (c.length-c.tailOff)+c.headOff ≤ len) ∨
      (c.headOff > c.tailOff ∧ c.headOff-c.tailOff ≤ len) := by
  have hlarge : ¬len > c.length := UInt32.not_lt.mpr hlen
  unfold Sender.send
  rw [if_neg (fun h => hlarge h.2)]
  split_ifs with hbehind hahead
  · exact iff_of_true rfl (Or.inl hbehind)
  · exact iff_of_true rfl (Or.inr hahead)
  · exact iff_of_false (by simp) (not_or.mpr ⟨hbehind, hahead⟩)

theorem send_leaves_iff (c : Sender) (len : UInt32) (hd : c.length.toNat ∣ 2^64)
    (hw : withheld c < c.length.toNat) (hlen : len ≤ c.length) :
    c.send len ≠ .again ↔ c.head = c.tail ∨ len.toNat+withheld c < c.length.toNat := by
  have hL : 0 < c.length.toNat := by omega
  have hhead : c.headOff.toNat = c.head.toNat%c.length.toNat := residue_toNat c.head c.length hL
  have htail : c.tailOff.toNat = (c.head.toNat+withheld c)%c.length.toNat :=
    (residue_toNat c.tail c.length hL).trans (tail_mod c hd)
  have hgap := offset_gap .up c.length.toNat c.head.toNat (c.head.toNat+withheld c) hL
    (Nat.le_add_right _ _) (by omega)
  have hbound := Nat.mod_lt c.head.toNat hL
  have hbound' := Nat.mod_lt (c.head.toNat+withheld c) hL
  have hlt := c.length.toNat_lt
  simp only [offset, ← hhead, ← htail] at hgap hbound hbound'
  rw [← withheld_eq_zero, Ne, send_again_iff c len hlen]
  simp only [gt_iff_lt, UInt32.lt_iff_toNat_lt, UInt32.le_iff_toNat_le]
  rcases hgap with ⟨hz, hsame⟩ | ⟨hpos, hlow, hdiff⟩ | ⟨hpos, hhigh, hdiff⟩
  · omega
  · rw [add_toNat _ _ (by rw [sub_toNat _ _ (by omega)]; omega), sub_toNat _ _ (by omega)]
    omega
  · rw [sub_toNat c.headOff c.tailOff hhigh.le]
    omega

/-- One region at most is held, and when none is, the head that was not written is less
than a third of the ring ahead of the one that was. -/
structure Early (L : UInt32) (c : Connection) : Prop where
  snd : c.snd.length = L
  rcv : c.rcv.length = L
  one : c.held.length ≤ 1
  third : c.held = [] → c.rcv.remoteHead-c.rcv.ackedHead ≤ (L/3).toUInt64

section Runs

variable {L : UInt32} {c n peer : Connection}

theorem Early.quiet (h : Early L c) (hq : Quiet c n) (hs : n.snd.length = c.snd.length) :
    Early L n := by
  have hr := hq.rcv
  refine ⟨hs.trans h.snd, ?_, ?_, ?_⟩
  · rw [hr]
    exact h.rcv
  · rw [hq.held]
    exact h.one
  · rw [hq.held, hr]
    exact h.third

theorem Early.receive (h : Early L c) (hnil : c.held = []) (hs : receive c = some n) :
    Early L n := by
  unfold BufferedReadPair.receive at hs
  split at hs
  · obtain rfl := Option.some.inj hs
    exact ⟨h.snd, h.rcv, by simp [hnil], by simp [hnil]⟩
  · cases hs

theorem Early.free (h : Early L c) {i : ℕ} {w : Option UInt64} (hs : free c i = some (n, w)) :
    Early L n := by
  obtain ⟨m, reg, hm, -, rfl, -⟩ := free_eq hs
  have hone : c.held.eraseIdx i = [] := by
    have hi := (List.getElem?_eq_some_iff.mp hm).1
    have := h.one
    rw [← List.length_eq_zero_iff, List.length_eraseIdx_of_lt hi]
    omega
  have hrcv := h.rcv
  refine ⟨h.snd, ?_, by simp [hone], fun _ => ?_⟩
  · obtain ⟨acked, hr, -⟩ := receiver_free c.rcv reg
    rw [hr]
    exact hrcv
  · unfold Receiver.free
    simp only
    split
    · simp
    · next hle =>
      rw [← hrcv]
      exact UInt64.not_lt.mp hle

theorem Early.regular (h : Early L c) (ho : c.rcv.outstanding = c.held.map (addrOf c.rcv)) (i : ℕ) :
    Alone c i ∧ NextExact c i := by
  have hone := h.one
  constructor
  · intro a ha
    have hi := (List.getElem?_eq_some_iff.mp ha).1
    have hnil : c.rcv.outstanding.eraseIdx i = [] := by
      rw [← List.length_eq_zero_iff, List.length_eraseIdx_of_lt hi, ho, List.length_map]
      omega
    simp [hnil]
  · intro _ m hm
    have := (List.getElem?_eq_some_iff.mp hm).1
    omega

theorem Early.writeHead (h : Early L c) (w : Option UInt64) : Early L (writeHead c w) := by
  cases w <;> exact ⟨h.snd, h.rcv, h.one, h.third⟩

variable {p q : Pair}

theorem early_update (h : ∀ t, Early L (p t)) (s : Side) (hn : Early L n) (t : Side) :
    Early L (Function.update p s n t) := by
  by_cases hs : t = s
  · subst hs
    rwa [Function.update_self]
  · rw [Function.update_of_ne hs]
    exact h t

theorem step_early (h : ∀ t, Early L (p t)) (e : Event) (he : FreedFirst p e)
    (hs : step p e = some q) (t : Side) : Early L (q t) := by
  cases e with
  | send s payload =>
    obtain ⟨n, hn, rfl⟩ := Option.map_eq_some_iff.mp hs
    refine early_update h s ((h s).quiet (send_quiet hn).1 ?_) t
    unfold BufferedReadPair.send at hn
    split at hn
    · next addr snd hsnd =>
      obtain ⟨-, rfl⟩ := send_sent _ _ addr snd hsnd
      obtain rfl := Option.some.inj hn
      rfl
    · cases hn
  | readTail s k =>
    obtain ⟨n, hn, rfl⟩ := Option.map_eq_some_iff.mp hs
    obtain ⟨hq, hsnd⟩ := readTail_quiet hn
    exact early_update h s ((h s).quiet hq (by rw [hsnd])) t
  | fetch s =>
    obtain ⟨n, hn, rfl⟩ := Option.map_eq_some_iff.mp hs
    obtain ⟨hq, hsnd⟩ := fetch_quiet hn
    exact early_update h s ((h s).quiet hq (by rw [hsnd])) t
  | receive s =>
    obtain ⟨n, hn, rfl⟩ := Option.map_eq_some_iff.mp hs
    exact early_update h s ((h s).receive he hn) t
  | free s i =>
    obtain ⟨⟨n, w⟩, hn, rfl⟩ := Option.map_eq_some_iff.mp hs
    exact early_update (early_update h s ((h s).free hn)) s.peer ((h s.peer).writeHead w) t

end Runs

/-- When everything has been received and freed, at most a third of the ring is withheld,
and `Send` leaves its loop exactly when nothing is, or the message is shorter than the
rest of the ring. -/
theorem freed_send_leaves (dialAddr acceptAddr : Mapping → UInt64) (es : List Event) (c : Pair)
    (s : Side) (len : UInt32)
    (hm : Meets step FreedFirst es (init dialAddr acceptAddr defaultBufferSize))
    (hr : run step es (init dialAddr acceptAddr defaultBufferSize) = some c)
    (hread : (c s.peer).rcv.readPtr = (c s).snd.tail) (hfreed : (c s.peer).held = [])
    (hlen : len ≤ (c s).snd.length) :
    withheld (c s).snd ≤ (c s).snd.length.toNat/3 ∧
    ((c s).snd.send len ≠ .again ↔ (c s).snd.head = (c s).snd.tail ∨
      len.toNat+withheld (c s).snd < (c s).snd.length.toNat) := by
  have hinv : ∀ t, Published (c t) (c t.peer) ∧ Early defaultBufferSize (c t) := by
    refine run_keeps step FreedFirst
      (fun c => ∀ t, Published (c t) (c t.peer) ∧ Early defaultBufferSize (c t)) ?_ es _ c ?_ hm hr
    · intro c e c' h he hs t
      refine ⟨step_published (fun t => (h t).1) e ?_ hs t, step_early (fun t => (h t).2) e he hs t⟩
      cases e with
      | free s i => exact (h s).2.regular (h s).1.ordered.outstanding i
      | send s payload => trivial
      | readTail s p => trivial
      | fetch s => trivial
      | receive s => trivial
    · intro t
      refine ⟨init_published dialAddr acceptAddr defaultBufferSize t, ?_⟩
      have hthird : (0 : UInt64)-0 ≤ (defaultBufferSize/3).toUInt64 := by decide
      cases t <;> exact ⟨rfl, rfl, Nat.zero_le _, fun _ => hthird⟩
  obtain ⟨hpub, hearly⟩ := hinv s.peer
  rw [Side.peer_peer] at hpub
  have hhead : (c s.peer).rcv.remoteHead = (c s).snd.tail := by
    rw [hpub.exact, headPos, hfreed, ← hread, hpub.ordered.readPtr]
    rfl
  have hthird := hearly.third hfreed
  rw [hhead, ← hpub.seen] at hthird
  have hwithheld : withheld (c s).snd ≤ (c s).snd.length.toNat/3 := by
    rw [(hinv s).2.snd]
    exact UInt64.le_iff_toNat_le.mp hthird
  have hdefault : defaultBufferSize.toNat = 2^23 := rfl
  refine ⟨hwithheld, send_leaves_iff _ len ?_ ?_ hlen⟩
  · rw [(hinv s).2.snd, hdefault]
    exact pow_dvd_pow 2 (by omega)
  · rw [(hinv s).2.snd, hdefault] at hwithheld ⊢
    omega

def oneByte : List Event :=
  [.send .dial [1], .readTail .accept 5, .fetch .accept, .receive .accept, .free .accept 0]

def oneFreed : Pair :=
  (run step oneByte (init mappings mappings defaultBufferSize)).get (by decide +kernel)

theorem freed_send_leaves_small :
    run step oneByte (init mappings mappings defaultBufferSize) = some oneFreed ∧
    withheld (oneFreed .dial).snd = 5 ∧ (oneFreed .dial).snd.send 8388602 ≠ .again := by
  have hr : run step oneByte (init mappings mappings defaultBufferSize) = some oneFreed :=
    run_get _ _ _ _
  refine ⟨hr, by decide +kernel, ?_⟩
  exact (freed_send_leaves mappings mappings oneByte oneFreed .dial 8388602 (by decide +kernel) hr
    (by decide +kernel) (by decide +kernel) (by decide +kernel)).2.mpr (Or.inr (by decide +kernel))

/-- The five bytes of that message are free, but their head was not written: a message of
the size of the ring passes the size check and is never sent. -/
theorem full_message_waits :
    Meets step FreedFirst oneByte (init mappings mappings defaultBufferSize) ∧
    run step oneByte (init mappings mappings defaultBufferSize) = some oneFreed ∧
    (oneFreed .accept).rcv.readPtr = (oneFreed .dial).snd.tail ∧ (oneFreed .accept).held = [] ∧
    (8388608 : UInt32) ≤ (oneFreed .dial).snd.length ∧
    (oneFreed .dial).snd.send 8388608 = .again :=
  ⟨by decide +kernel, run_get _ _ _ _, by decide +kernel⟩

end KYM.WithheldHead
