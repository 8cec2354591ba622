import KnowYourMemory.ChecksumDelivery.Invariant

/-!
# The steps of Checksummed Write

Sending, arrival and the two halves of `Free` keep what the ring holds.
-/

set_option autoImplicit false

namespace KYM.ChecksumDelivery
open KYM.Run KYM.Circle KYM.RingBuffer KYM.RingOffsets KYM.BoundedStream KYM.MagicMemory
open KYM.WriteSender (bytesAt storeAt written)
open KYM.WriteChecksum

variable {crc : List UInt8 → UInt32} {L : ℕ} {mem mem' : ℕ → UInt8} {m n : Span (List UInt8)}

section Steps

variable {c c' : Connection} {rcv : Buffer} {t : Tape (List UInt8) (L-1)}
  {a b : List (Span (List UInt8))}

theorem Sound.send (h : Sound crc L c rcv t a b) (h2 : 2*L < 2^32) (p : List UInt8)
    (hp : p.length+8 < L) (hs : step crc c (.send p) = some c') :
    ∃ t' b', Sound crc L c' rcv t' a b' := by
  simp only [step] at hs
  split at hs
  · cases hs
  next addr bytes snd hsnd =>
  obtain rfl := Option.some.inj hs
  obtain ⟨hg, rfl, hwr⟩ := sendAsync_ok crc p c.snd snd addr bytes (by omega) hsnd
  have hw : (UInt32.ofNat (p.length+8)).toNat = p.length+8 :=
    UInt32.toNat_ofNat_of_lt (by simp only [UInt32.size]; omega)
  obtain ⟨t', haddr, hst, hr⟩ := WriteSender.sent_written h2 h.refines _ p (by omega) addr hg
  rw [hw] at haddr hst
  obtain ⟨-, -, hheld, hunread⟩ := Tape.step_send t t' _ _ hst
  have haddr : addr = addrOf L rcv.addr ⟨t.tail, p.length+8, p⟩ := haddr
  subst hwr
  have hlive := Tape.send_live t t' _ _ hst
  refine ⟨t', b++[⟨t.tail, p.length+8, p⟩], hr, h.ring, ?_, ?_, ?_, ?_, ?_, ?_, h.stored, ?_, ?_⟩
  · rw [hunread, h.split, List.append_assoc]
  · simp only [h.wire, haddr, entryOf, List.map_append, List.map_cons, List.map_nil]
  · rw [hlive, List.map_append, ← h.sent, haddr]
    exact List.drop_append_of_le_length (Nat.le.intro h.count.1.symm)
  · rw [hlive, hheld]
    refine ⟨?_, h.count.2⟩
    simp only [List.length_append, List.length_singleton, h.count.1, Nat.add_assoc]
    rfl
  · intro m hm
    rw [hlive] at hm
    rcases List.mem_append.mp hm with hm | hm
    · exact h.message m hm
    · rw [List.mem_singleton.mp hm]
  · intro k reg hk
    obtain ⟨m, hm, hl⟩ := h.returned k reg hk
    exact ⟨m, getElem?_concat _ _ _ _ hm, hl⟩
  · rw [hheld]
    exact h.blank
  · rw [hheld]
    exact h.phase

theorem Sound.updateHead (h : Sound crc L c rcv t a b)
    (hs : step crc c .updateHead = some c') : Sound crc L c' rcv t a b := by
  obtain rfl := Option.some.inj hs
  have hr := Channel.acknowledge_refines h.refines
  exact ⟨hr.relink _ _ _ rfl rfl rfl, h.ring, h.split, h.wire, h.sent, h.count, h.message,
    h.returned, h.stored, h.blank, h.phase⟩

theorem Sound.deliver (h : Sound crc L c rcv t a b) (h2 : 2*L < 2^32)
    (hs : step crc c .deliver = some c') : ∃ a' b', Sound crc L c' rcv t a' b' := by
  cases hb : b with
  | nil => simp [step, WriteChecksum.deliver, h.wire, hb] at hs
  | cons m b' =>
    simp only [step, WriteChecksum.deliver, h.wire, hb, List.map_cons, entryOf] at hs
    obtain rfl := Option.some.inj hs
    have hm : m ∈ t.live := by simp [Tape.live, h.split, hb]
    obtain ⟨hL, hle, -⟩ := live_lt t h2 hm
    have hlen : (frame crc m.body).length = m.len := by rw [frame_length, h.message m hm]
    have hstore : storeAt c.rcv c.mem (addrOf L rcv.addr m) (frame crc m.body) =
        store L c.mem (m.start%L) (frame crc m.body) := by
      have hp := h.place h2 hL m 0 (by decide) (frame crc m.body)
      rwa [UInt64.add_zero] at hp
    have hcells : cells L (m.start%L) (frame crc m.body).length = cells L m.start m.len := by
      rw [hlen]
      exact cells_congr L _ _ _ (Nat.mod_mod _ _)
    have hout : ∀ o, o ∉ cells L m.start m.len →
        storeAt c.rcv c.mem (addrOf L rcv.addr m) (frame crc m.body) o = c.mem o := by
      intro o ho
      rw [hstore]
      exact store_frame L _ _ _ o (by rw [hcells]; exact ho)
    have hother : ∀ n ∈ t.held++a, ∀ o ∈ cells L n.start n.len,
        storeAt c.rcv c.mem (addrOf L rcv.addr m) (frame crc m.body) o = c.mem o := by
      intro n hn o ho
      obtain ⟨hnl, hbef⟩ := t.live_before a b' m (by rw [h.split, hb]) n hn
      have hd := t.live_disjoint .up L hL (by omega) n m hnl hm hbef _ _ rfl rfl
      exact hout o (Finset.disjoint_left.mp hd ho)
    refine ⟨a++[m], b', h.refines, h.ring, split_next h.split hb, rfl, h.sent, ?_, h.message,
      h.returned, ?_, ?_, h.phase.deliver (fun n hn => hother n (List.mem_append_left _ hn)) _ _⟩
    · exact h.count
    · intro n hn
      rcases List.mem_append.mp hn with hn | hn
      · exact (h.stored n hn).frame (hother n (List.mem_append_right _ hn))
      · rw [List.mem_singleton.mp hn, Stored, hstore, load_congr L _ m.start (m.start%L) _
          (Nat.mod_mod _ _).symm, ← hlen]
        exact load_store L _ _ _ (by omega)
    · intro o ho
      refine (hout o (ho m (by simp))).trans ?_
      refine h.blank o fun n hn => ho n ?_
      rw [← List.append_assoc]
      exact List.mem_append_left _ hn

theorem Sound.move (h : Sound crc L c rcv t a b) (rcv' : Buffer) (p : Phase)
    (hr : rcv'.addr = rcv.addr ∧ rcv'.length = rcv.length)
    (hf : freed { c with rcv := rcv', phase := p } = freed c)
    (hp : Standing crc L { c with rcv := rcv', phase := p } rcv t.held a) :
    Sound crc L { c with rcv := rcv', phase := p } rcv t a b :=
  ⟨h.refines, hr, h.split, h.wire, by rw [hf]; exact h.sent, by rw [hf]; exact h.count, h.message,
    h.returned, h.stored, h.blank, hp⟩

theorem Sound.poll (h : Sound crc L c rcv t a b) (hs : step crc c .poll = some c') :
    Sound crc L c' rcv t a b := by
  cases hp : c.phase with
  | polling =>
    have hphase := h.phase
    simp only [Standing, hp] at hphase
    simp only [step, hp] at hs
    split at hs
    · exact Option.some.inj hs ▸ h
    next hne =>
    obtain rfl := Option.some.inj hs
    have ha : a ≠ [] := fun ha => hne (h.polled_zero hphase.2 ha)
    exact h.move c.rcv .parsing h.ring (by simp only [freed, hp]) ⟨hphase.1, hphase.2, ha⟩
  | _ => simp [step, hp] at hs

theorem Sound.parse (h : Sound crc L c rcv t a b) (h2 : 2*L < 2^32)
    (hs : step crc c .parse = some c') : Sound crc L c' rcv t a b := by
  cases hp : c.phase with
  | parsing =>
    have hphase := h.phase
    simp only [Standing, hp] at hphase
    obtain ⟨hr, hh, ha⟩ := hphase
    obtain ⟨m, a', ha⟩ := List.exists_cons_of_ne_nil ha
    obtain ⟨hptr, hword, -, -⟩ := h.first h2 hr m a' ha
    simp only [step, hp] at hs
    obtain rfl := Option.some.inj hs
    refine h.move c.rcv _ h.ring (by simp only [freed, hp]) ⟨hr, hh, m, a', ha, ?_, hword, Or.inl rfl⟩
    rw [hptr, hword, regionOf]
  | _ => simp [step, hp] at hs

theorem Sound.take (h : Sound crc L c c.rcv t a b) (h2 : 2*L < 2^32) (hf : freed c = c.got.length)
    (hh : t.held = []) (a' : List (Span (List UInt8))) (ha : a = m::a') :
    ∃ rcv' t', Sound crc L { c with
      rcv := (Magic.read c.rcv (UInt32.ofNat m.len)).2
      got := c.got++[regionOf L c.rcv.addr m]
      phase := .holding (regionOf L c.rcv.addr m) } rcv' t' a' b := by
  have hu : t.unread = m::(a'++b) := by rw [h.split, ha, List.cons_append]
  have hlive : t.live = m::(a'++b) := by rw [Tape.live, hh, hu, List.nil_append]
  have hheld : (t.take m (a'++b) hu).held = [m] := by simp only [Tape.take, hh, List.nil_append]
  have hlive' := t.take_live m (a'++b) hu
  have hm : m ∈ t.live := by simp [hlive]
  have hsent := h.oldest m (a'++b) hlive
  have hcount := h.count
  rw [hf] at hsent hcount
  obtain ⟨-, -, href⟩ := Channel.taken_link h2 h.refines m (a'++b) hu _
    (Magic.read c.rcv (UInt32.ofNat m.len)).2 rfl
  refine ⟨_, t.take m (a'++b) hu, href, ⟨rfl, rfl⟩, rfl, h.wire, ?_, ?_, ?_, ?_, ?_, ?_, ?_⟩
  · rw [hlive', freed, List.length_append, List.length_singleton, Nat.add_sub_cancel, ← hf]
    exact h.sent
  · rw [hlive', hheld, freed, List.length_append, List.length_singleton, Nat.add_sub_cancel]
    exact ⟨hcount.1, rfl⟩
  · rw [hlive']
    exact h.message
  · intro k reg hk
    rcases getElem?_concat_cases hk with hk | ⟨rfl, rfl⟩
    · exact h.returned k reg hk
    · exact ⟨_, hsent, region_length m _ (live_lt t h2 hm).2.2 (h.message m hm)⟩
  · exact fun n hn => h.stored n (by simp [ha, hn])
  · rw [hheld]
    intro o ho
    exact h.blank o (fun n hn => ho n (by simpa [hh, ha] using hn))
  · rw [hheld]
    exact ⟨rfl, m, rfl, rfl, List.getLast?_concat, h.stored m (by simp [ha])⟩

theorem Sound.check (h : Sound crc L c rcv t a b) (h2 : 2*L < 2^32)
    (hs : step crc c .check = some c') : ∃ rcv' t' a', Sound crc L c' rcv' t' a' b := by
  cases hp : c.phase with
  | checking length reg result rounds =>
    have hphase := h.phase
    simp only [Standing, hp] at hphase
    obtain ⟨rfl, hh, m, a', ha, rfl, rfl, hround⟩ := hphase
    obtain ⟨hptr, hword, hsum, hproc⟩ := h.first h2 rfl m a' ha
    have hf : freed c = c.got.length := by simp only [freed, hp]
    simp only [step, hp, hsum, hproc] at hs
    split at hs
    · next hne =>
      obtain rfl := Option.some.inj hs
      have h0 : rounds = 0 := hround.resolve_right (fun hx => hne hx.2.symm)
      refine ⟨c.rcv, t, a, h.move c.rcv _ h.ring (by simp only [freed, hp])
        ⟨rfl, hh, m, a', ha, rfl, rfl, Or.inr ⟨by rw [h0], rfl⟩⟩⟩
    · obtain rfl := Option.some.inj hs
      obtain ⟨rcv', t', h'⟩ := h.take h2 hf hh a' ha
      exact ⟨rcv', t', a', h'⟩
  | _ => simp [step, hp] at hs

theorem Sound.free (h : Sound crc L c rcv t a b) (hs : step crc c .free = some c') :
    Sound crc L c' rcv t a b := by
  cases hp : c.phase with
  | holding reg =>
    have hphase := h.phase
    simp only [Standing, hp] at hphase
    obtain ⟨rfl, m, hh, rfl, -, -⟩ := hphase
    simp only [step, hp, WriteChecksum.free, (region_header c.rcv.addr m).1] at hs
    obtain rfl := Option.some.inj hs
    exact h.move (Magic.free c.rcv (addrOf L c.rcv.addr m)).2 _ ⟨rfl, rfl⟩ (by simp only [freed, hp])
      ⟨m, hh, rfl, rfl, Nat.zero_le _, fun i hi => absurd hi (Nat.not_lt_zero i)⟩
  | _ => simp [step, hp] at hs

theorem Sound.clear (h : Sound crc L c rcv t a b) (h2 : 2*L < 2^32)
    (hs : step crc c .clear = some c') : Sound crc L c' rcv t a b := by
  cases hp : c.phase with
  | clearing reg head k =>
    have hphase := h.phase
    simp only [Standing, hp] at hphase
    obtain ⟨m, hh, rfl, hfree, hk, hz⟩ := hphase
    have hm : m ∈ t.live := by simp [Tape.live, hh]
    obtain ⟨hL, hle, hlt⟩ := live_lt t h2 hm
    have hlen := h.message m hm
    simp only [step, hp, (region_header rcv.addr m).1, region_length m _ hlt hlen, ← hlen] at hs
    split at hs
    · next hkm =>
      obtain rfl := Option.some.inj hs
      have hw : (UInt64.ofNat k).toNat = k :=
        UInt64.toNat_ofNat_of_lt (by simp only [UInt64.size]; omega)
      have hstore : storeAt c.rcv c.mem (addrOf L rcv.addr m+UInt64.ofNat k) [0] =
          Function.update c.mem ((m.start+k)%L) 0 := by
        rw [h.place h2 hL m _ (by omega), hw, store_byte, Nat.mod_add_mod]
      have hcell : (m.start+k)%L ∈ cells L m.start m.len := (mem_cells L _ _ _).mpr ⟨k, hkm, rfl⟩
      rw [hstore]
      refine ⟨h.refines, h.ring, h.split, h.wire, ?_, ?_, h.message, h.returned, ?_, ?_, ?_⟩
      · have hs := h.sent
        simp only [freed, hp] at hs ⊢
        exact hs
      · have hc := h.count
        simp only [freed, hp] at hc ⊢
        exact hc
      · intro n hn
        have hnu : n ∈ t.unread := by simp [h.split, hn]
        have hd := t.live_disjoint .up L hL (by omega) m n hm (List.mem_append_right _ hnu)
          (t.held_before m n (by simp [hh]) hnu) _ _ rfl rfl
        refine (h.stored n hn).frame fun o ho => Function.update_of_ne ?_ _ _
        rintro rfl
        exact Finset.disjoint_left.mp hd hcell ho
      · intro o ho
        by_cases he : o = (m.start+k)%L
        · exact he ▸ Function.update_self _ _ _
        · exact (Function.update_of_ne he _ _).trans (h.blank o ho)
      · refine ⟨m, hh, rfl, hfree, hkm, ?_⟩
        intro i hi
        by_cases he : (m.start+i)%L = (m.start+k)%L
        · exact he ▸ Function.update_self _ _ _
        · refine (Function.update_of_ne he _ _).trans (hz i ?_)
          have : i ≠ k := fun h => he (by rw [h])
          omega
    · cases hs
  | _ => simp [step, hp] at hs

theorem Sound.ack (h : Sound crc L c rcv t a b) (h2 : 2*L < 2^32)
    (hs : step crc c .ack = some c') : ∃ t', Sound crc L c' c.rcv t' a b := by
  cases hp : c.phase with
  | clearing reg head k =>
    have hphase := h.phase
    simp only [Standing, hp] at hphase
    obtain ⟨m, hh, rfl, hfree, hk, hz⟩ := hphase
    have hm : m ∈ t.live := by simp [Tape.live, hh]
    have hlen := h.message m hm
    simp only [step, hp, region_length m _ (live_lt t h2 hm).2.2 hlen, ← hlen] at hs
    split at hs
    · cases hs
    next hkm =>
    obtain rfl := Option.some.inj hs
    obtain rfl : k = m.len := by omega
    obtain ⟨hra, href⟩ := Channel.freed_link h2 h.refines 0 m (by simp [hh])
      (Or.inl rfl) head c.rcv hfree
    have hheld : (t.release 0).held = [] := by simp only [Tape.release, hh, List.eraseIdx_cons_zero]
    have hlive : t.live = m::(t.release 0).live := by
      rw [Tape.live, Tape.live, hheld, hh]
      rfl
    have hf : freed c+1 = c.got.length := by rw [h.count.2, hh, List.length_singleton]
    have hsent := h.sent
    refine ⟨t.release 0, href, ⟨rfl, rfl⟩, h.split, ?_, ?_, ?_, ?_, h.returned, h.stored, ?_,
      ⟨rfl, hheld⟩⟩
    · rw [h.ring.1]
      exact h.wire
    · rw [freed, ← hf, ← List.tail_drop, h.sent, hlive, h.ring.1]
      rfl
    · have hc := h.count
      rw [hlive, List.length_cons] at hc
      simp only [freed, hheld]
      rw [← hf]
      exact ⟨by omega, rfl⟩
    · exact fun n hn => h.message n (by simp [hlive, hn])
    · rw [hheld]
      intro o ho
      by_cases hom : o ∈ cells L m.start m.len
      · obtain ⟨i, hi, rfl⟩ := (mem_cells L _ _ _).mp hom
        exact hz i hi
      · refine h.blank o ?_
        intro n hn
        rw [hh] at hn
        rcases List.mem_cons.mp hn with rfl | hn
        · exact hom
        · exact ho n hn
  | _ => simp [step, hp] at hs

end Steps

/-- On-ring lengths of the messages that are sent. -/
def Sized (L : ℕ) : Event → Prop
  | .send p => p.length+8 < L
  | _ => True

instance (L : ℕ) : ∀ e : Event, Decidable (Sized L e)
  | .send p => inferInstanceAs (Decidable (p.length+8 < L))
  | .updateHead | .deliver | .poll | .parse | .check | .free | .clear | .ack => isTrue trivial

theorem step_sound (crc : List UInt8 → UInt32) (L : ℕ) (h2 : 2*L < 2^32) (c c' : Connection)
    (e : Event) (h : ∃ rcv t a b, Sound crc L c rcv t a b) (he : Sized L e)
    (hs : step crc c e = some c') : ∃ rcv t a b, Sound crc L c' rcv t a b := by
  obtain ⟨rcv, t, a, b, h⟩ := h
  cases e with
  | send p =>
    obtain ⟨t', b', h'⟩ := h.send h2 p he hs
    exact ⟨rcv, t', a, b', h'⟩
  | updateHead => exact ⟨rcv, t, a, b, h.updateHead hs⟩
  | deliver =>
    obtain ⟨a', b', h'⟩ := h.deliver h2 hs
    exact ⟨rcv, t, a', b', h'⟩
  | poll => exact ⟨rcv, t, a, b, h.poll hs⟩
  | parse => exact ⟨rcv, t, a, b, h.parse h2 hs⟩
  | check =>
    obtain ⟨rcv', t', a', h'⟩ := h.check h2 hs
    exact ⟨rcv', t', a', b, h'⟩
  | free => exact ⟨rcv, t, a, b, h.free hs⟩
  | clear => exact ⟨rcv, t, a, b, h.clear h2 hs⟩
  | ack =>
    obtain ⟨t', h'⟩ := h.ack h2 hs
    exact ⟨c.rcv, t', a, b, h'⟩

theorem run_sound (crc : List UInt8 → UInt32) (addr : UInt64) (key size : UInt32)
    (h2 : 2*size.toNat < 2^32) (es : List Event) (c : Connection)
    (hm : Meets (step crc) (fun _ => Sized size.toNat) es (init addr key size))
    (hr : run (step crc) es (init addr key size) = some c) :
    ∃ rcv t a b, Sound crc size.toNat c rcv t a b :=
  run_keeps (step crc) (fun _ => Sized size.toNat)
    (fun c => ∃ rcv t a b, Sound crc size.toNat c rcv t a b)
    (fun c e c' hI he hs => step_sound crc size.toNat h2 c c' e hI he hs) es _ c
    ⟨_, _, [], [], init_sound crc addr key size h2⟩ hm hr

end KYM.ChecksumDelivery
