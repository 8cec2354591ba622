import KnowYourMemory.DirectDelivery.Invariant

/-!
# Slot agreement and ownership of Direct Write

The log of frees is the common order of both sides, as long as a receive finds a free slot.
-/

set_option autoImplicit false

namespace KYM.DirectDelivery
open KYM.Run KYM.MagicMemory KYM.CyclicLog KYM.DirectWrite
open KYM.RingBuffer (KeyedRegion)

section Transfer

variable {n d p : ℕ} {pool : List UInt64} {y y' : System}

theorem Sound.send (h : Sound n pool [] y d p) (hn : pool.length = n) (h0 : 0 < n)
    (payload : List UInt8) (hid : 1+y.sent.length < 2^64) (h1 : 1 ≤ payload.length)
    (h2 : payload.length+4 ≤ y.snd.bufSize.toNat) (hs : step y (.send payload) = some y') :
    Sound n pool [] y' d p := by
  have hord := h.order
  have htot := h.total hn
  have hslot : (y.snd.nextId%y.snd.nrBuffers).toNat = cell n y.sent.length := by
    rw [h.nextId, slot_of_id _ _ hid, h.sndBuffers]
  simp only [step, sendAsync, hslot] at hs
  split at hs
  · cases hs
  next post snd hsend =>
  split at hsend
  · next hvalid =>
    obtain ⟨rfl, rfl⟩ := Prod.mk.inj (Option.some.inj hsend)
    obtain rfl := Option.some.inj hs
    have hlt : y.sent.length < p := by
      by_contra hge
      have hp : p = y.sent.length := by omega
      have hfalse := h.spent.next (by omega)
      rw [hp, hvalid] at hfalse
      exact absurd hfalse (by decide)
    have hfreed := h.targets y.sent.length (le_refl _) hlt
    have hbuf : y.snd.targetBuf (cell n y.sent.length) =
        ⟨(y.snd.targetBuf (cell n y.sent.length)).addr,
          (y.snd.targetBuf (cell n y.sent.length)).rkey, true⟩ := by rw [← hvalid]
    refine ⟨h.sndBuffers, h.rcvBuffers, h.bufSize, ?_, ?_, h.head, h.tail, h.owned, ?_, ?_, h.ring,
      h.slotWire, ?_, ?_, ?_, h.heldLt, ?_, h.cleared⟩
    · simp only [List.length_append, List.length_singleton]
      omega
    · simp only [h.nextId, List.length_append, List.length_singleton, ← Nat.add_assoc]
      exact (UInt64.ofNat_add _ 1).symm
    · simp only [List.length_append, List.length_singleton]
      exact h.targets.forget (by omega) _
    · simp only [List.length_append, List.length_singleton]
      exact h.spent.forget _ rfl
    · simp only [h.dataWire, List.drop_append_of_le_length hord.2.1, List.map_append, List.map_cons,
        List.map_nil, postOf]
    · intro k m hm
      rcases BoundedStream.getElem?_concat_cases hm with hm | ⟨rfl, rfl⟩
      · exact h.sent k m hm
      · exact ⟨by rw [hfreed, ← hbuf], h1, h2⟩
    · intro k reg hk
      obtain ⟨m, hm, hr⟩ := h.got k reg hk
      exact ⟨m, BoundedStream.getElem?_concat _ _ _ _ hm, hr⟩
    · intro k m hm hk
      have hks : k < y.sent.length := by
        rcases hk with hk | hk
        · have := h.heldLt k hk
          omega
        · omega
      rw [List.getElem?_append_left hks] at hm
      exact h.loaded k m hm hk
  · cases hsend

theorem Sound.deliverSlot (h : Sound n pool [] y d p) (hn : pool.length = n)
    (hs : step y .deliverSlot = some y') : Sound n pool [] y' d (p+1) := by
  have hord := h.order
  have htot := h.total hn
  simp only [step] at hs
  split at hs
  · cases hs
  next i buf rest hw =>
  obtain rfl := Option.some.inj hs
  have hwire := h.slotWire
  rw [hw] at hwire
  cases hf : y.freed.drop p with
  | nil => simp [hf] at hwire
  | cons b bs =>
    have hpl : p < y.freed.length := by
      by_contra hge
      rw [List.drop_eq_nil_of_le (by omega)] at hf
      cases hf
    have hb : y.freed[p]? = some b := by
      rw [← List.head?_drop, hf, List.head?_cons]
    have hbs : y.freed.drop (p+1) = bs := by
      rw [← List.tail_drop, hf, List.tail_cons]
    rw [hf, List.mapIdx_cons] at hwire
    obtain ⟨hib, hrest⟩ := List.cons.inj hwire
    obtain ⟨rfl, rfl⟩ := Prod.mk.inj hib
    have hshift : rest = (y.freed.drop (p+1)).mapIdx (fun j b => (cell n (p+1+j), b)) := by
      rw [hbs, hrest]
      congr 1
      funext j b
      rw [show p+(j+1) = p+1+j by omega]
    refine ⟨h.sndBuffers, h.rcvBuffers, h.bufSize,
      ⟨hord.1, hord.2.1, Nat.le_succ_of_le hord.2.2.1, hpl⟩, h.nextId, h.head, h.tail,
      h.owned, ?_, ?_, h.ring, hshift, h.dataWire, h.sent, h.got, h.heldLt, h.loaded, h.cleared⟩
    · exact h.targets.write (by omega) _ hb
    · exact h.spent.write _ hord.2.2.1

theorem Sound.deliverData (h : Sound n pool [] y d p) (hd : pool.Nodup)
    (hs : step y .deliverData = some y') : Sound n pool [] y' (d+1) p := by
  have hord := h.order
  simp only [step] at hs
  split at hs
  · cases hs
  next addr rkey bytes rest hw =>
  obtain rfl := Option.some.inj hs
  have hwire := h.dataWire
  rw [hw] at hwire
  cases hf : y.sent.drop d with
  | nil => simp [hf] at hwire
  | cons m ms =>
    have hdl : d < y.sent.length := by
      by_contra hge
      rw [List.drop_eq_nil_of_le (by omega)] at hf
      cases hf
    have hm : y.sent[d]? = some m := by
      rw [← List.head?_drop, hf, List.head?_cons]
    have hms : y.sent.drop (d+1) = ms := by
      rw [← List.tail_drop, hf, List.tail_cons]
    rw [hf, List.map_cons] at hwire
    obtain ⟨hpost, hrest⟩ := List.cons.inj hwire
    simp only [postOf, Prod.mk.injEq] at hpost
    obtain ⟨rfl, rfl, rfl⟩ := hpost
    obtain ⟨htd, had⟩ := h.sent_ticket d m hm (Or.inr hord.1)
    refine ⟨h.sndBuffers, h.rcvBuffers, h.bufSize, ⟨Nat.le_succ_of_le hord.1, hdl, hord.2.2⟩,
      h.nextId, h.head, h.tail, h.owned, h.targets, h.spent, h.ring, h.slotWire, ?_, h.sent,
      h.got, h.heldLt, ?_, ?_⟩
    · rw [hms, hrest]
    · intro k m' hm' hk
      by_cases hkd : k = d
      · subst hkd
        obtain rfl := Option.some.inj (hm.symm.trans hm')
        simp only [Function.update_self]
        exact loaded_put _ _ _
      · have hk' : k ∈ y.held ∨ y.got.length ≤ k ∧ k < d := by
          rcases hk with hk | hk
          · exact Or.inl hk
          · exact Or.inr ⟨hk.1, by have := hk.2; omega⟩
        obtain ⟨htk, hak⟩ := h.sent_ticket k m' hm' (hk'.imp_right And.left)
        have hne : m'.target ≠ m.target := by
          intro he
          exact hkd (h.distinct hd k d htk htd (by rw [hak, had, he]))
        simp only [Function.update_of_ne hne]
        exact h.loaded k m' hm' hk'
    · intro k b hb hk
      obtain ⟨htk, hak⟩ := h.freed_ticket k b hb (by omega)
      have hne : b.addr ≠ m.target := by
        intro he
        have := h.distinct hd k d htk htd (by rw [hak, had, he])
        omega
      simp only [Function.update_of_ne hne]
      exact h.cleared k b hb (by omega)

theorem Sound.polls (h : Sound n pool [] y d p) (hn : pool.length = n)
    (hset : y.setup = []) (hheld : y.held.length < n) :
    y.freed[y.got.length]? = some (y.rcv.rcvBuffers y.rcv.rcvHead.toNat) := by
  have hord := h.order
  have htot := h.total hn
  simp only [hset, List.length_nil] at htot
  rw [h.head]
  exact h.ring _ (le_refl _) (by omega)

theorem Sound.received {region : KeyedRegion} {rcv : DirectWriteConnection}
    (h : Sound n pool [] y d p) (hn : pool.length = n) (hset : y.setup = [])
    (hheld : y.held.length < n) (hr : receive y.rcv y.bufs = some (region, rcv)) :
    y.got.length < d ∧ ∃ m : Sent, y.sent[y.got.length]? = some m ∧ region.addr = m.target ∧
      region.lkey = m.rkey ∧ region.length.toNat = m.payload.length := by
  have hord := h.order
  have hpoll := h.polls hn hset hheld
  simp only [receive, h.bufSize] at hr
  split at hr
  · cases hr
  next hne =>
  obtain ⟨rfl, -⟩ := Prod.mk.inj (Option.some.inj hr)
  have hd : y.got.length < d := by
    by_contra hge
    exact hne (h.cleared _ _ hpoll (by omega))
  have hm := List.getElem?_eq_getElem (show y.got.length < y.sent.length by omega)
  obtain ⟨hf, h1, h4⟩ := h.sent _ _ hm
  have hb := Option.some.inj (hpoll.symm.trans hf)
  have hload := h.loaded _ _ hm (Or.inr ⟨le_refl _, hd⟩)
  have hlt := y.snd.bufSize.toNat_lt
  refine ⟨hd, _, hm, by rw [hb], by rw [hb], ?_⟩
  simp only [hb, hload.msgLen h4]
  rw [UInt32.toNat_ofNat']
  omega

theorem Sound.receive (h : Sound n pool [] y d p) (hn : pool.length = n) (h0 : 0 < n)
    (h32 : n ≤ 2^32) (hheld : y.held.length < n) (hs : step y .receive = some y') :
    Sound n pool [] y' d p := by
  have hord := h.order
  have htot := h.total hn
  simp only [step] at hs
  split at hs
  · next region rcv hset hrec =>
    obtain rfl := Option.some.inj hs
    obtain ⟨hd, m, hm, haddr, hkey, hlen⟩ := h.received hn hset hheld hrec
    simp only [DirectWrite.receive] at hrec
    split at hrec
    · cases hrec
    obtain ⟨-, rfl⟩ := Prod.mk.inj (Option.some.inj hrec)
    have hhead := h.head
    refine ⟨h.sndBuffers, h.rcvBuffers, h.bufSize, ?_, h.nextId, ?_, h.tail, ?_, h.targets, h.spent,
      ?_, h.slotWire, h.dataWire, h.sent, ?_, ?_, ?_, h.cleared⟩
    · simp only [List.length_append, List.length_singleton]
      omega
    · simp only [List.length_append, List.length_singleton]
      rw [← h.rcvBuffers] at hhead ⊢
      exact next_cursor _ _ _ hhead (by rw [h.rcvBuffers]; exact h0) (by rw [h.rcvBuffers]; exact h32)
    · refine List.Perm.trans ?_ h.owned
      refine List.Perm.append_left _ (List.Perm.map _ ?_)
      have hr : List.range' y.got.length (y.freed.length-y.got.length) =
          y.got.length::List.range' (y.got.length+1) (y.freed.length-(y.got.length+1)) := by
        rw [show y.freed.length-y.got.length = y.freed.length-(y.got.length+1)+1 by omega,
          List.range'_succ]
      simp only [tickets, hr, List.length_append, List.length_singleton]
      rw [← List.append_assoc]
      exact List.perm_append_singleton _ _
    · simp only [List.length_append, List.length_singleton, hhead]
      exact h.ring.forget (by omega) _
    · intro k reg hk
      rcases BoundedStream.getElem?_concat_cases hk with hk | ⟨rfl, rfl⟩
      · exact h.got k reg hk
      · exact ⟨m, hm, haddr, hkey, hlen⟩
    · intro k hk
      simp only [List.length_append, List.length_singleton]
      rcases List.mem_append.mp hk with hk | hk
      · have := h.heldLt k hk
        omega
      · rw [List.mem_singleton.mp hk]
        omega
    · intro k m' hm' hk
      apply h.loaded k m' hm'
      simp only [List.mem_append, List.mem_singleton, List.length_append, List.length_singleton] at hk
      rcases hk with (hk | rfl) | hk
      · exact Or.inl hk
      · exact Or.inr ⟨le_refl _, hd⟩
      · exact Or.inr (by omega)
  · cases hs

end Transfer

section Runs

/-- Messages fit their buffer and ids do not wrap; a receive is called only while the
application holds fewer buffers than there are. -/
def Allowed (y : System) : Event → Prop
  | .send payload => 1+y.sent.length < 2^64 ∧ 1 ≤ payload.length ∧
      payload.length+4 ≤ y.snd.bufSize.toNat
  | .receive => y.held.length < y.rcv.nrBuffers.toNat
  | _ => True

instance (y : System) : ∀ e : Event, Decidable (Allowed y e)
  | .send payload => inferInstanceAs (Decidable (1+y.sent.length < 2^64 ∧ 1 ≤ payload.length ∧
      payload.length+4 ≤ y.snd.bufSize.toNat))
  | .receive => inferInstanceAs (Decidable (y.held.length < y.rcv.nrBuffers.toNat))
  | .setup | .deliverSlot | .deliverData | .free _ => isTrue trivial

theorem init_sound (nr : UInt64) (bufSize : UInt32) (bufs : List (UInt64 × UInt32))
    (h2 : 2 ≤ nr.toNat) :
    Sound nr.toNat (bufs.map Prod.fst) [] (init nr bufSize bufs) 0 0 where
  sndBuffers := rfl
  rcvBuffers := rfl
  bufSize := rfl
  order := ⟨le_refl _, le_refl _, le_refl _, le_refl _⟩
  nextId := rfl
  head := (Nat.mod_eq_of_lt h2).symm
  tail := (Nat.mod_eq_of_lt h2).symm
  owned := List.Perm.of_eq (by simp [init, tickets])
  targets := fun k _ hk => absurd hk (Nat.not_lt_zero k)
  spent := fun _ _ => rfl
  ring := fun k _ hk => absurd hk (Nat.not_lt_zero k)
  slotWire := rfl
  dataWire := rfl
  sent := by simp [init]
  got := by simp [init]
  heldLt := by simp [init]
  loaded := by simp [init]
  cleared := by simp [init]

variable {n : ℕ} {pool : List UInt64} {y y' : System}

theorem step_sound (hd : pool.Nodup) (hn : pool.length = n) (h2 : 2 ≤ n) (h32 : n ≤ 2^32)
    (e : Event) (he : Allowed y e) (h : ∃ d p, Sound n pool [] y d p) (hs : step y e = some y') :
    ∃ d p, Sound n pool [] y' d p := by
  obtain ⟨d, p, h⟩ := h
  cases e with
  | setup =>
    simp only [step] at hs
    split at hs
    · cases hs
    next region rest hset =>
    obtain rfl := Option.some.inj hs
    exact ⟨d, p, (h.setup hset).freed hd hn (by omega) h32 region rfl⟩
  | send payload => exact ⟨d, p, h.send hn (by omega) payload he.1 he.2.1 he.2.2 hs⟩
  | deliverSlot => exact ⟨d, p+1, h.deliverSlot hn hs⟩
  | deliverData => exact ⟨d+1, p, h.deliverData hd hs⟩
  | receive =>
    have hheld : y.held.length < n := by
      rw [← h.rcvBuffers]
      exact he
    exact ⟨d, p, h.receive hn (by omega) h32 hheld hs⟩
  | free i =>
    simp only [step] at hs
    split at hs
    · next k hset hk =>
      split at hs
      · cases hs
      next region hreg =>
      obtain rfl := Option.some.inj hs
      exact ⟨d, p, (h.returned hk hreg).freed hd hn (by omega) h32 region rfl⟩
    · cases hs

end Runs

/-- The `k`-th send goes to the buffer that was freed `k`-th, the `k`-th receive returns
that buffer with the `k`-th message, the entry that arrives next overwrites a consumed
one, and no write is on its way to a buffer that the application holds. -/
structure InStep (y : System) : Prop where
  sends : ∀ (k : ℕ) (m : Sent), y.sent[k]? = some m →
    y.freed[k]? = some ⟨m.target, m.rkey, true⟩
  receives : ∀ (k : ℕ) (region : KeyedRegion), y.got[k]? = some region →
    ∃ m : Sent, y.sent[k]? = some m ∧ region.addr = m.target ∧
      region.length.toNat = m.payload.length ∧
      (k ∈ y.held → fetch (y.bufs region.addr) 0 region.length.toNat = m.payload)
  polls : y.setup = [] → y.held.length < y.rcv.nrBuffers.toNat →
    y.freed[y.got.length]? = some (y.rcv.rcvBuffers y.rcv.rcvHead.toNat)
  consumed : ∀ (i : ℕ) (b : DirectWriteReceiveBuffer) (rest : List (ℕ × DirectWriteReceiveBuffer)),
    y.slotWire = (i, b)::rest → (y.snd.targetBuf i).valid = false
  exclusive : ∀ (k : ℕ) (region : KeyedRegion), k ∈ y.held → y.got[k]? = some region →
    ∀ w ∈ y.dataWire, w.1 ≠ region.addr

theorem Sound.inStep {n d p : ℕ} {pool : List UInt64} {y : System} (h : Sound n pool [] y d p)
    (hd : pool.Nodup) (hn : pool.length = n) : InStep y := by
  have hord := h.order
  have htot := h.total hn
  refine ⟨fun k m hm => (h.sent k m hm).1, ?_, ?_, ?_, ?_⟩
  · intro k region hk
    obtain ⟨m, hm, haddr, -, hlen⟩ := h.got k region hk
    refine ⟨m, hm, haddr, hlen, ?_⟩
    intro hheld
    rw [haddr, hlen]
    exact (h.loaded k m hm (Or.inl hheld)).payload (h.sent k m hm).2.2
  · intro hset hheld
    rw [h.rcvBuffers] at hheld
    exact h.polls hn hset hheld
  · intro i b rest hw
    have hwire := h.slotWire
    rw [hw] at hwire
    cases hf : y.freed.drop p with
    | nil => simp [hf] at hwire
    | cons b' bs =>
      have hpl : p < y.freed.length := by
        by_contra hge
        rw [List.drop_eq_nil_of_le (by omega)] at hf
        cases hf
      rw [hf, List.mapIdx_cons] at hwire
      have hi := congrArg Prod.fst (List.cons.inj hwire).1
      simp only [Nat.add_zero] at hi
      rw [hi]
      exact h.spent.next (by omega)
  · intro k region hk hreg w hw he
    obtain ⟨m, hm, haddr, -⟩ := h.got k region hreg
    have hkr := h.heldLt k hk
    rw [h.dataWire] at hw
    obtain ⟨m', hm', rfl⟩ := List.mem_map.mp hw
    obtain ⟨j, hj⟩ := List.mem_iff_getElem?.mp hm'
    rw [List.getElem?_drop] at hj
    obtain ⟨htk, hak⟩ := h.sent_ticket k m hm (Or.inl hk)
    obtain ⟨htj, haj⟩ := h.sent_ticket (d+j) m' hj (Or.inr (by omega))
    simp only [postOf] at he
    have := h.distinct hd (d+j) k htj htk (by rw [haj, hak, he, haddr])
    omega

/-- In every run in which each receive is called while at least one buffer is not held,
both sides stay in step, for up to `2^32` buffers. -/
theorem slots_agree (nr : UInt64) (bufSize : UInt32) (bufs : List (UInt64 × UInt32))
    (hn : bufs.length = nr.toNat) (hd : (bufs.map Prod.fst).Nodup) (h2 : 2 ≤ nr.toNat)
    (h32 : nr.toNat ≤ 2^32) (es : List Event) (y : System)
    (hm : Meets step Allowed es (init nr bufSize bufs))
    (hr : run step es (init nr bufSize bufs) = some y) : InStep y := by
  have hlen : (bufs.map Prod.fst).length = nr.toNat := by rw [List.length_map, hn]
  obtain ⟨d, p, h⟩ := run_keeps step Allowed
    (fun y => ∃ d p, Sound nr.toNat (bufs.map Prod.fst) [] y d p)
    (fun y e y' h he hs => step_sound hd hlen h2 h32 e he h hs) es _ y
    ⟨0, 0, init_sound nr bufSize bufs h2⟩ hm hr
  exact h.inStep hd hlen

def swappedTrace : List Event :=
  [.setup, .deliverSlot, .send [1, 2], .setup, .deliverSlot, .send [3], .deliverData, .receive,
    .deliverData, .receive, .free 1, .deliverSlot, .send [4, 5, 6], .free 0, .deliverSlot,
    .deliverData, .receive, .send [9]]

theorem slots_agree_swapped : ∃ y : System,
    run step swappedTrace (init 2 8 [(4096, 7), (8192, 8)]) = some y ∧ y.got.length = 3 ∧
      InStep y := by
  have hr := run_get step swappedTrace (init 2 8 [(4096, 7), (8192, 8)]) (by decide +kernel)
  refine ⟨_, hr, by decide +kernel, ?_⟩
  exact slots_agree 2 8 [(4096, 7), (8192, 8)] (by decide) (by decide) (by decide) (by decide)
    swappedTrace _ (by decide +kernel) hr

def heldTrace : List Event :=
  [.setup, .setup, .deliverSlot, .deliverSlot, .send [1], .send [2], .deliverData, .deliverData,
    .receive, .receive, .receive]

theorem held_buffer_received_again : ∃ y : System,
    run step heldTrace (init 2 8 [(4096, 7), (8192, 8)]) = some y ∧ y.sent.length = 2 ∧
      y.got.length = 3 ∧ (y.got[2]?).map (fun r => r.addr) = (y.got[0]?).map (fun r => r.addr) ∧
      ¬InStep y := by
  have hr := run_get step heldTrace (init 2 8 [(4096, 7), (8192, 8)]) (by decide +kernel)
  refine ⟨_, hr, by decide +kernel, by decide +kernel, by decide +kernel, ?_⟩
  intro h
  obtain ⟨m, hm, -⟩ := h.receives 2 ⟨⟨0, 4096, 1⟩, 7⟩ (by decide +kernel)
  have hlt := (List.getElem?_eq_some_iff.mp hm).1
  revert hlt
  decide +kernel

end KYM.DirectDelivery
