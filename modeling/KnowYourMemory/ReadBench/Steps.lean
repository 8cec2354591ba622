import KnowYourMemory.ReadBench.Program

/-!
# The reads under way

Where every slot comes back to its connection, each call of the receiver leaves the numbers
of receives, the ids in the slots and the reads under way in step.
-/

set_option autoImplicit false

namespace KYM.ReadBench
open KYM.Run KYM.RingBuffer KYM.DirectRead KYM.Outstanding
open KYM.RefusedReceive (Receiver Took regionToSmall)
open KYM.ReceiveQueue (postFailed)
open KYM.WriteConnection (wrap)

section Steps

variable {b : Options} {conns : ℕ → Receiver} {ids : ℕ → Ticket} {t : State}

theorem ticket_recent {i k : ℕ} (hmod : k%b.receivers = i%b.receivers)
    (hnear : i < k+maxRcv*b.receivers) : (ticket b i).id < (ticket b k).id+maxRcv := by
  have hlt := div_lt_of_near hmod hnear
  simp only [ticket, hmod]
  omega

theorem update_iff (slots : ℕ → Ticket) (j₀ c₀ id₀ j c id : ℕ) :
    Function.update slots j₀ ⟨c₀, id₀⟩ j = ⟨c, id⟩ ↔
      (j ≠ j₀ ∧ slots j = ⟨c, id⟩) ∨ (c = c₀ ∧ id = id₀ ∧ j = j₀) := by
  by_cases hj : j = j₀
  · rw [hj, Function.update_self, Ticket.mk.injEq]
    simp only [ne_eq, not_true_eq_false, false_and, false_or, and_true]
    exact and_congr eq_comm eq_comm
  · rw [Function.update_of_ne hj]
    simp [hj]

theorem At.next_id {s : State} {i : ℕ} (h : At b s (b.count/16) i) (hn : 1 ≤ b.receivers) :
    (s.conns (i%b.receivers)).sys.conn.nextRcvId = (ticket b i).id := by
  rw [h.next, share_self hn]
  rfl

theorem At.issue {s : State} {i id : ℕ} (h : At b s (b.count/16) i) (hn : 1 ≤ b.receivers)
    (hu : 1 ≤ b.unack) (hi : Issued b s t (i%b.receivers) (i%b.unack) id)
    (hids : t.ids = Function.update s.ids (i%b.unack) ⟨i%b.receivers, id⟩)
    (hfree : ∀ c id, ¬out b s c id (i%b.unack))
    (hrecent : ∀ id j, out b s (i%b.receivers) id j → (ticket b i).id < id+maxRcv)
    (hout : ∀ c k j, out b t c k j ↔
      out b s c k j ∨ (c = i%b.receivers ∧ k = id ∧ j = i%b.unack)) :
    At b t (b.count/16) (i+1) ∧
      ∀ c, (t.conns c).sys.conn.ackdRcvId = (s.conns c).sys.conn.ackdRcvId := by
  obtain ⟨r, m, req, key, hconns, htook, hread, hlen⟩ := hi
  have hslot := Nat.mod_lt i (by omega : 0 < b.unack)
  rw [← h.next_id hn] at hrecent
  obtain ⟨hid, hnext, hackd, hheld⟩ := h.held.issue htook hread hlen hslot hfree hrecent
  rw [← hconns] at hheld
  refine ⟨⟨hheld.congr hout, fun c => ?_, fun k hk hku => ?_⟩, fun c => ?_⟩
  · rw [share_succ, hconns]
    by_cases hc : c = i%b.receivers
    · rw [hc, Function.update_self, hnext, h.next, if_pos rfl]
      omega
    · rw [Function.update_of_ne hc, h.next, if_neg (Ne.symm hc)]
      omega
  · rw [hids]
    rcases Nat.lt_succ_iff_lt_or_eq.mp hk with hlt | rfl
    · have hne : k%b.unack ≠ i%b.unack := fun he => by
        have := eq_of_slot hk hku (Nat.lt_succ_self i) (by omega) he
        omega
      rw [Function.update_of_ne hne]
      exact h.ids k hlt (by omega)
    · rw [Function.update_self, hid, h.next_id hn]
      rfl
  · rw [hconns]
    by_cases hc : c = i%b.receivers
    · rw [hc, Function.update_self, hackd]
    · rw [Function.update_of_ne hc]

theorem At.wait {s : State} {c id j warmed issued : ℕ} {pc : Pc} {r : Receiver}
    (h : At b s warmed issued) (hid : out b s c id j)
    (hr : RefusedReceive.step (s.conns c) (.waitReceive id) = some r)
    (hout : ∀ c' k j, out b ⟨Function.update s.conns c r, s.ids, pc⟩ c' k j ↔
      out b s c' k j ∧ ¬(c' = c ∧ k = id)) :
    At b ⟨Function.update s.conns c r, s.ids, pc⟩ warmed issued := by
  obtain ⟨hnext, hheld⟩ := h.held.wait hid hr
  refine ⟨hheld.congr hout, fun c' => ?_, h.ids⟩
  rw [← h.next c']
  by_cases hc : c' = c
  · simp only [hc, Function.update_self, hnext]
  · simp only [Function.update_of_ne hc]

theorem warm_sound {i : ℕ} (hu : 1 ≤ b.unack) (h : Sound b ⟨conns, ids, .warm i⟩)
    (hs : next b ⟨conns, ids, .warm i⟩ = some t) : Sound b t := by
  obtain ⟨hi, hat⟩ := h
  simp only [next] at hs
  split at hs
  · next hlt =>
    have hroom := ((hat.held.conn (i%b.receivers)).accepts (fun _ _ h => h.elim)).1
    rcases receive_views hs with ⟨e, hr⟩ | ⟨id, ⟨r, m, req, key, hconns, htook, hread, hlen⟩, hpc⟩
    · exact refused_sound hr (fun _ => hat.held) (fun _ _ => hroom)
    obtain ⟨hid, hnext, -, hheld⟩ := hat.held.issue htook hread hlen
      (Nat.mod_lt i (by omega)) (fun _ _ h => h.elim) (fun _ _ h => h.elim)
    rw [← hconns] at hheld
    unfold Sound
    rw [hpc]
    refine ⟨hlt, hheld.congr (fun c k j => ?_), fun c => ?_, fun k hk => absurd hk (Nat.not_lt_zero k)⟩
    · simp only [out, hpc, false_or]
    · rw [share_succ, hconns]
      by_cases hc : c = i%b.receivers
      · rw [hc, Function.update_self, hnext, hat.next, if_pos rfl]
        omega
      · rw [Function.update_of_ne hc, hat.next, if_neg (Ne.symm hc)]
        rfl
  · obtain rfl := Option.some.inj hs
    obtain rfl : i = b.count/16 := by omega
    refine ⟨Nat.zero_le _, Nat.zero_le _, ⟨hat.held.congr (fun c k j => ?_), hat.next, hat.ids⟩,
      fun c => ?_⟩
    · simp [out]
    · have hle := (hat.held.conn c).counted.le
      have hnext := (hat.held.conn c).sound.next
      have hshare := hat.next c
      simp only [share, Nat.count_zero] at hle hnext hshare ⊢
      omega

theorem warmWait_sound {i id : ℕ} (h : Sound b ⟨conns, ids, .warmWait i id⟩)
    (hs : next b ⟨conns, ids, .warmWait i id⟩ = some t) : Sound b t := by
  obtain ⟨hi, hat⟩ := h
  obtain ⟨r, hr, rfl⟩ := waitReceive_views hs
  refine ⟨hi, hat.wait (j := i%b.unack) ⟨rfl, rfl, rfl⟩ hr (fun c k j => ?_)⟩
  simp only [out]
  tauto

theorem fill_sound {i : ℕ} (hn : 1 ≤ b.receivers) (hu : 1 ≤ b.unack)
    (h : Sound b ⟨conns, ids, .fill i⟩) (hs : next b ⟨conns, ids, .fill i⟩ = some t) : Sound b t := by
  obtain ⟨hi, hle, hat, hackd⟩ := h
  simp only [next] at hs
  split at hs
  · next hlt =>
    have hslot : i%b.unack = i := Nat.mod_eq_of_lt hlt
    have hid := hat.next_id hn
    have hrecent : i < maxRcv*b.receivers → ∀ id j,
        out b ⟨conns, ids, .fill i⟩ (i%b.receivers) id j → (ticket b i).id < id+maxRcv := by
      rintro hmax id j ⟨hj, hij⟩
      have hjt := hat.ids j hj (by omega)
      rw [Nat.mod_eq_of_lt (by omega), hij, ticket, Ticket.mk.injEq] at hjt
      rw [hjt.2]
      exact ticket_recent hjt.1.symm (by omega)
    rcases receiveAsync_views hs with ⟨e, hr⟩ | ⟨id, hissued, hpc, hids⟩
    · exact refused_sound hr (fun _ => hat.held) (fun _ hfits =>
        ((hat.held.conn _).accepts (hid.symm ▸ hrecent (by omega))).1)
    have hroom := hissued.room
    have hmax : i < maxRcv*b.receivers := by
      have hbound := hackd (i%b.receivers)
      simp only [ticket] at hid hroom hbound
      exact (Nat.div_lt_iff_lt_mul hn).mp (by omega)
    have hfree : ∀ c id, ¬out b ⟨conns, ids, .fill i⟩ c id i := fun c id hout =>
      Nat.lt_irrefl _ hout.1
    have hout : ∀ c k j, out b t c k j ↔
        out b ⟨conns, ids, .fill i⟩ c k j ∨ (c = i%b.receivers ∧ k = id ∧ j = i) := by
      intro c k j
      simp only [out, hpc, hids, update_iff]
      rcases Nat.lt_trichotomy j i with hj | rfl | hj
      · simp [hj, hj.ne, Nat.lt_succ_of_lt hj]
      · simp
      · simp [hj.ne', Nat.not_lt.mpr hj.le, Nat.not_lt.mpr (Nat.succ_le_of_lt hj)]
    obtain ⟨hat', hackd'⟩ := hat.issue hn hu (by rw [hslot]; exact hissued) (by rw [hslot]; exact hids)
      (by rw [hslot]; exact hfree) (hrecent hmax) (by rw [hslot]; exact hout)
    unfold Sound
    rw [hpc]
    exact ⟨hlt, hmax, hat', fun c => (hackd' c).trans_le (hackd c)⟩
  · obtain rfl := Option.some.inj hs
    obtain rfl : i = b.unack := by omega
    exact ⟨le_refl _, Or.inl (le_refl _), hle, fun _ => ⟨hat.held, hat.next, hat.ids⟩⟩

theorem At.clear {s : State} {c j warmed issued : ℕ} {pc : Pc} {r : Receiver}
    (h : At b s warmed issued) (hid : out b s c (s.ids j).id j)
    (hr : RefusedReceive.step (s.conns c) (.waitReceive (s.ids j).id) = some r)
    (hout : ∀ c' k l, out b ⟨Function.update s.conns c r, s.ids, pc⟩ c' k l ↔
      l ≠ j ∧ out b s c' k l) : At b ⟨Function.update s.conns c r, s.ids, pc⟩ warmed issued := by
  refine h.wait hid hr (fun c' k l => (hout c' k l).trans ⟨?_, ?_⟩)
  · rintro ⟨hne, hl⟩
    refine ⟨hl, ?_⟩
    rintro ⟨rfl, rfl⟩
    exact hne (h.held.once _ _ _ _ hl hid)
  · rintro ⟨hl, hne⟩
    refine ⟨?_, hl⟩
    rintro rfl
    exact hne (h.held.alone _ _ _ _ _ hl hid)

theorem turn_sound {i : ℕ} (hu : 1 ≤ b.unack) (h : Sound b ⟨conns, ids, .turn i⟩)
    (hs : next b ⟨conns, ids, .turn i⟩ = some t) : Sound b t := by
  obtain ⟨hle, hbound, hfits, hat⟩ := h
  simp only [next] at hs
  split at hs
  · next hlt =>
    obtain ⟨r, hr, rfl⟩ := waitReceive_views hs
    refine ⟨hle, hlt, hfits, fun hturns => ?_⟩
    have hat := hat hturns
    obtain ⟨q, hq⟩ := hturns.resolve_right (by omega)
    have hslot := hat.ids (i-b.unack) (by omega) (by omega)
    have hmod : (i-b.unack)%b.receivers = i%b.receivers := by
      conv_rhs => rw [← Nat.sub_add_cancel hle]
      rw [hq, Nat.add_mul_mod_self_left]
    rw [← Nat.mod_eq_sub_mod hle] at hslot
    refine hat.clear ⟨Nat.mod_lt i (by omega), ?_⟩ hr (fun c k j => ?_)
    · rw [hslot]
      simp only [ticket, hmod]
    · simp only [out]
      tauto
  · obtain rfl := Option.some.inj hs
    obtain rfl : i = max b.unack b.count := by omega
    refine ⟨Nat.zero_le _, hfits, fun hturns => ?_⟩
    obtain ⟨hheld, hnext, hids⟩ := hat hturns
    exact ⟨hheld.congr (fun c k j => by simp [out]), hnext, hids⟩

theorem reissue_sound {i : ℕ} (hn : 1 ≤ b.receivers) (hu : 1 ≤ b.unack)
    (h : Sound b ⟨conns, ids, .reissue i⟩) (hs : next b ⟨conns, ids, .reissue i⟩ = some t) :
    Sound b t := by
  obtain ⟨hle, hlt, hfits, hat⟩ := h
  have hrecent : Turns b → ∀ id j, out b ⟨conns, ids, .reissue i⟩ (i%b.receivers) id j →
      (ticket b i).id < id+maxRcv := by
    rintro hturns id j ⟨hj, hne, hij⟩
    obtain ⟨k, hk, hku, rfl⟩ := last_use hle hj
    have hkt := (hat hturns).ids k hk hku
    rw [hij, ticket, Ticket.mk.injEq] at hkt
    rw [hkt.2]
    refine ticket_recent hkt.1.symm ?_
    have hfar : i ≠ k+b.unack := fun he => hne (by rw [he, Nat.add_mod_right])
    omega
  rcases receiveAsync_views hs with ⟨e, hr⟩ | ⟨id, hissued, hpc, hids⟩
  · exact refused_sound hr (fun hturns => (hat hturns).held) (fun hturns _ =>
      (((hat hturns).held.conn _).accepts ((hat hturns).next_id hn ▸ hrecent hturns)).1)
  unfold Sound
  rw [hpc]
  refine ⟨by omega, Or.inr hlt, hfits, fun hturns => ?_⟩
  refine ((hat hturns).issue hn hu hissued hids (fun c id hout => hout.2.1 rfl) (hrecent hturns) ?_).1
  intro c k j
  have hslot := Nat.mod_lt i (by omega : 0 < b.unack)
  simp only [out, hpc, hids, update_iff]
  constructor
  · rintro ⟨hj, ⟨hne, hjk⟩ | hnew⟩
    · exact Or.inl ⟨hj, hne, hjk⟩
    · exact Or.inr hnew
  · rintro (⟨hj, hne, hjk⟩ | ⟨hc, hk, rfl⟩)
    · exact ⟨hj, Or.inl ⟨hne, hjk⟩⟩
    · exact ⟨hslot, Or.inr ⟨hc, hk, rfl⟩⟩

theorem drain_sound {i : ℕ} (h : Sound b ⟨conns, ids, .drain i⟩)
    (hs : next b ⟨conns, ids, .drain i⟩ = some t) : Sound b t := by
  obtain ⟨hle, hfits, hat⟩ := h
  simp only [next] at hs
  split at hs
  · next hlt =>
    obtain ⟨r, hr, rfl⟩ := waitReceive_views hs
    refine ⟨hlt, hfits, fun hturns => ?_⟩
    have hat := hat hturns
    obtain ⟨k, hk, hku, rfl⟩ := last_use (Nat.le_max_left b.unack b.count) hlt
    have hslot := hat.ids k hk hku
    have hmod : k%b.receivers = k%b.unack%b.receivers := by
      rcases hturns with hdvd | hcount
      · rw [Nat.mod_mod_of_dvd k hdvd]
      · rw [Nat.mod_eq_of_lt (a := k) (b := b.unack) (by omega)]
    simp only at hslot
    refine hat.clear ⟨le_refl _, hlt, ?_⟩ hr (fun c l j => ?_)
    · simp only [hslot, ticket, hmod]
    · simp only [out]
      constructor
      · rintro ⟨hj, hout⟩
        exact ⟨by omega, by omega, hout⟩
      · rintro ⟨hne, hj, hout⟩
        exact ⟨by omega, hout⟩
  · obtain rfl := Option.some.inj hs
    refine ⟨hfits, fun hturns => ?_⟩
    obtain ⟨hheld, hnext, hids⟩ := hat hturns
    refine ⟨hheld.congr (fun c k j => ?_), hnext, hids⟩
    simp only [out, false_iff]
    rintro ⟨h1, h2, -⟩
    omega

theorem environment_sound {s : State} {c : ℕ} {e : RefusedReceive.Event} (h : Sound b s)
    (he : ∀ o, Held (slot b) b.unack s.conns o → ∀ r, RefusedReceive.step (s.conns c) e = some r →
      Held (slot b) b.unack (Function.update s.conns c r) o ∧
        r.sys.conn = (s.conns c).sys.conn)
    (hs : environment s c e = some t) : Sound b t := by
  obtain ⟨r, hr, rfl⟩ := Option.map_eq_some_iff.mp hs
  obtain ⟨conns, ids, pc⟩ := s
  have hconn : ∀ o, Held (slot b) b.unack conns o → ∀ c', (Function.update conns c r c').sys.conn =
      (conns c').sys.conn := by
    intro o ho c'
    by_cases hc : c' = c
    · rw [hc, Function.update_self, (he o ho r hr).2]
    · rw [Function.update_of_ne hc]
  have hat : ∀ warmed issued, At b ⟨conns, ids, pc⟩ warmed issued →
      At b ⟨Function.update conns c r, ids, pc⟩ warmed issued := by
    rintro warmed issued ⟨hheld, hnext, hids⟩
    exact ⟨(he _ hheld r hr).1, fun c' => (congrArg _ (hconn _ hheld c')).trans (hnext c'), hids⟩
  cases pc with
  | warm i => exact ⟨h.1, hat _ _ h.2⟩
  | warmWait i id => exact ⟨h.1, hat _ _ h.2⟩
  | fill i =>
    obtain ⟨hi, hle, hfill, hackd⟩ := h
    exact ⟨hi, hle, hat _ _ hfill, fun c' => by rw [hconn _ hfill.held c']; exact hackd c'⟩
  | turn i =>
    obtain ⟨hle, hbound, hfits, hturn⟩ := h
    exact ⟨hle, hbound, hfits, fun hturns => hat _ _ (hturn hturns)⟩
  | reissue i =>
    obtain ⟨hle, hlt, hfits, hturn⟩ := h
    exact ⟨hle, hlt, hfits, fun hturns => hat _ _ (hturn hturns)⟩
  | drain i =>
    obtain ⟨hle, hfits, hturn⟩ := h
    exact ⟨hle, hfits, fun hturns => hat _ _ (hturn hturns)⟩
  | finished =>
    obtain ⟨hfits, hturn⟩ := h
    exact ⟨hfits, fun hturns => hat _ _ (hturn hturns)⟩
  | failed e' =>
    intro hturns
    obtain ⟨⟨o, ho⟩, hne⟩ := h hturns
    exact ⟨⟨o, (he o ho r hr).1⟩, hne⟩

theorem Sound.step {s : State} (h : Sound b s) (hn : 1 ≤ b.receivers) (hu : 1 ≤ b.unack)
    (e : Event) (hs : step b s e = some t) : Sound b t := by
  cases e with
  | announce c i req =>
    refine environment_sound h (fun o ho r hr => ?_) hs
    simp only [RefusedReceive.step] at hr
    split at hr
    · cases hr
    · obtain rfl := Option.some.inj hr
      exact ⟨ho.keep c _ rfl, rfl⟩
  | perform c i => exact environment_sound h (fun o ho r hr => ho.perform c i r hr) hs
  | next =>
    obtain ⟨conns, ids, pc⟩ := s
    cases pc with
    | warm i => exact warm_sound hu h hs
    | warmWait i id => exact warmWait_sound h hs
    | fill i => exact fill_sound hn hu h hs
    | turn i => exact turn_sound hu h hs
    | reissue i => exact reissue_sound hn hu h hs
    | drain i => exact drain_sound h hs
    | finished => cases hs
    | failed e => cases hs

theorem init_sound (fence : Bool) (rqs : ℕ → ReceiveQueue.Queue) : Sound b (init fence rqs) :=
  ⟨Nat.zero_le _, (held_init fence rqs).congr (fun _ _ _ => Iff.rfl), fun c => by
    simp [share, init, RefusedReceive.init, DirectRead.init, newReadConnection],
    fun k hk => absurd hk (Nat.not_lt_zero k)⟩

end Steps

end KYM.ReadBench
