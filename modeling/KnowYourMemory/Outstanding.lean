import KnowYourMemory.DirectReadDelivery

/-!
# Outstanding reads of several connections

The receives of any number of direct-read connections into the slots of one region. A
ticket is an id with the connection that returned it. It is outstanding from the call that
posts the read until the wait, and then its slot is its own.
-/

set_option autoImplicit false

namespace KYM.Outstanding
open KYM.RingBuffer KYM.DirectRead KYM.ReadOrder
open KYM.RefusedReceive (Receiver Took regionToSmall)
open KYM.ReceiveQueue (postFailed)

section Refusals

variable {r t : Receiver} {reg : KeyedRegion} {e : Status}

theorem readInto_refuses {addr : UInt64} {key : UInt32} {req : ReadRequest}
    (h : r.readInto addr key req = (.error e, t)) :
    r.sys.conn.ackdRcvId+maxRcv < r.sys.conn.nextRcvId := by
  unfold Receiver.readInto at h
  split at h
  · next hread =>
    unfold DirectRead.readInto at hread
    split at hread
    · assumption
    · split at hread <;> cases hread
  · cases (Prod.mk.inj h).1

theorem receiveRequest_refuses (h : RefusedReceive.receiveRequest r = some (.error e, t)) :
    e = postFailed := by
  obtain ⟨req, -, hx | hx⟩ := RefusedReceive.receiveRequest_cases h
  · cases hx
  · exact Except.error.inj hx

theorem receive_refuses (h : RefusedReceive.receive r reg = some (.error e, t)) :
    e = postFailed ∨ e = regionToSmall ∨ r.sys.conn.ackdRcvId+maxRcv < r.sys.conn.nextRcvId := by
  unfold RefusedReceive.receive at h
  split at h
  · cases h
  · next hm =>
    obtain ⟨he, -⟩ := Prod.mk.inj (Option.some.inj h)
    obtain rfl := Except.error.inj he
    exact Or.inl (receiveRequest_refuses hm)
  next req m hm =>
  split at h
  · obtain ⟨he, -⟩ := Prod.mk.inj (Option.some.inj h)
    exact Or.inr (Or.inl (Except.error.inj he).symm)
  split at h
  · next hread =>
    have hlimit := readInto_refuses hread
    rw [(RefusedReceive.taken_request hm).sys] at hlimit
    exact Or.inr (Or.inr hlimit)
  · cases (Prod.mk.inj (Option.some.inj h)).1

theorem receiveAsync_refuses {length length' : Option UInt32}
    (h : RefusedReceive.receiveAsync r reg length = some (.error e, length', t)) :
    e = postFailed ∨ e = regionToSmall ∨ r.sys.conn.ackdRcvId+maxRcv < r.sys.conn.nextRcvId := by
  unfold RefusedReceive.receiveAsync at h
  split at h
  · cases h
  · next hm =>
    obtain ⟨he, -⟩ := Prod.mk.inj (Option.some.inj h)
    obtain rfl := Except.error.inj he
    exact Or.inl (receiveRequest_refuses hm)
  next req m hm =>
  split at h
  · obtain ⟨he, -⟩ := Prod.mk.inj (Option.some.inj h)
    exact Or.inr (Or.inl (Except.error.inj he).symm)
  · obtain ⟨hid, -⟩ := Prod.mk.inj (Option.some.inj h)
    have hlimit := readInto_refuses (Prod.ext hid rfl)
    rw [(RefusedReceive.taken_request hm).sys] at hlimit
    exact Or.inr (Or.inr hlimit)

end Refusals

structure Open (region : ℕ → KeyedRegion) (slots : ℕ) (r : Receiver)
    (out : ℕ → ℕ → Prop) : Prop where
  sound : DirectRead.Sound r.sys
  order : Ordered r.sys
  counted : Counted r.sys
  known : ∀ id j, out id j → Once r.sys (.waitReceive id)
  unwaited : ∀ id, Once r.sys (.waitReceive id) → ∃ j < slots, out id j
  lands : ∀ id j, out id j → ∀ w ∈ r.sys.posted, w.opcode = .rdmaRead → w.wrId = id →
    ∃ length lkey, w.sge = .region (region j).addr length lkey ∧ length ≤ (region j).length

section Open

variable {region : ℕ → KeyedRegion} {slots : ℕ} {r m t : Receiver} {out : ℕ → ℕ → Prop}

theorem open_init (fence : Bool) (rq : ReceiveQueue.Queue) :
    Open region slots (RefusedReceive.init fence rq) (fun _ _ => False) where
  sound := DirectRead.init_sound fence
  order := init_ordered fence
  counted := init_counted fence
  known _ _ h := h.elim
  unwaited id h := by
    obtain ⟨h1, h2, -⟩ := h
    change id < 1 at h2
    omega
  lands _ _ h := h.elim

theorem Open.advance (h : Open region slots r out) (e : Event) (he : Regular r.sys e)
    (hs : DirectRead.step r.sys e = some t.sys)
    (honce : ∀ id, Once t.sys (.waitReceive id) ↔ Once r.sys (.waitReceive id))
    (hposted : t.sys.posted = r.sys.posted) : Open region slots t out where
  sound := h.sound.step e he hs
  order := h.order.step h.sound e he hs
  counted := h.counted.step h.sound h.order e he hs
  known id j hid := (honce id).mpr (h.known id j hid)
  unwaited id hid := h.unwaited id ((honce id).mp hid)
  lands id j hid w hw := h.lands id j hid w (hposted ▸ hw)

theorem Open.perform (h : Open region slots r out) (i : ℕ)
    (hs : RefusedReceive.step r (.perform i) = some t) :
    Open region slots t out ∧ t.sys.conn = r.sys.conn := by
  obtain ⟨sys, hsys, rfl⟩ := Option.map_eq_some_iff.mp hs
  have hadvance := h.advance (t := { r with sys := sys }) (.perform i) ⟨trivial, trivial⟩ hsys
  obtain ⟨ws, w, vs, -, -, rfl⟩ := perform_views i hsys
  exact ⟨hadvance (fun _ => Iff.rfl) rfl, rfl⟩

/-- The ids that are not waited for are recent, so that the next one is accepted and finds
its place in the table free. -/
theorem Open.accepts (h : Open region slots r out)
    (hrecent : ∀ id j, out id j → r.sys.conn.nextRcvId < id+maxRcv) :
    r.sys.conn.nextRcvId ≤ r.sys.conn.ackdRcvId+maxRcv ∧
      ∀ addr key req, PlaceFree r.sys (.readInto addr key req) := by
  rcases Nat.lt_or_ge maxRcv r.sys.conn.nextRcvId with hlt | hle
  · have hwaited : r.sys.conn.nextRcvId-maxRcv ∈ r.sys.waited := by
      by_contra hnot
      obtain ⟨j, -, hj⟩ := h.unwaited _ ⟨by omega, by simp only [maxRcv] at *; omega, hnot⟩
      have := hrecent _ j hj
      omega
    have hackd := h.counted.waited _ hwaited
    exact ⟨by omega, fun _ _ _ => Or.inr (Or.inr (Or.inr hwaited))⟩
  · exact ⟨by omega, fun _ _ _ => Or.inr (Or.inr (Or.inl hle))⟩

theorem Open.issue (h : Open region slots r out) {req : ReadRequest} {key : UInt32} {id j : ℕ}
    (htook : Took r m req) (hread : m.readInto (region j).addr key req = (.ok id, t))
    (hlen : req.length ≤ (region j).length) (hj : j < slots)
    (hrecent : ∀ id j, out id j → r.sys.conn.nextRcvId < id+maxRcv) :
    id = r.sys.conn.nextRcvId ∧ t.sys.conn.nextRcvId = r.sys.conn.nextRcvId+1 ∧
      t.sys.conn.ackdRcvId = r.sys.conn.ackdRcvId ∧
      Open region slots t (fun i k => out i k ∨ (i = id ∧ k = j)) := by
  obtain ⟨hroom, hfree⟩ := h.accepts hrecent
  obtain ⟨hs, -⟩ := DirectReadDelivery.readInto_step htook hread
  have hreg : Regular r.sys (.readInto (region j).addr key req) := ⟨trivial, hfree _ _ _⟩
  have hsound := h.sound.step _ hreg hs
  have horder := h.order.step h.sound _ hreg hs
  have hcounted := h.counted.step h.sound h.order _ hreg hs
  unfold Receiver.readInto at hread
  rw [htook.sys, readInto_ok _ _ _ _ hroom] at hread
  obtain ⟨hid, rfl⟩ := Prod.mk.inj hread
  obtain rfl := Except.ok.inj hid
  have hnext := h.sound.next
  refine ⟨rfl, rfl, rfl, hsound, horder, hcounted, ?_, ?_, ?_⟩
  · rintro i k (hik | ⟨rfl, rfl⟩)
    · obtain ⟨h1, h2, h3⟩ := h.known i k hik
      exact ⟨h1, Nat.lt_succ_of_lt h2, h3⟩
    · refine ⟨by omega, Nat.lt_succ_self _, fun hw => ?_⟩
      have := h.sound.waited _ hw
      omega
  · rintro i ⟨h1, h2, h3⟩
    rcases Nat.lt_succ_iff_lt_or_eq.mp h2 with hlt | rfl
    · obtain ⟨k, hk, hik⟩ := h.unwaited i ⟨h1, hlt, h3⟩
      exact ⟨k, hk, Or.inl hik⟩
    · exact ⟨j, hj, Or.inr ⟨rfl, rfl⟩⟩
  · intro i k hik w hw hop hwi
    rcases List.mem_append.mp hw with hold | hnew
    · rcases hik with hik | ⟨rfl, rfl⟩
      · exact h.lands i k hik w hold hop hwi
      · have hbound := h.order.posted w hold hop
        omega
    rcases List.mem_cons.mp hnew with rfl | hack
    · rcases hik with hik | ⟨rfl, rfl⟩
      · obtain ⟨-, h2, -⟩ := h.known i k hik
        simp only [wrData] at hwi
        omega
      · exact ⟨req.length, key, rfl, hlen⟩
    · split at hack
      · rw [List.mem_singleton.mp hack] at hop
        cases hop
      · cases hack

theorem Open.wait (h : Open region slots r out) {id j : ℕ} (hid : out id j)
    (hs : RefusedReceive.step r (.waitReceive id) = some t) :
    t.sys.conn.nextRcvId = r.sys.conn.nextRcvId ∧
      Open region slots t (fun i k => out i k ∧ i ≠ id) := by
  have hreg : Regular r.sys (.waitReceive id) := ⟨h.known id j hid, trivial⟩
  obtain ⟨sys, hsys, rfl⟩ := Option.map_eq_some_iff.mp hs
  have hsound := h.sound.step _ hreg hsys
  have horder := h.order.step h.sound _ hreg hsys
  have hcounted := h.counted.step h.sound h.order _ hreg hsys
  obtain ⟨req, -, hack⟩ := wait_posts h.sound id hreg.1
  obtain ⟨ackd, sendCq, wrs, -, hwrs, rfl⟩ := wait_views id hsys
  refine ⟨rfl, hsound, horder, hcounted, ?_, ?_, ?_⟩
  · rintro i k ⟨hik, hne⟩
    obtain ⟨h1, h2, h3⟩ := h.known i k hik
    exact ⟨h1, h2, by simp [h3, hne]⟩
  · rintro i ⟨h1, h2, h3⟩
    simp only [List.mem_append, List.mem_singleton, not_or] at h3
    obtain ⟨k, hk, hik⟩ := h.unwaited i ⟨h1, h2, h3.1⟩
    exact ⟨k, hk, hik, h3.2⟩
  · rintro i k ⟨hik, -⟩ w hw hop hwi
    rcases List.mem_append.mp hw with hw | hw
    · exact h.lands i k hik w hw hop hwi
    · rw [hwrs] at hw
      split at hw
      · cases hw
      · next hf =>
        rw [List.mem_singleton.mp hw, hack (by simpa using hf)] at hop
        cases hop

end Open

/-- The ids that are outstanding at each connection, and no slot twice. -/
structure Held (region : ℕ → KeyedRegion) (slots : ℕ) (conns : ℕ → Receiver)
    (out : ℕ → ℕ → ℕ → Prop) : Prop where
  conn : ∀ c, Open region slots (conns c) (out c)
  once : ∀ c id j j', out c id j → out c id j' → j = j'
  alone : ∀ c id c' id' j, out c id j → out c' id' j → c = c' ∧ id = id'

section Held

variable {region : ℕ → KeyedRegion} {slots : ℕ} {conns : ℕ → Receiver}
  {out : ℕ → ℕ → ℕ → Prop}

theorem held_init (fence : Bool) (rqs : ℕ → ReceiveQueue.Queue) :
    Held region slots (fun c => RefusedReceive.init fence (rqs c)) (fun _ _ _ => False) where
  conn c := open_init fence (rqs c)
  once _ _ _ _ h := h.elim
  alone _ _ _ _ _ h := h.elim

theorem Held.congr {out' : ℕ → ℕ → ℕ → Prop} (h : Held region slots conns out)
    (he : ∀ c id j, out' c id j ↔ out c id j) : Held region slots conns out' := by
  have heq : out' = out := funext fun c => funext fun id => funext fun j => propext (he c id j)
  exact heq ▸ h

theorem open_update {out' : ℕ → ℕ → ℕ → Prop} (h : ∀ c, Open region slots (conns c) (out c))
    (c : ℕ) (r : Receiver) (hr : Open region slots r (out' c)) (ho : ∀ c' ≠ c, out' c' = out c') :
    ∀ c', Open region slots (Function.update conns c r c') (out' c') := by
  intro c'
  by_cases hc : c' = c
  · rw [hc, Function.update_self]
    exact hr
  · rw [Function.update_of_ne hc, ho c' hc]
    exact h c'

theorem Held.keep (h : Held region slots conns out) (c : ℕ) (r : Receiver)
    (hr : r.sys = (conns c).sys) : Held region slots (Function.update conns c r) out := by
  obtain ⟨hsound, horder, hcounted, hknown, hunwaited, hlands⟩ := h.conn c
  have hopen : Open region slots r (out c) :=
    ⟨hr ▸ hsound, hr ▸ horder, hr ▸ hcounted, hr ▸ hknown, hr ▸ hunwaited, hr ▸ hlands⟩
  exact ⟨open_update h.conn c r hopen (fun _ _ => rfl), h.once, h.alone⟩

theorem Held.perform (h : Held region slots conns out) (c i : ℕ) (r : Receiver)
    (hs : RefusedReceive.step (conns c) (.perform i) = some r) :
    Held region slots (Function.update conns c r) out ∧ r.sys.conn = (conns c).sys.conn := by
  obtain ⟨hopen, hconn⟩ := (h.conn c).perform i hs
  exact ⟨⟨open_update h.conn c r hopen (fun _ _ => rfl), h.once, h.alone⟩, hconn⟩

theorem Held.issue (h : Held region slots conns out) {c id j : ℕ} {m t : Receiver}
    {req : ReadRequest} {key : UInt32} (htook : Took (conns c) m req)
    (hread : m.readInto (region j).addr key req = (.ok id, t))
    (hlen : req.length ≤ (region j).length) (hj : j < slots) (hfree : ∀ c id, ¬out c id j)
    (hrecent : ∀ id j, out c id j → (conns c).sys.conn.nextRcvId < id+maxRcv) :
    id = (conns c).sys.conn.nextRcvId ∧
      t.sys.conn.nextRcvId = (conns c).sys.conn.nextRcvId+1 ∧
      t.sys.conn.ackdRcvId = (conns c).sys.conn.ackdRcvId ∧
      Held region slots (Function.update conns c t)
        (fun c' i k => out c' i k ∨ (c' = c ∧ i = id ∧ k = j)) := by
  obtain ⟨hid, hnext, hackd, hopen⟩ := (h.conn c).issue htook hread hlen hj hrecent
  refine ⟨hid, hnext, hackd, open_update h.conn c t (by simpa using hopen) ?_, ?_, ?_⟩
  · intro c' hc
    funext i k
    simp [hc]
  · rintro c' i k k' (hk | ⟨rfl, rfl, rfl⟩) (hk' | ⟨hc, hi, rfl⟩)
    · exact h.once c' i k k' hk hk'
    · obtain ⟨-, h2, -⟩ := (h.conn c').known i k hk
      rw [hc, hi, hid] at h2
      omega
    · obtain ⟨-, h2, -⟩ := (h.conn c').known i k' hk'
      omega
    · rfl
  · rintro c' i c'' i' k (hk | ⟨rfl, rfl, rfl⟩) (hk' | ⟨rfl, rfl, hkj⟩)
    · exact h.alone c' i c'' i' k hk hk'
    · exact (hfree c' i (hkj ▸ hk)).elim
    · exact (hfree c'' i' hk').elim
    · exact ⟨rfl, rfl⟩

theorem Held.wait (h : Held region slots conns out) {c id j : ℕ} {t : Receiver}
    (hid : out c id j) (hs : RefusedReceive.step (conns c) (.waitReceive id) = some t) :
    t.sys.conn.nextRcvId = (conns c).sys.conn.nextRcvId ∧
      Held region slots (Function.update conns c t)
        (fun c' i k => out c' i k ∧ ¬(c' = c ∧ i = id)) := by
  obtain ⟨hnext, hopen⟩ := (h.conn c).wait hid hs
  refine ⟨hnext, open_update h.conn c t (by simpa using hopen) ?_, ?_, ?_⟩
  · intro c' hc
    funext i k
    simp [hc]
  · exact fun c' i k k' hk hk' => h.once c' i k k' hk.1 hk'.1
  · exact fun c' i c'' i' k hk hk' => h.alone c' i c'' i' k hk.1 hk'.1

/-- A read that is not waited for is into the slot that its id is outstanding in. -/
theorem Held.posted (h : Held region slots conns out) (c : ℕ) (w : SendWr)
    (hw : w ∈ (conns c).sys.posted) (hop : w.opcode = .rdmaRead)
    (hwaited : w.wrId ∉ (conns c).sys.waited) : ∃ j < slots, out c w.wrId j ∧
      ∃ length lkey, w.sge = .region (region j).addr length lkey ∧ length ≤ (region j).length := by
  have hc := h.conn c
  obtain ⟨h1, h2⟩ := hc.order.posted w hw hop
  have hnext := hc.sound.next
  obtain ⟨j, hj, hout⟩ := hc.unwaited w.wrId ⟨h1, by omega, hwaited⟩
  exact ⟨j, hj, hout, hc.lands w.wrId j hout w hw hop rfl⟩

end Held

end KYM.Outstanding
