import KnowYourMemory.ReadDuplex.System

/-!
# Delivery in both directions

`SendAsync` polls away whatever has completed before it posts its request, and a read whose
completion is gone can only be waited for if a later one completes.
-/

set_option autoImplicit false

namespace KYM.ReadDuplex
open KYM.Run KYM.MagicMemory KYM.CompletionQueue KYM.ReadOrder KYM.Mailbox KYM.DrainedReads
open KYM.DirectRead (ReadRequest SendWr)
open KYM.RefusedReceive (Receiver)
open KYM.Exchange (Side)
open KYM.DirectReadDelivery (System Sound Matches answerNew)

section Delivery

variable {s t : State} {x : Side}

theorem queue_ids {s : System} (h : Sound s) : ∀ w ∈ s.rcv.sys.sendQueue, 1 ≤ w.wrId := by
  intro w hw
  cases hop : w.opcode with
  | rdmaRead =>
    obtain ⟨y, hy, hid, -⟩ := h.kept.queue w hw hop
    exact hid ▸ (h.kept.known y hy).1
  | rdmaWrite =>
    obtain ⟨i, req, -, hack, -⟩ := queued_ack h.rcv h.order w hw hop
    rw [hack]
    exact Nat.le_add_left 1 i

theorem careful_strip (s : System) (e : DirectReadDelivery.Event) :
    DirectReadDelivery.Careful (strip s) e ↔ DirectReadDelivery.Careful s e := by
  cases e <;> exact Iff.rfl

theorem takes_withCq (s : System) (q : List ℕ) (x : Option (Option RingBuffer.Status × Receiver)) :
    DirectReadDelivery.takes (withCq s q) (x.map (fun x => (x.1, receiverWithCq x.2 q))) =
      DirectReadDelivery.takes s x := by
  cases x with
  | none => rfl
  | some x => obtain ⟨e | e, r⟩ := x <;> rfl

theorem calls_strip (s : System) (e : DirectReadDelivery.Event) :
    DirectReadDelivery.calls (strip s) e = DirectReadDelivery.calls s e := by
  cases e with
  | call c =>
    rw [DirectReadDelivery.calls, DirectReadDelivery.calls, ← takes_withCq s, ← answer_withCq]
    rfl
  | receiveNew alloc =>
    rw [DirectReadDelivery.calls, DirectReadDelivery.calls, ← takes_withCq s, ← answerNew_withCq]
    rfl
  | _ => rfl

theorem on_views {y : Side} {e : DirectReadDelivery.Event} (hs : step s (.on y e) = some t) :
    DirectReadDelivery.step (s.dir y) e = some (t.dir y) ∧ t.drained y.other = s.drained y.other ∧
      ((t.dir y.other = s.dir y.other ∧ t.drained y = s.drained y) ∨
        ((∃ k length, e = .sendAsync k length) ∧ t.dir y.other = withCq (s.dir y.other) [] ∧
          t.drained y = s.drained y++(s.reader y).sendCq.filter isRead)) := by
  have hne := other_ne y
  cases e with
  | sendAsync k length =>
    obtain ⟨u, hu, rfl⟩ := Option.map_eq_some_iff.mp hs
    have hself : (post s y u).dir y = u :=
      (Function.update_of_ne hne.symm _ _).trans (Function.update_self _ _ _)
    exact ⟨hu.trans (congrArg some hself.symm), Function.update_of_ne hne _ _,
      Or.inr ⟨⟨k, length, rfl⟩, Function.update_self _ _ _, Function.update_self _ _ _⟩⟩
  | _ =>
    simp only [step, Option.map_eq_some_iff] at hs
    obtain ⟨u, hu, rfl⟩ := hs
    have hself : Function.update s.dir y u y = u := Function.update_self _ _ _
    exact ⟨hu.trans (congrArg some hself.symm), rfl, Or.inl ⟨Function.update_of_ne hne _ _, rfl⟩⟩

theorem complete_views {y : Side} (hs : step s (.complete y) = some t) :
    t.dir y = s.dir y ∧ t.dir y.other = withCq (s.dir y.other) ((s.reader y).sendCq++[0]) ∧
      t.drained = s.drained := by
  simp only [step, Option.ite_none_left_eq_some] at hs
  obtain rfl := Option.some.inj hs.2
  exact ⟨Function.update_of_ne (other_ne y).symm _ _, Function.update_self _ _ _, rfl⟩

theorem frame {e : Event} (he : Careful s e) (hs : step s e = some t)
    (hx : ∀ e', e ≠ .on x e') : strip (t.dir x) = strip (s.dir x) := by
  cases e with
  | on y e =>
    have hy : y ≠ x := fun h => hx e (by rw [h])
    obtain rfl := eq_other hy
    obtain ⟨-, -, ⟨hsame, -⟩ | ⟨⟨k, length, rfl⟩, hdrained, -⟩⟩ := on_views hs
    · rw [hsame]
    · have hnone : (s.dir y.other).rcv.sys.sendCq.filter isRead = [] := by
        apply List.filter_eq_nil_iff.mpr
        intro j hj
        simp [isRead, he.2 j hj]
      rw [hdrained, strip_withCq, strip, hnone]
      rfl
  | complete y =>
    obtain ⟨hsame, hdone, -⟩ := complete_views hs
    by_cases hy : y = x
    · rw [← hy, hsame]
    · rw [eq_other hy, hdone, strip_withCq, State.reader, List.filter_append, strip]
      simp [isRead]

theorem step_simulates (h : Sound (strip (s.dir x))) (e : Event) (he : Careful s e)
    (hs : step s e = some t) :
    DirectReadDelivery.Simulates (strip (s.dir x)) (calls x s e) (strip (t.dir x)) := by
  by_cases hx : ∃ e', e = .on x e'
  · obtain ⟨e', rfl⟩ := hx
    have hcareful := he.1
    obtain ⟨hstep, -⟩ := on_views hs
    have hid : ∀ id, e' = .waitReceive id → 1 ≤ id := by
      rintro id rfl
      exact hcareful.1
    have hids : ∀ w ∈ (s.dir x).rcv.sys.sendQueue, 1 ≤ w.wrId := queue_ids (s := strip (s.dir x)) h
    have hstrip := step_strip hid hids hstep
    have hsim := DirectReadDelivery.step_simulates h e' ((careful_strip _ e').mpr hcareful) hstrip
    have hcalls : calls x s (.on x e') = DirectReadDelivery.calls (s.dir x) e' := if_pos rfl
    rwa [calls_strip, ← hcalls] at hsim
  · have hcalls : calls x s e = [] := by
      cases e with
      | on y e =>
        have hy : y ≠ x := fun hy => hx ⟨e, by rw [hy]⟩
        rw [calls, if_neg hy]
      | complete y => rfl
    rw [frame he hs (fun e' he' => hx ⟨e', he'⟩), hcalls]
    exact ⟨h, fun a ha => ⟨a, rfl, ha⟩⟩

end Delivery

section Waits

variable {s t : State} {x : Side}

theorem take_views {s t : System} {addr : UInt64} {length : UInt32}
    {x : Option (Option RingBuffer.Status × Receiver)}
    (hx : DirectReadDelivery.Serves s.rcv addr length x)
    (hs : DirectReadDelivery.take s addr x = some t) : t.rcv.sys = s.rcv.sys ∨ ∃ addr key req,
      DirectRead.step s.rcv.sys (.readInto addr key req) = some t.rcv.sys := by
  unfold DirectReadDelivery.take at hs
  split at hs
  · cases hs
  · next e rcv =>
    obtain rfl := Option.some.inj hs
    obtain ⟨req, htook⟩ := hx.refused e rcv rfl
    exact Or.inl htook.sys
  · next rcv =>
    obtain rfl := Option.some.inj hs
    obtain ⟨m, req, key, id, htook, -, hread⟩ := hx.accepted rcv rfl
    exact Or.inr ⟨addr, key, req, (DirectReadDelivery.readInto_step htook hread).1⟩

theorem sys_views {s t : System} {e : DirectReadDelivery.Event}
    (hs : DirectReadDelivery.step s e = some t) : t.rcv.sys = s.rcv.sys ∨
      (Reads e ∧ ∃ addr key req,
        DirectRead.step s.rcv.sys (.readInto addr key req) = some t.rcv.sys) ∨
      (∃ id, DirectRead.step s.rcv.sys (.waitReceive id) = some t.rcv.sys) ∨
      ∃ i, DirectRead.step s.rcv.sys (.perform i) = some t.rcv.sys := by
  cases e with
  | getMemoryRegion mr =>
    obtain rfl := Option.some.inj hs
    exact Or.inl rfl
  | freeRegion k =>
    simp only [DirectReadDelivery.step, Option.ite_none_right_eq_some] at hs
    obtain rfl := Option.some.inj hs.2
    exact Or.inl rfl
  | store addr bytes =>
    obtain rfl := Option.some.inj hs
    exact Or.inl rfl
  | sendAsync k length =>
    simp only [DirectReadDelivery.step, DirectReadDelivery.sendAsync] at hs
    split at hs
    · cases hs
    · obtain rfl := Option.some.inj hs
      exact Or.inl rfl
  | wait id =>
    simp only [DirectReadDelivery.step, DirectReadDelivery.wait, Option.ite_none_left_eq_some] at hs
    obtain rfl := Option.some.inj hs.2
    exact Or.inl rfl
  | announce i => exact Or.inl (DirectReadDelivery.announce_views hs).1
  | call c =>
    exact (take_views (DirectReadDelivery.call_serves s.rcv c) hs).imp_right
      (fun hread => Or.inl ⟨trivial, hread⟩)
  | receiveNew alloc =>
    exact (take_views (DirectReadDelivery.new_serves s.rcv alloc) hs).imp_right
      (fun hread => Or.inl ⟨trivial, hread⟩)
  | waitReceive id =>
    obtain ⟨rcv, hrcv, rfl⟩ := Option.map_eq_some_iff.mp hs
    obtain ⟨sys, hsys, rfl⟩ := Option.map_eq_some_iff.mp hrcv
    exact Or.inr (Or.inr (Or.inl ⟨id, hsys⟩))
  | perform i =>
    simp only [DirectReadDelivery.step, DirectReadDelivery.perform, Option.bind_eq_bind,
      Option.bind_eq_some_iff] at hs
    obtain ⟨w, -, rcv, hrcv, hs⟩ := hs
    obtain rfl := Option.some.inj hs
    obtain ⟨sys, hsys, rfl⟩ := Option.map_eq_some_iff.mp hrcv
    exact Or.inr (Or.inr (Or.inr ⟨i, hsys⟩))
  | release k =>
    simp only [DirectReadDelivery.step, Option.ite_none_right_eq_some] at hs
    obtain rfl := Option.some.inj hs.2
    exact Or.inl rfl

/-- What a step does to the completions of one side: `pending` only gets shorter at its
front, unless the side reads. -/
theorem flow_step (h : Flow (s.reader x) (s.drained x)) (e : Event) (hs : step s e = some t) :
    Flow (t.reader x) (t.drained x) ∧ (Starts x e ∨
      ((t.reader x).conn.nextRcvId = (s.reader x).conn.nextRcvId ∧
        (pending (s.reader x) = [] → pending (t.reader x) = [] ∧
          (t.reader x).conn.ackdRcvId = (s.reader x).conn.ackdRcvId))) := by
  cases e with
  | on y e =>
    obtain ⟨hstep, hother, hrest⟩ := on_views hs
    by_cases hy : y = x
    · obtain rfl := hy
      rcases hrest with ⟨hdir, hdrained⟩ | ⟨-, hdir, hdrained⟩
      · rw [hdrained, State.reader, hdir]
        exact ⟨h, Or.inr ⟨rfl, fun hp => ⟨hp, rfl⟩⟩⟩
      · rw [hdrained, State.reader, hdir]
        refine ⟨h.drain, Or.inr ⟨rfl, fun hp => ⟨?_, rfl⟩⟩⟩
        exact (List.append_eq_nil_iff.mp hp).2
    · obtain rfl := eq_other hy
      rw [hother]
      simp only [State.reader, other_other] at h ⊢
      rcases sys_views hstep with hsame | ⟨hreads, addr, key, req, hread⟩ | ⟨id, hwait⟩ | ⟨i, hperf⟩
      · rw [hsame]
        exact ⟨h, Or.inr ⟨rfl, fun hp => ⟨hp, rfl⟩⟩⟩
      · exact ⟨h.readInto addr key req hread, Or.inl ⟨e, by rw [other_other], hreads⟩⟩
      · obtain ⟨hflow, hnext, -, hpending⟩ := h.waitReceive id hwait
        refine ⟨hflow, Or.inr ⟨hnext, fun hp => ?_⟩⟩
        rcases hpending with ⟨hackd, hsame⟩ | ⟨vs, hvs⟩
        · exact ⟨hsame.trans hp, hackd⟩
        · simp [hp] at hvs
      · obtain ⟨hflow, hconn, hpending⟩ := h.perform i hperf
        exact ⟨hflow, Or.inr ⟨by rw [hconn], fun hp => ⟨hpending.trans hp, by rw [hconn]⟩⟩⟩
  | complete y =>
    obtain ⟨hsame, hdone, hdrained⟩ := complete_views hs
    rw [hdrained]
    by_cases hy : y = x
    · obtain rfl := hy
      rw [State.reader, hdone]
      exact ⟨h.send, Or.inr ⟨rfl, fun hp => ⟨(pending_send _).trans hp, rfl⟩⟩⟩
    · obtain rfl := eq_other hy
      have hreader : t.reader y.other = s.reader y.other := by
        rw [State.reader, State.reader, other_other, hsame]
      rw [hreader]
      exact ⟨h, Or.inr ⟨rfl, fun hp => ⟨hp, rfl⟩⟩⟩

theorem init_flow (fence : Side → Bool) (rq : Side → ReceiveQueue.Queue)
    (smem rmem : Side → ℕ → UInt8) : Flow ((init fence rq smem rmem).reader x) [] :=
  DrainedReads.init_flow _

theorem run_flow (es : List Event) (h : Flow (s.reader x) (s.drained x))
    (hr : run step es s = some t) : Flow (t.reader x) (t.drained x) :=
  run_keeps step (fun _ _ => True) (fun s => Flow (s.reader x) (s.drained x))
    (fun _ e _ h _ hs => (flow_step h e hs).1) es s t h
    (meets_of_forall _ _ es (fun _ _ _ => trivial) s) hr

theorem perform_first {s : System} {w : SendWr} {ws : List SendWr}
    (hq : s.rcv.sys.sendQueue = w::ws) :
    ∃ t, DirectReadDelivery.step s (.perform 0) = some t ∧
      DirectRead.step s.rcv.sys (.perform 0) = some t.rcv.sys ∧ t.rcv.sys.sendQueue = ws := by
  have hw : s.rcv.sys.sendQueue[0]? = some w := by rw [hq, List.getElem?_cons_zero]
  obtain ⟨sys, hsys, hqueue⟩ : ∃ sys, DirectRead.step s.rcv.sys (.perform 0) = some sys ∧
      sys.sendQueue = ws := by
    simp [DirectRead.step, DirectRead.perform, hq]
  refine ⟨{ s with
    rcv := { s.rcv with sys := sys }
    smem := (DirectReadDelivery.effect s.smem s.rmem w).1
    rmem := (DirectReadDelivery.effect s.smem s.rmem w).2
    pending := s.pending.map (DirectReadDelivery.Pending.ack w) }, ?_, hsys, hqueue⟩
  simp only [DirectReadDelivery.step, DirectReadDelivery.perform, RefusedReceive.step, hw, hsys,
    Option.bind_eq_bind, Option.bind_some, Option.map_some]

theorem queue_drains (n : ℕ) (h : Flow (s.reader x) (s.drained x))
    (hn : (s.reader x).sendQueue.length = n) : ∃ es t, (∀ e ∈ es, ¬Starts x e) ∧
      run step es s = some t ∧ (t.reader x).conn = (s.reader x).conn ∧
      (t.reader x).sendCq.filter isRead = pending (s.reader x) := by
  induction n generalizing s with
  | zero =>
    have hnil := List.eq_nil_of_length_eq_zero hn
    refine ⟨[], s, by simp, rfl, rfl, ?_⟩
    rw [pending, hnil]
    exact (List.append_nil _).symm
  | succ n ih =>
    obtain ⟨w, ws, hq⟩ := List.exists_cons_of_length_eq_add_one hn
    obtain ⟨u, hu, hsys, hqueue⟩ := perform_first hq
    obtain ⟨hflow, hconn, hpending⟩ := h.perform 0 hsys
    have hs : step s (.on x.other (.perform 0)) =
        some { s with dir := Function.update s.dir x.other u } := by
      simp only [step, hu, Option.map_some]
    have hreader : State.reader { s with dir := Function.update s.dir x.other u } x = u.rcv.sys := by
      simp only [State.reader, Function.update_self]
    have hlen : u.rcv.sys.sendQueue.length = n := by
      rw [hqueue]
      rw [hq, List.length_cons] at hn
      omega
    obtain ⟨es, t, hes, hrun, hc, hp⟩ := ih (hreader.symm ▸ hflow) (hreader.symm ▸ hlen)
    rw [hreader] at hc hp
    refine ⟨.on x.other (.perform 0)::es, t, ?_, (run_cons ..).mpr ⟨_, hs, hrun⟩, hc.trans hconn,
      hp.trans hpending⟩
    intro e he
    rcases List.mem_cons.mp he with rfl | he
    · rintro ⟨e', he', hreads⟩
      obtain rfl := (Event.on.inj he').2
      exact hreads
    · exact hes e he

theorem wait_isSome (s : State) (x : Side) (id : ℕ)
    (h : id ≤ (s.reader x).conn.ackdRcvId ∨ ∃ j ∈ (s.reader x).sendCq, id ≤ j) :
    (step s (.on x.other (.waitReceive id))).isSome := by
  obtain ⟨b, rest, hpoll⟩ := pollUntil_returns le_last h
  simp only [State.reader] at hpoll
  simp [step, DirectReadDelivery.step, RefusedReceive.step, DirectRead.step, DirectRead.waitReceive,
    hpoll]

theorem cannot_return_of_none_pending (h : Flow (s.reader x) (s.drained x))
    (hp : pending (s.reader x) = []) {id : ℕ} (hid : (s.reader x).conn.ackdRcvId < id) :
    ¬CanReturn s x id := by
  rintro ⟨es, t, hes, hr, hwait⟩
  have hinv := run_keeps step (fun _ e => ¬Starts x e)
    (fun t => Flow (t.reader x) (t.drained x) ∧ pending (t.reader x) = [] ∧
      (t.reader x).conn.ackdRcvId = (s.reader x).conn.ackdRcvId)
    (fun u e v h he hs => by
      obtain ⟨hflow, hpending, hackd⟩ := h
      obtain ⟨hflow', hstarts | ⟨-, hrest⟩⟩ := flow_step hflow e hs
      · exact absurd hstarts he
      · obtain ⟨hp', ha'⟩ := hrest hpending
        exact ⟨hflow', hp', ha'.trans hackd⟩)
    es s t ⟨h, hp, rfl⟩ (meets_of_forall _ _ es (fun e he _ => hes e he) s) hr
  obtain ⟨hflow, hpending, hackd⟩ := hinv
  obtain ⟨u, hu⟩ := Option.isSome_iff_exists.mp hwait
  obtain ⟨hstep, -⟩ := on_views hu
  obtain ⟨rcv, hrcv, -⟩ := Option.map_eq_some_iff.mp hstep
  obtain ⟨sys, hsys, -⟩ := Option.map_eq_some_iff.mp hrcv
  obtain ⟨-, -, hle, hcases⟩ := hflow.waitReceive id hsys
  rcases hcases with ⟨hsame, -⟩ | ⟨vs, hvs⟩
  · omega
  · rw [hpending] at hvs
    simp at hvs

/-- Waiting for a read comes to an end, as the sends of the reader and its other waits may be,
exactly if the completion of the last read was not polled away by a send. -/
theorem canReturn_iff (h : Flow (s.reader x) (s.drained x)) {id : ℕ}
    (hid : id < (s.reader x).conn.nextRcvId) : CanReturn s x id ↔
      id ≤ (s.reader x).conn.ackdRcvId ∨ (s.reader x).conn.nextRcvId-1 ∉ s.drained x := by
  constructor
  · intro hcan
    by_contra hnot
    rw [not_or, not_not] at hnot
    exact cannot_return_of_none_pending h (h.none_pending hnot.2) (by omega) hcan
  · intro hlast
    by_cases hle : id ≤ (s.reader x).conn.ackdRcvId
    · exact ⟨[], s, by simp, rfl, wait_isSome s x id (Or.inl hle)⟩
    · obtain ⟨es, t, hes, hr, hconn, hcq⟩ := queue_drains _ h rfl
      refine ⟨es, t, hes, hr, wait_isSome t x id (Or.inr ?_)⟩
      have hmem : (s.reader x).conn.nextRcvId-1 ∈ (t.reader x).sendCq.filter isRead := by
        rw [hcq]
        rcases h.newest with hn | hn | hn
        · omega
        · exact hn
        · exact absurd hn (hlast.resolve_left hle)
      exact ⟨_, List.mem_of_mem_filter hmem, by omega⟩

theorem drained_keeps (h : s.drained x = []) (e : Event) (he : Careful s e)
    (hs : step s e = some t) : t.drained x = [] := by
  cases e with
  | on y e =>
    obtain ⟨-, hother, hrest⟩ := on_views hs
    by_cases hy : y = x
    · obtain rfl := hy
      rcases hrest with ⟨-, hsame⟩ | ⟨⟨k, length, rfl⟩, -, hdrained⟩
      · rw [hsame, h]
      · rw [hdrained, h, List.nil_append]
        apply List.filter_eq_nil_iff.mpr
        intro j hj
        simp [isRead, he.2 j hj]
    · obtain rfl := eq_other hy
      rw [hother, h]
  | complete y =>
    obtain ⟨-, -, hdrained⟩ := complete_views hs
    rw [hdrained, h]

/-- A connection that is used in both directions is a mailbox for each of them, as long as no
send polls away the completion of a read; and then every read can be waited for. -/
theorem duplex_is_two_mailboxes (fence : Side → Bool) (rq : Side → ReceiveQueue.Queue)
    (smem rmem : Side → ℕ → UInt8) (es : List Event) (s : State)
    (hm : Meets step Careful es (init fence rq smem rmem))
    (hr : run step es (init fence rq smem rmem) = some s) (x : Side) :
    (∃ a, run Mailbox.step (trace step (calls x) es (init fence rq smem rmem)) Mailbox.empty = some a ∧
      a.held.length = (s.dir x).held.length ∧
      ∀ (k : ℕ) (y : DirectReadDelivery.Held), (s.dir x).held[k]? = some y →
        y.id ∈ (s.dir x).rcv.sys.waited →
        a.held[k]? = some ((), fetch (s.dir x).rmem y.addr.toNat y.length.toNat)) ∧
    ∀ id < (s.reader x).conn.nextRcvId, CanReturn s x id := by
  constructor
  · have hinit : Sound (strip ((init fence rq smem rmem).dir x)) :=
      DirectReadDelivery.init_sound (fence x) (rq x) (smem x) (rmem x)
    obtain ⟨a, ha, hsound, hmatch⟩ := run_traces step (calls x) Careful Mailbox.step
      (fun s a => Sound (strip (s.dir x)) ∧ Matches (strip (s.dir x)) a)
      (fun s e t a h he hs => by
        obtain ⟨hsound, hnext⟩ := step_simulates h.1 e he hs
        obtain ⟨b, hb, hmatch⟩ := hnext a h.2
        exact ⟨b, hb, hsound, hmatch⟩)
      es _ s Mailbox.empty ⟨hinit, ⟨rfl, rfl⟩⟩ hm hr
    refine ⟨a, ha, by rw [hmatch.held, List.length_map]; rfl, fun k y hy hw => ?_⟩
    have hread := hsound.order.read_waited y.id (hsound.kept.known y (List.mem_of_getElem? hy)).1 hw
    rw [hmatch.held, List.getElem?_map]
    show ((s.dir x).held[k]?).map _ = _
    rw [hy, Option.map_some, DirectReadDelivery.System.bytes, if_pos hread]
    rfl
  · intro id hid
    have hflow := run_flow (x := x) es (init_flow fence rq smem rmem) hr
    have hnone := run_keeps step Careful (fun s => s.drained x = [])
      (fun _ e _ h he hs => drained_keeps h e he hs) es _ s rfl hm hr
    rw [canReturn_iff hflow hid, hnone]
    exact Or.inr List.not_mem_nil

end Waits

def thereAndBack : List Event :=
  [.on .left (.getMemoryRegion ⟨4096, 5, 7⟩), .on .left (.store 4097 [1, 2, 3]),
    .on .left (.sendAsync 0 3), .on .left (.announce 0), .complete .left,
    .on .left (.call (.receiveAsync ⟨⟨0, 65536, 50⟩, 9⟩)), .on .left (.perform 0),
    .on .left (.waitReceive 1), .on .right (.getMemoryRegion ⟨8192, 5, 7⟩),
    .on .right (.store 8193 [9]), .on .right (.sendAsync 0 1), .on .right (.announce 0),
    .on .right (.call (.receive ⟨⟨0, 65600, 16⟩, 9⟩)), .on .right (.perform 0),
    .on .right (.waitReceive 1)]

def start : State :=
  init (fun _ => false) (fun _ => RefusedReceive.twoBuffers) (fun _ _ => 0) (fun _ _ => 0)

theorem duplex_is_two_mailboxes_back : ∃ s a, run step thereAndBack start = some s ∧
    run Mailbox.step (trace step (calls .right) thereAndBack start) Mailbox.empty = some a ∧
    a.held[0]? = some ((), [9]) ∧ CanReturn s .right 1 := by
  have hr := run_get step thereAndBack start (by decide +kernel)
  obtain ⟨⟨a, ha, -, hheld⟩, hcan⟩ := duplex_is_two_mailboxes (fun _ => false)
    (fun _ => RefusedReceive.twoBuffers) (fun _ _ => 0) (fun _ _ => 0) thereAndBack _
    (by decide +kernel) hr .right
  refine ⟨_, a, hr, ha, ?_, hcan 1 (by decide +kernel)⟩
  exact (hheld 0 ⟨1, 65600, 1⟩ (by decide +kernel) (by decide +kernel)).trans (by decide +kernel)

/-- For every use of the connection: a wait for a read can be made to return, by the network
and the other calls, exactly if the completion of the last read was not polled away. A side
that has waited for its last read finds no completion to poll away. -/
theorem duplex_wait_iff (fence : Side → Bool) (rq : Side → ReceiveQueue.Queue)
    (smem rmem : Side → ℕ → UInt8) (es : List Event) (s : State)
    (hr : run step es (init fence rq smem rmem) = some s) (x : Side) :
    (∀ id < (s.reader x).conn.nextRcvId, CanReturn s x id ↔
      id ≤ (s.reader x).conn.ackdRcvId ∨ (s.reader x).conn.nextRcvId-1 ∉ s.drained x) ∧
    ((s.reader x).conn.nextRcvId = (s.reader x).conn.ackdRcvId+1 →
      ∀ j ∈ (s.reader x).sendCq, j = 0) := by
  have hflow := run_flow (x := x) es (init_flow fence rq smem rmem) hr
  refine ⟨fun id hid => canReturn_iff hflow hid, fun hlast j hj => ?_⟩
  by_contra hne
  have hmem : j ∈ pending (s.reader x) :=
    List.mem_append_left _ (List.mem_filter.mpr ⟨hj, isRead_of_pos (by omega)⟩)
  have hb := hflow.bounds j hmem
  omega

def sentTooEarly : List Event := thereAndBack.take 7++(thereAndBack.drop 8).take 3

theorem duplex_wait_iff_early : ∃ s, run step sentTooEarly start = some s ∧
    ¬CanReturn s .right 1 := by
  have hr := run_get step sentTooEarly start (by decide +kernel)
  obtain ⟨hiff, -⟩ := duplex_wait_iff (fun _ => false) (fun _ => RefusedReceive.twoBuffers)
    (fun _ _ => 0) (fun _ _ => 0) sentTooEarly _ hr .right
  refine ⟨_, hr, fun hcan => absurd ((hiff 1 (by decide +kernel)).mp hcan) (by decide +kernel)⟩

end KYM.ReadDuplex
