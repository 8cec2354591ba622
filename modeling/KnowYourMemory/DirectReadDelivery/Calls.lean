import KnowYourMemory.DirectReadDelivery.Requests

/-!
# The calls of sender and receiver

The steps of the sender keep the invariant. A call of the receiver refuses the next request
or posts its read.
-/

set_option autoImplicit false

namespace KYM.DirectReadDelivery
open KYM.Run KYM.MagicMemory KYM.DirectRead KYM.ReadOrder KYM.Mailbox
open KYM.RingBuffer (KeyedRegion refusal)
open KYM.RefusedReceive (Receiver)

/-- A step keeps the invariant, and the mailbox takes the calls that it shows. -/
def Simulates (s : System) (cs : List (Call Unit (List UInt8))) (t : System) : Prop :=
  Sound t ∧ ∀ a, Matches s a → ∃ b, run Mailbox.step cs a = some b ∧ Matches t b

section Sender

variable {s t : System}

theorem init_sound (fence : Bool) (rq : ReceiveQueue.Queue) (smem rmem : ℕ → UInt8) :
    Sound (init fence rq smem rmem) where
  rcv := DirectRead.init_sound fence
  order := init_ordered fence
  lent := by constructor <;> simp [init]
  tracked := by constructor <;> simp [init, System.waiting, RefusedReceive.init, DirectRead.init]
  kept := by constructor <;> simp [init, RefusedReceive.init, DirectRead.init]
  arrived := le_refl _

theorem getMemoryRegion_sound (h : Sound s) (mr : Region) (hc : Careful s (.getMemoryRegion mr)) :
    Simulates s [] (getMemoryRegion s mr) := by
  obtain ⟨hlent, hcontent⟩ := h.lent.alloc mr hc
  exact ⟨⟨h.rcv, h.order, hlent, h.tracked, h.kept, h.arrived⟩, fun a ha => ⟨a, rfl,
    ha.keep h (fun p hp _ => hcontent p hp) rfl rfl rfl rfl rfl⟩⟩

theorem store_sound (h : Sound s) (addr : ℕ) (bytes : List UInt8) (hc : Careful s (.store addr bytes)) :
    Simulates s [] { s with smem := put s.smem addr bytes } := by
  obtain ⟨hlent, hcontent⟩ := h.lent.store addr bytes hc
  exact ⟨⟨h.rcv, h.order, hlent, h.tracked, h.kept, h.arrived⟩, fun a ha => ⟨a, rfl,
    ha.keep h (fun p hp _ => hcontent p hp) rfl rfl rfl rfl rfl⟩⟩

theorem sendAsync_sound (h : Sound s) (k : ℕ) (length : UInt32) (hc : Careful s (.sendAsync k length))
    (hs : sendAsync s k length = some t) : Simulates s (calls s (.sendAsync k length)) t := by
  unfold sendAsync at hs
  split at hs
  · cases hs
  next b hb =>
  obtain rfl := Option.some.inj hs
  have hlent := h.lent.send b (List.mem_of_getElem? hb) length s.rcv.sys.requests.length (hc b hb)
  have hwaiting : (s.rcv.announced.drop s.rcv.taken).map Prod.snd++(s.wire++[Pending.req
      ⟨b, length, s.rcv.sys.requests.length, .posted⟩]) = s.waiting++[Pending.req
      ⟨b, length, s.rcv.sys.requests.length, .posted⟩] := by
    rw [System.waiting, List.append_assoc]
  refine ⟨⟨h.rcv, h.order, hlent, ?_, h.kept, h.arrived⟩, fun a ha => ?_⟩
  · simp only [System.waiting]
    rw [hwaiting]
    exact h.tracked.send hlent
  · have hcalls : calls s (.sendAsync k length) =
        [.send () (content s.smem ⟨b.addr+1, b.lkey, length⟩)] := by
      simp [calls, hb]
    rw [hcalls]
    refine ⟨{ a with queue := Function.update a.queue () (a.queue ()++
      [content s.smem ⟨b.addr+1, b.lkey, length⟩]) }, rfl, ?_, ha.held⟩
    simp only [System.waiting]
    rw [Function.update_self, hwaiting, ha.queue, List.map_append]
    rfl

theorem sender_wait_sound (h : Sound s) (id : UInt64) (hc : Careful s (.wait id))
    (hs : wait s id = some t) : Simulates s [] t := by
  unfold wait at hs
  split at hs
  · cases hs
  next hset =>
  obtain rfl := Option.some.inj hs
  obtain ⟨p₀, hp₀, rfl⟩ := List.mem_map.mp hc
  obtain ⟨hlent, hcontent⟩ := h.lent.wait p₀.block.addr ⟨_, (h.lent.inside p₀ hp₀).1, rfl⟩
  refine ⟨⟨h.rcv, h.order, hlent, h.tracked.wait _ (fun p hp hf => ?_), h.kept, h.arrived⟩,
    fun a ha => ⟨a, rfl, ha.keep h (fun p hp _ => hcontent p hp) rfl rfl rfl rfl rfl⟩⟩
  have he : p.block.addr = p₀.block.addr := by simpa using hf
  rw [← he, h.lent.flag p hp] at hset
  push Not at hset
  exact hset

end Sender

section Receiver

variable {s t : System}

theorem announce_sound (h : Sound s) (i : ℕ) (hs : announce s i = some t) : Simulates s [] t := by
  unfold announce at hs
  split at hs
  · cases hs
  next req rest hwire =>
  obtain ⟨rcv, hrcv, rfl⟩ := Option.map_eq_some_iff.mp hs
  simp only [RefusedReceive.step] at hrcv
  split at hrcv
  · cases hrcv
  next p hp =>
  obtain rfl := Option.some.inj hrcv
  have hwaiting : ((s.rcv.announced++[(p.wrId.toUInt32, req)]).drop s.rcv.taken).map Prod.snd++rest =
      s.waiting := by
    rw [List.drop_append_of_le_length h.arrived, System.waiting, hwire]
    simp
  refine ⟨⟨h.rcv, h.order, h.lent, ?_, h.kept, ?_⟩, fun a ha => ⟨a, rfl,
    ha.keep h (fun _ _ _ => rfl) hwaiting rfl rfl rfl rfl⟩⟩
  · simp only [System.waiting]
    rw [hwaiting]
    exact h.tracked
  · simp only [List.length_append]
    exact h.arrived.trans (Nat.le_add_right _ _)

structure Serves (r : Receiver) (addr : UInt64) (length : UInt32)
    (x : Option (Option RingBuffer.Status × Receiver)) : Prop where
  refused : ∀ e t, x = some (some e, t) → ∃ req, RefusedReceive.Took r t req
  accepted : ∀ t, x = some (none, t) → ∃ m req key id, RefusedReceive.Took r m req ∧
    req.length ≤ length ∧ m.readInto addr key req = (.ok id, t)

theorem receive_reads (r : Receiver) (reg : KeyedRegion) (id : ℕ) (length : UInt32)
    (t : Receiver) (h : RefusedReceive.receive r reg = some (.ok (id, length), t)) :
    ∃ m req key, RefusedReceive.Took r m req ∧ req.length ≤ reg.length ∧
      m.readInto reg.addr key req = (.ok id, t) := by
  unfold RefusedReceive.receive at h
  split at h
  · cases h
  · cases (Prod.mk.inj (Option.some.inj h)).1
  next req m hm =>
  split at h
  · cases (Prod.mk.inj (Option.some.inj h)).1
  next hlen =>
  split at h
  · cases (Prod.mk.inj (Option.some.inj h)).1
  · next hr =>
    obtain ⟨hid, rfl⟩ := Prod.mk.inj (Option.some.inj h)
    obtain ⟨rfl, -⟩ := Prod.mk.inj (Except.ok.inj hid)
    exact ⟨m, req, _, RefusedReceive.taken_request hm, UInt32.not_lt.mp hlen, hr⟩

theorem receiveAsync_reads (r : Receiver) (reg : KeyedRegion) (length length' : Option UInt32)
    (id : ℕ) (t : Receiver) (h : RefusedReceive.receiveAsync r reg length = some (.ok id, length', t)) :
    ∃ m req key, RefusedReceive.Took r m req ∧ req.length ≤ reg.length ∧
      m.readInto reg.addr key req = (.ok id, t) := by
  unfold RefusedReceive.receiveAsync at h
  split at h
  · cases h
  · cases (Prod.mk.inj (Option.some.inj h)).1
  next req m hm =>
  split at h
  · cases (Prod.mk.inj (Option.some.inj h)).1
  next hlen =>
  obtain ⟨hid, hrest⟩ := Prod.mk.inj (Option.some.inj h)
  obtain ⟨-, ht⟩ := Prod.mk.inj hrest
  exact ⟨m, req, _, RefusedReceive.taken_request hm, UInt32.not_lt.mp hlen, Prod.ext hid ht⟩

theorem ok_of_error {α : Type} (x : RingBuffer.StatusOr α) (h : refusal x = none) :
    ∃ v, x = .ok v := by
  cases x with
  | error e => cases h
  | ok v => exact ⟨v, rfl⟩

theorem call_serves (r : Receiver) (c : RefusedReceive.Call) :
    Serves r (callRegion c).addr (callRegion c).length (c.answer r) := by
  refine ⟨fun e t h => ?_, fun t h => ?_⟩
  · obtain ⟨req, ⟨-, htook⟩ | ⟨hnone, -⟩⟩ := RefusedReceive.call_cases c h
    · exact ⟨req, htook⟩
    · cases hnone
  cases c with
  | receive reg =>
    obtain ⟨⟨x, u⟩, hx, he⟩ := Option.map_eq_some_iff.mp h
    obtain ⟨hnone, rfl⟩ := Prod.mk.inj he
    obtain ⟨⟨id, len⟩, rfl⟩ := ok_of_error x hnone
    obtain ⟨m, req, key, hread⟩ := receive_reads r reg id len u hx
    exact ⟨m, req, key, id, hread⟩
  | receiveAsync reg =>
    obtain ⟨⟨x, len, u⟩, hx, he⟩ := Option.map_eq_some_iff.mp h
    obtain ⟨hnone, rfl⟩ := Prod.mk.inj he
    obtain ⟨id, rfl⟩ := ok_of_error x hnone
    obtain ⟨m, req, key, hread⟩ := receiveAsync_reads r reg none len id u hx
    exact ⟨m, req, key, id, hread⟩
  | receiveAsyncLength reg length =>
    obtain ⟨⟨x, len, u⟩, hx, he⟩ := Option.map_eq_some_iff.mp h
    obtain ⟨hnone, rfl⟩ := Prod.mk.inj he
    obtain ⟨id, rfl⟩ := ok_of_error x hnone
    obtain ⟨m, req, key, hread⟩ := receiveAsync_reads r reg (some length) len id u hx
    exact ⟨m, req, key, id, hread⟩

theorem receiveNew_error (r : Receiver) (alloc : RingBuffer.StatusOr (UInt64 × UInt32))
    (e : RingBuffer.Status) (t : Receiver)
    (h : RefusedReceive.receiveNew r alloc = some (.error e, t)) :
    ∃ req, RefusedReceive.Took r t req := by
  unfold RefusedReceive.receiveNew at h
  split at h
  · cases h
  · next hm =>
    obtain ⟨-, rfl⟩ := Prod.mk.inj (Option.some.inj h)
    exact RefusedReceive.refused_request hm
  next req m hm =>
  refine ⟨req, ?_⟩
  have htook := RefusedReceive.taken_request hm
  cases alloc with
  | error e =>
    obtain ⟨-, rfl⟩ := Prod.mk.inj (Option.some.inj h)
    exact htook
  | ok p =>
    have h := Option.some.inj h
    rcases RefusedReceive.readInto_cases m p.1 p.2 req with hr | ⟨id, u, hr⟩
    · obtain ⟨-, rfl⟩ := Prod.mk.inj (hr.symm.trans h)
      exact htook
    · cases (Prod.mk.inj (hr.symm.trans h)).1

theorem receiveNew_reads (r : Receiver) (alloc : RingBuffer.StatusOr (UInt64 × UInt32)) (id : ℕ)
    (t : Receiver) (h : RefusedReceive.receiveNew r alloc = some (.ok id, t)) :
    ∃ m req key id, RefusedReceive.Took r m req ∧
      m.readInto (allocated alloc) key req = (.ok id, t) := by
  unfold RefusedReceive.receiveNew at h
  split at h
  · cases h
  · cases (Prod.mk.inj (Option.some.inj h)).1
  next req m hm =>
  cases alloc with
  | error e => cases (Prod.mk.inj (Option.some.inj h)).1
  | ok p => exact ⟨m, req, p.2, id, RefusedReceive.taken_request hm, Option.some.inj h⟩

theorem new_serves (r : Receiver) (alloc : RingBuffer.StatusOr (UInt64 × UInt32)) :
    Serves r (allocated alloc) (next r).length (answerNew r alloc) := by
  refine ⟨fun e t h => ?_, fun t h => ?_⟩
  · obtain ⟨⟨x, u⟩, hx, he⟩ := Option.map_eq_some_iff.mp h
    obtain ⟨hsome, rfl⟩ := Prod.mk.inj he
    cases x with
    | error e' => exact receiveNew_error r alloc e' u hx
    | ok id => cases hsome
  · obtain ⟨⟨x, u⟩, hx, he⟩ := Option.map_eq_some_iff.mp h
    obtain ⟨hnone, rfl⟩ := Prod.mk.inj he
    obtain ⟨id, rfl⟩ := ok_of_error x hnone
    obtain ⟨m, req, key, id, htook, hread⟩ := receiveNew_reads r alloc id u hx
    refine ⟨m, req, key, id, htook, ?_, hread⟩
    obtain ⟨wrId, hfound⟩ := htook.found
    simp only [next, hfound]
    exact UInt32.le_refl _

end Receiver

end KYM.DirectReadDelivery
