import KnowYourMemory.Polling
import KnowYourMemory.ReceiveBuffers
import KnowYourMemory.WriteConnection

/-!
# Receiving acknowledgements

Acknowledgements arrive in receive buffers of one word. `Get` takes the first of them,
posts its buffer again and then takes all the others that have arrived. The loop that does
so names its completion like the first one, and works on the first one.
-/

set_option autoImplicit false

namespace KYM.AckReceive
open KYM.Run KYM.RingBuffer KYM.Polling KYM.ReceiveQueue KYM.ReceiveBuffers
open KYM.WriteConnection (wrap)

/-- An endpoint with the completions that wait in its receive queue. A poll delivers as
many of them as the array holds. -/
structure Cq where
  ep : Endpoint
  pending : List Completion
  deriving DecidableEq, Repr

def Cq.queue (c : Cq) : List Completion := c.ep.buffered++c.pending

def Cq.poll (c : Cq) : RecvPoll := .delivered (c.pending.take c.ep.maxRcvWc)

def Cq.polled (c : Cq) (ep : Endpoint) (rest : List RecvPoll) : Cq :=
  ⟨ep, if rest = [] then c.pending.drop c.ep.maxRcvWc else c.pending⟩

section Get

variable (str : UInt32 → String) (mem : UInt64 → UInt32)

def Cq.pollRecvCq (c : Cq) : Option (StatusOr Completion × Cq) :=
  (c.ep.pollRecvCq str [c.poll]).map (fun x => (x.1, c.polled x.2.1 x.2.2))

def Cq.pollRecvCqOnce (c : Cq) : Option (StatusOr Completion × Cq) :=
  (c.ep.pollRecvCqOnce str [c.poll]).map (fun x => (x.1, c.polled x.2.1 x.2.2))


def offsetOf (rq : Queue) (wc : Completion) : UInt32 := mem (rq.getMR wc.wrId.toUInt32).1

/-- The loop, with the completion that was taken before it. `n` bounds the number of
rounds. -/
def getLoop (wc : Completion) :
    ℕ → UInt32 → Cq → Queue → Option (StatusOr UInt32 × Cq × Queue)
  | 0, _, _, _ => none
  | n+1, offset, cq, rq =>
    match cq.pollRecvCqOnce str with
    | none => none
    | some (.error _, cq) => some (.ok offset, cq, rq)
    | some (.ok _, cq) =>
      match rq.postMR wc.wrId.toUInt32 with
      | none => some (.error postFailed, cq, rq)
      | some rq' => getLoop wc n (offsetOf mem rq wc) cq rq'

/-- No acknowledgement arrives while `Get` runs, so the loop ends after one round for each
that is left and another one. -/
def get (cq : Cq) (rq : Queue) : Option (StatusOr UInt32 × Cq × Queue) :=
  match cq.pollRecvCq str with
  | none => none
  | some (.error e, cq) =>
    some (.error (wrap e "error while polling recieve queue for receive"), cq, rq)
  | some (.ok wc, cq) =>
    match rq.postMR wc.wrId.toUInt32 with
    | none => some (.error postFailed, cq, rq)
    | some rq' => getLoop str mem wc (cq.queue.length+1) (offsetOf mem rq wc) cq rq'

end Get

def transferSize : UInt64 := 4
def inflight : UInt64 := 100

/-- A receiver with its buffers, the heads that were sent and those that `Get` returned. -/
structure State where
  cq : Cq
  rq : Queue
  mem : UInt64 → UInt32
  acks : List UInt32
  got : List UInt32

def init (rq : Queue) : State := ⟨⟨newEndpoint, []⟩, rq, fun _ => 0, [], []⟩

inductive Event where
  | ack (i : ℕ) (head : UInt32)
  | get
  deriving DecidableEq, Repr

def step (str : UInt32 → String) (s : State) : Event → Option State
  | .ack i head =>
    match s.rq.posted[i]? with
    | none => none
    | some r =>
      some { s with
        cq := ⟨s.cq.ep, s.cq.pending++[⟨⟨r.wrId, 0, 4⟩, 0⟩]⟩
        rq := { s.rq with posted := s.rq.posted.eraseIdx i }
        mem := Function.update s.mem r.sge.addr head
        acks := s.acks++[head] }
  | .get =>
    match get str s.mem s.cq s.rq with
    | some (.ok offset, cq, rq) => some { s with cq := cq, rq := rq, got := s.got++[offset] }
    | _ => none

/-- Every `Get` finds a single acknowledgement. -/
def Single (s : State) : Event → Prop
  | .get => s.cq.queue.length = 1
  | .ack _ _ => True

instance (s : State) : ∀ e : Event, Decidable (Single s e)
  | .get => inferInstanceAs (Decidable (s.cq.queue.length = 1))
  | .ack _ _ => isTrue trivial

def postedTimes (rq : Queue) (x : ℕ) : ℕ := (ids rq.posted).count x+(ids rq.batch).count x

def idsOf (wcs : List Completion) : List ℕ := wcs.map (fun wc => wc.wrId.toNat)

/-- What `Get` is to do with the acknowledgements `wcs`: take them all, return the word of
the last one, and hand every buffer to `PostMR` once. -/
structure Newest (mem : UInt64 → UInt32) (rq : Queue) (wcs : List Completion)
    (offset : UInt32) (cq' : Cq) (rq' : Queue) : Prop where
  consumed : cq'.queue = []
  newest : ∀ wc, wcs.getLast? = some wc → offset = offsetOf mem rq wc
  posted : ∀ x, postedTimes rq' x = postedTimes rq x+(idsOf wcs).count x

structure Prompt (c : Cq) : Prop where
  ready : c.ep.Ready
  max : 0 < c.ep.maxRcvWc

section Polls

variable {str : UInt32 → String} {cq : Cq} {wc : Completion} {rest : List Completion}

theorem next_front (str : UInt32 → String) (h : Prompt cq) (hne : cq.ep.currentRcvWc ≠ cq.ep.polledRcvWc)
    (hq : cq.queue = wc::rest) :
    (cq.ep.next str).1 = recvAnswer str wc ∧ Prompt ⟨(cq.ep.next str).2, cq.pending⟩ ∧
      (⟨(cq.ep.next str).2, cq.pending⟩ : Cq).queue = rest := by
  obtain ⟨hr, v, hv, hb⟩ := next_ready str h.ready hne
  rw [Cq.queue, hb, List.cons_append] at hq
  obtain ⟨rfl, rfl⟩ := List.cons.inj hq
  exact ⟨hv, ⟨hr, h.max⟩, rfl⟩

theorem refill_front (str : UInt32 → String) (h : Prompt cq) (he : cq.ep.currentRcvWc = cq.ep.polledRcvWc)
    (hq : cq.queue = wc::rest) :
    ∃ wcs, cq.pending.take cq.ep.maxRcvWc = wc::wcs ∧
      ((cq.ep.refill (wc::wcs)).next str).1 = recvAnswer str wc ∧
      Prompt ⟨((cq.ep.refill (wc::wcs)).next str).2, cq.pending.drop cq.ep.maxRcvWc⟩ ∧
      (⟨((cq.ep.refill (wc::wcs)).next str).2, cq.pending.drop cq.ep.maxRcvWc⟩ : Cq).queue = rest := by
  have hmax := h.max
  have hp : cq.pending = wc::rest := by
    rw [← hq, Cq.queue, buffered_eq_nil he, List.nil_append]
  have htake : cq.pending.take cq.ep.maxRcvWc = wc::rest.take (cq.ep.maxRcvWc-1) := by
    rw [hp, show cq.ep.maxRcvWc = cq.ep.maxRcvWc-1+1 by omega, List.take_succ_cons]
    rfl
  have hlen : (wc::rest.take (cq.ep.maxRcvWc-1)).length ≤ cq.ep.maxRcvWc := by
    rw [← htake]
    exact List.length_take_le _ _
  obtain ⟨hr, hb⟩ := refill_ready h.ready _ hlen
  have hfull : Prompt ⟨cq.ep.refill (wc::rest.take (cq.ep.maxRcvWc-1)),
      cq.pending.drop cq.ep.maxRcvWc⟩ := ⟨hr, hmax⟩
  refine ⟨_, htake, next_front str hfull (by simp [Endpoint.refill]) ?_⟩
  rw [Cq.queue, hb, ← htake, List.take_append_drop, hp]

theorem pollRecvCq_cons (str : UInt32 → String) (h : Prompt cq) (hq : cq.queue = wc::rest) :
    ∃ cq', cq.pollRecvCq str = some (recvAnswer str wc, cq') ∧ Prompt cq' ∧ cq'.queue = rest := by
  by_cases he : cq.ep.currentRcvWc = cq.ep.polledRcvWc
  · obtain ⟨wcs, htake, hx, hp, hrest⟩ := refill_front str h he hq
    refine ⟨_, ?_, hp, hrest⟩
    simp [Cq.pollRecvCq, Cq.poll, htake, Endpoint.pollRecvCq, he, Endpoint.refill, Cq.polled, ← hx]
  · obtain ⟨hx, hp, hrest⟩ := next_front str h he hq
    refine ⟨_, ?_, hp, hrest⟩
    simp [Cq.pollRecvCq, Endpoint.pollRecvCq, he, Cq.polled, hx]

theorem pollRecvCqOnce_cons (str : UInt32 → String) (h : Prompt cq) (hq : cq.queue = wc::rest) :
    ∃ cq', cq.pollRecvCqOnce str = some (recvAnswer str wc, cq') ∧ Prompt cq' ∧
      cq'.queue = rest := by
  by_cases he : cq.ep.currentRcvWc = cq.ep.polledRcvWc
  · obtain ⟨wcs, htake, hx, hp, hrest⟩ := refill_front str h he hq
    refine ⟨_, ?_, hp, hrest⟩
    simp [Cq.pollRecvCqOnce, Cq.poll, htake, Endpoint.pollRecvCqOnce, he, Cq.polled, hx]
  · obtain ⟨hx, hp, hrest⟩ := next_front str h he hq
    refine ⟨_, ?_, hp, hrest⟩
    simp [Cq.pollRecvCqOnce, Endpoint.pollRecvCqOnce, he, Cq.polled, hx]

theorem pollRecvCqOnce_nil (str : UInt32 → String) (h : Prompt cq) (hq : cq.queue = []) :
    ∃ cq', cq.pollRecvCqOnce str = some (.error recvNotFound, cq') ∧ Prompt cq' ∧
      cq'.queue = [] := by
  obtain ⟨hb, hp⟩ := List.append_eq_nil_iff.mp hq
  have he : cq.ep.currentRcvWc = cq.ep.polledRcvWc := by
    by_contra hne
    obtain ⟨-, v, -, hv⟩ := next_ready str h.ready hne
    rw [hb] at hv
    cases hv
  refine ⟨⟨cq.ep, []⟩, ?_, ⟨h.ready, h.max⟩, by rw [Cq.queue, hb]; rfl⟩
  simp [Cq.pollRecvCqOnce, Cq.poll, hp, Endpoint.pollRecvCqOnce, he, Cq.polled]

end Polls

/-- What `Get` does: it takes everything, returns the word of the first completion, and
posts the buffer of that one once for each. -/
structure FirstOnly (mem : UInt64 → UInt32) (rq : Queue) (wc : Completion) (n : ℕ)
    (offset : UInt32) (cq' : Cq) (rq' : Queue) : Prop where
  prompt : Prompt cq'
  consumed : cq'.queue = []
  ready : Ready rq'
  same : rq'.inflight = rq.inflight ∧ rq'.request = rq.request
  first : offset = offsetOf mem rq wc
  posted : ∀ x, postedTimes rq' x =
    postedTimes rq x+(List.replicate n wc.wrId.toUInt32.toNat).count x

section Get

variable {str : UInt32 → String} {mem : UInt64 → UInt32} {cq : Cq} {rq rq' : Queue}
  {wc : Completion} {wcs : List Completion}

theorem postMR_times (h : Ready rq) {w : UInt32} (hs : rq.postMR w = some rq') :
    Ready rq' ∧ rq'.inflight = rq.inflight ∧ rq'.request = rq.request ∧
      ∀ x, postedTimes rq' x = postedTimes rq x+[w.toNat].count x := by
  obtain ⟨hr, hn, hreq, hcases⟩ := repost_cases h hs
  have hid : (rq.request w.toUInt64).wrId.toNat = w.toNat := by simp [Queue.request]
  refine ⟨hr, hn, hreq, fun x => ?_⟩
  unfold postedTimes
  rcases hcases with ⟨hp, hb⟩ | ⟨hp, hb⟩ <;>
  · simp only [hp, hb, ids_append, ids_cons, ids_nil, hid, List.count_append, List.count_cons,
      List.count_nil]
    omega

theorem offsetOf_same (h : rq'.request = rq.request) (wc : Completion) :
    offsetOf mem rq' wc = offsetOf mem rq wc := by
  have := congrFun h wc.wrId.toUInt32.toUInt64
  exact congrArg (fun r : Request => mem r.sge.addr) this

theorem recvAnswer_ok (hz : wc.status = 0) : recvAnswer str wc = .ok wc := by
  rw [recvAnswer, if_neg (not_not.mpr hz)]

theorem FirstOnly.again {rq₁ : Queue} {n : ℕ} {offset : UInt32} {cq' : Cq}
    (hin : rq₁.inflight = rq.inflight) (hreq : rq₁.request = rq.request)
    (htimes : ∀ x, postedTimes rq₁ x = postedTimes rq x+[wc.wrId.toUInt32.toNat].count x)
    (h : FirstOnly mem rq₁ wc n offset cq' rq') : FirstOnly mem rq wc (n+1) offset cq' rq' where
  prompt := h.prompt
  consumed := h.consumed
  ready := h.ready
  same := ⟨h.same.1.trans hin, h.same.2.trans hreq⟩
  first := h.first.trans (offsetOf_same hreq wc)
  posted := by
    intro x
    rw [h.posted x, htimes x, List.replicate_succ, List.count_cons]
    simp only [List.count_cons, List.count_nil]
    omega

theorem getLoop_first (str : UInt32 → String) (mem : UInt64 → UInt32) (wc : Completion)
    (hc : Prompt cq) (hr : Ready rq) (hz : ∀ v ∈ cq.queue, v.status = 0) (n : ℕ)
    (hn : cq.queue.length < n) :
    ∃ x cq' rq', getLoop str mem wc n (offsetOf mem rq wc) cq rq = some (x, cq', rq') ∧
      (x = .error postFailed ∨ ∃ offset, x = .ok offset ∧
        FirstOnly mem rq wc cq.queue.length offset cq' rq') := by
  induction n generalizing cq rq with
  | zero => omega
  | succ n ih =>
    cases hq : cq.queue with
    | nil =>
      obtain ⟨cq', hp, hc', hq'⟩ := pollRecvCqOnce_nil str hc hq
      refine ⟨_, cq', rq, by rw [getLoop, hp], Or.inr ⟨_, rfl, hc', hq', hr, ⟨rfl, rfl⟩, rfl, ?_⟩⟩
      simp
    | cons v rest =>
      obtain ⟨cq', hp, hc', hq'⟩ := pollRecvCqOnce_cons str hc hq
      rw [recvAnswer_ok (hz v (by simp [hq]))] at hp
      cases hs : rq.postMR wc.wrId.toUInt32 with
      | none => exact ⟨_, cq', rq, by rw [getLoop, hp]; simp only [hs], Or.inl rfl⟩
      | some rq' =>
        obtain ⟨hr', hin, hreq, htimes⟩ := postMR_times hr hs
        have hz' : ∀ v ∈ cq'.queue, v.status = 0 := by
          rw [hq']
          exact fun u hu => hz u (by simp [hq, hu])
        obtain ⟨x, cq₂, rq₂, hloop, hx⟩ := ih hc' hr' hz' (by
          rw [hq']
          rw [hq, List.length_cons] at hn
          omega)
        rw [offsetOf_same hreq] at hloop
        refine ⟨x, cq₂, rq₂, by rw [getLoop, hp]; simpa only [hs] using hloop, ?_⟩
        rw [hq'] at hx
        exact hx.imp_right fun ⟨offset, hok, hf⟩ => ⟨offset, hok, hf.again hin hreq htimes⟩

theorem get_first (str : UInt32 → String) (mem : UInt64 → UInt32) (hc : Prompt cq)
    (hr : Ready rq) (hq : cq.queue = wc::wcs) (hz : ∀ v ∈ wc::wcs, v.status = 0) :
    ∃ x cq' rq', get str mem cq rq = some (x, cq', rq') ∧
      (x = .error postFailed ∨ ∃ offset, x = .ok offset ∧
        FirstOnly mem rq wc (wcs.length+1) offset cq' rq') := by
  obtain ⟨cq₁, hp, hc₁, hq₁⟩ := pollRecvCq_cons str hc hq
  rw [recvAnswer_ok (hz wc (by simp))] at hp
  cases hs : rq.postMR wc.wrId.toUInt32 with
  | none => exact ⟨_, cq₁, rq, by rw [get, hp]; simp only [hs], Or.inl rfl⟩
  | some rq₁ =>
    obtain ⟨hr₁, hin, hreq, htimes⟩ := postMR_times hr hs
    obtain ⟨x, cq₂, rq₂, hloop, hx⟩ := getLoop_first str mem wc hc₁ hr₁
      (by rw [hq₁]; exact fun v hv => hz v (by simp [hv])) (cq₁.queue.length+1) (Nat.lt_succ_self _)
    rw [offsetOf_same hreq] at hloop
    refine ⟨x, cq₂, rq₂, by rw [get, hp]; simpa only [hs] using hloop, ?_⟩
    rw [hq₁] at hx
    exact hx.imp_right fun ⟨offset, hok, hf⟩ => ⟨offset, hok, hf.again hin hreq htimes⟩

theorem narrow_id (hr : Ready rq) (hlt : wc.wrId.toNat < rq.inflight) :
    wc.wrId.toUInt32.toNat = wc.wrId.toNat := by
  have := hr.small
  rw [UInt64.toNat_toUInt32]
  exact Nat.mod_eq_of_lt (by omega)

/-- With a single acknowledgement the first one is the newest; with more of them the
first buffer is posted too often. -/
theorem newest_iff {offset : UInt32} {cq' : Cq} (hr : Ready rq)
    (hlt : ∀ v ∈ wc::wcs, v.wrId.toNat < rq.inflight) (hd : (idsOf (wc::wcs)).Nodup)
    (h : FirstOnly mem rq wc (wcs.length+1) offset cq' rq') :
    Newest mem rq (wc::wcs) offset cq' rq' ↔ (wc::wcs).length = 1 := by
  have hid := narrow_id hr (hlt wc (by simp))
  constructor
  · intro hn
    have hfirst := (h.posted wc.wrId.toNat).symm.trans (hn.posted wc.wrId.toNat)
    rw [hid, List.count_replicate_self, List.count_eq_one_of_mem hd (by simp [idsOf])] at hfirst
    rw [List.length_cons]
    omega
  · intro hlen
    obtain rfl : wcs = [] := by simpa using hlen
    refine ⟨h.consumed, fun v hv => ?_, fun x => ?_⟩
    · obtain rfl : wc = v := by simpa using hv
      exact h.first
    · rw [h.posted x, hid]
      rfl

end Get

/-- What holds between two calls when every `Get` finds a single acknowledgement: each
buffer is in one place, and the words of those that are not taken are the heads that are
not returned. -/
structure Sound (s : State) : Prop where
  prompt : Prompt s.cq
  ready : Ready s.rq
  size : s.rq.inflight = 100
  apart : ∀ i j : UInt64, i.toNat < 100 → j.toNat < 100 →
    (s.rq.request i).sge.addr = (s.rq.request j).sge.addr → i = j
  once : Once s.rq (idsOf s.cq.queue) [] []
  ok : ∀ wc ∈ s.cq.queue, wc.status = 0
  words : s.cq.queue.map (offsetOf s.mem s.rq) = s.acks.drop s.got.length
  got : s.got = s.acks.take s.got.length

section Runs

variable {str : UInt32 → String} {s t : State}

theorem newEndpoint_prompt : Prompt ⟨newEndpoint, []⟩ := ⟨newEndpoint_ready, by decide⟩

theorem init_sound (capacity : UInt32) (mrAddr : UInt64) (lkey : UInt32) (rq : Queue)
    (h : getReceiveQueue capacity mrAddr lkey transferSize inflight = some rq) :
    Sound (init rq) := by
  obtain ⟨hr, hn, hb, hids⟩ := setup_ready _ _ _ _ _ _ h
  refine ⟨newEndpoint_prompt, hr, hn, ?_, fun x => ?_, by simp [init, Cq.queue, newEndpoint,
    Endpoint.buffered], rfl, rfl⟩
  · intro i j hi hj he
    obtain ⟨posted, -, rfl⟩ := Option.map_eq_some_iff.mp h
    have hmul : i*4 = j*4 := UInt64.add_right_inj mrAddr |>.mp he
    have := congrArg UInt64.toNat hmul
    simp only [UInt64.toNat_mul, UInt64.reduceToNat] at this
    apply UInt64.toNat_inj.mp
    omega
  · have hnil : idsOf (init rq).cq.queue = [] := rfl
    have hcount := List.nodup_range (n := inflight.toNat) |>.count (a := x)
    rw [hnil]
    simp only [init, hids, hb, ids_nil, List.count_nil, hcount, List.mem_range, hn, Nat.add_zero]

theorem offsetOf_eq (mem : UInt64 → UInt32) (rq : Queue) (wc : Completion)
    (h : wc.wrId.toNat < 2^32) : offsetOf mem rq wc = mem (rq.request wc.wrId).sge.addr := by
  have hid : wc.wrId.toUInt32.toUInt64 = wc.wrId := by
    apply UInt64.toNat_inj.mp
    simp only [UInt32.toNat_toUInt64, UInt64.toNat_toUInt32]
    omega
  change mem (rq.request wc.wrId.toUInt32.toUInt64).sge.addr = _
  rw [hid]

theorem Sound.word_kept (h : Sound s) {r : Request} (hown : r = s.rq.request r.wrId)
    (hr : r.wrId.toNat < 100) (head : UInt32) (wc : Completion) (hwc : wc.wrId.toNat < 100)
    (hne : wc.wrId ≠ r.wrId) :
    offsetOf (Function.update s.mem r.sge.addr head) s.rq wc = offsetOf s.mem s.rq wc := by
  rw [offsetOf_eq _ _ _ (by omega), offsetOf_eq _ _ _ (by omega)]
  apply Function.update_of_ne
  rw [hown]
  exact fun he => hne (h.apart _ _ hwc hr he)

theorem word_written (mem : UInt64 → UInt32) (rq : Queue) {r : Request}
    (hown : r = rq.request r.wrId) (hr : r.wrId.toNat < 100) (head : UInt32) :
    offsetOf (Function.update mem r.sge.addr head) rq ⟨⟨r.wrId, 0, 4⟩, 0⟩ = head := by
  rw [offsetOf_eq _ _ _ (by simp only; omega)]
  change Function.update mem r.sge.addr head (rq.request r.wrId).sge.addr = head
  rw [← hown, Function.update_self]

theorem Sound.not_queued (h : Sound s) {r : Request} (hr : r ∈ s.rq.posted) (wc : Completion)
    (hwc : wc ∈ s.cq.queue) : wc.wrId ≠ r.wrId := by
  intro he
  have hposted : 0 < (ids s.rq.posted).count r.wrId.toNat :=
    List.count_pos_iff.mpr (List.mem_map_of_mem hr)
  have hqueued : 0 < (idsOf s.cq.queue).count r.wrId.toNat :=
    List.count_pos_iff.mpr (he ▸ List.mem_map_of_mem hwc)
  have := h.once r.wrId.toNat
  simp only [List.count_nil] at this
  split at this <;> omega

theorem Sound.ack (h : Sound s) (i : ℕ) (head : UInt32) (hs : step str s (.ack i head) = some t) :
    Sound t := by
  simp only [step] at hs
  cases hp : s.rq.posted[i]? with
  | none => simp [hp] at hs
  | some r =>
    simp only [hp, Option.some.injEq] at hs
    subst hs
    have hown : r = s.rq.request r.wrId := h.ready.posted r (List.mem_of_getElem? hp)
    have hin : r ∈ s.rq.posted := List.mem_of_getElem? hp
    have hr100 : r.wrId.toNat < 100 := by
      have := h.once.lt r.wrId.toNat (by simp [ids, List.mem_map_of_mem hin])
      rwa [h.size] at this
    have hq : (⟨s.cq.ep, s.cq.pending++[⟨⟨r.wrId, 0, 4⟩, 0⟩]⟩ : Cq).queue =
        s.cq.queue++[⟨⟨r.wrId, 0, 4⟩, 0⟩] := (List.append_assoc _ _ _).symm
    have hmove : ∀ x, (idsOf (s.cq.queue++[⟨⟨r.wrId, 0, 4⟩, 0⟩])).count x =
        (idsOf s.cq.queue).count x+[r.wrId.toNat].count x := fun x => by
      rw [idsOf, List.map_append, List.count_append]
      rfl
    obtain ⟨hready, honce⟩ := Once.complete h.ready i r hp h.once hmove
    have hle : s.got.length ≤ s.acks.length := by
      rw [h.got, List.length_take]
      exact Nat.min_le_right _ _
    refine ⟨⟨h.prompt.ready, h.prompt.max⟩, hready, h.size, h.apart, hq ▸ honce, ?_, ?_, ?_⟩
    · rw [hq]
      intro wc hwc
      rcases List.mem_append.mp hwc with hwc | hwc
      · exact h.ok wc hwc
      · rw [List.mem_singleton.mp hwc]
    · simp only [hq, List.map_append, List.map_cons, List.map_nil]
      rw [List.drop_append_of_le_length hle, ← h.words]
      congr 1
      · apply List.map_congr_left
        intro wc hwc
        have hlt := h.once.lt wc.wrId.toNat (by simp [idsOf, List.mem_map_of_mem hwc])
        rw [h.size] at hlt
        exact h.word_kept hown hr100 head wc hlt (h.not_queued hin wc hwc)
      · congr 1
        exact word_written s.mem s.rq hown hr100 head
    · simp only
      rw [List.take_append_of_le_length hle]
      exact h.got

theorem Sound.get (h : Sound s) (hone : s.cq.queue.length = 1) (hs : step str s .get = some t) :
    Sound t := by
  obtain ⟨wc, hq⟩ := List.length_eq_one_iff.mp hone
  obtain ⟨x, cq', rq', hget, rfl | ⟨offset, rfl, hf⟩⟩ := get_first str s.mem
    h.prompt h.ready hq (hq ▸ h.ok)
  · simp [step, hget] at hs
  · simp only [step, hget, Option.some.injEq] at hs
    subst hs
    have hwc : wc.wrId.toNat < s.rq.inflight := h.once.lt _ (by simp [hq, idsOf])
    have hword : [offset] = s.acks.drop s.got.length := by
      rw [← h.words, hq, hf.first]
      rfl
    have hlen : s.acks.length = s.got.length+1 := by
      have := congrArg List.length hword
      rw [List.length_drop] at this
      simp only [List.length_cons, List.length_nil] at this
      omega
    refine ⟨hf.prompt, hf.ready, hf.same.1.trans h.size, ?_, fun y => ?_, ?_, ?_, ?_⟩
    · simp only [hf.same.2]
      exact h.apart
    · have hp := hf.posted y
      have hy := h.once y
      simp only [postedTimes, narrow_id h.ready hwc, List.length_nil, Nat.zero_add,
        List.replicate_one] at hp
      rw [hq] at hy
      simp only [hf.consumed, hf.same.1, idsOf, List.map_cons, List.map_nil, List.count_nil] at hy ⊢
      omega
    · simp [hf.consumed]
    · simp only [hf.consumed, List.length_append, List.length_cons, List.length_nil]
      rw [List.drop_eq_nil_of_le hlen.le]
      rfl
    · simp only [List.length_append, List.length_cons, List.length_nil]
      rw [List.take_of_length_le hlen.le, ← List.take_append_drop s.got.length s.acks, ← hword,
        ← h.got]

theorem Sound.step (h : Sound s) (e : Event) (hz : Single s e) (hs : step str s e = some t) :
    Sound t := by
  cases e with
  | ack i head => exact h.ack i head hs
  | get => exact h.get hz hs

end Runs

/-- `Get` does what it is to do exactly when a single acknowledgement has arrived. In a run
where every `Get` finds one, each buffer is posted, in the batch or in a completion once,
and the heads that were returned are those that were sent, in order. -/
theorem newest_acknowledgement (str : UInt32 → String) :
    (∀ mem cq rq wcs, Prompt cq → Ready rq → cq.queue = wcs → wcs ≠ [] →
      (∀ wc ∈ wcs, wc.status = 0 ∧ wc.wrId.toNat < rq.inflight) → (idsOf wcs).Nodup →
      ∃ x cq' rq', get str mem cq rq = some (x, cq', rq') ∧ (x = .error postFailed ∨
        ∃ offset, x = .ok offset ∧ (Newest mem rq wcs offset cq' rq' ↔ wcs.length = 1))) ∧
    (∀ capacity mrAddr lkey rq es s,
      getReceiveQueue capacity mrAddr lkey transferSize inflight = some rq →
      Meets (step str) Single es (init rq) → run (step str) es (init rq) = some s →
      Once s.rq (idsOf s.cq.queue) [] [] ∧ s.got <+: s.acks) := by
  refine ⟨fun mem cq rq wcs hc hr hq hne hwcs hd => ?_,
    fun capacity mrAddr lkey rq es s hrq hes hs => ?_⟩
  · cases wcs with
    | nil => exact absurd rfl hne
    | cons wc wcs =>
      obtain ⟨x, cq', rq', hget, hx⟩ := get_first str mem hc hr hq
        (fun v hv => (hwcs v hv).1)
      refine ⟨x, cq', rq', hget, hx.imp_right fun ⟨offset, hok, hf⟩ => ⟨offset, hok, ?_⟩⟩
      exact newest_iff hr (fun v hv => (hwcs v hv).2) hd hf
  · have h := run_keeps (step str) Single Sound (fun _ e _ h hz hs => h.step e hz hs) es _ s
      (init_sound capacity mrAddr lkey rq hrq) hes hs
    exact ⟨h.once, h.got ▸ List.take_prefix _ _⟩

def ackQueue : Queue := (getReceiveQueue 128 8192 5 transferSize inflight).get (by decide +kernel)

def singleTrace : List Event := [.ack 0 16, .get, .ack 3 40, .get]

def singleAcks : State :=
  (run (step (fun _ => "")) singleTrace (init ackQueue)).get (by decide +kernel)

theorem newest_acknowledgement_singly :
    run (step (fun _ => "")) singleTrace (init ackQueue) = some singleAcks ∧
    singleAcks.got = [16, 40] ∧ Once singleAcks.rq (idsOf singleAcks.cq.queue) [] [] ∧
    singleAcks.got <+: singleAcks.acks :=
  ⟨run_get _ _ _ _, by decide +kernel, (newest_acknowledgement (fun _ => "")).2 128 8192 5 ackQueue
    singleTrace singleAcks (Option.some_get _).symm (by decide +kernel) (run_get _ _ _ _)⟩

def doubleTrace : List Event := [.ack 0 16, .ack 0 40, .get]

def doubleAcks : State :=
  (run (step (fun _ => "")) doubleTrace (init ackQueue)).get (by decide +kernel)

/-- Two heads arrive. The first is returned, its buffer is posted twice, and the second
buffer is forgotten. -/
theorem second_acknowledgement_lost :
    run (step (fun _ => "")) doubleTrace (init ackQueue) = some doubleAcks ∧
    doubleAcks.acks = [16, 40] ∧ doubleAcks.got = [16] ∧ doubleAcks.cq.queue = [] ∧
    postedTimes doubleAcks.rq 0 = 2 ∧ postedTimes doubleAcks.rq 1 = 0 :=
  ⟨run_get _ _ _ _, by decide +kernel⟩

end KYM.AckReceive
