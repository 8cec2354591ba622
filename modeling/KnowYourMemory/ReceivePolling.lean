import KnowYourMemory.Polling

/-!
# The receive queue is a queue

Completions arrive while both receive pollers are called on one endpoint. A poll delivers
any number of the oldest completions that wait, up to the size of the array, or fails. What
the calls hand out, the records in the array and the completions that wait are together
what arrived, in order.
-/

set_option autoImplicit false

namespace KYM.ReceivePolling
open KYM.Run KYM.RingBuffer KYM.Polling

/-- A poll inside a call: what arrives before it, and how many completions it delivers,
none when it fails. -/
structure Attempt where
  arrivals : List Completion
  result : Option ℕ
  deriving DecidableEq, Repr

inductive Event where
  | arrive (wc : Completion)
  | pollRecvCq (attempts : List Attempt)
  | pollRecvCqOnce (attempts : List Attempt)
  deriving DecidableEq, Repr

/-- `answers` is what the calls returned so far. -/
structure State where
  ep : Endpoint
  arrived : List Completion
  pending : List Completion
  answers : List (StatusOr Completion)

def init : State := ⟨newEndpoint, [], [], []⟩

def device (max : ℕ) : List Attempt → List Completion → Option (List RecvPoll × List Completion)
  | [], pending => some ([], pending)
  | ⟨new, none⟩::as, pending =>
    (device max as (pending++new)).map (fun d => (.failed::d.1, d.2))
  | ⟨new, some k⟩::as, pending =>
    if k ≤ max ∧ k ≤ (pending++new).length then
      (device max as ((pending++new).drop k)).map (fun d =>
        (.delivered ((pending++new).take k)::d.1, d.2))
    else none

def State.call (s : State)
    (poller : List RecvPoll → Option (StatusOr Completion × Endpoint × List RecvPoll))
    (as : List Attempt) : Option State :=
  match device s.ep.maxRcvWc as s.pending with
  | none => none
  | some (ps, pending) =>
    match poller ps with
    | some (x, ep, []) =>
      some ⟨ep, s.arrived++as.flatMap Attempt.arrivals, pending, s.answers++[x]⟩
    | _ => none

def step (str : UInt32 → String) (s : State) : Event → Option State
  | .arrive wc => some { s with arrived := s.arrived++[wc], pending := s.pending++[wc] }
  | .pollRecvCq as => s.call (s.ep.pollRecvCq str) as
  | .pollRecvCqOnce as => s.call (s.ep.pollRecvCqOnce str) as

def isCompletion : StatusOr Completion → Bool
  | .ok _ => true
  | .error e => e ≠ recvFailed && e ≠ recvNotFound

def State.queue (s : State) : List Completion := s.ep.buffered++s.pending

structure Sound (str : UInt32 → String) (s : State) : Prop where
  ready : s.ep.Ready
  fifo : ∃ handed, s.answers.filter isCompletion = handed.map (recvAnswer str) ∧
    handed++s.queue = s.arrived

variable {str : UInt32 → String} {s t : State} {as : List Attempt}

theorem isCompletion_recvAnswer (str : UInt32 → String) (wc : Completion) :
    isCompletion (recvAnswer str wc) = true := by
  unfold recvAnswer
  split
  · have hne := recvError_ne str wc
    have hcode : recvError str wc ≠ recvNotFound := fun h => by
      have := congrArg Status.code h
      cases this
    simp [isCompletion, hne, hcode]
  · rfl

theorem device_spec {max : ℕ} {pending rest : List Completion} {ps : List RecvPoll}
    (h : device max as pending = some (ps, rest)) :
    Bounded max ps ∧ delivered ps++rest = pending++as.flatMap Attempt.arrivals := by
  induction as generalizing pending ps with
  | nil =>
    simp only [device, Option.some.injEq, Prod.mk.injEq] at h
    obtain ⟨rfl, rfl⟩ := h
    exact ⟨by simp [Bounded], by simp [delivered]⟩
  | cons a as ih =>
    obtain ⟨new, _ | k⟩ := a
    · obtain ⟨⟨qs, r⟩, hd, he⟩ := Option.map_eq_some_iff.mp h
      simp only [Prod.mk.injEq] at he
      obtain ⟨rfl, rfl⟩ := he
      obtain ⟨hb, hq⟩ := ih hd
      refine ⟨fun wcs hw => hb wcs (by simpa using hw), ?_⟩
      simpa [delivered] using hq
    · rw [device] at h
      split at h
      · next hk =>
        obtain ⟨⟨qs, r⟩, hd, he⟩ := Option.map_eq_some_iff.mp h
        simp only [Prod.mk.injEq] at he
        obtain ⟨rfl, rfl⟩ := he
        obtain ⟨hb, hq⟩ := ih hd
        refine ⟨fun wcs hw => ?_, ?_⟩
        · rcases List.mem_cons.mp hw with hw | hw
          · obtain rfl := RecvPoll.delivered.inj hw
            exact (List.length_take_le k _).trans hk.1
          · exact hb wcs hw
        · rw [delivered, List.append_assoc, hq, ← List.append_assoc, List.take_append_drop]
          simp
      · cases h

theorem device_empty {max : ℕ} {pending rest : List Completion}
    (h : device max as pending = some ([.delivered []], rest)) :
    ∃ a, as = [a] ∧ a.result = some 0 := by
  match as, h with
  | [], h => simp [device] at h
  | ⟨new, none⟩::as, h =>
    obtain ⟨d, -, he⟩ := Option.map_eq_some_iff.mp h
    simp at he
  | ⟨new, some k⟩::as, h =>
    rw [device] at h
    split at h
    · next hk =>
      obtain ⟨⟨qs, r⟩, hd, he⟩ := Option.map_eq_some_iff.mp h
      simp only [Prod.mk.injEq, List.cons.injEq, RecvPoll.delivered.injEq] at he
      obtain ⟨⟨ht, rfl⟩, rfl⟩ := he
      have hzero : k = 0 := by
        have := congrArg List.length ht
        rw [List.length_take] at this
        simp only [List.length_nil] at this
        omega
      obtain rfl : as = [] := by
        match as, hd with
        | [], _ => rfl
        | ⟨_, none⟩::_, hd => simp [device] at hd
        | ⟨_, some _⟩::_, hd => simp [device] at hd
      exact ⟨_, rfl, congrArg some hzero⟩
    · cases h

theorem call_inv
    {poller : List RecvPoll → Option (StatusOr Completion × Endpoint × List RecvPoll)}
    (hs : s.call poller as = some t) :
    ∃ ps x, Bounded s.ep.maxRcvWc ps ∧
      delivered ps++t.pending = s.pending++as.flatMap Attempt.arrivals ∧
      poller ps = some (x, t.ep, []) ∧ t.answers = s.answers++[x] ∧
      t.arrived = s.arrived++as.flatMap Attempt.arrivals ∧
      device s.ep.maxRcvWc as s.pending = some (ps, t.pending) := by
  unfold State.call at hs
  split at hs
  · cases hs
  · next ps pending hd =>
    obtain ⟨hb, hq⟩ := device_spec hd
    split at hs
    · next x ep hp =>
      obtain rfl := Option.some.inj hs
      exact ⟨ps, x, hb, hq, hp, rfl, rfl, hd⟩
    · cases hs

theorem queue_move {new given : List Completion} {ps : List RecvPoll}
    (hd : delivered ps++t.pending = s.pending++new)
    (hq : s.ep.buffered++delivered ps = given++t.ep.buffered) : s.queue++new = given++t.queue := by
  calc s.queue++new = s.ep.buffered++(s.pending++new) := List.append_assoc _ _ _
    _ = (given++t.ep.buffered)++t.pending := by rw [← hd, ← List.append_assoc, hq]
    _ = given++t.queue := List.append_assoc _ _ _

theorem step_hands (h : s.ep.Ready) (e : Event) (hs : step str s e = some t) :
    t.ep.Ready ∧ ∃ new given, t.arrived = s.arrived++new ∧ s.queue++new = given++t.queue ∧
      t.answers.filter isCompletion = s.answers.filter isCompletion++given.map (recvAnswer str) := by
  cases e with
  | arrive wc =>
    obtain rfl := Option.some.inj hs
    exact ⟨h, [wc], [], rfl, by simp [State.queue], by simp⟩
  | pollRecvCq as =>
    obtain ⟨ps, x, hb, hd, hp, hx, ha, -⟩ := call_inv hs
    obtain ⟨hr, -, used, hused, hcases⟩ := pollRecvCq_spec h hb hp
    obtain rfl : ps = used := by simpa using hused
    rcases hcases with ⟨rfl, hq, hnil⟩ | ⟨wc, rfl, hq⟩
    · refine ⟨hr, _, [], ha, queue_move hd (hq.trans hnil.symm), ?_⟩
      rw [hx, List.filter_append]
      rfl
    · refine ⟨hr, _, [wc], ha, queue_move hd hq, ?_⟩
      rw [hx, List.filter_append]
      simp [isCompletion_recvAnswer]
  | pollRecvCqOnce as =>
    obtain ⟨ps, x, hb, hd, hp, hx, ha, -⟩ := call_inv hs
    obtain ⟨hr, -, used, hused, hcases⟩ := pollRecvCqOnce_spec h hb hp
    obtain rfl : ps = used := by simpa using hused
    rcases hcases with ⟨hwhy, hep, hbuf, hdel⟩ | ⟨wc, rfl, hq⟩
    · refine ⟨hr, _, [], ha, queue_move hd (by rw [hep, hdel]; simp), ?_⟩
      rw [hx, List.filter_append]
      rcases hwhy with rfl | ⟨rfl, -⟩ <;> rfl
    · refine ⟨hr, _, [wc], ha, queue_move hd hq, ?_⟩
      rw [hx, List.filter_append]
      simp [isCompletion_recvAnswer]

theorem Sound.step (h : Sound str s) (e : Event) (hs : step str s e = some t) : Sound str t := by
  obtain ⟨handed, hf, harr⟩ := h.fifo
  obtain ⟨hr, new, given, ha, hq, hx⟩ := step_hands h.ready e hs
  refine ⟨hr, handed++given, by rw [hx, hf, List.map_append], ?_⟩
  rw [ha, ← harr, List.append_assoc, List.append_assoc, hq]

theorem run_sound (es : List Event) (hr : run (step str) es init = some s) : Sound str s :=
  run_keeps (step str) (fun _ _ => True) (Sound str) (fun _ e _ h _ hs => h.step e hs) es init s
    ⟨newEndpoint_ready, [], rfl, by decide⟩ (meets_of_forall _ _ es (fun _ _ _ => trivial) init) hr

theorem step_keeps (h : s.ep.Ready) (e : Event) (hs : step str s e = some t) {x : StatusOr Completion}
    (hx : t.answers = s.answers++[x]) (hc : isCompletion x = false) :
    ∃ new, t.arrived = s.arrived++new ∧ t.queue = s.queue++new := by
  obtain ⟨-, new, given, ha, hq, hf⟩ := step_hands h e hs
  rw [hx, List.filter_append, List.append_cancel_left_eq] at hf
  obtain rfl : given = [] := by simpa [hc] using hf.symm
  exact ⟨new, ha, hq.symm⟩

theorem once_notFound (h : s.ep.Ready) (hs : step str s (.pollRecvCqOnce as) = some t)
    (hx : t.answers = s.answers++[.error recvNotFound]) :
    s.ep.buffered = [] ∧ ∃ a, as = [a] ∧ a.result = some 0 := by
  obtain ⟨ps, x, hb, -, hp, hx', -, hdev⟩ := call_inv hs
  obtain ⟨-, -, used, hused, hcases⟩ := pollRecvCqOnce_spec h hb hp
  obtain rfl : ps = used := by simpa using hused
  obtain rfl : x = .error recvNotFound := by simpa using hx'.symm.trans hx
  rcases hcases with ⟨hwhy, -, hbuf, -⟩ | ⟨wc, hwc, -⟩
  · rcases hwhy with hf | ⟨-, hempty⟩
    · simp [recvFailed, recvNotFound] at hf
    · exact ⟨hbuf, device_empty (hempty ▸ hdev)⟩
  · exact absurd (hwc ▸ isCompletion_recvAnswer str wc) (by decide)

/-- The completions handed out, those in the array and those that wait are what arrived, in
order. A single poll reports an empty queue only when it found one, and a failed poll
loses nothing. -/
theorem receive_queue_faithful (str : UInt32 → String) (es : List Event) (s : State)
    (hr : run (step str) es init = some s) :
    (∃ handed, s.answers.filter isCompletion = handed.map (recvAnswer str) ∧
      handed++s.ep.buffered++s.pending = s.arrived) ∧
    (∀ as t, step str s (.pollRecvCqOnce as) = some t →
      t.answers = s.answers++[.error recvNotFound] →
      s.ep.buffered = [] ∧ ∃ a, as = [a] ∧ a.result = some 0) ∧
    (∀ e t, step str s e = some t → t.answers = s.answers++[.error recvFailed] →
      ∃ new, t.arrived = s.arrived++new ∧
        t.ep.buffered++t.pending = s.ep.buffered++s.pending++new) := by
  have h := run_sound es hr
  refine ⟨?_, fun as t hs hx => once_notFound h.ready hs hx, fun e t hs hx =>
    step_keeps h.ready e hs hx (by decide)⟩
  obtain ⟨handed, hf, harr⟩ := h.fifo
  exact ⟨handed, hf, by rw [List.append_assoc]; exact harr⟩

def mixedTrace : List Event :=
  [.arrive ⟨⟨7, 1, 4⟩, 0⟩, .arrive ⟨⟨8, 1, 4⟩, 0⟩, .pollRecvCqOnce [⟨[], some 2⟩], .pollRecvCq [],
    .pollRecvCq [⟨[], some 0⟩, ⟨[⟨⟨9, 1, 0⟩, 5⟩], none⟩], .pollRecvCq [⟨[], some 0⟩, ⟨[], some 1⟩],
    .pollRecvCqOnce [⟨[], some 0⟩]]

theorem receive_queue_faithful_mixed : ∃ s,
    run (step (fun _ => "flushed")) mixedTrace init = some s ∧ s.answers.length = 5 ∧
    s.arrived.length = 3 ∧ ∃ handed,
      s.answers.filter isCompletion = handed.map (recvAnswer (fun _ => "flushed")) ∧
      handed++s.ep.buffered++s.pending = s.arrived := by
  have hs : (run (step (fun _ => "flushed")) mixedTrace init).isSome := by decide
  exact ⟨_, run_get _ _ _ hs, rfl, rfl, (receive_queue_faithful _ mixedTrace _ (run_get _ _ _ hs)).1⟩

end KYM.ReceivePolling
