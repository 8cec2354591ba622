import KnowYourMemory.DirectRead
import KnowYourMemory.DirectWrite
import KnowYourMemory.ReceivePolling
import KnowYourMemory.WriteConnection

/-!
# Failed requests

A poller reports a failed request when it returns an error. Two calls poll the send queue
until a poll returns no completion before they post: `SendAsync` of direct read and `Free`
of direct write. Which results are reported is stated for every sequence of results.
-/

set_option autoImplicit false

namespace KYM.FailedRequests
open KYM.Run KYM.RingBuffer KYM.MagicMemory KYM.Polling
open KYM.DirectRead (ReadRequest)
open KYM.DirectWrite (DirectWriteConnection getLengthOff)
open KYM.WriteConnection (wrap)

/-- The region that `SendAsync` announces. -/
structure SendRegion where
  addr : UInt64
  length : UInt32
  lkey : UInt32
  deriving DecidableEq, Repr

section Calls

variable (str : UInt32 → String)

/-- Both loops: polls go on while they return completions. The error that ends the loop,
and the results that are left. -/
def drain : List SendPoll → Option (Status × List SendPoll)
  | [] => none
  | p::ps =>
    match pollSendCqOnce str p with
    | .ok _ => drain ps
    | .error e => some (e, ps)

def sendAsync (region : SendRegion) (ps : List SendPoll) (posting : StatusOr Unit) :
    Option (StatusOr (UInt64 × ReadRequest)) :=
  let req : ReadRequest := ⟨region.addr, region.lkey, region.length⟩
  match drain str ps with
  | none => none
  | some (e, _) =>
    if e.code ≠ .notFound then some (.error (wrap e "error polling send cq while sending"))
    else
      match posting with
      | .error e => some (.error e)
      | .ok () => some (.ok (req.addr-1, req))

def free (c : DirectWriteConnection) (buf : ℕ → UInt8) (region : KeyedRegion) (ps : List SendPoll)
    (posting : StatusOr Unit) :
    Option (StatusOr (ℕ × DirectWrite.DirectWriteReceiveBuffer) × DirectWriteConnection ×
      (ℕ → UInt8)) :=
  let cleared := put buf (getLengthOff c.bufSize) (putU32 0)
  match drain str ps with
  | none => none
  | some (e, _) =>
    if e.code ≠ .notFound then some (.error e, c, cleared)
    else
      match posting with
      | .error e => some (.error e, c, cleared)
      | .ok () => some (.ok (DirectWrite.free c region).1, (DirectWrite.free c region).2, cleared)

end Calls

def drained : List SendPoll → List Completion
  | .completion wc::ps => wc::drained ps
  | _ => []

def ending : List SendPoll → Option SendPoll
  | .completion _::ps => ending ps
  | ps => ps.head?

/-- Success means a completion of a request that succeeded, after empty polls. -/
def SendReports (str : UInt32 → String) (ps : List SendPoll) : Prop :=
  ∀ wc rest, pollSendCq str ps = some (.ok wc, rest) →
    wc.status = 0 ∧ ∃ n, ps = List.replicate n .empty++.completion wc::rest

def OnceReports (str : UInt32 → String) (p : SendPoll) : Prop :=
  ∀ wc, pollSendCqOnce str p = .ok wc → wc.status = 0 ∧ p = .completion wc

/-- The completions that every answer of a run of receive polls came from. -/
def RecvReports (s : ReceivePolling.State) : Prop :=
  ∃ handed, handed++s.queue = s.arrived ∧
    ∀ wc, .ok wc ∈ s.answers → wc.status = 0 ∧ wc ∈ handed

/-- A call that has taken a failed completion returns an error. -/
def DrainReports {α : Type} (ps : List SendPoll) (answer : Option (StatusOr α)) : Prop :=
  ∀ x, answer = some x → (∃ wc ∈ drained ps, wc.status ≠ 0) → ∃ e, x = .error e

/-- The loop ends with an empty poll and the request is posted. -/
def Posts (ps : List SendPoll) (posting : StatusOr Unit) : Prop :=
  ending ps = some .empty ∧ posting = .ok ()

variable {str : UInt32 → String} {ps rest : List SendPoll} {posting : StatusOr Unit}

theorem pollSendCq_inv {x : StatusOr Completion} (h : pollSendCq str ps = some (x, rest)) :
    ∃ n wc, x = sendAnswer str wc ∧ (ps = List.replicate n .empty++.failed wc::rest ∨
      ps = List.replicate n .empty++.completion wc::rest) := by
  induction ps with
  | nil => cases h
  | cons p ps ih =>
    cases p with
    | failed wc =>
      simp only [pollSendCq, Option.some.injEq, Prod.mk.injEq] at h
      obtain ⟨rfl, rfl⟩ := h
      exact ⟨0, wc, rfl, Or.inl rfl⟩
    | completion wc =>
      simp only [pollSendCq, Option.some.injEq, Prod.mk.injEq] at h
      obtain ⟨rfl, rfl⟩ := h
      exact ⟨0, wc, rfl, Or.inr rfl⟩
    | empty =>
      obtain ⟨n, wc, hx, hps⟩ := ih h
      refine ⟨n+1, wc, hx, ?_⟩
      rcases hps with rfl | rfl
      · exact Or.inl rfl
      · exact Or.inr rfl

theorem pollSendCq_failed (n : ℕ) (stack : Completion) (rest : List SendPoll) :
    pollSendCq str (List.replicate n .empty++.failed stack::rest) =
      some (sendAnswer str stack, rest) := by
  induction n with
  | zero => rfl
  | succ n ih => exact ih

theorem sendAnswer_ok {wc v : Completion} (h : sendAnswer str wc = .ok v) :
    wc = v ∧ v.status = 0 := by
  unfold sendAnswer at h
  split at h
  · cases h
  · next hz =>
    obtain rfl := Except.ok.inj h
    exact ⟨rfl, not_not.mp hz⟩

theorem empties_inj {n m : ℕ} {p q : SendPoll}
    (h : List.replicate n SendPoll.empty++p::rest = List.replicate m .empty++q::rest) : p = q := by
  obtain rfl : n = m := by
    have := congrArg List.length h
    simpa using this
  exact (List.cons.inj (List.append_cancel_left h)).1

theorem sendReports_iff (str : UInt32 → String) (ps : List SendPoll) : SendReports str ps ↔
    ∀ n stack rest, ps = List.replicate n .empty++.failed stack::rest → stack.status ≠ 0 := by
  constructor
  · rintro h n stack rest rfl hz
    obtain ⟨-, m, hm⟩ := h stack rest (by rw [pollSendCq_failed, sendAnswer, if_neg (not_not.mpr hz)])
    cases empties_inj hm
  · intro h wc rest hp
    obtain ⟨n, v, hx, hps⟩ := pollSendCq_inv hp
    obtain ⟨rfl, hz⟩ := sendAnswer_ok hx.symm
    rcases hps with hf | hc
    · exact absurd hz (h n v rest hf)
    · exact ⟨hz, n, hc⟩

theorem onceReports_iff (str : UInt32 → String) (p : SendPoll) :
    OnceReports str p ↔ ∀ wc, p = .completion wc → wc.status = 0 := by
  constructor
  · rintro h wc rfl
    exact (h wc rfl).1
  · intro h wc hp
    cases p with
    | failed _ => cases hp
    | empty => cases hp
    | completion v =>
      obtain rfl := Except.ok.inj hp
      exact ⟨h v rfl, rfl⟩

theorem recvReports (es : List ReceivePolling.Event) (s : ReceivePolling.State)
    (hr : run (ReceivePolling.step str) es ReceivePolling.init = some s) : RecvReports s := by
  obtain ⟨handed, hf, harr⟩ := (ReceivePolling.run_sound es hr).fifo
  refine ⟨handed, harr, fun wc hwc => ?_⟩
  have hmem : .ok wc ∈ s.answers.filter ReceivePolling.isCompletion :=
    List.mem_filter.mpr ⟨hwc, rfl⟩
  rw [hf] at hmem
  obtain ⟨v, hv, hx⟩ := List.mem_map.mp hmem
  unfold recvAnswer at hx
  split at hx
  · cases hx
  · next hz =>
    obtain rfl := Except.ok.inj hx
    exact ⟨not_not.mp hz, hv⟩

theorem drain_cases (str : UInt32 → String) (ps : List SendPoll) :
    (drain str ps = none ∧ ending ps = none) ∨
      (∃ rest, drain str ps = some (sendNotFound, rest) ∧ ending ps = some .empty) ∨
      ∃ stack rest, drain str ps = some (sendError str stack, rest) ∧
        ending ps = some (.failed stack) := by
  induction ps with
  | nil => exact Or.inl ⟨rfl, rfl⟩
  | cons p ps ih =>
    cases p with
    | failed wc => exact Or.inr (Or.inr ⟨wc, ps, rfl, rfl⟩)
    | empty => exact Or.inr (Or.inl ⟨ps, rfl, rfl⟩)
    | completion wc => exact ih

theorem sendAsync_ok (str : UInt32 → String) (region : SendRegion) (ps : List SendPoll)
    (posting : StatusOr Unit) :
    (∃ v, sendAsync str region ps posting = some (.ok v)) ↔ Posts ps posting := by
  unfold sendAsync Posts
  rcases drain_cases str ps with ⟨hd, he⟩ | ⟨rest, hd, he⟩ | ⟨stack, rest, hd, he⟩
  · simp [hd, he]
  · cases posting <;> simp [hd, he, sendNotFound]
  · simp [hd, he, sendError]

theorem free_ok (str : UInt32 → String) (c : DirectWriteConnection) (buf : ℕ → UInt8)
    (region : KeyedRegion) (ps : List SendPoll) (posting : StatusOr Unit) :
    (∃ v, (free str c buf region ps posting).map Prod.fst = some (.ok v)) ↔ Posts ps posting := by
  unfold free Posts
  rcases drain_cases str ps with ⟨hd, he⟩ | ⟨rest, hd, he⟩ | ⟨stack, rest, hd, he⟩
  · simp [hd, he]
  · cases posting <;> simp [hd, he, sendNotFound]
  · simp [hd, he, sendError]

/-- A call that returns no error exactly when it posts has reported the failures it took
exactly when there were none or it did not post. -/
theorem drainReports_iff {α : Type} {answer : Option (StatusOr α)}
    (h : (∃ v, answer = some (.ok v)) ↔ Posts ps posting) :
    DrainReports ps answer ↔ (∀ wc ∈ drained ps, wc.status = 0) ∨ ¬Posts ps posting := by
  constructor
  · intro hrep
    by_contra hneg
    obtain ⟨hfail, hpost⟩ := not_or.mp hneg
    obtain ⟨v, hv⟩ := h.mpr (not_not.mp hpost)
    push Not at hfail
    obtain ⟨e, he⟩ := hrep _ hv hfail
    cases he
  · rintro hcond x hx ⟨wc, hwc, hne⟩
    cases x with
    | error e => exact ⟨e, rfl⟩
    | ok v =>
      rcases hcond with hall | hpost
      · exact absurd (hall wc hwc) hne
      · exact absurd (h.mp ⟨v, hx⟩) hpost

/-- The pollers of the receive queue report every failure. `PollSendCq` does when the
record of a negative poll is not marked as a success, `PollSendCqOnce` when the completion
is one. A draining call does when it took no failed completion or does not post. -/
theorem failures_reported (str : UInt32 → String) :
    (∀ ps, SendReports str ps ↔
      ∀ n stack rest, ps = List.replicate n .empty++.failed stack::rest → stack.status ≠ 0) ∧
    (∀ p, OnceReports str p ↔ ∀ wc, p = .completion wc → wc.status = 0) ∧
    (∀ es s, run (ReceivePolling.step str) es ReceivePolling.init = some s → RecvReports s) ∧
    (∀ region ps posting, DrainReports ps (sendAsync str region ps posting) ↔
      (∀ wc ∈ drained ps, wc.status = 0) ∨ ¬Posts ps posting) ∧
    (∀ c buf region ps posting,
      DrainReports ps ((free str c buf region ps posting).map Prod.fst) ↔
        (∀ wc ∈ drained ps, wc.status = 0) ∨ ¬Posts ps posting) :=
  ⟨sendReports_iff str, onceReports_iff str, recvReports,
    fun region ps posting => drainReports_iff (sendAsync_ok str region ps posting),
    fun c buf region ps posting => drainReports_iff (free_ok str c buf region ps posting)⟩

theorem failures_reported_successful :
    DrainReports [.completion blank, .empty]
      (sendAsync (fun _ => "") ⟨4097, 8, 3⟩ [.completion blank, .empty] (.ok ())) ∧
    SendReports (fun _ => "") [.empty, .completion blank] ∧
    ∃ s, run (ReceivePolling.step (fun _ => "flushed")) ReceivePolling.mixedTrace
      ReceivePolling.init = some s ∧ RecvReports s := by
  have hs : (run (ReceivePolling.step (fun _ => "flushed")) ReceivePolling.mixedTrace
    ReceivePolling.init).isSome := by decide
  refine ⟨((failures_reported _).2.2.2.1 ⟨4097, 8, 3⟩ _ _).mpr (Or.inl ?_),
    ((failures_reported _).1 _).mpr ?_,
    _, run_get _ _ _ hs, (failures_reported _).2.2.1 _ _ (run_get _ _ _ hs)⟩
  · simp [drained, blank]
  · intro n stack rest h
    have hmem : SendPoll.failed stack ∈ [SendPoll.empty, .completion blank] := h ▸ by simp
    simp at hmem

def retryExceeded : Completion := ⟨⟨1, 7, 0⟩, 12⟩

theorem failures_swallowed :
    ¬OnceReports (fun _ => "") (.completion retryExceeded) ∧
    ¬DrainReports [.completion retryExceeded, .empty] (sendAsync (fun _ => "") ⟨4097, 8, 3⟩
      [.completion retryExceeded, .empty] (.ok ())) ∧
    ¬DrainReports [.completion retryExceeded, .empty] ((free (fun _ => "")
      (DirectWrite.newConnection 4 64) (fun _ => 0) ⟨⟨0, 4096, 8⟩, 3⟩
      [.completion retryExceeded, .empty] (.ok ())).map Prod.fst) ∧
    ¬SendReports (fun _ => "") [.failed blank] := by
  refine ⟨fun h => ?_, fun h => ?_, fun h => ?_, fun h => ?_⟩
  · exact absurd (h retryExceeded rfl).1 (by decide)
  · obtain ⟨e, he⟩ := h _ rfl ⟨retryExceeded, by simp [drained], by decide⟩
    cases he
  · obtain ⟨e, he⟩ := h _ rfl ⟨retryExceeded, by simp [drained], by decide⟩
    cases he
  · obtain ⟨-, n, hn⟩ := h blank [] rfl
    exact absurd (empties_inj (n := 0) hn) (by simp)

end KYM.FailedRequests
