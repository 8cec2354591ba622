import KnowYourMemory.ReceiveQueue

/-!
# Polling at an endpoint

The send queue is polled for one completion at a time, into a record on the stack. The
receive queue is polled in batches into an array of the endpoint, and two cursors tell
which of the records were handed out.
-/

set_option autoImplicit false

namespace KYM.Polling
open KYM.RingBuffer

structure Completion extends ReceiveQueue.Wc where
  status : UInt32
  deriving DecidableEq, Repr

/-- The results of `ibv_poll_cq` for one record. A negative one leaves the record as it
was on the stack. -/
inductive SendPoll where
  | failed (stack : Completion)
  | empty
  | completion (wc : Completion)
  deriving DecidableEq, Repr

inductive RecvPoll where
  | failed
  | delivered (wcs : List Completion)
  deriving DecidableEq, Repr

structure Endpoint where
  maxRcvWc : ℕ
  currentRcvWc : ℕ
  polledRcvWc : ℕ
  recvWcs : List Completion
  deriving DecidableEq, Repr

def rcvWc : ℕ := 64

def blank : Completion := ⟨⟨0, 0, 0⟩, 0⟩

def newEndpoint : Endpoint := ⟨rcvWc, 0, 0, List.replicate rcvWc blank⟩

def sendNotFound : Status := ⟨.notFound, "nothing recieved in send cq"⟩
def recvNotFound : Status := ⟨.notFound, "nothing recieved in recv cq"⟩
def recvFailed : Status := ⟨.internal, "error polling recv cq\n"⟩

section Pollers

-- `str` is `ibv_wc_status_str`.
variable (str : UInt32 → String)

def sendError (wc : Completion) : Status :=
  ⟨.internal, "error "++toString wc.status.toNat++" polling send cq for wr "++
    toString wc.wrId.toNat++" \n"++str wc.status⟩

def recvError (wc : Completion) : Status :=
  ⟨.internal, "error "++toString wc.status.toNat++" polling recv cq\n"++str wc.status⟩

def sendAnswer (wc : Completion) : StatusOr Completion :=
  if wc.status ≠ 0 then .error (sendError str wc) else .ok wc

def recvAnswer (wc : Completion) : StatusOr Completion :=
  if wc.status ≠ 0 then .error (recvError str wc) else .ok wc

/-- A poller takes results from a list and leaves the others; it is still polling when
the list ends. -/
def pollSendCq : List SendPoll → Option (StatusOr Completion × List SendPoll)
  | [] => none
  | .empty::ps => pollSendCq ps
  | .failed wc::ps => some (sendAnswer str wc, ps)
  | .completion wc::ps => some (sendAnswer str wc, ps)

def pollSendCqOnce : SendPoll → StatusOr Completion
  | .failed wc => .error (sendError str wc)
  | .empty => .error sendNotFound
  | .completion wc => .ok wc

def Endpoint.refill (ep : Endpoint) (wcs : List Completion) : Endpoint :=
  { ep with recvWcs := wcs++ep.recvWcs.drop wcs.length, polledRcvWc := wcs.length, currentRcvWc := 0 }

def Endpoint.next (ep : Endpoint) : StatusOr Completion × Endpoint :=
  (recvAnswer str (ep.recvWcs.getD ep.currentRcvWc blank),
    { ep with currentRcvWc := ep.currentRcvWc+1 })

def Endpoint.pollRecvCq (ep : Endpoint) :
    List RecvPoll → Option (StatusOr Completion × Endpoint × List RecvPoll)
  | [] => if ep.currentRcvWc = ep.polledRcvWc then none else some ((ep.next str).1, (ep.next str).2, [])
  | p::ps =>
    if ep.currentRcvWc = ep.polledRcvWc then
      match p with
      | .failed => some (.error recvFailed, ep, ps)
      | .delivered wcs => (ep.refill wcs).pollRecvCq ps
    else some ((ep.next str).1, (ep.next str).2, p::ps)

def Endpoint.pollRecvCqOnce (ep : Endpoint) (ps : List RecvPoll) :
    Option (StatusOr Completion × Endpoint × List RecvPoll) :=
  if ep.currentRcvWc = ep.polledRcvWc then
    match ps with
    | [] => none
    | .failed::ps => some (.error recvFailed, ep, ps)
    | .delivered []::ps => some (.error recvNotFound, ep, ps)
    | .delivered (wc::wcs)::ps =>
      some (((ep.refill (wc::wcs)).next str).1, ((ep.refill (wc::wcs)).next str).2, ps)
  else some ((ep.next str).1, (ep.next str).2, ps)

end Pollers

def Endpoint.buffered (ep : Endpoint) : List Completion :=
  (ep.recvWcs.take ep.polledRcvWc).drop ep.currentRcvWc

structure Endpoint.Ready (ep : Endpoint) : Prop where
  cursor : ep.currentRcvWc ≤ ep.polledRcvWc
  polled : ep.polledRcvWc ≤ ep.maxRcvWc
  array : ep.recvWcs.length = ep.maxRcvWc

def delivered : List RecvPoll → List Completion
  | [] => []
  | .failed::ps => delivered ps
  | .delivered wcs::ps => wcs++delivered ps

def Bounded (max : ℕ) (ps : List RecvPoll) : Prop := ∀ wcs, .delivered wcs ∈ ps → wcs.length ≤ max

section Receive

variable {str : UInt32 → String} {ep ep' : Endpoint} {ps rest : List RecvPoll}
  {x : StatusOr Completion}

theorem newEndpoint_ready : newEndpoint.Ready where
  cursor := le_refl 0
  polled := Nat.zero_le _
  array := List.length_replicate

theorem buffered_eq_nil (h : ep.currentRcvWc = ep.polledRcvWc) : ep.buffered = [] := by
  rw [Endpoint.buffered, h, List.drop_eq_nil_of_le (by simp)]

theorem Bounded.tail {max : ℕ} {p : RecvPoll} (h : Bounded max (p::ps)) : Bounded max ps :=
  fun wcs hw => h wcs (List.mem_cons_of_mem p hw)

theorem refill_ready (h : ep.Ready) (wcs : List Completion) (hw : wcs.length ≤ ep.maxRcvWc) :
    (ep.refill wcs).Ready ∧ (ep.refill wcs).buffered = wcs := by
  refine ⟨⟨Nat.zero_le _, hw, ?_⟩, by simp [Endpoint.refill, Endpoint.buffered]⟩
  have := h.array
  simp only [Endpoint.refill, List.length_append, List.length_drop]
  omega

theorem next_ready (str : UInt32 → String) (h : ep.Ready) (hne : ep.currentRcvWc ≠ ep.polledRcvWc) :
    (ep.next str).2.Ready ∧
      ∃ wc, (ep.next str).1 = recvAnswer str wc ∧ ep.buffered = wc::(ep.next str).2.buffered := by
  have hc := h.cursor
  have hp := h.polled
  have ha := h.array
  have hlt : ep.currentRcvWc < (ep.recvWcs.take ep.polledRcvWc).length := by
    rw [List.length_take]
    omega
  refine ⟨⟨by simp only [Endpoint.next]; omega, hp, ha⟩, ep.recvWcs[ep.currentRcvWc], ?_, ?_⟩
  · rw [List.length_take] at hlt
    simp [Endpoint.next, List.getD_eq_getElem?_getD,
      show ep.currentRcvWc < ep.recvWcs.length by omega]
  · rw [Endpoint.buffered, List.drop_eq_getElem_cons hlt, List.getElem_take]
    rfl

theorem pollRecvCq_spec (h : ep.Ready) (hb : Bounded ep.maxRcvWc ps)
    (hs : ep.pollRecvCq str ps = some (x, ep', rest)) :
    ep'.Ready ∧ ep'.maxRcvWc = ep.maxRcvWc ∧ ∃ used, ps = used++rest ∧
      ((x = .error recvFailed ∧ ep.buffered++delivered used = [] ∧ ep'.buffered = []) ∨
        ∃ wc, x = recvAnswer str wc ∧ ep.buffered++delivered used = wc::ep'.buffered) := by
  induction ps generalizing ep with
  | nil =>
    unfold Endpoint.pollRecvCq at hs
    split at hs
    · cases hs
    · next hne =>
      simp only [Option.some.injEq, Prod.mk.injEq] at hs
      obtain ⟨rfl, rfl, rfl⟩ := hs
      obtain ⟨hr, wc, hx, hbuf⟩ := next_ready str h hne
      exact ⟨hr, rfl, [], rfl, Or.inr ⟨wc, hx, by rw [hbuf]; simp [delivered]⟩⟩
  | cons p ps ih =>
    unfold Endpoint.pollRecvCq at hs
    split at hs
    · next he =>
      cases p with
      | failed =>
        simp only [Option.some.injEq, Prod.mk.injEq] at hs
        obtain ⟨rfl, rfl, rfl⟩ := hs
        have hnil := buffered_eq_nil he
        exact ⟨h, rfl, [.failed], rfl, Or.inl ⟨rfl, by simp [delivered, hnil], hnil⟩⟩
      | delivered wcs =>
        obtain ⟨hr, hbuf⟩ := refill_ready h wcs (hb wcs (by simp))
        obtain ⟨hr', hm, used, rfl, hcases⟩ := ih hr hb.tail hs
        refine ⟨hr', hm, .delivered wcs::used, rfl, ?_⟩
        rw [hbuf] at hcases
        simpa only [delivered, buffered_eq_nil he, List.nil_append] using hcases
    · next hne =>
      simp only [Option.some.injEq, Prod.mk.injEq] at hs
      obtain ⟨rfl, rfl, rfl⟩ := hs
      obtain ⟨hr, wc, hx, hbuf⟩ := next_ready str h hne
      exact ⟨hr, rfl, [], rfl, Or.inr ⟨wc, hx, by rw [hbuf]; simp [delivered]⟩⟩

theorem pollRecvCqOnce_spec (h : ep.Ready) (hb : Bounded ep.maxRcvWc ps)
    (hs : ep.pollRecvCqOnce str ps = some (x, ep', rest)) :
    ep'.Ready ∧ ep'.maxRcvWc = ep.maxRcvWc ∧ ∃ used, ps = used++rest ∧
      (((x = .error recvFailed ∨ x = .error recvNotFound ∧ used = [.delivered []]) ∧ ep' = ep ∧
          ep.buffered = [] ∧ delivered used = []) ∨
        ∃ wc, x = recvAnswer str wc ∧ ep.buffered++delivered used = wc::ep'.buffered) := by
  unfold Endpoint.pollRecvCqOnce at hs
  split at hs
  · next he =>
    have hnil := buffered_eq_nil he
    match ps, hb, hs with
    | .failed::ps, _, hs =>
      simp only [Option.some.injEq, Prod.mk.injEq] at hs
      obtain ⟨rfl, rfl, rfl⟩ := hs
      exact ⟨h, rfl, [.failed], rfl, Or.inl ⟨Or.inl rfl, rfl, hnil, rfl⟩⟩
    | .delivered []::ps, _, hs =>
      simp only [Option.some.injEq, Prod.mk.injEq] at hs
      obtain ⟨rfl, rfl, rfl⟩ := hs
      exact ⟨h, rfl, [.delivered []], rfl, Or.inl ⟨Or.inr ⟨rfl, rfl⟩, rfl, hnil, rfl⟩⟩
    | .delivered (wc::wcs)::ps, hb, hs =>
      simp only [Option.some.injEq, Prod.mk.injEq] at hs
      obtain ⟨rfl, rfl, rfl⟩ := hs
      obtain ⟨hr, hbuf⟩ := refill_ready h (wc::wcs) (hb _ (by simp))
      obtain ⟨hr', v, hx, hv⟩ := next_ready str hr
        (show 0 ≠ (wc::wcs).length by simp)
      refine ⟨hr', rfl, [.delivered (wc::wcs)], rfl, Or.inr ⟨v, hx, ?_⟩⟩
      rw [hnil, ← hv, hbuf]
      simp [delivered]
  · next hne =>
    simp only [Option.some.injEq, Prod.mk.injEq] at hs
    obtain ⟨rfl, rfl, rfl⟩ := hs
    obtain ⟨hr, wc, hx, hbuf⟩ := next_ready str h hne
    exact ⟨hr, rfl, [], rfl, Or.inr ⟨wc, hx, by rw [hbuf]; simp [delivered]⟩⟩

theorem recvError_ne (str : UInt32 → String) (wc : Completion) : recvError str wc ≠ recvFailed := by
  intro h
  have htext := congrArg (fun s => s.message.toList) h
  simp only [recvError, recvFailed, String.toList_append, Nat.toString_eq_repr,
    Nat.toList_repr] at htext
  obtain ⟨c, cs, hcs⟩ := List.exists_cons_of_ne_nil (Nat.toDigits_ne_nil (n := wc.status.toNat) (b := 10))
  have hd : c.isDigit = true :=
    Nat.isDigit_of_mem_toDigits (by omega) (le_refl 10) (hcs ▸ List.mem_cons_self)
  rw [hcs] at htext
  have hp : c = 'p' := by
    simp at htext
    exact htext.1
  subst hp
  exact absurd hd (by decide)

end Receive

end KYM.Polling
